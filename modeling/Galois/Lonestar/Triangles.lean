import Mathlib.Data.List.Basic
import Galois.BinarySearch

/-!
# Triangle counting (Lonestar/triangle-counting)

The graph is read as an `LC_CSR_Graph` whose edges are sorted by destination
(`sortAllEdgesByDst`); `adj` is the list of each node's destinations in that order. Each
algorithm sums, over the nodes or the edges, a count of its own:

* `lowerBoundBy` -- the file's `lowerBound(first, last, comp)`, the binary search of
  `BinarySearch` for the first edge where `comp` fails;
* `nodeIteratingAlgo` -- for each node `n`, each neighbour `B > n` and each neighbour `A < n`, a
  binary search for `B` among `A`'s edges;
* `edgeIteratingAlgo` -- for each edge `n < dst`, `countEqual` of the neighbours of `n` and of
  `dst` strictly between them;
* `orderedCountAlgo` -- for each node `n` and each neighbour `v ≤ n`, a merged scan of `v`'s
  neighbours `vv ≤ v` against `n`'s edges;
* `numTriangles` -- what each should report: the sets of three distinct pairwise adjacent nodes;
* `orderedCount_self_loop` -- a node with a self-loop is counted as a triangle by
  `orderedCountAlgo`.
-/

namespace Galois.Lonestar.Triangles

open BinarySearch

/-- `lowerBound(first, last, comp)` over a node's destinations: the first position where `comp`
fails, by halving the range. -/
def lowerBoundBy (l : List ℕ) (comp : ℕ → Bool) : ℕ :=
  lowerBoundLoop (fun i => match l[i]? with
    | some x => !comp x
    | none => true) l.length 0 l.length

/-! ## 1. `nodeIteratingAlgo` -/

/-- The triangles node `n` counts: its edges split as `[first, ea)` below `n` and `[bb, last)`
above it, and for every `B` above and `A` below, `A`'s edges searched for `B`. -/
def nodeIteratingNode (adj : List (List ℕ)) (n : ℕ) : ℕ :=
  let ns := adj.getD n []
  let ea := lowerBoundBy ns (· < n)
  let bb := lowerBoundBy ns fun x => !(n < x)
  ((ns.drop bb).map fun B => ((ns.take ea).filter fun A =>
    let vs := adj.getD A []
    vs[lowerBoundBy vs (· < B)]? = some B).length).sum

/-- `nodeIteratingAlgo`: the counts of all nodes, added up by the `GAccumulator`. -/
def nodeIteratingAlgo (adj : List (List ℕ)) : ℕ :=
  ((List.range adj.length).map (nodeIteratingNode adj)).sum

/-! ## 2. `edgeIteratingAlgo` -/

/-- `countEqual(aa, ea, bb, eb)`: the merged scan of two ranges of destinations, one step per
pass, counting the destinations both have. -/
def countEqual : ℕ → List ℕ → List ℕ → ℕ
  | 0, _, _ => 0
  | fuel + 1, a :: as, b :: bs =>
    if a < b then countEqual fuel as (b :: bs)
    else if b < a then countEqual fuel (a :: as) bs
    else countEqual fuel as bs + 1
  | _ + 1, _, _ => 0

/-- The triangles the work item `(src, dst)` counts: the destinations strictly between `src` and
`dst` that both have. -/
def edgeIteratingItem (adj : List (List ℕ)) (src dst : ℕ) : ℕ :=
  let as := adj.getD src []
  let bs := adj.getD dst []
  let aa := lowerBoundBy as fun x => !(src < x)
  let ea := lowerBoundBy as (· < dst)
  let bb := lowerBoundBy bs fun x => !(src < x)
  let eb := lowerBoundBy bs (· < dst)
  countEqual ((ea - aa) + (eb - bb)) ((as.take ea).drop aa) ((bs.take eb).drop bb)

/-- `edgeIteratingAlgo`: a work item for every edge `n -> dst` with `n < dst`, and their
counts added up. -/
def edgeIteratingAlgo (adj : List (List ℕ)) : ℕ :=
  ((List.range adj.length).map fun n =>
    (((adj.getD n []).filter (n < ·)).map (edgeIteratingItem adj n)).sum).sum

/-! ## 3. `orderedCountAlgo` -/

/-- `while (graph.getEdgeDst(it_n) < vv) it_n++` from position `i` of `n`'s edges; a read past
them is `none`. -/
def skipBelow (ns : List ℕ) (vv : ℕ) : ℕ → ℕ → Option ℕ
  | 0, _ => none
  | fuel + 1, i => match ns[i]? with
    | some x => if x < vv then skipBelow ns vv fuel (i + 1) else some i
    | none => none

/-- `orderedCountFunc(graph, n)`: for each neighbour `v` up to the first above `n`, and each of
`v`'s neighbours `vv` up to the first above `v`, `it_n` (from `n`'s first edge for each `v`) is
moved to the first of `n`'s edges not below `vv`, and a hit of `vv` is counted. -/
def orderedCountFunc (adj : List (List ℕ)) (n : ℕ) : Option ℕ :=
  let ns := adj.getD n []
  (ns.takeWhile (· ≤ n)).foldlM (fun count v =>
    (((adj.getD v []).takeWhile (· ≤ v)).foldlM (fun (st : ℕ × ℕ) vv => do
      let i ← skipBelow ns vv (ns.length + 1) st.1
      pure (i, if ns[i]? = some vv then st.2 + 1 else st.2)) (0, count)).map Prod.snd) 0

/-- `orderedCountAlgo`: the counts of all nodes, added up. -/
def orderedCountAlgo (adj : List (List ℕ)) : Option ℕ :=
  ((List.range adj.length).mapM (orderedCountFunc adj)).map List.sum

/-! ## 4. What is counted -/

/-- Whether `b` is among `a`'s destinations. -/
def adjacent (adj : List (List ℕ)) (a b : ℕ) : Bool := (adj.getD a []).contains b

/-- The triangles of the graph: triples `a < b < c` of pairwise adjacent nodes, one for each set
of three distinct pairwise adjacent nodes. -/
def numTriangles (adj : List (List ℕ)) : ℕ :=
  ((List.range adj.length).flatMap fun a => (List.range adj.length).flatMap fun b =>
    (List.range adj.length).map fun c => (a, b, c)).countP fun t =>
      t.1 < t.2.1 && t.2.1 < t.2.2 && adjacent adj t.1 t.2.1 && adjacent adj t.2.1 t.2.2 &&
        adjacent adj t.1 t.2.2

/-- **`orderedCountAlgo` counts a self-loop as a triangle.** On the symmetric graph of one node
with a self-loop (sorted, with no duplicate edge), `orderedCountFunc(0)` takes `v = 0` (not above
`0`), then `vv = 0` (not above `v`), and finds `0` among node `0`'s edges: it reports one
triangle where the graph has none; `nodeIteratingAlgo` and `edgeIteratingAlgo`, which only pair
neighbours strictly below and above a node, report none. -/
theorem orderedCount_self_loop :
    numTriangles [[0]] = 0 ∧ orderedCountAlgo [[0]] = some 1 ∧ nodeIteratingAlgo [[0]] = 0 ∧
      edgeIteratingAlgo [[0]] = 0 := by
  refine ⟨by decide, by decide, by decide, by decide⟩

end Galois.Lonestar.Triangles
