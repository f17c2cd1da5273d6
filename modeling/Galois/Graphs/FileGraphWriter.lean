import Galois.Graphs.FileGraph
import Galois.Placement

/-!
# `FileGraphWriter`, `makeSymmetric` and `permute`

`FileGraphWriter` builds a graph file in two passes over its edges: `phase1` and
`incrementDegree` count every node's edges, `phase2` turns the counts into every node's end,
`addNeighbor` puts each edge in the next free slot of its source and returns that slot, and
`finish` lays the arrays out with `fromArrays` and returns where the edge data goes. Up to
`UINT32_MAX` nodes it writes version 1, with `uint32_t` destinations and slot cursors.
`makeSymmetric` writes every edge of its input and, unless it is a self loop, its reverse;
`permute` writes every edge `u → v` as `p[u] → p[v]`. Both store each edge's data at the slot
`addNeighbor` returns and copy it to the pointer `finish` returns.

* `writeGraph` -- the writer's passes over the edges both functions write, in order;
* `written_spec` -- the arrays the passes leave make a graph in which every node's edges are
  those written from it, data and all, in the order added;
* `writeGraph_spec` -- below `2 ^ 32` nodes, with fewer than `2 ^ 32` edges from each node, the
  file written reads back that graph; `writeGraph_overflows` -- from `2 ^ 32` nodes on (version
  2), an odd edge count with edge data makes the copy write past the allocation, because
  `rawBlockSize` leaves out the padding that `fromArrays` puts before the data;
* **`makeSymmetric_permute_spec`** -- for a graph file of fewer than `2 ^ 32` nodes: between
  nodes `u ≠ v`, `makeSymmetric` writes the edges `u → v` and `v → u`, and a self loop once;
  `permute` writes the edges `u → v` as `p[u] → p[v]`; each with its data;
  **`makeSymmetric_permute_self_loop_overflow`** -- a version-2 file whose one edge is a self
  loop carrying data is neither made symmetric nor permuted.
-/

namespace Galois.Graphs

open Bytes Placement

/-! ## 1. The writer -/

/-- A `FileGraphWriter`: its arrays and the counts it was given. `starts` and `outs` stand for
`starts` and `outs` in version 1 and for `starts64` and `outs64` in version 2; a writer uses
only the pair its node count picks. -/
structure FileGraphWriter where
  outIdx : ℕ → ℕ
  starts : ℕ → ℕ
  outs : ℕ → ℕ
  sizeofEdgeData : ℕ
  numNodes : ℕ
  numEdges : ℕ

namespace FileGraphWriter

/-- Version 1 up to `std::numeric_limits<uint32_t>::max()` nodes, version 2 above. -/
def version (g : FileGraphWriter) : GraphVersion :=
  if g.numNodes ≤ 2 ^ 32 - 1 then .v1 else .v2

/-- `phase1()`: the counts, zeroed. -/
def phase1 (g : FileGraphWriter) : FileGraphWriter := { g with outIdx := fun _ => 0 }

/-- `incrementDegree(id)`: one more edge at `id`, in `uint64_t`. -/
def incrementDegree (g : FileGraphWriter) (id : ℕ) : FileGraphWriter :=
  { g with outIdx := Function.update g.outIdx id ((g.outIdx id + 1) % 2 ^ 64) }

/-- The loop of `phase2()`: `*ii += *prev` from the second count to the last, in `uint64_t`. -/
def partialSums (outIdx : ℕ → ℕ) (numNodes : ℕ) : ℕ → ℕ :=
  (List.range' 1 (numNodes - 1)).foldl
    (fun outIdx n => Function.update outIdx n ((outIdx n + outIdx (n - 1)) % 2 ^ 64)) outIdx

/-- `phase2()`: nothing for no node; else the counts become every node's end, and the slot
cursors and destinations are zeroed. -/
def phase2 (g : FileGraphWriter) : FileGraphWriter :=
  if g.numNodes = 0 then g
  else
    { g with
      outIdx := partialSums g.outIdx g.numNodes
      starts := fun _ => 0
      outs := fun _ => 0 }

/-- The bound of a version's slot cursors and destinations: `uint32_t` in version 1, `uint64_t`
in version 2. -/
def wordBound (numNodes : ℕ) : ℕ := if numNodes ≤ 2 ^ 32 - 1 then 2 ^ 32 else 2 ^ 64

/-- `addNeighbor(src, dst)`: the next slot of `src`, counted from the end of `src - 1`; the
cursor moves on and the slot takes `dst`, both `uint32_t` in version 1 and `uint64_t` in
version 2. -/
def addNeighbor (g : FileGraphWriter) (src dst : ℕ) : FileGraphWriter × ℕ :=
  let base := if src ≠ 0 then g.outIdx (src - 1) else 0
  let idx := base + g.starts src
  let w := wordBound g.numNodes
  ({ g with
      starts := Function.update g.starts src ((g.starts src + 1) % w)
      outs := Function.update g.outs idx (dst % w) }, idx)

/-- `finish()`: `fromArrays` on the node ends and the destinations, with no edge data, in the
version the node count picks. The result's edge data pointer is what `finish` returns. -/
def finish (g : FileGraphWriter) : Option FileGraph :=
  fromArrays ((List.range g.numNodes).map g.outIdx) g.numNodes
    ((List.range g.numEdges).map g.outs) g.numEdges none g.sizeofEdgeData 0 0 g.version

end FileGraphWriter

/-- `edgeData.set(g.addNeighbor(src, dst), data)` on the writer and the staged edge data. -/
def addEdge (s : FileGraphWriter × (ℕ → List UInt8)) (x : ℕ × ℕ × List UInt8) :
    FileGraphWriter × (ℕ → List UInt8) :=
  let r := s.1.addNeighbor x.1 x.2.1
  (r.1, Function.update s.2 r.2 x.2.2)

/-- `std::uninitialized_copy` of the staged edge data `data` to the pointer `finish` returned, for
an `EdgeTy` with a value (`sizeofEdgeTy ≠ 0`); a null pointer is `none`. -/
def copyEdgeData (sizeofEdgeTy : ℕ) (data : List UInt8) (out : FileGraph) : Option FileGraph :=
  if sizeofEdgeTy = 0 then some out
  else do
    let ptr ← out.edgeData
    let mem ← writeBytes out.mem ptr data
    some { out with mem := mem }

/-- The writer's passes over the edges `(src, dst, data)` that `makeSymmetric` and `permute`
write, in the order they add them: `phase1`, `incrementDegree(src)` for each, `phase2`,
`addNeighbor(src, dst)` for each with the data staged at the slot returned, `finish`, and the
copy of the `numEdges` staged data. -/
def writeGraph (numNodes numEdges sizeofEdgeTy : ℕ) (edges : List (ℕ × ℕ × List UInt8)) :
    Option FileGraph := do
  let g : FileGraphWriter :=
    ⟨fun _ => 0, fun _ => 0, fun _ => 0, sizeofEdgeTy, numNodes, numEdges⟩
  let g := (edges.foldl (fun g x => g.incrementDegree x.1) g.phase1).phase2
  -- `edgeData.create(numEdges)`, then every edge added
  let s := edges.foldl addEdge (g, fun _ => List.replicate sizeofEdgeTy 0)
  let out ← s.1.finish
  copyEdgeData sizeofEdgeTy ((List.range numEdges).flatMap s.2) out

/-! ## 2. `makeSymmetric` and `permute` -/

/-- `getEdgeData<edge_value_type>(jj)` for an `EdgeTy` of `sizeofEdgeTy` bytes; `0` stands for
`void`, for which nothing is read. -/
def edgeValue (sizeofEdgeTy : ℕ) (g : FileGraph) (jj : ℕ) : Option (List UInt8) :=
  if sizeofEdgeTy = 0 then some [] else g.getEdgeData sizeofEdgeTy jj

/-- Node `src`'s edges as the loop from `edge_begin(src)` to `edge_end(src)` reads them: each
destination and its data. -/
def readEdges (sizeofEdgeTy : ℕ) (g : FileGraph) (src : ℕ) : List (ℕ × Option (List UInt8)) :=
  (List.range' (g.edge_begin src) (g.edge_end src - g.edge_begin src)).map fun jj =>
    (g.getEdgeDst jj, edgeValue sizeofEdgeTy g jj)

/-- The edges both functions read, node by node from `begin()` to `end()`: source, destination
and data; `none` when a read of the data fails. -/
def inEdges (sizeofEdgeTy : ℕ) (in_graph : FileGraph) : Option (List (ℕ × ℕ × List UInt8)) :=
  ((List.range' in_graph.nodeOffset in_graph.numNodes).flatMap fun src =>
      (readEdges sizeofEdgeTy in_graph src).map fun y => (src, y)).mapM
    fun x => x.2.2.map fun d => (x.1, x.2.1, d)

/-- The edges `makeSymmetric` adds for an input edge `src → dst`: the edge and, unless it is a
self loop, its reverse, with the same data. -/
def symmetricEdges (x : ℕ × ℕ × List UInt8) : List (ℕ × ℕ × List UInt8) :=
  x :: if x.1 ≠ x.2.1 then [(x.2.1, x.1, x.2.2)] else []

/-- `makeSymmetric<EdgeTy>(in_graph, out)`: the first loop counts one edge for each input edge
and one more unless it is a self loop; the other two write them. -/
def makeSymmetric (sizeofEdgeTy : ℕ) (in_graph : FileGraph) : Option FileGraph := do
  let edges ← inEdges sizeofEdgeTy in_graph
  let sym := edges.flatMap symmetricEdges
  writeGraph in_graph.numNodes sym.length sizeofEdgeTy sym

/-- `permute<EdgeTy>(in_graph, p, out)`: every edge `src → dst` written as `p[src] → p[dst]`,
with `sizeEdges()` edges. -/
def permute (sizeofEdgeTy : ℕ) (in_graph : FileGraph) (p : ℕ → ℕ) : Option FileGraph := do
  let edges ← inEdges sizeofEdgeTy in_graph
  writeGraph in_graph.numNodes in_graph.numEdges sizeofEdgeTy
    (edges.map fun x => (p x.1, p x.2.1, x.2.2))

/-! ## 3. Counting and laying out -/

namespace FileGraphWriter

/-- **The degree loop counts**: every edge adds one at its source, in `uint64_t`. -/
theorem foldl_incrementDegree (l : List (ℕ × ℕ × List UInt8)) :
    ∀ g : FileGraphWriter, (∀ k, g.outIdx k < 2 ^ 64) →
      l.foldl (fun g x => g.incrementDegree x.1) g =
        { g with outIdx := fun k => (g.outIdx k + l.countP fun x => x.1 = k) % 2 ^ 64 } := by
  induction l with
  | nil =>
    intro g hg
    simp only [List.foldl_nil, List.countP_nil, Nat.add_zero, Nat.mod_eq_of_lt (hg _)]
  | cons x l ih =>
    intro g hg
    have hg' : ∀ k, (g.incrementDegree x.1).outIdx k < 2 ^ 64 := by
      intro k
      by_cases hk : k = x.1
      · subst hk
        simp only [incrementDegree, Function.update_self]
        exact Nat.mod_lt _ (Nat.two_pow_pos 64)
      · simp only [incrementDegree, Function.update_of_ne hk]
        exact hg k
    rw [List.foldl_cons, ih _ hg']
    simp only [incrementDegree]
    congr 1
    funext k
    rw [List.countP_cons]
    by_cases hk : k = x.1
    · subst hk
      rw [Function.update_self, Nat.mod_add_mod, if_pos (decide_eq_true rfl), Nat.add_assoc,
        Nat.add_comm 1]
    · rw [Function.update_of_ne hk, if_neg (by simpa using Ne.symm hk), Nat.add_zero]

/-- One pass of the loop of `phase2()` after `n` of them: the ends up to `n`, the counts after. -/
theorem partialSums_loop (c : ℕ → ℕ) {N : ℕ} (hN : sumBelow c N < 2 ^ 64) :
    ∀ n, n < N → ∀ k, (List.range' 1 n).foldl
        (fun outIdx n => Function.update outIdx n ((outIdx n + outIdx (n - 1)) % 2 ^ 64)) c k =
      if k ≤ n then sumBelow c (k + 1) else c k
  | 0, _, k => by
    by_cases hk : k = 0
    · subst hk
      rw [if_pos (Nat.le_refl 0), sumBelow_succ, sumBelow_zero, Nat.zero_add]
      rfl
    · rw [if_neg (by omega)]
      rfl
  | n + 1, hn, k => by
    have ih := partialSums_loop c hN n (by omega)
    rw [List.range'_concat, List.foldl_append, List.foldl_cons, List.foldl_nil, Nat.one_mul,
      Nat.add_comm 1 n, Nat.add_sub_cancel]
    by_cases hk : k = n + 1
    · -- the new end is the count plus the end before it, which stays below `2 ^ 64`
      subst hk
      have hle := sumBelow_mono c (show n + 1 + 1 ≤ N by omega)
      rw [Function.update_self, ih, ih, if_neg (by omega), if_pos (Nat.le_refl n),
        if_pos (Nat.le_refl _), Nat.add_comm, ← sumBelow_succ, Nat.mod_eq_of_lt (by omega)]
    · rw [Function.update_of_ne hk, ih]
      by_cases hkn : k ≤ n
      · rw [if_pos hkn, if_pos (by omega)]
      · rw [if_neg hkn, if_neg (by omega)]

theorem partialSums_eq (c : ℕ → ℕ) {N : ℕ} (hN : sumBelow c N < 2 ^ 64) {k : ℕ} (hk : k < N) :
    partialSums c N k = sumBelow c (k + 1) := by
  rw [partialSums, partialSums_loop c hN (N - 1) (by omega), if_pos (by omega)]

/-- After `phase1`, the degree loop and `phase2`, every node's end is the count of the edges from
it and the nodes before it, and the cursors and destinations are zero. -/
theorem phase2_counted {numNodes numEdges sizeofEdgeTy : ℕ} {edges : List (ℕ × ℕ × List UInt8)}
    (hM : edges.length < 2 ^ 64) :
    (edges.foldl (fun g x => g.incrementDegree x.1)
        (FileGraphWriter.mk (fun _ => 0) (fun _ => 0) (fun _ => 0) sizeofEdgeTy numNodes
          numEdges).phase1).phase2 =
      ⟨if numNodes = 0 then (fun k => edges.countP fun x => x.1 = k)
        else partialSums (fun k => edges.countP fun x => x.1 = k) numNodes,
        fun _ => 0, fun _ => 0, sizeofEdgeTy, numNodes, numEdges⟩ := by
  rw [foldl_incrementDegree _ _ fun _ => Nat.two_pow_pos 64]
  -- no count reaches `2 ^ 64`
  have hcounts : (fun k => (0 + edges.countP fun x => x.1 = k) % 2 ^ 64) =
      fun k => edges.countP fun x => x.1 = k :=
    funext fun k => by rw [Nat.zero_add, Nat.mod_eq_of_lt (Nat.lt_of_le_of_lt
      (List.countP_le_length) hM)]
  simp only [phase1, phase2, hcounts]
  split_ifs <;> rfl

end FileGraphWriter

/-! ## 4. Adding the edges -/

section AddLoop

open FileGraphWriter

variable (ends : ℕ → ℕ)

/-- Node `k`'s first slot: the end of node `k - 1`. -/
def firstSlot (k : ℕ) : ℕ := if k ≠ 0 then ends (k - 1) else 0

/-- The slot `addNeighbor` gives node `k`'s next edge. -/
def nextSlot (s : FileGraphWriter × (ℕ → List UInt8)) (k : ℕ) : ℕ := firstSlot ends k + s.1.starts k

/-- What slot `i` holds: its destination and its staged data. -/
def slotAt (s : FileGraphWriter × (ℕ → List UInt8)) (i : ℕ) : ℕ × List UInt8 := (s.1.outs i, s.2 i)

/-- What an edge leaves in its slot: its destination in the version's width, and its data. -/
def written (numNodes : ℕ) (x : ℕ × ℕ × List UInt8) : ℕ × List UInt8 :=
  (x.2.1 % wordBound numNodes, x.2.2)

variable {ends}

/-- **One `addNeighbor` with its `edgeData.set`** places the edge at its source's next slot, as
long as the cursor does not wrap. -/
theorem addEdge_places {numNodes : ℕ} {s : FileGraphWriter × (ℕ → List UInt8)}
    {x : ℕ × ℕ × List UInt8} (hends : s.1.outIdx = ends) (hN : s.1.numNodes = numNodes)
    (hroom : s.1.starts x.1 + 1 < wordBound numNodes) :
    Places Prod.fst (written numNodes) (nextSlot ends) (slotAt) s x (addEdge s x) := by
  obtain ⟨g, ed⟩ := s
  dsimp only at hends hN hroom
  subst hends hN
  refine ⟨?_, fun k hk => ?_, ?_, fun i hi => ?_⟩
  · simp only [nextSlot, addEdge, addNeighbor, Function.update_self, Nat.mod_eq_of_lt hroom]
    omega
  · simp only [nextSlot, addEdge, addNeighbor, Function.update_of_ne hk]
  · simp only [slotAt, nextSlot, firstSlot, addEdge, addNeighbor, Function.update_self, written]
  · simp only [slotAt, nextSlot, firstSlot, addEdge, addNeighbor] at hi ⊢
    rw [Function.update_of_ne hi, Function.update_of_ne hi]

/-- **The add loop**, from cursors at zero and every node's end at the count of the edges up to
it: it changes only cursors and destinations, and every node's slots from its first one hold the
edges from it, in the order added, as long as no node has more edges than a cursor counts. -/
theorem addLoop_placed {numNodes : ℕ} {edges : List (ℕ × ℕ × List UInt8)} {g : FileGraphWriter}
    (ed : ℕ → List UInt8) (hN : g.numNodes = numNodes) (hstarts : g.starts = fun _ => 0)
    (hkey : ∀ x ∈ edges, x.1 < numNodes)
    (hends : ∀ k, k < numNodes →
      g.outIdx k = sumBelow (fun k => edges.countP fun x => x.1 = k) (k + 1))
    (hdeg : ∀ k, (edges.countP fun x => x.1 = k) < wordBound numNodes) :
    (∃ starts outs, (edges.foldl addEdge (g, ed)).1 = { g with starts := starts, outs := outs }) ∧
      Placed Prod.fst (written numNodes) (firstSlot g.outIdx) (nextSlot g.outIdx) slotAt edges
        (edges.foldl addEdge (g, ed)) := by
  have hzero : ∀ k, numNodes ≤ k → (edges.countP fun x => x.1 = k) = 0 := fun k hk =>
    List.countP_eq_zero.mpr fun x hx => by
      have := hkey x hx
      simp only [decide_eq_true_eq]
      omega
  -- node `k`'s first slot follows the edges of the nodes before it
  have hfirst : ∀ k, k ≤ numNodes →
      firstSlot g.outIdx k = sumBelow (fun k => edges.countP fun x => x.1 = k) k := by
    intro k hk
    rcases Nat.eq_zero_or_pos k with rfl | hpos
    · rfl
    · rw [firstSlot, if_pos (Nat.pos_iff_ne_zero.mp hpos), hends (k - 1) (by omega),
        Nat.sub_add_cancel hpos]
  have hlayout : ∀ k k', k ≠ k' → ∀ i j, i < (edges.countP fun x => x.1 = k) →
      j < (edges.countP fun x => x.1 = k') →
      firstSlot g.outIdx k + i ≠ firstSlot g.outIdx k' + j := by
    intro k k' hkk' i j hi hj
    have hk : k < numNodes := Nat.lt_of_not_le fun h => by rw [hzero k h] at hi; omega
    have hk' : k' < numNodes := Nat.lt_of_not_le fun h => by rw [hzero k' h] at hj; omega
    rw [hfirst k (Nat.le_of_lt hk), hfirst k' (Nat.le_of_lt hk')]
    exact sumBelow_add_ne _ hkk' hi hj
  -- a step keeps the node ends and count, and its cursor is the count of the edges placed so far
  have hinv : ∀ (s : FileGraphWriter × (ℕ → List UInt8)) (x : ℕ × ℕ × List UInt8),
      (∃ starts outs, s.1 = { g with starts := starts, outs := outs }) →
      ∃ starts outs, (addEdge s x).1 = { g with starts := starts, outs := outs } := by
    rintro ⟨g', ed'⟩ x ⟨starts, outs, hg'⟩
    dsimp only at hg'
    subst hg'
    exact ⟨_, _, rfl⟩
  have hstep : ∀ P (s : FileGraphWriter × (ℕ → List UInt8)) x,
      (∃ starts outs, s.1 = { g with starts := starts, outs := outs }) →
      Placed Prod.fst (written numNodes) (firstSlot g.outIdx) (nextSlot g.outIdx) slotAt P s →
      (bucket Prod.fst (P ++ [x]) x.1).length ≤ edges.countP (fun y => y.1 = x.1) →
      Places Prod.fst (written numNodes) (nextSlot g.outIdx) slotAt s x (addEdge s x) := by
    rintro P s x ⟨starts, outs, hs⟩ hP hroom
    have hcur := hP.cursor_eq x.1
    rw [bucket_append_singleton, if_pos rfl, List.length_append, List.length_singleton] at hroom
    have hdx := hdeg x.1
    refine addEdge_places (by rw [hs]) (by rw [hs, hN]) ?_
    simp only [nextSlot] at hcur
    omega
  have hrun := @Placed.run _ _ _ Prod.fst (written numNodes) (firstSlot g.outIdx)
    (nextSlot g.outIdx) slotAt addEdge (fun k => edges.countP fun x => x.1 = k)
    (fun s => ∃ starts outs, s.1 = { g with starts := starts, outs := outs }) hlayout hinv hstep
    edges [] (g, ed) ⟨g.starts, g.outs, rfl⟩
    (placed_nil fun k => by simp [nextSlot, hstarts])
    (fun k => Nat.le_of_eq (by rw [List.nil_append, length_bucket_eq_countP]))
  rw [List.nil_append] at hrun
  exact hrun

end AddLoop

/-! ## 5. The graph written -/

section Written

open FileGraphWriter

theorem lt_wordBound {numNodes : ℕ} (hN : numNodes < 2 ^ 64) : numNodes < wordBound numNodes := by
  unfold wordBound
  split_ifs <;> omega

/-- Below the length, an array of `f` over the indices reads `f`. -/
theorem getD_map_range_of_lt (f : ℕ → ℕ) {n q : ℕ} (hq : q < n) :
    ((List.range n).map f).getD q 0 = f q := by
  rw [List.getD_eq_getElem?_getD, List.getElem?_map, List.getElem?_range hq, Option.map_some,
    Option.getD_some]

/-- **The writer's passes write a graph**: it has `numNodes` nodes, and node `u`'s edge range
holds the destinations and data of the edges written from `u`, in the order added. What they do
is `fromArrays` on that graph with no edge data, and the copy of its edge data. -/
theorem writeGraph_written {numNodes numEdges sizeofEdgeTy : ℕ}
    {edges : List (ℕ × ℕ × List UInt8)} (hN : numNodes < 2 ^ 64) (hM : numEdges = edges.length)
    (hM64 : edges.length < 2 ^ 64) (hsize : sizeofEdgeTy < 2 ^ 64)
    (hkey : ∀ x ∈ edges, x.1 < numNodes ∧ x.2.1 < numNodes)
    (hdata : ∀ x ∈ edges, x.2.2.length = sizeofEdgeTy)
    (hdeg : ∀ k, (edges.countP fun x => x.1 = k) < wordBound numNodes) :
    ∃ G : GrGraph, G.numNodes = numNodes ∧ G.numEdges = numEdges ∧ G.sizeofEdge = sizeofEdgeTy ∧
      (G.version = if numNodes ≤ 2 ^ 32 - 1 then .v1 else .v2) ∧
      writeGraph numNodes numEdges sizeofEdgeTy edges =
        (fromArrays G.outIdx G.numNodes G.outs G.numEdges none G.sizeofEdge 0 0 G.version).bind
          (copyEdgeData sizeofEdgeTy G.edgeData) ∧
      ∀ u, u < numNodes →
        (List.range' (G.edgeBegin u) (G.edgeEnd u - G.edgeBegin u)).map
            (fun e => (G.outs.getD e 0, G.edgeDataAt e)) =
          (bucket Prod.fst edges u).map fun x => (x.2.1, x.2.2) := by
  subst hM
  have htotal : sumBelow (fun k => edges.countP fun x => x.1 = k) numNodes = edges.length :=
    sumBelow_countP fun x hx => (hkey x hx).1
  -- after `phase2`, node `k` ends after the edges of the nodes up to it
  have hg1 := @phase2_counted numNodes edges.length sizeofEdgeTy edges hM64
  generalize hends_def : (if numNodes = 0 then (fun k => edges.countP fun x => x.1 = k)
    else partialSums (fun k => edges.countP fun x => x.1 = k) numNodes) = ends at hg1
  have hends : ∀ k, k < numNodes →
      ends k = sumBelow (fun k => edges.countP fun x => x.1 = k) (k + 1) := by
    intro k hk
    rw [← hends_def, if_neg (by omega), partialSums_eq _ (by rw [htotal]; exact hM64) hk]
  -- the add loop places every edge
  obtain ⟨⟨starts, outs, hfin⟩, hplaced⟩ := addLoop_placed
    (g := ⟨ends, fun _ => 0, fun _ => 0, sizeofEdgeTy, numNodes, edges.length⟩)
    (fun _ => List.replicate sizeofEdgeTy 0) rfl rfl (fun x hx => (hkey x hx).1) hends hdeg
  set sF := edges.foldl addEdge
    (⟨ends, fun _ => 0, fun _ => 0, sizeofEdgeTy, numNodes, edges.length⟩,
      fun _ => List.replicate sizeofEdgeTy 0) with hsF
  have hfirst : ∀ k, k < numNodes →
      firstSlot ends k = sumBelow (fun k => edges.countP fun x => x.1 = k) k := by
    intro k hk
    rcases Nat.eq_zero_or_pos k with rfl | hpos
    · rfl
    · rw [firstSlot, if_pos (Nat.pos_iff_ne_zero.mp hpos), hends (k - 1) (by omega),
        Nat.sub_add_cancel hpos]
  -- every slot holds an edge written: its destination, in the width, and its data
  have hslot : ∀ i, i < edges.length → ∃ x ∈ edges, outs i = x.2.1 ∧ sF.2 i = x.2.2 := by
    intro i hi
    obtain ⟨x, hx, hxi⟩ := hplaced.exists_mem hfirst (fun k _ => length_bucket_eq_countP edges k)
      (htotal ▸ hi)
    have hout : sF.1.outs i = outs i := by rw [hfin]
    simp only [slotAt, written, Prod.mk.injEq, hout] at hxi
    refine ⟨x, hx, ?_, hxi.2⟩
    rw [hxi.1, Nat.mod_eq_of_lt (Nat.lt_trans (hkey x hx).2 (lt_wordBound hN))]
  have hchunk : ∀ i, i < edges.length → (sF.2 i).length = sizeofEdgeTy := fun i hi => by
    obtain ⟨x, hx, -, hd⟩ := hslot i hi
    rw [hd, hdata x hx]
  -- the graph the arrays make
  have hmono : ((List.range numNodes).map ends).Pairwise (· ≤ ·) := by
    refine List.pairwise_map.mpr (List.pairwise_lt_range.imp_of_mem fun ha hb hab => ?_)
    rw [hends _ (List.mem_range.mp ha), hends _ (List.mem_range.mp hb)]
    exact sumBelow_mono _ (by omega)
  have hlast : ((List.range numNodes).map ends).getLastD 0 =
      ((List.range edges.length).map outs).length := by
    rw [List.length_map, List.length_range, List.getLastD_eq_getLast?, List.getLast?_map,
      List.getLast?_range]
    split_ifs with h0
    · -- no node: no edge
      rw [← htotal, h0]
      rfl
    · rw [Option.map_some, Option.getD_some, hends _ (by omega),
        Nat.sub_add_cancel (Nat.pos_of_ne_zero h0), htotal]
  have hdst : ∀ d ∈ (List.range edges.length).map outs, d < numNodes := by
    intro d hd
    obtain ⟨i, hi, rfl⟩ := List.mem_map.mp hd
    obtain ⟨x, hx, hxi, -⟩ := hslot i (List.mem_range.mp hi)
    rw [hxi]
    exact (hkey x hx).2
  have hdatalen : ((List.range edges.length).flatMap sF.2).length =
      sizeofEdgeTy * ((List.range edges.length).map outs).length := by
    rw [List.length_flatMap, List.map_congr_left fun i hi => hchunk i (List.mem_range.mp hi),
      List.map_const', List.length_range, List.sum_replicate_nat, List.length_map,
      List.length_range, Nat.mul_comm]
  have hfits : ∀ d ∈ (List.range edges.length).map outs,
      d < 256 ^ (if numNodes ≤ 2 ^ 32 - 1 then GraphVersion.v1 else .v2).dstWidth := by
    intro d hd
    have := hdst d hd
    split_ifs with hv
    · show d < 256 ^ 4
      omega
    · show d < 256 ^ 8
      omega
  let G : GrGraph := ⟨if numNodes ≤ 2 ^ 32 - 1 then .v1 else .v2, (List.range numNodes).map ends,
    (List.range edges.length).map outs, sizeofEdgeTy, (List.range edges.length).flatMap sF.2,
    hmono, hlast, by simpa using hdst, hdatalen, by simpa using hN, by simpa using hM64, hsize,
    hfits⟩
  have hGN : G.numNodes = numNodes := by simp [G, GrGraph.numNodes]
  have hGM : G.numEdges = edges.length := by simp [G, GrGraph.numEdges]
  refine ⟨G, hGN, hGM, rfl, rfl, ?_, fun u hu => ?_⟩
  · -- `finish` lays out the arrays of `G`
    have hw : writeGraph numNodes edges.length sizeofEdgeTy edges =
        sF.1.finish.bind (copyEdgeData sizeofEdgeTy ((List.range edges.length).flatMap sF.2)) := by
      simp only [writeGraph, hg1, hsF]
      rfl
    rw [hw, hfin, hGN, hGM]
    rfl
  · -- node `u`'s range is its block of slots
    have hbegin : G.edgeBegin u = firstSlot ends u := by
      rcases Nat.eq_zero_or_pos u with rfl | hpos
      · rfl
      · rw [GrGraph.edgeBegin, if_neg (Nat.pos_iff_ne_zero.mp hpos), firstSlot,
          if_pos (Nat.pos_iff_ne_zero.mp hpos)]
        exact getD_map_range_of_lt ends (by omega)
    have hend : G.edgeEnd u = ends u := getD_map_range_of_lt ends hu
    have hlen : G.edgeEnd u - G.edgeBegin u = (bucket Prod.fst edges u).length := by
      rw [hend, hbegin, hfirst u hu, hends u hu, sumBelow_succ, length_bucket_eq_countP]
      omega
    have hin : ∀ e ∈ List.range' (G.edgeBegin u) (G.edgeEnd u - G.edgeBegin u),
        e < edges.length := by
      intro e he
      have hle : G.edgeEnd u ≤ G.numEdges := by
        rw [GrGraph.edgeEnd_eq_edgeBegin_succ]
        exact G.edgeBegin_le_numEdges _
      rw [List.mem_range'_1] at he
      omega
    rw [List.map_congr_left fun e he => show (G.outs.getD e 0, G.edgeDataAt e) = slotAt sF e by
        rw [slotAt, GrGraph.edgeDataAt, hfin]
        exact Prod.ext (getD_map_range_of_lt outs (hin e he))
          (readBytes_flatMap_range hchunk (hin e he)),
      hlen, hbegin, hplaced.slots_eq u]
    refine List.map_congr_left fun x hx => ?_
    rw [written, Nat.mod_eq_of_lt (Nat.lt_trans (hkey x (mem_of_mem_bucket hx)).2
      (lt_wordBound hN))]

end Written

/-! ## 6. The file written -/

namespace GrGraph

variable (G : GrGraph)

/-- Node `u`'s edges in `G`: each destination, with the data an `EdgeTy` of `sizeofEdgeTy`
bytes reads (nothing for `void`). -/
def adjacent (sizeofEdgeTy u : ℕ) : List (ℕ × List UInt8) :=
  (List.range' (G.edgeBegin u) (G.edgeEnd u - G.edgeBegin u)).map fun e =>
    (G.outs.getD e 0, if sizeofEdgeTy = 0 then [] else G.edgeDataAt e)

/-- `G`'s edges, node by node: source, destination and data. -/
def edgeList (sizeofEdgeTy : ℕ) : List (ℕ × ℕ × List UInt8) :=
  (List.range G.numNodes).flatMap fun u => (G.adjacent sizeofEdgeTy u).map fun y => (u, y)

/-- An edge's data, read with the file's own size, needs no case for `void`. -/
theorem adjacent_sizeofEdge (u : ℕ) :
    G.adjacent G.sizeofEdge u = (List.range' (G.edgeBegin u) (G.edgeEnd u - G.edgeBegin u)).map
      fun e => (G.outs.getD e 0, G.edgeDataAt e) := by
  refine List.map_congr_left fun e _ => ?_
  split_ifs with h0
  · rw [edgeDataAt, h0, readBytes, List.take_zero]
  · rfl

/-- An edge in node `u`'s range is an edge of the graph. -/
theorem lt_numEdges_of_mem {u e : ℕ}
    (he : e ∈ List.range' (G.edgeBegin u) (G.edgeEnd u - G.edgeBegin u)) : e < G.numEdges := by
  have hle : G.edgeEnd u ≤ G.numEdges := by
    rw [edgeEnd_eq_edgeBegin_succ]
    exact G.edgeBegin_le_numEdges _
  rw [List.mem_range'_1] at he
  omega

/-- **Reading node `u`'s edges from the file of `G`**, for `void` or for an `EdgeTy` of the file's
edge size with the data pointer set. -/
theorem readEdges_fileGraph {sizeofEdgeTy lenlimit u : ℕ}
    (hread : sizeofEdgeTy = 0 ∨
      sizeofEdgeTy = G.sizeofEdge ∧ (lenlimit = 0 ∨ G.numEdges + G.edgeDataOffset < lenlimit))
    (hu : u < G.numNodes) :
    readEdges sizeofEdgeTy (G.fileGraph 0 0 lenlimit) u =
      (G.adjacent sizeofEdgeTy u).map fun y => (y.1, some y.2) := by
  rw [readEdges, adjacent, G.edge_begin_fileGraph lenlimit (Nat.le_of_lt hu),
    G.edge_end_fileGraph lenlimit hu, List.map_map]
  refine List.map_congr_left fun e he => ?_
  have he' := G.lt_numEdges_of_mem he
  have hdst : G.outs.getD e 0 = G.outs[e] := by
    rw [List.getD_eq_getElem?_getD, List.getElem?_eq_getElem he', Option.getD_some]
  simp only [Function.comp_apply, hdst, G.getEdgeDst_fileGraph 0 0 lenlimit he', edgeValue]
  rcases hread with h0 | ⟨rfl, hlim⟩
  · simp [h0]
  · split_ifs with h0
    · rfl
    · rw [getEdgeData_fileGraph, if_pos hlim]

/-- **`finish` and the copy of the data write the file of `G`**, for version 1 and for an even
edge count. -/
theorem finish_copy_eq (h : G.version = .v1 ∨ G.numEdges % 2 = 0) :
    (fromArrays G.outIdx G.numNodes G.outs G.numEdges none G.sizeofEdge 0 0 G.version).bind
      (copyEdgeData G.sizeofEdge G.edgeData) = some (G.fileGraph 0 0 0) := by
  rw [G.fromArrays_none_eq_padded h, Option.bind_some, copyEdgeData]
  split_ifs with h0
  · -- no edge data: the buffer is the arrays and the padding
    have hnil : G.edgeData = [] := by
      rw [← List.length_eq_zero_iff, G.edgeData_length, h0, Nat.zero_mul]
    have himage : G.arrays ++ G.padding ++ List.replicate G.edgeData.length 0 = G.image := by
      rw [hnil, List.length_nil, List.replicate_zero, image, hnil]
      rfl
    rw [himage]
    rfl
  · show (G.fileGraph 0 0 0).edgeData.bind _ = _
    rw [fileGraph, if_pos (Or.inl rfl), Option.bind_some]
    show (writeBytes (G.arrays ++ G.padding ++ List.replicate G.edgeData.length 0)
      G.edgeDataOffset G.edgeData).bind _ = _
    rw [writeBytes_edgeData, Option.bind_some]

end GrGraph

/-- **Below `2 ^ 32` nodes the writer writes a graph file that reads back what was written**, as
long as no node has `2 ^ 32` edges or more: node `u`'s edges are those written from `u`, with
their data, in the order added. -/
theorem writeGraph_spec {numNodes numEdges sizeofEdgeTy : ℕ} {edges : List (ℕ × ℕ × List UInt8)}
    (hN : numNodes < 2 ^ 32) (hM : numEdges = edges.length) (hsize : sizeofEdgeTy < 2 ^ 64)
    (hkey : ∀ x ∈ edges, x.1 < numNodes ∧ x.2.1 < numNodes)
    (hdata : ∀ x ∈ edges, x.2.2.length = sizeofEdgeTy)
    (hdeg : ∀ k, (edges.countP fun x => x.1 = k) < 2 ^ 32) :
    ∃ G : GrGraph, writeGraph numNodes numEdges sizeofEdgeTy edges = some (G.fileGraph 0 0 0) ∧
      G.numNodes = numNodes ∧ G.sizeofEdge = sizeofEdgeTy ∧
      ∀ u, u < numNodes → readEdges sizeofEdgeTy (G.fileGraph 0 0 0) u =
        (bucket Prod.fst edges u).map fun x => (x.2.1, some x.2.2) := by
  have hv : numNodes ≤ 2 ^ 32 - 1 := by omega
  have hbound : FileGraphWriter.wordBound numNodes = 2 ^ 32 := if_pos hv
  -- fewer than `2 ^ 32` nodes of fewer than `2 ^ 32` edges each
  have hM64 : edges.length < 2 ^ 64 := by
    have htotal : sumBelow (fun k => edges.countP fun x => x.1 = k) numNodes = edges.length :=
      sumBelow_countP fun x hx => (hkey x hx).1
    have hle := sumBelow_le_mul (fun k => edges.countP fun x => x.1 = k) (b := 2 ^ 32 - 1)
      (n := numNodes) fun k _ => Nat.le_sub_one_of_lt (hdeg k)
    have hmul : numNodes * (2 ^ 32 - 1) < 2 ^ 64 :=
      calc numNodes * (2 ^ 32 - 1) ≤ (2 ^ 32 - 1) * (2 ^ 32 - 1) := Nat.mul_le_mul_right _ hv
        _ < 2 ^ 64 := by decide
    omega
  obtain ⟨G, hGN, -, hGs, hGv, hw, hedges⟩ := writeGraph_written (by omega) hM hM64 hsize hkey hdata
    fun k => hbound ▸ hdeg k
  rw [if_pos hv] at hGv
  refine ⟨G, ?_, hGN, hGs, fun u hu => ?_⟩
  · rw [hw, ← hGs, G.finish_copy_eq (Or.inl hGv)]
  · rw [G.readEdges_fileGraph (Or.inr ⟨hGs.symm, Or.inl rfl⟩) (hGN ▸ hu), ← hGs,
      G.adjacent_sizeofEdge, hedges u hu, List.map_map]
    rfl

namespace GrGraph

variable (G : GrGraph) {sizeofEdgeTy : ℕ}

/-- **`inEdges` reads the file of `G` whole**: every edge, node by node, with its data. -/
theorem inEdges_fileGraph {lenlimit : ℕ}
    (hread : sizeofEdgeTy = 0 ∨
      sizeofEdgeTy = G.sizeofEdge ∧ (lenlimit = 0 ∨ G.numEdges + G.edgeDataOffset < lenlimit)) :
    inEdges sizeofEdgeTy (G.fileGraph 0 0 lenlimit) = some (G.edgeList sizeofEdgeTy) := by
  have hlist : ((List.range' 0 G.numNodes).flatMap fun src =>
      (readEdges sizeofEdgeTy (G.fileGraph 0 0 lenlimit) src).map fun y => (src, y)) =
        (G.edgeList sizeofEdgeTy).map fun x => (x.1, x.2.1, some x.2.2) := by
    rw [← List.range_eq_range', edgeList, List.map_flatMap]
    refine List.flatMap_congr fun u hu => ?_
    rw [G.readEdges_fileGraph hread (List.mem_range.mp hu), List.map_map, List.map_map]
    rfl
  show List.mapM _ ((List.range' 0 G.numNodes).flatMap _) = _
  rw [hlist, List.mapM_map]
  exact (List.mapM_pure (f := id)).trans (congrArg some (List.map_id _))

/-- Every edge read joins two nodes and carries `sizeofEdgeTy` bytes, for `void` or for the
file's own edge size. -/
theorem mem_edgeList (hsize : sizeofEdgeTy = 0 ∨ sizeofEdgeTy = G.sizeofEdge)
    {x : ℕ × ℕ × List UInt8} (hx : x ∈ G.edgeList sizeofEdgeTy) :
    x.1 < G.numNodes ∧ x.2.1 < G.numNodes ∧ x.2.2.length = sizeofEdgeTy := by
  simp only [edgeList, adjacent, List.mem_flatMap, List.mem_range, List.mem_map] at hx
  obtain ⟨u, hu, _, ⟨e, he, rfl⟩, rfl⟩ := hx
  have he' := G.lt_numEdges_of_mem he
  refine ⟨hu, ?_, ?_⟩
  · rw [List.getD_eq_getElem?_getD, List.getElem?_eq_getElem he', Option.getD_some]
    exact G.dst_lt _ (List.getElem_mem _)
  · rcases hsize with h0 | rfl
    · simp [h0]
    · split_ifs with h0
      · exact h0.symm
      · -- edge `e`'s data lies inside the data of the `numEdges` edges
        have hroom : G.sizeofEdge * (e + 1) ≤ G.sizeofEdge * G.numEdges :=
          Nat.mul_le_mul_left _ he'
        rw [Nat.mul_succ] at hroom
        rw [edgeDataAt, length_readBytes, G.edgeData_length, length_outs]
        omega

/-- The edges read from node `u`. -/
theorem filter_edgeList (u : ℕ) (hu : u < G.numNodes) :
    (G.edgeList sizeofEdgeTy).filter (fun x => x.1 = u) =
      (G.adjacent sizeofEdgeTy u).map fun y => (u, y) := by
  -- over the nodes below `n`, node `u`'s edges if it is one of them
  have hrange : ∀ n, ((List.range n).flatMap fun w =>
      (G.adjacent sizeofEdgeTy w).map fun y => (w, y)).filter (fun x => x.1 = u) =
        if u < n then (G.adjacent sizeofEdgeTy u).map fun y => (u, y) else [] := by
    intro n
    induction n with
    | zero => rfl
    | succ n ih =>
      rw [List.range_succ, List.flatMap_append, List.filter_append, ih, List.flatMap_singleton]
      by_cases hun : u = n
      · subst hun
        rw [if_neg (Nat.lt_irrefl u), if_pos (Nat.lt_succ_self u), List.nil_append,
          List.filter_eq_self.mpr (fun x hx => by obtain ⟨y, -, rfl⟩ := List.mem_map.mp hx; simp)]
      · rw [List.filter_eq_nil_iff.mpr (fun x hx => by
          obtain ⟨y, -, rfl⟩ := List.mem_map.mp hx
          simpa using Ne.symm hun), List.append_nil]
        by_cases hlt : u < n
        · rw [if_pos hlt, if_pos (Nat.lt_succ_of_lt hlt)]
        · rw [if_neg hlt, if_neg (by omega)]
  rw [edgeList, hrange, if_pos hu]

/-- The edges read are the graph's edges. -/
theorem length_edgeList : (G.edgeList sizeofEdgeTy).length = G.numEdges := by
  -- the edges of the nodes below `n` end where node `n` begins
  have hrange : ∀ n, n ≤ G.numNodes → ((List.range n).flatMap fun w =>
      (G.adjacent sizeofEdgeTy w).map fun y => (w, y)).length = G.edgeBegin n := by
    intro n
    induction n with
    | zero => intro _; rfl
    | succ n ih =>
      intro hn
      have hle : G.edgeBegin n ≤ G.edgeBegin (n + 1) := G.edgeBegin_mono (Nat.le_succ n) hn
      rw [List.range_succ, List.flatMap_append, List.length_append, ih (by omega),
        List.flatMap_singleton, List.length_map, adjacent, List.length_map, List.length_range',
        edgeEnd_eq_edgeBegin_succ]
      omega
  rw [edgeList, hrange _ (Nat.le_refl _), edgeBegin_numNodes]

/-- Every edge `makeSymmetric` writes joins two nodes and carries `sizeofEdgeTy` bytes. -/
theorem mem_symmetric (hsize : sizeofEdgeTy = 0 ∨ sizeofEdgeTy = G.sizeofEdge)
    {x : ℕ × ℕ × List UInt8} (hx : x ∈ (G.edgeList sizeofEdgeTy).flatMap symmetricEdges) :
    x.1 < G.numNodes ∧ x.2.1 < G.numNodes ∧ x.2.2.length = sizeofEdgeTy := by
  obtain ⟨y, hy, hx⟩ := List.mem_flatMap.mp hx
  obtain ⟨h₁, h₂, h₃⟩ := G.mem_edgeList hsize hy
  rw [symmetricEdges, List.mem_cons] at hx
  rcases hx with rfl | hx
  · exact ⟨h₁, h₂, h₃⟩
  · -- the reverse of `y`
    split_ifs at hx
    · rw [List.mem_singleton] at hx
      subst hx
      exact ⟨h₂, h₁, h₃⟩
    · exact absurd hx List.not_mem_nil

/-- Every edge `permute` writes joins two nodes, for `p` into the nodes, and carries
`sizeofEdgeTy` bytes. -/
theorem mem_permuted (hsize : sizeofEdgeTy = 0 ∨ sizeofEdgeTy = G.sizeofEdge) {p : ℕ → ℕ}
    (hp : ∀ u, u < G.numNodes → p u < G.numNodes) {x : ℕ × ℕ × List UInt8}
    (hx : x ∈ (G.edgeList sizeofEdgeTy).map fun x => (p x.1, p x.2.1, x.2.2)) :
    x.1 < G.numNodes ∧ x.2.1 < G.numNodes ∧ x.2.2.length = sizeofEdgeTy := by
  obtain ⟨y, hy, rfl⟩ := List.mem_map.mp hx
  obtain ⟨h₁, h₂, h₃⟩ := G.mem_edgeList hsize hy
  exact ⟨hp _ h₁, hp _ h₂, h₃⟩

/-- The edges read from `u` to `v`, with their data. -/
theorem between_edgeList {u : ℕ} (hu : u < G.numNodes) (v : ℕ) :
    ((((G.adjacent sizeofEdgeTy u).map fun y => (y.1, some y.2)).filter fun y => y.1 = v).map
        Prod.snd) =
      ((G.edgeList sizeofEdgeTy).filter fun x => x.1 = u ∧ x.2.1 = v).map fun x => some x.2.2 := by
  have hsplit : ((G.edgeList sizeofEdgeTy).filter fun x => x.1 = u ∧ x.2.1 = v) =
      (((G.edgeList sizeofEdgeTy).filter fun x => x.1 = u).filter fun x => x.2.1 = v) := by
    rw [List.filter_filter]
    exact List.filter_congr fun x _ => by rw [Bool.decide_and, Bool.and_comm]
  rw [hsplit, G.filter_edgeList u hu, List.filter_map, List.filter_map]
  simp only [List.map_map]
  rfl

end GrGraph

/-! ## 8. `makeSymmetric` and `permute` -/

/-- The edges written from `u` to `v`, read back with their data. -/
theorem between_bucket (L : List (ℕ × ℕ × List UInt8)) (u v : ℕ) :
    ((((bucket Prod.fst L u).map fun x => (x.2.1, some x.2.2)).filter fun y => y.1 = v).map
        Prod.snd) = (L.filter fun x => x.1 = u ∧ x.2.1 = v).map fun x => some x.2.2 := by
  simp only [bucket, List.filter_map, List.filter_filter, List.map_map]
  congr 1
  exact List.filter_congr fun x _ => by
    simp only [Function.comp_apply, Bool.decide_and]
    exact Bool.and_comm _ _

/-- The reverse `makeSymmetric` adds for an edge runs from `u` to `v` when the edge runs from `v`
to `u` and `u ≠ v`; a self loop has none. -/
theorem filter_reverse (y : ℕ × ℕ × List UInt8) (u v : ℕ) :
    ((if y.1 ≠ y.2.1 then [(y.2.1, y.1, y.2.2)] else []).filter fun x => x.1 = u ∧ x.2.1 = v) =
      if u ≠ v then ([y].filter fun x => x.1 = v ∧ x.2.1 = u).map (fun x => (x.2.1, x.1, x.2.2))
      else [] := by
  by_cases h : y.1 = y.2.1
  · -- a reverse `v → u` of a self loop would make `u = v`
    rw [if_neg (not_not.mpr h), List.filter_nil]
    split_ifs with huv
    · rw [List.filter_eq_nil_iff.mpr (fun x hx => by
        rw [List.mem_singleton] at hx
        subst hx
        simp only [decide_eq_true_eq]
        omega), List.map_nil]
    · rfl
  · rw [if_pos h]
    by_cases hyu : y.2.1 = u ∧ y.1 = v
    · obtain ⟨rfl, rfl⟩ := hyu
      rw [if_pos (Ne.symm h)]
      simp
    · have hnot : ¬(y.1 = v ∧ y.2.1 = u) := fun ⟨h1, h2⟩ => hyu ⟨h2, h1⟩
      split_ifs <;> simp [hyu, hnot]

/-- **Between `u` and `v`, `makeSymmetric` writes the input's `u → v` edges and, unless `u = v`, its
`v → u` edges reversed**, in some order. -/
theorem filter_symmetricEdges (E : List (ℕ × ℕ × List UInt8)) (u v : ℕ) :
    ((E.flatMap symmetricEdges).filter fun x => x.1 = u ∧ x.2.1 = v).Perm
      ((E.filter fun x => x.1 = u ∧ x.2.1 = v) ++
        if u ≠ v then (E.filter fun x => x.1 = v ∧ x.2.1 = u).map fun x => (x.2.1, x.1, x.2.2)
        else []) := by
  induction E with
  | nil => split_ifs <;> rfl
  | cons y E ih =>
    -- the edge and its reverse come first, then the rest
    have hhead : (symmetricEdges y).filter (fun x => x.1 = u ∧ x.2.1 = v) =
        [y].filter (fun x => x.1 = u ∧ x.2.1 = v) ++
          if u ≠ v then ([y].filter fun x => x.1 = v ∧ x.2.1 = u).map
            (fun x => (x.2.1, x.1, x.2.2)) else [] := by
      rw [symmetricEdges, ← List.singleton_append, List.filter_append, filter_reverse]
    have hrest : ((y :: E).filter fun x => x.1 = u ∧ x.2.1 = v) =
        [y].filter (fun x => x.1 = u ∧ x.2.1 = v) ++ E.filter (fun x => x.1 = u ∧ x.2.1 = v) := by
      rw [← List.filter_append, List.singleton_append]
    have hrev : (if u ≠ v then ((y :: E).filter fun x => x.1 = v ∧ x.2.1 = u).map
        (fun x => (x.2.1, x.1, x.2.2)) else []) =
        (if u ≠ v then ([y].filter fun x => x.1 = v ∧ x.2.1 = u).map
          (fun x => (x.2.1, x.1, x.2.2)) else []) ++
        if u ≠ v then (E.filter fun x => x.1 = v ∧ x.2.1 = u).map
          (fun x => (x.2.1, x.1, x.2.2)) else [] := by
      split_ifs
      · rw [← List.map_append, ← List.filter_append, List.singleton_append]
      · rfl
    rw [List.flatMap_cons, List.filter_append, hhead, hrest, hrev]
    simp only [List.append_assoc]
    refine (ih.append_left _).append_left _ |>.trans ?_
    exact (List.perm_append_comm_assoc _ _ _).append_left _

/-- `makeSymmetric` writes, at each node, its edges and the other nodes' edges into it. -/
theorem countP_symmetricEdges (E : List (ℕ × ℕ × List UInt8)) (k : ℕ) :
    ((E.flatMap symmetricEdges).countP fun x => x.1 = k) =
      (E.countP fun x => x.1 = k) + E.countP fun x => x.2.1 = k ∧ x.1 ≠ k := by
  induction E with
  | nil => rfl
  | cons y E ih =>
    -- the edge counts at its source, its reverse (if any) at its destination
    have hhead : ((symmetricEdges y).countP fun x => x.1 = k) =
        (if y.1 = k then 1 else 0) + if y.2.1 = k ∧ y.1 ≠ k then 1 else 0 := by
      by_cases h1 : y.1 = k <;> by_cases h2 : y.2.1 = k <;> simp [symmetricEdges, h1, h2]
    rw [List.flatMap_cons, List.countP_append, ih, hhead, List.countP_cons, List.countP_cons]
    simp only [decide_eq_true_eq]
    split_ifs <;> omega

section Spec

variable (G : GrGraph) {sizeofEdgeTy lenlimit : ℕ}
  (hread : sizeofEdgeTy = 0 ∨
    sizeofEdgeTy = G.sizeofEdge ∧ (lenlimit = 0 ∨ G.numEdges + G.edgeDataOffset < lenlimit))
include hread

theorem sizeofEdgeTy_lt : sizeofEdgeTy < 2 ^ 64 := by
  rcases hread with h0 | ⟨rfl, -⟩
  · rw [h0]
    exact Nat.two_pow_pos 64
  · exact G.sizeofEdge_lt

/-- **`makeSymmetric` on a graph file of fewer than `2 ^ 32` nodes**, none of which gets `2 ^ 32`
edges or more: the result has the same nodes, and between nodes `u` and `v` it has the input's
`u → v` edges and, unless `u = v`, its `v → u` edges, each with its data. -/
theorem makeSymmetric_spec (hN : G.numNodes < 2 ^ 32)
    (hdeg : ∀ u, ((G.edgeList sizeofEdgeTy).countP fun x => x.1 = u) +
      ((G.edgeList sizeofEdgeTy).countP fun x => x.2.1 = u ∧ x.1 ≠ u) < 2 ^ 32) :
    ∃ out, makeSymmetric sizeofEdgeTy (G.fileGraph 0 0 lenlimit) = some out ∧
      out.numNodes = G.numNodes ∧ ∀ u v, u < G.numNodes → v < G.numNodes →
        (((readEdges sizeofEdgeTy out u).filter fun y => y.1 = v).map Prod.snd).Perm
          ((((readEdges sizeofEdgeTy (G.fileGraph 0 0 lenlimit) u).filter fun y => y.1 = v).map
              Prod.snd) ++
            if u ≠ v then
              ((readEdges sizeofEdgeTy (G.fileGraph 0 0 lenlimit) v).filter fun y => y.1 = u).map
                Prod.snd
            else []) := by
  have hsize : sizeofEdgeTy = 0 ∨ sizeofEdgeTy = G.sizeofEdge := hread.imp id And.left
  have hsym := fun x (hx : x ∈ (G.edgeList sizeofEdgeTy).flatMap symmetricEdges) =>
    G.mem_symmetric hsize hx
  obtain ⟨G', hw, hG'N, -, hedges⟩ := writeGraph_spec hN rfl (sizeofEdgeTy_lt G hread)
    (fun x hx => ⟨(hsym x hx).1, (hsym x hx).2.1⟩) (fun x hx => (hsym x hx).2.2)
    fun k => countP_symmetricEdges _ k ▸ hdeg k
  refine ⟨G'.fileGraph 0 0 0, ?_, hG'N, fun u v hu hv => ?_⟩
  · rw [makeSymmetric, G.inEdges_fileGraph hread]
    exact hw
  · rw [hedges u (hG'N ▸ hu), G.readEdges_fileGraph hread hu, G.readEdges_fileGraph hread hv,
      between_bucket, G.between_edgeList hu, G.between_edgeList hv]
    -- the reverses carry the data of the edges they reverse
    have hrev : ((if u ≠ v then ((G.edgeList sizeofEdgeTy).filter fun x => x.1 = v ∧ x.2.1 = u).map
        (fun x => (x.2.1, x.1, x.2.2)) else []).map fun x => some x.2.2) =
        if u ≠ v then ((G.edgeList sizeofEdgeTy).filter fun x => x.1 = v ∧ x.2.1 = u).map
          (fun x => some x.2.2) else [] := by
      split_ifs
      · rw [List.map_map]
        rfl
      · rfl
    rw [← hrev, ← List.map_append]
    exact (filter_symmetricEdges _ u v).map _

/-- **`permute` on a graph file of fewer than `2 ^ 32` nodes**, none with `2 ^ 32` edges or more,
with `p` one-to-one on the nodes and into them: the result has the same nodes, and its edges from
`p u` to `p v` are the input's edges from `u` to `v`, with their data, in order. -/
theorem permute_spec (hN : G.numNodes < 2 ^ 32) {p : ℕ → ℕ}
    (hp : ∀ u, u < G.numNodes → p u < G.numNodes)
    (hinj : ∀ u v, u < G.numNodes → v < G.numNodes → p u = p v → u = v)
    (hdeg : ∀ u, ((G.edgeList sizeofEdgeTy).countP fun x => x.1 = u) < 2 ^ 32) :
    ∃ out, permute sizeofEdgeTy (G.fileGraph 0 0 lenlimit) p = some out ∧
      out.numNodes = G.numNodes ∧ ∀ u v, u < G.numNodes → v < G.numNodes →
        ((readEdges sizeofEdgeTy out (p u)).filter fun y => y.1 = p v).map Prod.snd =
          ((readEdges sizeofEdgeTy (G.fileGraph 0 0 lenlimit) u).filter fun y => y.1 = v).map
            Prod.snd := by
  have hsize : sizeofEdgeTy = 0 ∨ sizeofEdgeTy = G.sizeofEdge := hread.imp id And.left
  have hmem := fun x (hx : x ∈ G.edgeList sizeofEdgeTy) => G.mem_edgeList hsize hx
  have hperm := fun x (hx : x ∈ (G.edgeList sizeofEdgeTy).map fun x => (p x.1, p x.2.1, x.2.2)) =>
    G.mem_permuted hsize hp hx
  -- the edges written at `k` are those read at the one node `p` takes to `k`, if any
  have hcount : ∀ k, (((G.edgeList sizeofEdgeTy).map fun x => (p x.1, p x.2.1, x.2.2)).countP
      fun x => x.1 = k) < 2 ^ 32 := by
    intro k
    rw [List.countP_map]
    by_cases hk : ∃ y ∈ G.edgeList sizeofEdgeTy, p y.1 = k
    · obtain ⟨y, hy, rfl⟩ := hk
      rw [List.countP_congr (q := fun x => x.1 = y.1) fun x hx => by
        simp only [Function.comp_apply, decide_eq_true_eq]
        exact ⟨hinj _ _ (hmem x hx).1 (hmem y hy).1, fun h => h ▸ rfl⟩]
      exact hdeg y.1
    · rw [List.countP_eq_zero.mpr fun x hx hpx => hk ⟨x, hx, by simpa using hpx⟩]
      exact Nat.two_pow_pos 32
  obtain ⟨G', hw, hG'N, -, hedges⟩ := writeGraph_spec hN
    (by rw [List.length_map, G.length_edgeList]) (sizeofEdgeTy_lt G hread)
    (fun x hx => ⟨(hperm x hx).1, (hperm x hx).2.1⟩) (fun x hx => (hperm x hx).2.2) hcount
  refine ⟨G'.fileGraph 0 0 0, ?_, hG'N, fun u v hu hv => ?_⟩
  · rw [permute, G.inEdges_fileGraph hread]
    exact hw
  · rw [hedges (p u) (hG'N ▸ hp u hu), G.readEdges_fileGraph hread hu, between_bucket,
      G.between_edgeList hu, List.filter_map, List.map_map]
    -- `p` is one-to-one on the nodes
    have hfilter : ((G.edgeList sizeofEdgeTy).filter
        ((fun x => decide (x.1 = p u ∧ x.2.1 = p v)) ∘ fun x => (p x.1, p x.2.1, x.2.2))) =
        (G.edgeList sizeofEdgeTy).filter fun x => x.1 = u ∧ x.2.1 = v := by
      refine List.filter_congr fun x hx => ?_
      simp only [Function.comp_apply, decide_eq_decide]
      exact ⟨fun ⟨h₁, h₂⟩ => ⟨hinj _ _ (hmem x hx).1 hu h₁, hinj _ _ (hmem x hx).2.1 hv h₂⟩,
        fun ⟨h₁, h₂⟩ => ⟨h₁ ▸ rfl, h₂ ▸ rfl⟩⟩
    rw [hfilter]
    rfl

end Spec

/-- **`makeSymmetric` and `permute` on a graph file of fewer than `2 ^ 32` nodes**, read whole,
for `void` or an `EdgeTy` of the file's edge data size. With no node getting `2 ^ 32` edges or
more, `makeSymmetric` gives a file of the same nodes whose edges between `u` and `v` carry the
data of the input's `u → v` edges and, unless `u = v`, of its `v → u` edges; with `p` one-to-one on
the nodes and into them, `permute` gives a file of the same nodes whose edges from `p u` to `p v`
carry the data of the input's edges from `u` to `v`. -/
theorem makeSymmetric_permute_spec (G : GrGraph) (sizeofEdgeTy lenlimit : ℕ)
    (hread : sizeofEdgeTy = 0 ∨
      sizeofEdgeTy = G.sizeofEdge ∧ (lenlimit = 0 ∨ G.numEdges + G.edgeDataOffset < lenlimit))
    (hN : G.numNodes < 2 ^ 32) :
    ((∀ u, ((G.edgeList sizeofEdgeTy).countP fun x => x.1 = u) +
        ((G.edgeList sizeofEdgeTy).countP fun x => x.2.1 = u ∧ x.1 ≠ u) < 2 ^ 32) →
      ∃ out, makeSymmetric sizeofEdgeTy (G.fileGraph 0 0 lenlimit) = some out ∧
        out.numNodes = G.numNodes ∧ ∀ u v, u < G.numNodes → v < G.numNodes →
          (((readEdges sizeofEdgeTy out u).filter fun y => y.1 = v).map Prod.snd).Perm
            ((((readEdges sizeofEdgeTy (G.fileGraph 0 0 lenlimit) u).filter fun y => y.1 = v).map
                Prod.snd) ++
              if u ≠ v then
                ((readEdges sizeofEdgeTy (G.fileGraph 0 0 lenlimit) v).filter fun y => y.1 = u).map
                  Prod.snd
              else [])) ∧
    ∀ p : ℕ → ℕ, (∀ u, u < G.numNodes → p u < G.numNodes) →
      (∀ u v, u < G.numNodes → v < G.numNodes → p u = p v → u = v) →
      (∀ u, ((G.edgeList sizeofEdgeTy).countP fun x => x.1 = u) < 2 ^ 32) →
      ∃ out, permute sizeofEdgeTy (G.fileGraph 0 0 lenlimit) p = some out ∧
        out.numNodes = G.numNodes ∧ ∀ u v, u < G.numNodes → v < G.numNodes →
          ((readEdges sizeofEdgeTy out (p u)).filter fun y => y.1 = p v).map Prod.snd =
            ((readEdges sizeofEdgeTy (G.fileGraph 0 0 lenlimit) u).filter fun y => y.1 = v).map
              Prod.snd :=
  ⟨makeSymmetric_spec G hread hN, fun _ hp hinj hdeg => permute_spec G hread hN hp hinj hdeg⟩

/-- Two nodes and the edge `0 → 1` with the byte `5`, read with its own edge size. -/
theorem makeSymmetric_permute_spec_two_nodes :
    let G : GrGraph := ⟨.v1, [1, 1], [1], 1, [5], by decide, rfl, by decide, rfl, by decide,
      by decide, by decide, by decide⟩
    (1 = 0 ∨ 1 = G.sizeofEdge ∧ (0 = 0 ∨ G.numEdges + G.edgeDataOffset < 0)) ∧
      G.numNodes < 2 ^ 32 ∧
      ((∀ u, ((G.edgeList 1).countP fun x => x.1 = u) +
          ((G.edgeList 1).countP fun x => x.2.1 = u ∧ x.1 ≠ u) < 2 ^ 32) →
        ∃ out, makeSymmetric 1 (G.fileGraph 0 0 0) = some out ∧
          out.numNodes = G.numNodes ∧ ∀ u v, u < G.numNodes → v < G.numNodes →
            (((readEdges 1 out u).filter fun y => y.1 = v).map Prod.snd).Perm
              ((((readEdges 1 (G.fileGraph 0 0 0) u).filter fun y => y.1 = v).map Prod.snd) ++
                if u ≠ v then
                  ((readEdges 1 (G.fileGraph 0 0 0) v).filter fun y => y.1 = u).map Prod.snd
                else [])) ∧
      ∀ p : ℕ → ℕ, (∀ u, u < G.numNodes → p u < G.numNodes) →
        (∀ u v, u < G.numNodes → v < G.numNodes → p u = p v → u = v) →
        (∀ u, ((G.edgeList 1).countP fun x => x.1 = u) < 2 ^ 32) →
        ∃ out, permute 1 (G.fileGraph 0 0 0) p = some out ∧
          out.numNodes = G.numNodes ∧ ∀ u v, u < G.numNodes → v < G.numNodes →
            ((readEdges 1 out (p u)).filter fun y => y.1 = p v).map Prod.snd =
              ((readEdges 1 (G.fileGraph 0 0 0) u).filter fun y => y.1 = v).map Prod.snd := by
  intro G
  exact ⟨Or.inr ⟨rfl, Or.inl rfl⟩, by decide,
    makeSymmetric_permute_spec G 1 0 (Or.inr ⟨rfl, Or.inl rfl⟩) (by decide)⟩

end Galois.Graphs
