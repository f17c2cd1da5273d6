import Mathlib.Data.List.Basic
import Galois.BinarySearch

/-!
# Edges of a `MorphGraph` (MorphGraph.h)

Every `gNode` holds its edges in a vector of `EdgeInfo`s: the node at the other end, a pointer
to the edge's data and a tag bit for in-edges. Outside a directed graph without `InOut`, an
edge `u -> v` is stored twice, at `u` and at `v` (tagged as an in-edge when the graph is
directed), both copies pointing at one data object made by `edgesF.mkEdge`. An edge is visible
while the node at its other end is active.

* `Flags` -- the template flags `Directional`, `InOut` and `SortedNeighbors`;
* `find`, `eraseAt`, `eraseNode`, `createEdge`, `createEdgeWithReuse` -- the `gNode` members,
  over the vector of one node, with `std::lower_bound` and `std::upper_bound` as the binary
  search of `BinarySearch`;
* `addEdge`, `addMultiEdge`, `removeEdge`, `removeNode`, `findEdge`, `findInEdge` -- the graph's
  members;
* `removeEdge_parallel_twin` -- with two parallel edges `u -> v`, removing the second at `u`
  erases the first one's copy at `v`: the two ends then see different edges.

Nodes are addressed by `ℕ` in the order `createNode` makes them, so `first_lt` compares
addresses. Edge data objects are numbered from `1` as `mkEdge` makes them; `0` is the null
pointer a directed graph without `InOut` stores.
-/

namespace Galois.Graphs.MorphGraph

open BinarySearch

/-- The template flags that decide how edges are stored. -/
structure Flags where
  directional : Bool
  inOut : Bool
  sortedNeighbors : Bool

/-- `EdgeInfo`: the node at the other end, the edge data pointer and the in-edge tag. -/
structure EdgeInfo where
  first : ℕ
  data : ℕ
  inEdge : Bool
  deriving DecidableEq

/-- A `gNode`: whether it is in the graph, and its edges. -/
structure GNode where
  active : Bool
  edges : List EdgeInfo

/-- The graph: its nodes by address, and how many edge data objects `edgesF` has made. -/
structure Graph where
  nodes : List GNode
  numEdgeData : ℕ

/-! ## 1. The members of a `gNode` -/

section GNodeMembers

variable (f : Flags) (act : ℕ → Bool)

/-- `std::lower_bound(edges.begin(), edges.end(), N, first_lt)`. -/
def lowerBound (es : List EdgeInfo) (N : ℕ) : ℕ :=
  lowerBoundLoop (fun i => match es[i]? with
    | some e => !decide (e.first < N)
    | none => true) es.length 0 es.length

/-- `std::upper_bound(es.begin() + lo, es.end(), N, first_lt)`. -/
def upperBound (es : List EdgeInfo) (lo N : ℕ) : ℕ :=
  lowerBoundLoop (fun i => match es[i]? with
    | some e => decide (N < e.first)
    | none => true) (es.length - lo) lo es.length

/-- `find(N, inEdge)`: from `lower_bound(N)` when the neighbours are sorted, else from the first
edge, the first edge to `N` whose node is active and whose tag is `inEdge`; `none` is `end()`. -/
def find (es : List EdgeInfo) (N : ℕ) (inEdge : Bool) : Option ℕ :=
  let start := if f.sortedNeighbors then lowerBound es N else 0
  ((es.drop start).findIdx? fun e => e.first = N && act e.first && e.inEdge == inEdge).map
    (start + ·)

/-- `erase(ii)`: sorted, the edge is erased in place; unsorted, the last edge is moved into its
slot and popped. -/
def eraseAt (es : List EdgeInfo) (i : ℕ) : List EdgeInfo :=
  if f.sortedNeighbors then es.eraseIdx i
  else match es.getLast? with
    | some b => (es.set i b).dropLast
    | none => es

/-- `erase(N, inEdge)`: the edge `find(N, inEdge)` finds is erased in place. -/
def eraseNode (es : List EdgeInfo) (N : ℕ) (inEdge : Bool) : List EdgeInfo :=
  match find f act es N inEdge with
  | some i => es.eraseIdx i
  | none => es

/-- `createEdge(N, v, inEdge)`: inserted before the first edge past `N` when sorted, else at
the end. -/
def createEdge (es : List EdgeInfo) (N v : ℕ) (inEdge : Bool) : List EdgeInfo :=
  es.insertIdx (if f.sortedNeighbors then upperBound es 0 N else es.length) ⟨N, v, inEdge⟩

/-- `createEdgeWithReuse(N, v, inEdge)`: the first slot of the range an edge to `N` may take
whose node is inactive is overwritten; without one, the edge is inserted at the range's end. -/
def createEdgeWithReuse (es : List EdgeInfo) (N v : ℕ) (inEdge : Bool) : List EdgeInfo :=
  let lo := if f.sortedNeighbors then lowerBound es N else 0
  let hi := if f.sortedNeighbors then upperBound es lo N else es.length
  match ((es.take hi).drop lo).findIdx? fun e => !act e.first with
  | some j => es.set (lo + j) ⟨N, v, inEdge⟩
  | none => es.insertIdx hi ⟨N, v, inEdge⟩

end GNodeMembers

/-! ## 2. The members of the graph -/

namespace Graph

/-- Whether node `n` is in the graph. -/
def isActive (g : Graph) (n : ℕ) : Bool := (g.nodes[n]?.map GNode.active).getD false

/-- The edges of node `n`. -/
def edgesOf (g : Graph) (n : ℕ) : List EdgeInfo := (g.nodes[n]?.map GNode.edges).getD []

/-- A write of node `n`'s edges. -/
def setEdges (g : Graph) (n : ℕ) (es : List EdgeInfo) : Graph :=
  { g with nodes := g.nodes.modify n fun x => { x with edges := es } }

/-- `createNode()`: a new inactive node with no edge. -/
def createNode (g : Graph) : Graph := { g with nodes := g.nodes ++ [⟨false, []⟩] }

/-- `addNode(n)`. -/
def addNode (g : Graph) (n : ℕ) : Graph :=
  { g with nodes := g.nodes.modify n fun x => { x with active := true } }

/-- `removeNode(n)`: an active node becomes inactive and loses its own edges; the copies at the
other ends stay, invisible while it is inactive. -/
def removeNode (g : Graph) (n : ℕ) : Graph :=
  if g.isActive n then { g with nodes := g.nodes.modify n fun _ => ⟨false, []⟩ } else g

variable (f : Flags)

/-- `addEdge(src, dst)` (`createEdgeWithReuse`): nothing when `src` has a visible edge to `dst`;
otherwise the copy at `dst` and then the edge at `src`, sharing a new data object. -/
def addEdge (g : Graph) (src dst : ℕ) : Graph :=
  match find f g.isActive (g.edgesOf src) dst false with
  | some _ => g
  | none =>
    if f.directional && !f.inOut then
      g.setEdges src (createEdgeWithReuse f g.isActive (g.edgesOf src) dst 0 false)
    else
      let e := g.numEdgeData + 1
      let g := { g with numEdgeData := e }
      let g := g.setEdges dst
        (createEdgeWithReuse f g.isActive (g.edgesOf dst) src e f.directional)
      g.setEdges src (createEdgeWithReuse f g.isActive (g.edgesOf src) dst e false)

/-- `addMultiEdge(src, dst)` (`createEdge`): the copy at `dst` and the edge at `src`, with no
check for an edge already there. -/
def addMultiEdge (g : Graph) (src dst : ℕ) : Graph :=
  if f.directional && !f.inOut then
    g.setEdges src (createEdge f (g.edgesOf src) dst 0 false)
  else
    let e := g.numEdgeData + 1
    let g := { g with numEdgeData := e }
    let g := g.setEdges dst (createEdge f (g.edgesOf dst) src e f.directional)
    g.setEdges src (createEdge f (g.edgesOf src) dst e false)

/-- `removeEdge(src, dst)` for the edge iterator at position `i` of `src`'s vector: the copy
`erase(src, Directional)` finds at the other end, then the edge at `i`. -/
def removeEdge (g : Graph) (src i : ℕ) : Graph :=
  if f.directional && !f.inOut then g.setEdges src (eraseAt f (g.edgesOf src) i)
  else match (g.edgesOf src)[i]? with
    | some e =>
      let g := g.setEdges e.first (eraseNode f g.isActive (g.edgesOf e.first) src f.directional)
      g.setEdges src (eraseAt f (g.edgesOf src) i)
    | none => g

/-- `findEdge(src, dst)`: the data of the visible out-edge `find(dst)` finds. -/
def findEdge (g : Graph) (src dst : ℕ) : Option ℕ := do
  let i ← find f g.isActive (g.edgesOf src) dst false
  let e ← (g.edgesOf src)[i]?
  if g.isActive e.first && !e.inEdge then some e.data else none

/-- `findInEdge(src, dst)`: `findEdge` for an undirected graph; for a directed one with `InOut`,
the data of the visible in-edge `find(dst, true)` finds. -/
def findInEdge (g : Graph) (src dst : ℕ) : Option ℕ :=
  if f.directional then do
    let i ← find f g.isActive (g.edgesOf src) dst true
    let e ← (g.edgesOf src)[i]?
    if g.isActive e.first && e.inEdge then some e.data else none
  else g.findEdge f src dst

/-- The data of `u`'s visible out-edges to `v`. -/
def outData (g : Graph) (u v : ℕ) : List ℕ :=
  ((g.edgesOf u).filter fun e => e.first = v && g.isActive v && !e.inEdge).map EdgeInfo.data

/-- The data of the copies at `v` of edges from `u`: `v`'s visible in-edges from `u` in a
directed graph, `v`'s visible edges to `u` in an undirected one. -/
def twinData (g : Graph) (u v : ℕ) : List ℕ :=
  ((g.edgesOf v).filter fun e => e.first = u && g.isActive u && e.inEdge == f.directional).map
    EdgeInfo.data

end Graph

/-! ## 3. Runs of calls -/

/-- The calls on a `MorphGraph`; `removeEdge src i` removes the edge at position `i` of `src`'s
vector. -/
inductive Op where
  | createNode
  | addNode (n : ℕ)
  | addEdge (src dst : ℕ)
  | addMultiEdge (src dst : ℕ)
  | removeEdge (src i : ℕ)
  | removeNode (n : ℕ)

/-- One call. -/
def apply (f : Flags) (g : Graph) : Op → Graph
  | .createNode => g.createNode
  | .addNode n => g.addNode n
  | .addEdge src dst => g.addEdge f src dst
  | .addMultiEdge src dst => g.addMultiEdge f src dst
  | .removeEdge src i => g.removeEdge f src i
  | .removeNode n => g.removeNode n

/-- The calls on an empty graph. -/
def run (f : Flags) (ops : List Op) : Graph :=
  ops.foldl (apply f) ⟨[], 0⟩

/-! ## 4. Removing one of two parallel edges -/

/-- **Removing the second of two parallel edges erases the first one's copy.** In an undirected
graph, or a directed one with `InOut`, sorted or not: two active nodes `0` and `1` and two
`addMultiEdge(0, 1)` calls give `0` the edges with data `1` and `2`, with copies at `1`.
`removeEdge` on the second edge of `0` erases, at `1`, the first copy `find` finds, the one of
data `1`, and at `0` the edge of data `2`. Node `0` keeps the edge of data `1` and node `1` the
copy of data `2`, and `findEdge(0, 1)` and `findInEdge(1, 0)` return different data. -/
theorem removeEdge_parallel_twin (directional sorted : Bool) :
    (run ⟨directional, true, sorted⟩ [.createNode, .createNode, .addNode 0, .addNode 1,
        .addMultiEdge 0 1, .addMultiEdge 0 1]).outData 0 1 = [1, 2] ∧
      (run ⟨directional, true, sorted⟩ [.createNode, .createNode, .addNode 0, .addNode 1,
        .addMultiEdge 0 1, .addMultiEdge 0 1]).twinData ⟨directional, true, sorted⟩ 0 1 =
        [1, 2] ∧
      (run ⟨directional, true, sorted⟩ [.createNode, .createNode, .addNode 0, .addNode 1,
        .addMultiEdge 0 1, .addMultiEdge 0 1, .removeEdge 0 1]).outData 0 1 = [1] ∧
      (run ⟨directional, true, sorted⟩ [.createNode, .createNode, .addNode 0, .addNode 1,
        .addMultiEdge 0 1, .addMultiEdge 0 1, .removeEdge 0 1]).twinData
          ⟨directional, true, sorted⟩ 0 1 = [2] ∧
      (run ⟨directional, true, sorted⟩ [.createNode, .createNode, .addNode 0, .addNode 1,
        .addMultiEdge 0 1, .addMultiEdge 0 1, .removeEdge 0 1]).findEdge
          ⟨directional, true, sorted⟩ 0 1 = some 1 ∧
      (run ⟨directional, true, sorted⟩ [.createNode, .createNode, .addNode 0, .addNode 1,
        .addMultiEdge 0 1, .addMultiEdge 0 1, .removeEdge 0 1]).findInEdge
          ⟨directional, true, sorted⟩ 1 0 = some 2 := by
  cases directional <;> cases sorted <;> decide

end Galois.Graphs.MorphGraph
