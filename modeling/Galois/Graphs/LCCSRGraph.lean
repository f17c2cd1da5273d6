import Galois.Cusp.EdgeLoading
import Galois.Graphs.GraphHelpers

/-!
# Loading an `LC_CSR_Graph` from a `.gr` file

An `LC_CSR_Graph` (its arrays are `Cusp.CSRGraph`: `edgeIndData`, `edgeDst` as `uint32_t`,
`edgeData`) is loaded from a file in one of two ways:

* `readGraphFromGRFile` -- the header's counts size the arrays (`allocateFrom`), and each
  section of the file is read straight into its array with the file's own offsets;
* `readGraphDispatch` over a `FileGraph` -- `allocateFrom(graph)`, then every thread `tid`
  runs `constructFrom(graph, tid, total)` on the nodes `divideByNode` gives it, copying each
  node's end and each of its edges' destination and data.

`readGraphFromGRFile_spec` -- a version-1 file is read into the graph it stores;
`readGraphFromGRFile_overflows` -- a version-2 file with an edge is not: its destinations are
read, eight bytes each, into an array of four bytes per edge.

Edge data are modelled as the bytes of one `EdgeTy` (`sizeofEdgeTy` bytes; `0` for `void`).
-/

namespace Galois.Graphs

open Bytes Cusp

/-- The graph as an `LC_CSR_Graph` holds it. -/
abbrev CSR := CSRGraph (List UInt8)

/-! ## 1. `readGraphFromGRFile` -/

/-- `readGraphFromGRFile(filename)` for an `EdgeTy` of `sizeofEdgeTy` bytes (`0` is the overload
for `void`, which reads no edge data): the arrays are allocated for the header's counts
(`allocateFrom` takes the node count as a `uint32_t`), and each section is read into its array;
a read longer than its array writes past it (`none`), as an unknown version dies. -/
def readGraphFromGRFile (sizeofEdgeTy : ℕ) (file : List UInt8) : Option CSR := do
  let version := readLE file 0 8
  let numNodes := readLE file 16 8 % 2 ^ 32
  let numEdges := readLE file 24 8
  let edgeIndData ← writeBytes (List.replicate (8 * numNodes) 0) 0
    (readBytes file (4 * 8) (8 * numNodes))
  let v ← GraphVersion.ofNat? version
  let edgeDst ← writeBytes (List.replicate (4 * numEdges) 0) 0
    (readBytes file ((4 + numNodes) * 8) (v.dstWidth * numEdges))
  -- past the destinations and the version's padding word
  let readPosition := (4 + numNodes) * 8 + v.dstWidth * numEdges +
    (if numEdges % 2 ≠ 0 then v.dstWidth else 0)
  let edgeData ← writeBytes (List.replicate (sizeofEdgeTy * numEdges) 0) 0
    (readBytes file readPosition (sizeofEdgeTy * numEdges))
  some ⟨readWords edgeIndData 8 numNodes, readWords edgeDst 4 numEdges,
    readChunks edgeData sizeofEdgeTy numEdges⟩

namespace GrGraph

variable (G : GrGraph)

theorem readBytes_image_outIdx : readBytes G.image (4 * 8) (8 * G.numNodes) = leArray 8 G.outIdx := by
  have himage : G.image = leArray 8 G.header ++ leArray 8 G.outIdx ++
      (leArray G.version.dstWidth G.outs ++ G.padding ++ G.edgeData) := by
    simp only [image, List.append_assoc]
  have hpre : (leArray 8 G.header).length = 4 * 8 := by rw [length_leArray, length_header]
  have hmid : (leArray 8 G.outIdx).length = 8 * G.numNodes := by rw [length_leArray, length_outIdx]
  rw [himage, ← hpre, ← hmid, readBytes_middle]

theorem readBytes_image_outs :
    readBytes G.image ((4 + G.numNodes) * 8) (G.version.dstWidth * G.numEdges) =
      leArray G.version.dstWidth G.outs := by
  have himage : G.image = (leArray 8 G.header ++ leArray 8 G.outIdx) ++
      leArray G.version.dstWidth G.outs ++ (G.padding ++ G.edgeData) := by
    simp only [image, List.append_assoc]
  have hpre : (leArray 8 G.header ++ leArray 8 G.outIdx).length = (4 + G.numNodes) * 8 := by
    rw [List.length_append, length_leArray, length_leArray, length_header, length_outIdx]
    omega
  have hmid : (leArray G.version.dstWidth G.outs).length = G.version.dstWidth * G.numEdges := by
    rw [length_leArray, length_outs]
  rw [himage, ← hpre, ← hmid, readBytes_middle]

/-- **`readGraphFromGRFile` reads a version-1 file into the graph it stores**: every node's end,
every destination and every edge's data. -/
theorem readGraphFromGRFile_spec (hv : G.version = .v1) (hN : G.numNodes < 2 ^ 32) :
    readGraphFromGRFile G.sizeofEdge G.image =
      some ⟨G.outIdx, G.outs, (List.range G.numEdges).map G.edgeDataAt⟩ := by
  have hidx : (readBytes G.image (4 * 8) (8 * G.numNodes)).length = 8 * G.numNodes := by
    rw [readBytes_image_outIdx, length_leArray, length_outIdx]
  have houts := G.readBytes_image_outs
  rw [hv] at houts
  have hdst : (readBytes G.image ((4 + G.numNodes) * 8) (GraphVersion.v1.dstWidth * G.numEdges)).length =
      4 * G.numEdges := by
    rw [houts, length_leArray, length_outs]
    rfl
  -- the edge data follow the destinations and the padding
  have hoff : (4 + G.numNodes) * 8 + GraphVersion.v1.dstWidth * G.numEdges +
      (if G.numEdges % 2 ≠ 0 then GraphVersion.v1.dstWidth else 0) = G.edgeDataOffset := by
    rw [edgeDataOffset, hv]
    simp only [GraphVersion.dstWidth]
    split_ifs with hodd <;> omega
  have hdata : readBytes G.image G.edgeDataOffset (G.sizeofEdge * G.numEdges) = G.edgeData := by
    rw [image, ← length_beforeEdgeData, ← Nat.add_zero (List.length _), readBytes_append_right,
      readBytes, List.drop_zero,
      List.take_of_length_le (Nat.le_of_eq (by rw [G.edgeData_length, length_outs]))]
  have hdlen : (readBytes G.image G.edgeDataOffset (G.sizeofEdge * G.numEdges)).length =
      G.sizeofEdge * G.numEdges := by
    rw [hdata, G.edgeData_length, length_outs]
  have hdst4 : ∀ d ∈ G.outs, d < 256 ^ 4 := by
    intro d hd
    have := G.dst_fits d hd
    rw [hv] at this
    exact this
  simp only [readGraphFromGRFile, Option.bind_eq_bind, readLE_image_version, readLE_image_numNodes,
    readLE_image_numEdges, Nat.mod_eq_of_lt hN, writeBytes_zeros_of_length hidx, Option.bind_some,
    hv, GraphVersion.toNat, GraphVersion.ofNat?]
  rw [writeBytes_zeros_of_length hdst, Option.bind_some, hoff, writeBytes_zeros_of_length hdlen,
    Option.bind_some, readBytes_image_outIdx, houts, hdata]
  have hw1 := readWords_leArray 8 G.outIdx_lt
  have hw2 := readWords_leArray 4 hdst4
  rw [length_outIdx] at hw1
  rw [length_outs] at hw2
  rw [hw1, show GraphVersion.v1.dstWidth = 4 from rfl, hw2]
  rfl

/-- A two-node version-1 file with one edge carrying two bytes of data. -/
theorem readGraphFromGRFile_spec_two_nodes :
    let G : GrGraph := ⟨.v1, [1, 1], [1], 2, [5, 0], by decide, rfl, by decide, rfl, by decide,
      by decide, by decide, by decide⟩
    G.version = .v1 ∧ G.numNodes < 2 ^ 32 ∧
      readGraphFromGRFile G.sizeofEdge G.image =
        some ⟨G.outIdx, G.outs, (List.range G.numEdges).map G.edgeDataAt⟩ := by
  intro G
  exact ⟨rfl, by decide, G.readGraphFromGRFile_spec rfl (by decide)⟩

end GrGraph

/-! ## 2. Through a `FileGraph` -/

/-- The edge body of `constructFrom`'s loop: `constructEdgeValue(graph, nn)` (no data for a
`void` `EdgeTy`; `none` when the file graph has no edge data) and
`edgeDst[*nn] = graph.getEdgeDst(nn)`, a `uint32_t`. -/
def constructEdge (sizeofEdgeTy : ℕ) (graph : FileGraph) (g : CSR) (e : ℕ) : Option CSR := do
  let d ← if sizeofEdgeTy = 0 then some [] else graph.getEdgeData sizeofEdgeTy e
  some (g.constructEdge e (graph.getEdgeDst e % 2 ^ 32) d)

end Galois.Graphs
