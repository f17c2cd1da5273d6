import Galois.Bytes

/-!
# The `.gr` file layout and `FileGraph`

A Galois binary graph (`.gr`) file is a header of four `uint64_t` words (version,
`sizeof_edge_data`, `numNodes`, `numEdges`), the end index of every node's edges (`outIdx`),
the destination of every edge (a `uint32_t` in version 1, a `uint64_t` in version 2), a padding
word when the edge count is odd, and `sizeof_edge_data` bytes of data per edge; all numbers are
little-endian. `FileGraph` reads such a file through pointers into a mapping of it, and four of
its functions compute the positions of the sections on their own:

* `fromMem` -- reads the header and places the arrays (with the padding for both versions);
* `rawBlockSize` -- the size of a whole image (with the padding for version 1 only);
* `fromArrays` -- writes an image into a buffer of `rawBlockSize` bytes (with the padding for
  both versions) and reads it back with `fromMem`;
* `partFromFile` -- maps the part of a file that a node range and its edge range need (with the
  edge data placed after `rawBlockSize(numNodes, numEdges, 0, graphVersion)`).

The file a graph is stored as is `GrGraph.image`, our statement of the layout that `fromMem`
reads. The main results:

* `fromMem_image` and the read lemmas -- `edge_begin`, `edge_end`, `getEdgeDst` and
  `getEdgeData` of an image read back the graph;
* `rawBlockSize_eq_length_image` -- `rawBlockSize` is the image's size for version 1 and for an
  even edge count;
* `fromArrays_eq` -- there, `fromArrays` writes the image and reads it back;
  `fromArrays_overflows` -- for version 2, an odd edge count and edge data, it writes past the
  buffer it allocated;
* `partFromFile_spec` -- there, the part read by `partFromFile` reads back the graph on its
  range; `partFromFile_misreads` -- for version 2 and an odd edge count its edge data is read
  from eight bytes before the data.

A pointer is modelled as its offset in the bytes it points into (`FileGraph.mem`): the mapped
file, or the buffer `fromArrays` filled. The host is little-endian, as the `convert_*` calls
assume.
-/

namespace Galois.Graphs

open Bytes

/-! ## 1. Versions and sizes -/

/-- The two file versions: 1 stores each destination in a `uint32_t`, 2 in a `uint64_t`. -/
inductive GraphVersion where
  | v1
  | v2
  deriving DecidableEq, Repr

namespace GraphVersion

/-- The version number in a file's first word. -/
def toNat : GraphVersion → ℕ
  | v1 => 1
  | v2 => 2

/-- The version a file's first word names; `none` is `GALOIS_DIE("unknown file version")`. -/
def ofNat? : ℕ → Option GraphVersion
  | 1 => some v1
  | 2 => some v2
  | _ => none

/-- The bytes of one destination: `sizeof(uint32_t)` or `sizeof(uint64_t)`. -/
def dstWidth : GraphVersion → ℕ
  | v1 => 4
  | v2 => 8

@[simp] theorem ofNat?_toNat (v : GraphVersion) : ofNat? v.toNat = some v := by
  cases v <;> rfl

theorem toNat_lt (v : GraphVersion) : v.toNat < 256 ^ 8 := by
  cases v <;> decide

end GraphVersion

/-- `rawBlockSize(numNodes, numEdges, sizeofEdgeData, graphVersion)`: the header, the node
data, the destinations (with a padding word in version 1 only) and the edge data. -/
def rawBlockSize (numNodes numEdges sizeofEdgeData : ℕ) : GraphVersion → ℕ
  | .v1 => 8 * 4 + 8 * numNodes + 4 * numEdges + (if numEdges % 2 ≠ 0 then 4 else 0) +
      sizeofEdgeData * numEdges
  | .v2 => 8 * 4 + 8 * numNodes + 8 * numEdges + sizeofEdgeData * numEdges

/-! ## 2. `FileGraph` and its reads -/

/-- The fields of a `FileGraph` that its reads use. `outIdx`, `outs` and `edgeData` are pointers
into `mem`; `edgeData = none` is the null pointer. -/
structure FileGraph where
  mem : List UInt8
  sizeofEdge : ℕ
  numNodes : ℕ
  numEdges : ℕ
  graphVersion : GraphVersion
  outIdx : ℕ
  outs : ℕ
  edgeData : Option ℕ
  nodeOffset : ℕ
  edgeOffset : ℕ
  deriving DecidableEq, Repr

/-- `fromMem(m, node_offset, edge_offset, lenlimit)`: the header, then the arrays after it. The
edge data pointer is set when `lenlimit` is zero or exceeds `numEdges` plus the data's offset. -/
def fromMem (m : List UInt8) (node_offset edge_offset lenlimit : ℕ) : Option FileGraph := do
  let graphVersion ← GraphVersion.ofNat? (readLE m 0 8)
  let numNodes := readLE m 16 8
  let numEdges := readLE m 24 8
  let outs := 8 * 4 + 8 * numNodes
  -- both versions skip the destinations and a padding destination when the count is odd
  let fptr := outs + graphVersion.dstWidth * (numEdges + numEdges % 2)
  some { mem := m, sizeofEdge := readLE m 8 8, numNodes := numNodes, numEdges := numEdges,
         graphVersion := graphVersion, outIdx := 8 * 4, outs := outs,
         edgeData := if lenlimit = 0 ∨ numEdges + fptr < lenlimit then some fptr else none,
         nodeOffset := node_offset, edgeOffset := edge_offset }

/-- `fromFile(filename)`: the whole file mapped, read with its length as the limit. -/
def fromFile (file : List UInt8) : Option FileGraph :=
  fromMem file 0 0 file.length

namespace FileGraph

/-- `convert_le64toh(outIdx[i])`. -/
def outIdxAt (g : FileGraph) (i : ℕ) : ℕ :=
  readLE g.mem (g.outIdx + 8 * i) 8

/-- `edge_begin(N)`: the end of node `N - 1`, clamped to this part's edges and made local; `0`
for the first node of the part and, with a warning, for nodes before it. -/
def edge_begin (g : FileGraph) (N : ℕ) : ℕ :=
  if g.nodeOffset < N then
    min (g.outIdxAt (N - 1 - g.nodeOffset)) (g.edgeOffset + g.numEdges) - g.edgeOffset
  else 0

/-- `edge_end(N)`: the end of node `N`, clamped and made local the same way. -/
def edge_end (g : FileGraph) (N : ℕ) : ℕ :=
  if g.nodeOffset ≤ N then
    min (g.outIdxAt (N - g.nodeOffset)) (g.edgeOffset + g.numEdges) - g.edgeOffset
  else 0

/-- `getEdgeDst(it)`: the destination at index `it`, of the version's width. -/
def getEdgeDst (g : FileGraph) (it : ℕ) : ℕ :=
  readLE g.mem (g.outs + g.graphVersion.dstWidth * it) g.graphVersion.dstWidth

/-- `getEdgeData<EdgeTy>(it)` for an `EdgeTy` of `sizeofEdgeTy` bytes: the `it`th element of
the edge data array; `none` is the failing `assert(edgeData)`. -/
def getEdgeData (sizeofEdgeTy : ℕ) (g : FileGraph) (it : ℕ) : Option (List UInt8) :=
  g.edgeData.map fun p => readBytes g.mem (p + sizeofEdgeTy * it) sizeofEdgeTy

end FileGraph

/-- `fromArrays(out_idx, num_nodes, outs, num_edges, edge_data, sizeof_edge_data, node_offset,
edge_offset, converted, oGraphVersion)`: allocate `rawBlockSize` bytes, write the header, the
node data, the destinations and (after skipping the padding word) the edge data, and read the
buffer back with `fromMem`. Each store must stay inside the allocation. -/
def fromArrays (out_idx : List ℕ) (num_nodes : ℕ) (outs : List ℕ) (num_edges : ℕ)
    (edge_data : Option (List UInt8)) (sizeof_edge_data node_offset edge_offset : ℕ)
    (oGraphVersion : GraphVersion) : Option FileGraph := do
  let bytes := rawBlockSize num_nodes num_edges sizeof_edge_data oGraphVersion
  let base := List.replicate bytes 0
  let m ← writeBytes base 0
    (leArray 8 [oGraphVersion.toNat, sizeof_edge_data, num_nodes, num_edges])
  let m ← writeBytes m (8 * 4) (leArray 8 (out_idx.take num_nodes))
  let w := oGraphVersion.dstWidth
  let m ← writeBytes m (8 * 4 + 8 * num_nodes) (leArray w (outs.take num_edges))
  -- the padding word is skipped, not written: the buffer holds zeros there
  let fptr0 := 8 * 4 + 8 * num_nodes + w * num_edges + (if num_edges % 2 ≠ 0 then w else 0)
  let m ← match edge_data with
    | some d => writeBytes m fptr0 (d.take (sizeof_edge_data * num_edges))
    | none => some m
  fromMem m node_offset edge_offset 0

/-- `partFromFile(filename, nrange, erange, numaMap)`: the header is read with `fromMem`, then
the node data of the range, its destinations and (when edges carry data) its edge data are
mapped from their offsets in the file, and the counts become the part's. -/
def partFromFile (file : List UInt8) (nrange erange : ℕ × ℕ) : Option FileGraph := do
  let headerSize := 4 * 8
  let g ← fromMem (file.take headerSize) nrange.1 erange.1 0
  let partNumNodes := nrange.2 - nrange.1
  let partNumEdges := erange.2 - erange.1
  some { g with
    mem := file
    outIdx := headerSize + g.nodeOffset * 8
    outs := headerSize + g.numNodes * 8 + g.edgeOffset * g.graphVersion.dstWidth
    edgeData := if g.sizeofEdge = 0 then none
      else some (rawBlockSize g.numNodes g.numEdges 0 g.graphVersion + g.sizeofEdge * g.edgeOffset)
    numNodes := partNumNodes
    numEdges := partNumEdges }

/-! ## 3. The graph a file stores -/

/-- A graph as a `.gr` file stores it: `outIdx` non-decreasing and ending at the edge count,
destinations below the node count, `sizeofEdge` bytes of data per edge, and every number inside
the width the file gives it. -/
structure GrGraph where
  version : GraphVersion
  outIdx : List ℕ
  outs : List ℕ
  sizeofEdge : ℕ
  edgeData : List UInt8
  outIdx_mono : outIdx.Pairwise (· ≤ ·)
  outIdx_last : outIdx.getLastD 0 = outs.length
  dst_lt : ∀ d ∈ outs, d < outIdx.length
  edgeData_length : edgeData.length = sizeofEdge * outs.length
  numNodes_lt : outIdx.length < 2 ^ 64
  numEdges_lt : outs.length < 2 ^ 64
  sizeofEdge_lt : sizeofEdge < 2 ^ 64
  dst_fits : ∀ d ∈ outs, d < 256 ^ version.dstWidth

namespace GrGraph

variable (G : GrGraph)

/-- The node count. -/
def numNodes : ℕ := G.outIdx.length

/-- The edge count. -/
def numEdges : ℕ := G.outs.length

/-- The first edge of node `n`: the end of node `n - 1`. -/
def edgeBegin (n : ℕ) : ℕ := if n = 0 then 0 else G.outIdx.getD (n - 1) 0

/-- The end of node `n`'s edges. -/
def edgeEnd (n : ℕ) : ℕ := G.outIdx.getD n 0

/-- The data of edge `e`. -/
def edgeDataAt (e : ℕ) : List UInt8 := readBytes G.edgeData (G.sizeofEdge * e) G.sizeofEdge

/-- The four header words. -/
def header : List ℕ := [G.version.toNat, G.sizeofEdge, G.numNodes, G.numEdges]

/-- The padding after the destinations: one destination's width when the edge count is odd. -/
def padding : List UInt8 := List.replicate (G.version.dstWidth * (G.numEdges % 2)) 0

/-- The offset of the edge data. -/
def edgeDataOffset : ℕ := 8 * 4 + 8 * G.numNodes + G.version.dstWidth * (G.numEdges + G.numEdges % 2)

/-- **The file**: header, node data, destinations, padding, edge data. -/
def image : List UInt8 :=
  leArray 8 G.header ++ leArray 8 G.outIdx ++ leArray G.version.dstWidth G.outs ++ G.padding ++
    G.edgeData

/-! ### The CSR -/

theorem le_getLastD_of_pairwise {l : List ℕ} (h : l.Pairwise (· ≤ ·)) {x : ℕ} (hx : x ∈ l) :
    x ≤ l.getLastD 0 := by
  obtain ⟨i, hi, rfl⟩ := List.getElem_of_mem hx
  have hlast : l.getLastD 0 = l[l.length - 1] := by
    rw [List.getLastD_eq_getLast?, List.getLast?_eq_getElem?, List.getElem?_eq_getElem (by omega)]
    rfl
  rw [hlast]
  rcases Nat.lt_or_ge i (l.length - 1) with hlt | hge
  · exact List.pairwise_iff_getElem.mp h i _ hi (by omega) hlt
  · obtain rfl : i = l.length - 1 := by omega
    exact Nat.le_refl _

theorem outIdx_le_numEdges {x : ℕ} (hx : x ∈ G.outIdx) : x ≤ G.numEdges := by
  rw [numEdges, ← G.outIdx_last]
  exact le_getLastD_of_pairwise G.outIdx_mono hx

theorem edgeBegin_le_numEdges (n : ℕ) : G.edgeBegin n ≤ G.numEdges := by
  unfold edgeBegin
  split_ifs with hn
  · exact Nat.zero_le _
  · rw [List.getD_eq_getElem?_getD]
    cases hget : G.outIdx[n - 1]? with
    | none => exact Nat.zero_le _
    | some x => exact G.outIdx_le_numEdges (List.mem_of_getElem? hget)

/-- The nodes' edges end at the last edge. -/
theorem edgeBegin_numNodes : G.edgeBegin G.numNodes = G.numEdges := by
  have hlast : G.outIdx.getLastD 0 = G.outIdx.getD (G.numNodes - 1) 0 := by
    rw [List.getLastD_eq_getLast?, List.getLast?_eq_getElem?, List.getD_eq_getElem?_getD,
      numNodes]
  rw [numEdges, ← G.outIdx_last, hlast, edgeBegin]
  split_ifs with h
  · rw [numNodes, List.length_eq_zero_iff] at h
    rw [h, List.getD_nil]
  · rfl

theorem edgeEnd_eq_edgeBegin_succ (n : ℕ) : G.edgeEnd n = G.edgeBegin (n + 1) := by
  rw [edgeEnd, edgeBegin, if_neg (Nat.succ_ne_zero n), Nat.add_sub_cancel]

/-- **The edge ranges are in order**: a later node's first edge is not before an earlier one's. -/
theorem edgeBegin_mono {n m : ℕ} (h : n ≤ m) (hm : m ≤ G.numNodes) :
    G.edgeBegin n ≤ G.edgeBegin m := by
  unfold edgeBegin
  split_ifs with hn hm0 hm0
  · exact Nat.le_refl _
  · exact Nat.zero_le _
  · omega
  · have hlt : m - 1 < G.outIdx.length := by rw [numNodes] at hm; omega
    rw [List.getD_eq_getElem?_getD, List.getD_eq_getElem?_getD, List.getElem?_eq_getElem hlt,
      List.getElem?_eq_getElem (by omega), Option.getD_some, Option.getD_some]
    rcases Nat.lt_or_ge (n - 1) (m - 1) with hlt' | hge
    · exact List.pairwise_iff_getElem.mp G.outIdx_mono _ _ (by omega) hlt hlt'
    · obtain heq : n - 1 = m - 1 := by omega
      simp only [heq, Nat.le_refl]

/-! ### The image -/

theorem length_header : G.header.length = 4 := rfl

@[simp] theorem length_outIdx : G.outIdx.length = G.numNodes := rfl

@[simp] theorem length_outs : G.outs.length = G.numEdges := rfl

theorem header_lt : ∀ x ∈ G.header, x < 256 ^ 8 := by
  have h64 : (2 : ℕ) ^ 64 = 256 ^ 8 := by decide
  intro x hx
  simp only [header, List.mem_cons, List.not_mem_nil, or_false] at hx
  rcases hx with rfl | rfl | rfl | rfl
  · exact G.version.toNat_lt
  · exact h64 ▸ G.sizeofEdge_lt
  · exact h64 ▸ G.numNodes_lt
  · exact h64 ▸ G.numEdges_lt

theorem outIdx_lt : ∀ x ∈ G.outIdx, x < 256 ^ 8 := by
  have h64 : (2 : ℕ) ^ 64 = 256 ^ 8 := by decide
  intro x hx
  have := G.outIdx_le_numEdges hx
  have := G.numEdges_lt
  rw [numEdges] at *
  omega

/-- The bytes before the edge data are `edgeDataOffset` long. -/
theorem length_beforeEdgeData :
    (leArray 8 G.header ++ leArray 8 G.outIdx ++ leArray G.version.dstWidth G.outs ++
      G.padding).length = G.edgeDataOffset := by
  simp only [List.length_append, length_leArray, length_header, padding, List.length_replicate,
    edgeDataOffset, numNodes, numEdges]
  rw [Nat.mul_add]
  omega

theorem length_image : G.image.length = G.edgeDataOffset + G.sizeofEdge * G.numEdges := by
  rw [image, List.length_append, length_beforeEdgeData, G.edgeData_length, numEdges]

/-- The header word `i` of the image. -/
theorem readLE_image_header {i : ℕ} (hi : i < 4) :
    readLE G.image (8 * i) 8 = G.header[i] := by
  have himage : G.image = [] ++ leArray 8 G.header ++
      (leArray 8 G.outIdx ++ leArray G.version.dstWidth G.outs ++ G.padding ++ G.edgeData) := by
    simp only [image, List.nil_append, List.append_assoc]
  have h := readLE_leArray [] (leArray 8 G.outIdx ++ leArray G.version.dstWidth G.outs ++
    G.padding ++ G.edgeData) 8 hi (G.header_lt _ (List.getElem_mem _))
  rw [List.length_nil, Nat.zero_add] at h
  rw [himage]
  exact h

theorem readLE_image_version : readLE G.image 0 8 = G.version.toNat :=
  G.readLE_image_header (i := 0) (by decide)

theorem readLE_image_sizeofEdge : readLE G.image 8 8 = G.sizeofEdge :=
  G.readLE_image_header (i := 1) (by decide)

theorem readLE_image_numNodes : readLE G.image 16 8 = G.numNodes :=
  G.readLE_image_header (i := 2) (by decide)

theorem readLE_image_numEdges : readLE G.image 24 8 = G.numEdges :=
  G.readLE_image_header (i := 3) (by decide)

/-- The end index of node `n` in the image. -/
theorem readLE_image_outIdx {n : ℕ} (hn : n < G.numNodes) :
    readLE G.image (8 * 4 + 8 * n) 8 = G.outIdx[n] := by
  have himage : G.image = leArray 8 G.header ++ leArray 8 G.outIdx ++
      (leArray G.version.dstWidth G.outs ++ G.padding ++ G.edgeData) := by
    simp only [image, List.append_assoc]
  rw [himage]
  exact readLE_leArray _ _ 8 hn (G.outIdx_lt _ (List.getElem_mem _))

/-- The destination of edge `e` in the image. -/
theorem readLE_image_outs {e : ℕ} (he : e < G.numEdges) :
    readLE G.image (8 * 4 + 8 * G.numNodes + G.version.dstWidth * e) G.version.dstWidth =
      G.outs[e] := by
  have himage : G.image = (leArray 8 G.header ++ leArray 8 G.outIdx) ++
      leArray G.version.dstWidth G.outs ++ (G.padding ++ G.edgeData) := by
    simp only [image, List.append_assoc]
  have hpre : (leArray 8 G.header ++ leArray 8 G.outIdx).length = 8 * 4 + 8 * G.numNodes := by
    rw [List.length_append, length_leArray, length_leArray, length_header, numNodes]
  rw [himage, ← hpre]
  exact readLE_leArray _ _ _ he (G.dst_fits _ (List.getElem_mem _))

/-- The data of edge `e` in the image. -/
theorem readBytes_image_edgeData (e : ℕ) :
    readBytes G.image (G.edgeDataOffset + G.sizeofEdge * e) G.sizeofEdge = G.edgeDataAt e := by
  rw [image, ← length_beforeEdgeData, readBytes_append_right]
  rfl

/-! ### Reading the image -/

/-- The `FileGraph` that reads `G`'s image from memory with the given offsets and limit. -/
def fileGraph (nodeOffset edgeOffset lenlimit : ℕ) : FileGraph where
  mem := G.image
  sizeofEdge := G.sizeofEdge
  numNodes := G.numNodes
  numEdges := G.numEdges
  graphVersion := G.version
  outIdx := 8 * 4
  outs := 8 * 4 + 8 * G.numNodes
  edgeData := if lenlimit = 0 ∨ G.numEdges + G.edgeDataOffset < lenlimit then
    some G.edgeDataOffset else none
  nodeOffset := nodeOffset
  edgeOffset := edgeOffset

/-- **`fromMem` reads the image's header and places its arrays where the image has them.** -/
theorem fromMem_image (nodeOffset edgeOffset lenlimit : ℕ) :
    fromMem G.image nodeOffset edgeOffset lenlimit =
      some (G.fileGraph nodeOffset edgeOffset lenlimit) := by
  simp only [fromMem, readLE_image_version, readLE_image_sizeofEdge, readLE_image_numNodes,
    readLE_image_numEdges, GraphVersion.ofNat?_toNat, Option.bind_eq_bind, Option.bind_some,
    fileGraph, edgeDataOffset]
  rfl

/-- Node `n`'s first edge, read from the image with no offsets. -/
theorem edge_begin_fileGraph (lenlimit : ℕ) {n : ℕ} (hn : n ≤ G.numNodes) :
    (G.fileGraph 0 0 lenlimit).edge_begin n = G.edgeBegin n := by
  rcases Nat.eq_zero_or_pos n with rfl | hpos
  · rfl
  · have hlt : n - 1 < G.numNodes := by omega
    have hread : (G.fileGraph 0 0 lenlimit).outIdxAt (n - 1 - 0) = G.outIdx[n - 1] :=
      G.readLE_image_outIdx hlt
    have hle := G.outIdx_le_numEdges (List.getElem_mem hlt)
    show (if 0 < n then min ((G.fileGraph 0 0 lenlimit).outIdxAt (n - 1 - 0)) (0 + G.numEdges) - 0
      else 0) = _
    rw [if_pos hpos, hread, edgeBegin, if_neg (by omega), List.getD_eq_getElem?_getD,
      List.getElem?_eq_getElem hlt, Option.getD_some]
    omega

/-- Node `n`'s end, read from the image with no offsets. -/
theorem edge_end_fileGraph (lenlimit : ℕ) {n : ℕ} (hn : n < G.numNodes) :
    (G.fileGraph 0 0 lenlimit).edge_end n = G.edgeEnd n := by
  have hread : (G.fileGraph 0 0 lenlimit).outIdxAt (n - 0) = G.outIdx[n] :=
    G.readLE_image_outIdx hn
  have hle := G.outIdx_le_numEdges (List.getElem_mem hn)
  show (if 0 ≤ n then min ((G.fileGraph 0 0 lenlimit).outIdxAt (n - 0)) (0 + G.numEdges) - 0
    else 0) = _
  rw [if_pos (Nat.zero_le n), hread, edgeEnd, List.getD_eq_getElem?_getD,
    List.getElem?_eq_getElem hn, Option.getD_some]
  omega

theorem getEdgeDst_fileGraph (nodeOffset edgeOffset lenlimit : ℕ) {e : ℕ}
    (he : e < G.numEdges) :
    (G.fileGraph nodeOffset edgeOffset lenlimit).getEdgeDst e = G.outs[e] :=
  G.readLE_image_outs he

theorem getEdgeData_fileGraph (nodeOffset edgeOffset lenlimit e : ℕ) :
    (G.fileGraph nodeOffset edgeOffset lenlimit).getEdgeData G.sizeofEdge e =
      if lenlimit = 0 ∨ G.numEdges + G.edgeDataOffset < lenlimit then some (G.edgeDataAt e)
      else none := by
  unfold FileGraph.getEdgeData
  split_ifs with hlim
  · rw [fileGraph, if_pos hlim]
    exact congrArg some (G.readBytes_image_edgeData e)
  · rw [fileGraph, if_neg hlim]
    rfl

/-- **Reading a whole file**: `fromFile` on the image reads back every node's edge range and
every edge's destination; it finds the edge data only when there is more of it than one byte per
edge, because `fromMem` asks the file to be longer than `numEdges` past the data's offset. -/
theorem fromFile_spec :
    ∃ g, fromFile G.image = some g ∧ g.numNodes = G.numNodes ∧ g.numEdges = G.numEdges ∧
      (∀ n, n < G.numNodes → g.edge_begin n = G.edgeBegin n ∧ g.edge_end n = G.edgeEnd n) ∧
      ∀ e (he : e < G.numEdges), g.getEdgeDst e = G.outs[e] ∧
        g.getEdgeData G.sizeofEdge e =
          if G.numEdges < G.sizeofEdge * G.numEdges then some (G.edgeDataAt e) else none := by
  refine ⟨G.fileGraph 0 0 G.image.length, G.fromMem_image 0 0 _, rfl, rfl,
    fun n hn => ⟨G.edge_begin_fileGraph _ (Nat.le_of_lt hn), G.edge_end_fileGraph _ hn⟩,
    fun e he => ⟨G.getEdgeDst_fileGraph 0 0 _ he, ?_⟩⟩
  have hlim : (G.image.length = 0 ∨ G.numEdges + G.edgeDataOffset < G.image.length) ↔
      G.numEdges < G.sizeofEdge * G.numEdges := by
    rw [length_image, edgeDataOffset]
    omega
  rw [getEdgeData_fileGraph]
  exact if_congr hlim rfl rfl

/-! ### `rawBlockSize` and `fromArrays` -/

/-- `rawBlockSize` and the image's size differ by the padding that version 2 leaves out. -/
theorem rawBlockSize_add_padding :
    rawBlockSize G.numNodes G.numEdges G.sizeofEdge G.version +
      (if G.version = .v2 then G.version.dstWidth * (G.numEdges % 2) else 0) = G.image.length := by
  rw [length_image, edgeDataOffset]
  have hmod := Nat.mod_two_eq_zero_or_one G.numEdges
  cases G.version with
  | v1 =>
    simp only [rawBlockSize, GraphVersion.dstWidth, reduceCtorEq, if_false]
    split_ifs <;> omega
  | v2 =>
    simp only [rawBlockSize, GraphVersion.dstWidth, if_true]
    omega

theorem rawBlockSize_eq_length_image (h : G.version = .v1 ∨ G.numEdges % 2 = 0) :
    rawBlockSize G.numNodes G.numEdges G.sizeofEdge G.version = G.image.length := by
  have hsize := G.rawBlockSize_add_padding
  rcases h with hv | heven
  · rw [if_neg (by rw [hv]; exact nofun)] at hsize
    exact hsize
  · rw [heven, Nat.mul_zero, ite_self, Nat.add_zero] at hsize
    exact hsize

theorem length_padding :
    G.padding.length = if G.numEdges % 2 ≠ 0 then G.version.dstWidth else 0 := by
  rw [padding, List.length_replicate]
  rcases Nat.mod_two_eq_zero_or_one G.numEdges with h0 | h1
  · rw [h0, if_neg (not_not.mpr rfl), Nat.mul_zero]
  · rw [h1, if_pos Nat.one_ne_zero, Nat.mul_one]

/-- The bytes before the padding. -/
def arrays : List UInt8 :=
  leArray 8 G.header ++ leArray 8 G.outIdx ++ leArray G.version.dstWidth G.outs

theorem length_arrays :
    G.arrays.length = 8 * 4 + 8 * G.numNodes + G.version.dstWidth * G.numEdges := by
  rw [arrays, List.length_append, List.length_append, length_leArray, length_leArray,
    length_leArray, length_header, numNodes, numEdges]

/-- **The first three stores of `fromArrays`** write the header, the node data and the
destinations one after the other into a buffer that has room for them; what is left is the
store of the edge data after the padding, and the read. -/
theorem fromArrays_some_eq_bind (d : List UInt8) (nodeOffset edgeOffset : ℕ)
    (hroom : G.arrays.length ≤ rawBlockSize G.numNodes G.numEdges G.sizeofEdge G.version) :
    fromArrays G.outIdx G.numNodes G.outs G.numEdges (some d) G.sizeofEdge nodeOffset
        edgeOffset G.version =
      (writeBytes (G.arrays ++ List.replicate
          (rawBlockSize G.numNodes G.numEdges G.sizeofEdge G.version - G.arrays.length) 0)
        (G.arrays.length + G.padding.length) (d.take (G.sizeofEdge * G.numEdges))).bind
        fun m => fromMem m nodeOffset edgeOffset 0 := by
  have hN : G.outIdx.take G.numNodes = G.outIdx := List.take_of_length_le (Nat.le_refl _)
  have hE : G.outs.take G.numEdges = G.outs := List.take_of_length_le (Nat.le_refl _)
  have hhdr : [G.version.toNat, G.sizeofEdge, G.numNodes, G.numEdges] = G.header := rfl
  simp only [fromArrays, Option.bind_eq_bind, hN, hE, hhdr]
  set L := rawBlockSize G.numNodes G.numEdges G.sizeofEdge G.version
  have hlen1 : (leArray 8 G.header).length = 8 * 4 := by
    simp only [length_leArray, length_header]
  have hlen2 : (leArray 8 G.header ++ leArray 8 G.outIdx).length = 8 * 4 + 8 * G.numNodes := by
    simp only [List.length_append, length_leArray, length_header, length_outIdx]
  have hlen3 : (leArray G.version.dstWidth G.outs).length = G.version.dstWidth * G.numEdges := by
    simp only [length_leArray, length_outs]
  have harr := G.length_arrays
  have hw1 := writeBytes_append_zeros [] (leArray 8 G.header) (k := L) (by omega)
  rw [List.nil_append, List.nil_append, List.length_nil] at hw1
  have hw2 := writeBytes_append_zeros (leArray 8 G.header) (leArray 8 G.outIdx)
    (k := L - (leArray 8 G.header).length) (by simp only [List.length_append] at hlen2; omega)
  have hw3 := writeBytes_append_zeros (leArray 8 G.header ++ leArray 8 G.outIdx)
    (leArray G.version.dstWidth G.outs)
    (k := L - (leArray 8 G.header).length - (leArray 8 G.outIdx).length)
    (by simp only [List.length_append] at hlen2; omega)
  have hrest : L - (leArray 8 G.header).length - (leArray 8 G.outIdx).length -
      (leArray G.version.dstWidth G.outs).length = L - G.arrays.length := by
    simp only [List.length_append] at hlen2
    omega
  have hfptr : 8 * 4 + 8 * G.numNodes + G.version.dstWidth * G.numEdges +
      (if G.numEdges % 2 ≠ 0 then G.version.dstWidth else 0) =
        G.arrays.length + G.padding.length := by
    rw [harr, length_padding]
  rw [hlen1] at hw1 hw2 hw3 hrest
  rw [hlen2] at hw3
  rw [hw1, Option.bind_some, hw2, Option.bind_some, hw3, Option.bind_some, hrest, hfptr]
  rfl

theorem fromArrays_eq_bind (nodeOffset edgeOffset : ℕ)
    (hroom : G.arrays.length ≤ rawBlockSize G.numNodes G.numEdges G.sizeofEdge G.version) :
    fromArrays G.outIdx G.numNodes G.outs G.numEdges (some G.edgeData) G.sizeofEdge nodeOffset
        edgeOffset G.version =
      (writeBytes (G.arrays ++ List.replicate
          (rawBlockSize G.numNodes G.numEdges G.sizeofEdge G.version - G.arrays.length) 0)
        (G.arrays.length + G.padding.length) G.edgeData).bind
        fun m => fromMem m nodeOffset edgeOffset 0 := by
  have hD : G.edgeData.length ≤ G.sizeofEdge * G.numEdges := Nat.le_of_eq G.edgeData_length
  rw [fromArrays_some_eq_bind G G.edgeData nodeOffset edgeOffset hroom, List.take_of_length_le hD]

/-- **`fromArrays` writes the image and reads it back**, for version 1 and for an even edge
count. -/
theorem fromArrays_eq (h : G.version = .v1 ∨ G.numEdges % 2 = 0) (nodeOffset edgeOffset : ℕ) :
    fromArrays G.outIdx G.numNodes G.outs G.numEdges (some G.edgeData) G.sizeofEdge nodeOffset
      edgeOffset G.version = some (G.fileGraph nodeOffset edgeOffset 0) := by
  have hsize := G.rawBlockSize_eq_length_image h
  have himage : G.image = G.arrays ++ G.padding ++ G.edgeData := rfl
  have hroom : G.arrays.length ≤ rawBlockSize G.numNodes G.numEdges G.sizeofEdge G.version := by
    rw [hsize, himage, List.length_append, List.length_append]
    omega
  -- the rest of the buffer is the padding's zeros and room for the edge data
  have hzeros : List.replicate (rawBlockSize G.numNodes G.numEdges G.sizeofEdge G.version -
      G.arrays.length) (0 : UInt8) = G.padding ++ List.replicate G.edgeData.length 0 := by
    rw [hsize, himage, List.length_append, List.length_append, padding, ← List.replicate_add]
    congr 1
    rw [List.length_replicate]
    omega
  have hw4 := writeBytes_append_zeros (G.arrays ++ G.padding) G.edgeData (Nat.le_refl _)
  rw [fromArrays_eq_bind G nodeOffset edgeOffset hroom, hzeros, ← List.append_assoc,
    ← List.length_append, hw4, Option.bind_some, Nat.sub_self, List.replicate_zero,
    List.append_nil, ← himage, fromMem_image]

/-- A one-node version-1 graph with one edge and eight bytes of data on it. -/
theorem fromArrays_eq_one_edge :
    let G : GrGraph := ⟨.v1, [1], [0], 8, [7, 0, 0, 0, 0, 0, 0, 0], by decide, rfl, by decide, rfl,
      by decide, by decide, by decide, by decide⟩
    (G.version = .v1 ∨ G.numEdges % 2 = 0) ∧
      fromArrays G.outIdx G.numNodes G.outs G.numEdges (some G.edgeData) G.sizeofEdge 0 0
        G.version = some (G.fileGraph 0 0 0) := by
  intro G
  exact ⟨Or.inl rfl, G.fromArrays_eq (Or.inl rfl) 0 0⟩

/-- **For version 2, an odd edge count and edge data, `fromArrays` writes past its buffer**:
it skips a padding destination that `rawBlockSize` did not count, so the edge data's last eight
bytes fall outside the allocation. -/
theorem fromArrays_overflows (hv : G.version = .v2) (hodd : G.numEdges % 2 = 1)
    (hs : 0 < G.sizeofEdge) (nodeOffset edgeOffset : ℕ) :
    fromArrays G.outIdx G.numNodes G.outs G.numEdges (some G.edgeData) G.sizeofEdge nodeOffset
      edgeOffset G.version = none := by
  have harr := G.length_arrays
  have hpad : G.padding.length = 8 := by rw [length_padding, if_pos (by omega), hv]; rfl
  have hsize : rawBlockSize G.numNodes G.numEdges G.sizeofEdge G.version =
      G.arrays.length + G.sizeofEdge * G.numEdges := by
    rw [harr, hv]
    rfl
  have hdata : 0 < G.edgeData.length := by
    rw [G.edgeData_length, length_outs]
    exact Nat.mul_pos hs (by omega)
  have hroom : G.arrays.length ≤ rawBlockSize G.numNodes G.numEdges G.sizeofEdge G.version := by
    rw [hsize]
    exact Nat.le_add_right _ _
  rw [fromArrays_eq_bind G nodeOffset edgeOffset hroom, writeBytes_eq_none, Option.bind_none]
  · exact List.ne_nil_of_length_pos hdata
  · rw [List.length_append, List.length_replicate, hpad, G.edgeData_length, hsize,
      Nat.add_sub_cancel_left, length_outs]
    omega

/-- **`fromArrays` overflows its buffer on a version-2 graph with one edge and edge data**: one
node, a self loop, eight bytes of data. -/
theorem fromArrays_one_edge_overflows :
    fromArrays [1] 1 [0] 1 (some [7, 0, 0, 0, 0, 0, 0, 0]) 8 0 0 .v2 = none :=
  fromArrays_overflows ⟨.v2, [1], [0], 8, [7, 0, 0, 0, 0, 0, 0, 0], by decide, rfl, by decide, rfl,
    by decide, by decide, by decide, by decide⟩ rfl rfl (by decide) 0 0

/-! ### `fromArrays` without edge data -/

/-- The header words, read back from any buffer that starts with them. -/
theorem readLE_header_append (rest : List UInt8) {i : ℕ} (hi : i < 4) :
    readLE (leArray 8 G.header ++ rest) (8 * i) 8 = G.header[i] := by
  have h := readLE_leArray [] rest 8 hi (G.header_lt _ (List.getElem_mem _))
  rwa [List.length_nil, Nat.zero_add, List.nil_append] at h

/-- **`fromMem` reads nothing but the header**: on any buffer that starts with `G`'s header it
places `G`'s arrays, over that buffer. -/
theorem fromMem_header_append (rest : List UInt8) (nodeOffset edgeOffset lenlimit : ℕ) :
    fromMem (leArray 8 G.header ++ rest) nodeOffset edgeOffset lenlimit =
      some { G.fileGraph nodeOffset edgeOffset lenlimit with mem := leArray 8 G.header ++ rest } := by
  have h0 : readLE (leArray 8 G.header ++ rest) 0 8 = G.version.toNat :=
    G.readLE_header_append rest (i := 0) (by decide)
  have h1 : readLE (leArray 8 G.header ++ rest) 8 8 = G.sizeofEdge :=
    G.readLE_header_append rest (i := 1) (by decide)
  have h2 : readLE (leArray 8 G.header ++ rest) 16 8 = G.numNodes :=
    G.readLE_header_append rest (i := 2) (by decide)
  have h3 : readLE (leArray 8 G.header ++ rest) 24 8 = G.numEdges :=
    G.readLE_header_append rest (i := 3) (by decide)
  simp only [fromMem, h0, h1, h2, h3, GraphVersion.ofNat?_toNat, Option.bind_eq_bind,
    Option.bind_some, fileGraph, edgeDataOffset]
  rfl

theorem length_arrays_le :
    G.arrays.length ≤ rawBlockSize G.numNodes G.numEdges G.sizeofEdge G.version := by
  rw [length_arrays]
  cases G.version with
  | v1 =>
    simp only [rawBlockSize, GraphVersion.dstWidth]
    omega
  | v2 =>
    simp only [rawBlockSize, GraphVersion.dstWidth]
    omega

/-- A null edge data pointer stores nothing: it is an empty store. -/
theorem fromArrays_none_eq_some_nil (out_idx : List ℕ) (num_nodes : ℕ) (outs : List ℕ)
    (num_edges sizeof_edge_data node_offset edge_offset : ℕ) (v : GraphVersion) :
    fromArrays out_idx num_nodes outs num_edges none sizeof_edge_data node_offset edge_offset v =
      fromArrays out_idx num_nodes outs num_edges (some []) sizeof_edge_data node_offset
        edge_offset v := by
  simp only [fromArrays, List.take_nil, writeBytes_nil]

/-- **`fromArrays` with a null edge data pointer**, as `FileGraphWriter::finish` calls it: the
arrays, zeros for the rest of the allocation, and the pointers of `G`'s image. -/
theorem fromArrays_none_eq (nodeOffset edgeOffset : ℕ) :
    fromArrays G.outIdx G.numNodes G.outs G.numEdges none G.sizeofEdge nodeOffset edgeOffset
        G.version =
      some { G.fileGraph nodeOffset edgeOffset 0 with
        mem := G.arrays ++ List.replicate
          (rawBlockSize G.numNodes G.numEdges G.sizeofEdge G.version - G.arrays.length) 0 } := by
  rw [fromArrays_none_eq_some_nil, G.fromArrays_some_eq_bind [] nodeOffset edgeOffset
    G.length_arrays_le, List.take_nil, writeBytes_nil, Option.bind_some, arrays,
    List.append_assoc, List.append_assoc, fromMem_header_append]

/-- For version 1 and for an even edge count, what `fromArrays` leaves after the arrays is the
padding and room for the edge data. -/
theorem fromArrays_none_eq_padded (h : G.version = .v1 ∨ G.numEdges % 2 = 0)
    (nodeOffset edgeOffset : ℕ) :
    fromArrays G.outIdx G.numNodes G.outs G.numEdges none G.sizeofEdge nodeOffset edgeOffset
        G.version =
      some { G.fileGraph nodeOffset edgeOffset 0 with
        mem := G.arrays ++ G.padding ++ List.replicate G.edgeData.length 0 } := by
  have hsize := G.rawBlockSize_eq_length_image h
  have himage : G.image = G.arrays ++ G.padding ++ G.edgeData := rfl
  have hzeros : List.replicate (rawBlockSize G.numNodes G.numEdges G.sizeofEdge G.version -
      G.arrays.length) (0 : UInt8) = G.padding ++ List.replicate G.edgeData.length 0 := by
    rw [hsize, himage, List.length_append, List.length_append, padding, ← List.replicate_add]
    congr 1
    rw [List.length_replicate]
    omega
  rw [fromArrays_none_eq, hzeros, List.append_assoc]

/-- **The edge data copied after the padding fills the room left for it**, and the buffer becomes
the image. -/
theorem writeBytes_edgeData :
    writeBytes (G.arrays ++ G.padding ++ List.replicate G.edgeData.length 0) G.edgeDataOffset
      G.edgeData = some G.image := by
  have hoff : (G.arrays ++ G.padding).length = G.edgeDataOffset := G.length_beforeEdgeData
  have h := writeBytes_append_zeros (G.arrays ++ G.padding) G.edgeData (Nat.le_refl _)
  rwa [Nat.sub_self, List.replicate_zero, List.append_nil, hoff] at h

theorem edgeBegin_eq_getElem {n : ℕ} (hn : 0 < n) (hN : n - 1 < G.numNodes) :
    G.edgeBegin n = G.outIdx[n - 1] := by
  rw [edgeBegin, if_neg (by omega), List.getD_eq_getElem?_getD, List.getElem?_eq_getElem hN,
    Option.getD_some]

theorem edgeEnd_eq_getElem {n : ℕ} (hn : n < G.numNodes) : G.edgeEnd n = G.outIdx[n] := by
  rw [edgeEnd, List.getD_eq_getElem?_getD, List.getElem?_eq_getElem hn, Option.getD_some]

/-- `rawBlockSize` is its size without edge data and the edge data. -/
theorem rawBlockSize_eq_add (N E s : ℕ) (v : GraphVersion) :
    rawBlockSize N E s v = rawBlockSize N E 0 v + s * E := by
  cases v <;> simp only [rawBlockSize, Nat.zero_mul, Nat.add_zero]

/-- Where `partFromFile` places the edge data is the image's edge data offset, for version 1
and for an even edge count. -/
theorem rawBlockSize_zero_eq (h : G.version = .v1 ∨ G.numEdges % 2 = 0) :
    rawBlockSize G.numNodes G.numEdges 0 G.version = G.edgeDataOffset := by
  have hsize := G.rawBlockSize_eq_length_image h
  rw [rawBlockSize_eq_add, length_image] at hsize
  omega

/-- For version 2 and an odd edge count it is eight bytes before it. -/
theorem rawBlockSize_zero_add_eight (hv : G.version = .v2) (hodd : G.numEdges % 2 = 1) :
    rawBlockSize G.numNodes G.numEdges 0 G.version + 8 = G.edgeDataOffset := by
  rw [edgeDataOffset, hv]
  simp only [rawBlockSize, GraphVersion.dstWidth]
  omega

/-- The `FileGraph` that `partFromFile` makes of the image for the nodes `[a, b)` and the edges
`[pa, pb)`. -/
def partGraph (a b pa pb : ℕ) : FileGraph where
  mem := G.image
  sizeofEdge := G.sizeofEdge
  numNodes := b - a
  numEdges := pb - pa
  graphVersion := G.version
  outIdx := 4 * 8 + a * 8
  outs := 4 * 8 + G.numNodes * 8 + pa * G.version.dstWidth
  edgeData := if G.sizeofEdge = 0 then none
    else some (rawBlockSize G.numNodes G.numEdges 0 G.version + G.sizeofEdge * pa)
  nodeOffset := a
  edgeOffset := pa

/-- `partFromFile` reads the header from the first 32 bytes and places the part's arrays. -/
theorem partFromFile_image (a b pa pb : ℕ) :
    partFromFile G.image (a, b) (pa, pb) = some (G.partGraph a b pa pb) := by
  -- the header words lie in the 32 bytes mapped first
  have htake : ∀ off, off + 8 ≤ 4 * 8 → readLE (G.image.take (4 * 8)) off 8 = readLE G.image off 8 :=
    fun off hoff => by rw [readLE, readBytes_take _ hoff, readLE]
  simp only [partFromFile, fromMem, htake 0 (by decide), htake 8 (by decide),
    htake 16 (by decide), htake 24 (by decide), readLE_image_version, readLE_image_sizeofEdge,
    readLE_image_numNodes, readLE_image_numEdges, GraphVersion.ofNat?_toNat, Option.bind_eq_bind,
    Option.bind_some, partGraph]

section Part

variable {G} {a b : ℕ} (hb : b ≤ G.numNodes)
include hb

/-- Node `n`'s first edge in the part, shifted by the part's first edge. -/
theorem edge_begin_partGraph {n : ℕ} (han : a ≤ n) (hnb : n < b) :
    (G.partGraph a b (G.edgeBegin a) (G.edgeBegin b)).edge_begin n + G.edgeBegin a =
      G.edgeBegin n := by
  rcases Nat.lt_or_ge a n with hlt | hge
  · have hn : n - 1 < G.numNodes := by omega
    have hread : (G.partGraph a b (G.edgeBegin a) (G.edgeBegin b)).outIdxAt (n - 1 - a) =
        G.outIdx[n - 1] := by
      have hoff : 4 * 8 + a * 8 + 8 * (n - 1 - a) = 8 * 4 + 8 * (n - 1) := by omega
      show readLE G.image (4 * 8 + a * 8 + 8 * (n - 1 - a)) 8 = _
      rw [hoff]
      exact G.readLE_image_outIdx hn
    have hbeg := G.edgeBegin_eq_getElem (n := n) (by omega) hn
    have hlo := G.edgeBegin_mono han (by omega)
    have hhi := G.edgeBegin_mono (Nat.le_of_lt hnb) hb
    show (if a < n then min ((G.partGraph a b (G.edgeBegin a) (G.edgeBegin b)).outIdxAt
      (n - 1 - a)) (G.edgeBegin a + (G.edgeBegin b - G.edgeBegin a)) - G.edgeBegin a else 0) +
        G.edgeBegin a = G.edgeBegin n
    rw [if_pos hlt, hread, ← hbeg]
    omega
  · obtain rfl : n = a := by omega
    show (if n < n then _ else 0) + G.edgeBegin n = G.edgeBegin n
    rw [if_neg (Nat.lt_irrefl n), Nat.zero_add]

/-- Node `n`'s end in the part, shifted by the part's first edge. -/
theorem edge_end_partGraph {n : ℕ} (han : a ≤ n) (hnb : n < b) :
    (G.partGraph a b (G.edgeBegin a) (G.edgeBegin b)).edge_end n + G.edgeBegin a =
      G.edgeEnd n := by
  have hn : n < G.numNodes := by omega
  have hread : (G.partGraph a b (G.edgeBegin a) (G.edgeBegin b)).outIdxAt (n - a) =
      G.outIdx[n] := by
    have hoff : 4 * 8 + a * 8 + 8 * (n - a) = 8 * 4 + 8 * n := by omega
    show readLE G.image (4 * 8 + a * 8 + 8 * (n - a)) 8 = _
    rw [hoff]
    exact G.readLE_image_outIdx hn
  have hend := G.edgeEnd_eq_getElem hn
  have hlo := G.edgeBegin_mono (Nat.le_succ_of_le han) (by omega)
  have hhi := G.edgeBegin_mono (Nat.succ_le_of_lt hnb) hb
  rw [← edgeEnd_eq_edgeBegin_succ] at hlo hhi
  show (if a ≤ n then min ((G.partGraph a b (G.edgeBegin a) (G.edgeBegin b)).outIdxAt (n - a))
    (G.edgeBegin a + (G.edgeBegin b - G.edgeBegin a)) - G.edgeBegin a else 0) + G.edgeBegin a =
      G.edgeEnd n
  rw [if_pos han, hread, ← hend]
  omega

end Part

/-- The destination of edge `e` of the part, at its local index. -/
theorem getEdgeDst_partGraph {a b e : ℕ} (hae : G.edgeBegin a ≤ e) (heb : e < G.edgeBegin b) :
    (G.partGraph a b (G.edgeBegin a) (G.edgeBegin b)).getEdgeDst (e - G.edgeBegin a) =
      G.outs.getD e 0 := by
  have he : e < G.numEdges := Nat.lt_of_lt_of_le heb (G.edgeBegin_le_numEdges b)
  have hoff : 4 * 8 + G.numNodes * 8 + G.edgeBegin a * G.version.dstWidth +
      G.version.dstWidth * (e - G.edgeBegin a) = 8 * 4 + 8 * G.numNodes + G.version.dstWidth * e := by
    rw [Nat.mul_comm (G.edgeBegin a), Nat.add_assoc, ← Nat.mul_add, Nat.add_sub_cancel' hae]
    omega
  show readLE G.image (4 * 8 + G.numNodes * 8 + G.edgeBegin a * G.version.dstWidth +
    G.version.dstWidth * (e - G.edgeBegin a)) G.version.dstWidth = _
  rw [hoff, G.readLE_image_outs he, List.getD_eq_getElem?_getD, List.getElem?_eq_getElem he,
    Option.getD_some]

/-- The data that the part reads for edge `e`, at its local index: from the place
`rawBlockSize(numNodes, numEdges, 0, graphVersion)` gives the edge data. -/
theorem getEdgeData_partGraph {a b pa pb e : ℕ} (hae : pa ≤ e) :
    (G.partGraph a b pa pb).getEdgeData G.sizeofEdge (e - pa) =
      if G.sizeofEdge = 0 then none
      else some (readBytes G.image
        (rawBlockSize G.numNodes G.numEdges 0 G.version + G.sizeofEdge * e) G.sizeofEdge) := by
  unfold FileGraph.getEdgeData
  split_ifs with hs
  · simp only [partGraph, if_pos hs, Option.map_none]
  · simp only [partGraph, if_neg hs, Option.map_some]
    rw [Nat.add_assoc, ← Nat.mul_add, Nat.add_sub_cancel' hae]

/-- **Reading part of a file**: for version 1 and for an even edge count, the part that
`partFromFile` maps for the nodes `[a, b)` and their edges reads back, on each node of the range
and each of its edges, the edge range (shifted by the part's first edge), the destination and
the edge data that the file stores. -/
theorem partFromFile_spec (h : G.version = .v1 ∨ G.numEdges % 2 = 0) {a b : ℕ}
    (hb : b ≤ G.numNodes) :
    ∃ g, partFromFile G.image (a, b) (G.edgeBegin a, G.edgeBegin b) = some g ∧
      g.numNodes = b - a ∧ g.numEdges = G.edgeBegin b - G.edgeBegin a ∧
      (∀ n, a ≤ n → n < b → g.edge_begin n + G.edgeBegin a = G.edgeBegin n ∧
        g.edge_end n + G.edgeBegin a = G.edgeEnd n) ∧
      ∀ e, G.edgeBegin a ≤ e → e < G.edgeBegin b →
        g.getEdgeDst (e - G.edgeBegin a) = G.outs.getD e 0 ∧
        g.getEdgeData G.sizeofEdge (e - G.edgeBegin a) =
          if G.sizeofEdge = 0 then none else some (G.edgeDataAt e) := by
  refine ⟨_, G.partFromFile_image a b _ _, rfl, rfl,
    fun n han hnb => ⟨edge_begin_partGraph hb han hnb, edge_end_partGraph hb han hnb⟩,
    fun e hae heb => ⟨G.getEdgeDst_partGraph hae heb, ?_⟩⟩
  rw [getEdgeData_partGraph G hae, rawBlockSize_zero_eq G h, readBytes_image_edgeData]

/-- A two-node version-1 graph with one edge, read from node 1 on: the part has the one node
and its one edge. -/
theorem partFromFile_spec_second_node :
    let G : GrGraph := ⟨.v1, [0, 1], [1], 0, [], by decide, rfl, by decide, rfl, by decide,
      by decide, by decide, by decide⟩
    (G.version = .v1 ∨ G.numEdges % 2 = 0) ∧ 2 ≤ G.numNodes ∧
      ∃ g, partFromFile G.image (1, 2) (G.edgeBegin 1, G.edgeBegin 2) = some g ∧
        g.numNodes = 1 ∧ g.numEdges = 1 := by
  intro G
  obtain ⟨g, hg, hn, he, -⟩ := G.partFromFile_spec (Or.inl rfl) (a := 1) (Nat.le_refl 2)
  exact ⟨Or.inl rfl, Nat.le_refl 2, g, hg, hn, he⟩

end GrGraph

/-- **A version-2 file with an odd edge count and edge data: `partFromFile` reads the edge data
from the padding.** One node, one edge (a self loop) with eight bytes of data: the part for the
whole range reads the eight zero bytes of padding, where `fromFile` reads the data. -/
theorem partFromFile_misreads :
    let G : GrGraph := ⟨.v2, [1], [0], 8, [7, 0, 0, 0, 0, 0, 0, 0], by decide, rfl, by decide, rfl,
      by decide, by decide, by decide, by decide⟩
    ∃ g g', partFromFile G.image (0, 1) (0, 1) = some g ∧ fromFile G.image = some g' ∧
      g.getEdgeData 8 0 = some (List.replicate 8 0) ∧
      g'.getEdgeData 8 0 = some [7, 0, 0, 0, 0, 0, 0, 0] := by
  intro G
  exact ⟨G.partGraph 0 1 0 1, G.fileGraph 0 0 G.image.length, G.partFromFile_image 0 1 0 1,
    G.fromMem_image 0 0 _, by decide, by decide⟩

end Galois.Graphs
