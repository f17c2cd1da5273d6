import Galois.Graphs.FileGraph

/-!
# `BufferedGraph`: a node range of a `.gr` file read into buffers

`BufferedGraph<EdgeDataType>` reads a version-1 `.gr` file through a stream. `loadPartialGraph`
copies the node data of a node range `[nodeStart, nodeEnd)`, and the destinations and edge data
of its edges `[edgeStart, edgeEnd)`, into three buffers; `edgeBegin`, `edgeEnd`,
`edgeDestination` and `edgeData` then answer for global node and edge ids out of them. CuSP's
`NewDistGraphGeneric` reads each host's range of the file this way.

* `readLoop` -- the loaders' `while (numBytesToLoad > 0)` loop over the stream: it ends when the
  file has the bytes (`readLoop_of_le`) and never ends when it has not (`readLoop_of_lt`);
* `loadOutIndex`, `loadEdgeDest`, `loadEdgeData` -- the three loads, each returning early on an
  empty range; `loadPartialGraph` and `loadGraph` run them;
* `loadGraph_eq_loadPartialGraph` -- the whole-file load is the load of the whole range;
* `loadPartialGraph_image` -- on the image of a version-1 graph `G`, the nodes `[a, b)` and
  their edges `[G.edgeBegin a, G.edgeBegin b)`, the load leaves the state `G.buffered`;
* **`loadPartialGraph_readsBack_iff`** -- every read of the loaded range answers what the file
  stores (`ReadsBack`) exactly when the range has an edge or starts at edge `0`; when it has
  none and starts after edge `0`, its first node's edges begin at `0`
  (`edgeBegin_buffered_of_no_edges`), since `edgeOffset` is only set by a load of destinations;
* `loadGraph_spec` -- the whole-file load reads back every node and edge.

A stream position or a buffer index is below `2 ^ 64` for any file that exists and is a `ℕ`;
`numLocalNodes` is a `uint32_t` and keeps `% 2 ^ 32`. A failing `assert`, a `GALOIS_DIE` and a
read loop that never ends are `none`. The read counters are statistics no read depends on, and
`globalSize` and `globalEdgeSize` are only returned by `size()` and `sizeEdges()`: they are left
out.
-/

namespace Galois.Graphs

open Bytes

/-! ## 1. The model -/

/-- The loaders' `while (numBytesToLoad > 0)` loop, for at most `fuel` passes, from stream
position `pos` with `buf` read so far: a pass reads what is left of the count, and the stream
and the buffer move by `gcount()`. -/
def readLoop (file : List UInt8) : ℕ → ℕ → List UInt8 → ℕ → Option (List UInt8)
  | 0, _, _, _ => none
  | fuel + 1, pos, buf, numBytesToLoad =>
    if 0 < numBytesToLoad then
      let numRead := (readBytes file pos numBytesToLoad).length
      readLoop file fuel (pos + numRead) (buf ++ readBytes file pos numBytesToLoad)
        (numBytesToLoad - numRead)
    else some buf

/-- `seekg(readPosition)` and the read loop for `numBytesToLoad` bytes. A read gets every byte
the file has left up to the count, so two passes end the loop when it ends at all
(`readLoop_eq_readFully`). -/
def readFully (file : List UInt8) (readPosition numBytesToLoad : ℕ) : Option (List UInt8) :=
  readLoop file 2 readPosition [] numBytesToLoad

/-- The fields of a `BufferedGraph` that its loads and reads use. A buffer is the bytes it holds;
`none` is `nullptr`. -/
structure BufferedGraph where
  outIndexBuffer : Option (List UInt8)
  edgeDestBuffer : Option (List UInt8)
  edgeDataBuffer : Option (List UInt8)
  numLocalNodes : ℕ
  numLocalEdges : ℕ
  nodeOffset : ℕ
  edgeOffset : ℕ
  graphLoaded : Bool
  deriving DecidableEq, Repr

namespace BufferedGraph

/-- `BufferedGraph()`: no buffer, every count and offset `0`, nothing loaded. -/
def init : BufferedGraph :=
  ⟨none, none, none, 0, 0, 0, 0, false⟩

/-- `loadOutIndex(graphFile, nodeStart, numNodesToLoad)`: the end indices of the nodes from
`nodeStart` on, read into a new buffer. -/
def loadOutIndex (bg : BufferedGraph) (graphFile : List UInt8) (nodeStart numNodesToLoad : ℕ) :
    Option BufferedGraph :=
  if numNodesToLoad = 0 then some bg
  else if bg.outIndexBuffer.isSome then none
  else do
    let buf ← readFully graphFile ((4 + nodeStart) * 8) (numNodesToLoad * 8)
    some { bg with outIndexBuffer := some buf, nodeOffset := nodeStart }

/-- `loadEdgeDest(graphFile, edgeStart, numEdgesToLoad, numGlobalNodes)`: the `uint32_t`
destinations of the edges from `edgeStart` on, read into a new buffer; `edgeOffset` is set
here. -/
def loadEdgeDest (bg : BufferedGraph) (graphFile : List UInt8)
    (edgeStart numEdgesToLoad numGlobalNodes : ℕ) : Option BufferedGraph :=
  if numEdgesToLoad = 0 then some bg
  else if bg.edgeDestBuffer.isSome then none
  else do
    let buf ← readFully graphFile ((4 + numGlobalNodes) * 8 + 4 * edgeStart)
      (numEdgesToLoad * 4)
    some { bg with edgeDestBuffer := some buf, edgeOffset := edgeStart }

/-- `loadEdgeData<EdgeType>(graphFile, edgeStart, numEdgesToLoad, numGlobalNodes,
numGlobalEdges)` for an `EdgeType` of `sizeofEdgeTy` bytes (`0` for `void`, whose overload loads
nothing): the data of the edges from `edgeStart` on, after the destinations and the padding
word of an odd edge count. -/
def loadEdgeData (sizeofEdgeTy : ℕ) (bg : BufferedGraph) (graphFile : List UInt8)
    (edgeStart numEdgesToLoad numGlobalNodes numGlobalEdges : ℕ) : Option BufferedGraph :=
  if sizeofEdgeTy = 0 then some bg
  else if numEdgesToLoad = 0 then some bg
  else if bg.edgeDataBuffer.isSome then none
  else do
    let baseReadPosition := (4 + numGlobalNodes) * 8 + 4 * numGlobalEdges +
      if numGlobalEdges % 2 ≠ 0 then 4 else 0
    let buf ← readFully graphFile (baseReadPosition + sizeofEdgeTy * edgeStart)
      (numEdgesToLoad * sizeofEdgeTy)
    some { bg with edgeDataBuffer := some buf }

/-- `loadPartialGraph(filename, nodeStart, nodeEnd, edgeStart, edgeEnd, numGlobalNodes,
numGlobalEdges)`: the three loads for the node range and its edge range. -/
def loadPartialGraph (sizeofEdgeTy : ℕ) (bg : BufferedGraph) (graphFile : List UInt8)
    (nodeStart nodeEnd edgeStart edgeEnd numGlobalNodes numGlobalEdges : ℕ) :
    Option BufferedGraph :=
  -- the `GALOIS_DIE` of a second load and the two `assert`s on the ranges
  if bg.graphLoaded ∨ nodeEnd < nodeStart ∨ edgeEnd < edgeStart then none
  else do
    let numLocalNodes := (nodeEnd - nodeStart) % 2 ^ 32
    let bg ← loadOutIndex { bg with numLocalNodes := numLocalNodes } graphFile nodeStart
      numLocalNodes
    let numLocalEdges := edgeEnd - edgeStart
    let bg ← loadEdgeDest { bg with numLocalEdges := numLocalEdges } graphFile edgeStart
      numLocalEdges numGlobalNodes
    let bg ← loadEdgeData sizeofEdgeTy bg graphFile edgeStart numLocalEdges numGlobalNodes
      numGlobalEdges
    some { bg with graphLoaded := true }

/-- `loadGraph(filename)`: the counts from the header, then the three loads from the start. -/
def loadGraph (sizeofEdgeTy : ℕ) (bg : BufferedGraph) (graphFile : List UInt8) :
    Option BufferedGraph :=
  if bg.graphLoaded then none
  else do
    -- `numLocalNodes = globalSize = header[2]` goes through two `uint32_t`s
    let globalSize := readLE graphFile 16 8 % 2 ^ 32
    let globalEdgeSize := readLE graphFile 24 8
    let bg ← loadOutIndex { bg with numLocalNodes := globalSize, numLocalEdges := globalEdgeSize }
      graphFile 0 globalSize
    let bg ← loadEdgeDest bg graphFile 0 globalEdgeSize globalSize
    let bg ← loadEdgeData sizeofEdgeTy bg graphFile 0 globalEdgeSize globalSize globalEdgeSize
    some { bg with graphLoaded := true }

/-- `edgeBegin(globalNodeID)`: for a node after the range's first, the end of the node before it,
from the buffer; for the first, `edgeOffset`; `0` when the range is empty. -/
def edgeBegin (bg : BufferedGraph) (globalNodeID : ℕ) : Option ℕ :=
  if !bg.graphLoaded then none
  else if bg.numLocalNodes = 0 then some 0
  else if globalNodeID < bg.nodeOffset ∨ bg.nodeOffset + bg.numLocalNodes ≤ globalNodeID then none
  else
    let localNodeID := globalNodeID - bg.nodeOffset
    if localNodeID ≠ 0 then bg.outIndexBuffer.map fun buf => readLE buf (8 * (localNodeID - 1)) 8
    else some bg.edgeOffset

/-- `edgeEnd(globalNodeID)`: the node's end, from the buffer; `0` when the range is empty. -/
def edgeEnd (bg : BufferedGraph) (globalNodeID : ℕ) : Option ℕ :=
  if !bg.graphLoaded then none
  else if bg.numLocalNodes = 0 then some 0
  else if globalNodeID < bg.nodeOffset ∨ bg.nodeOffset + bg.numLocalNodes ≤ globalNodeID then none
  else bg.outIndexBuffer.map fun buf => readLE buf (8 * (globalNodeID - bg.nodeOffset)) 8

/-- `edgeDestination(globalEdgeID)`: the edge's destination, from the buffer; `0` when the range
has no edge. -/
def edgeDestination (bg : BufferedGraph) (globalEdgeID : ℕ) : Option ℕ :=
  if !bg.graphLoaded then none
  else if bg.numLocalEdges = 0 then some 0
  else if globalEdgeID < bg.edgeOffset ∨ bg.edgeOffset + bg.numLocalEdges ≤ globalEdgeID then none
  else bg.edgeDestBuffer.map fun buf => readLE buf (4 * (globalEdgeID - bg.edgeOffset)) 4

/-- `edgeData(globalEdgeID)` for an `EdgeDataType` of `sizeofEdgeTy` bytes: the edge's data,
from the buffer, and a zero value when the range has no edge. The `void` overload only warns:
it has no data to return. -/
def edgeData (sizeofEdgeTy : ℕ) (bg : BufferedGraph) (globalEdgeID : ℕ) :
    Option (List UInt8) :=
  if sizeofEdgeTy = 0 then some []
  else if !bg.graphLoaded then none
  else if bg.edgeDataBuffer.isNone then none
  else if bg.numLocalEdges = 0 then some (List.replicate sizeofEdgeTy 0)
  else if globalEdgeID < bg.edgeOffset ∨ bg.edgeOffset + bg.numLocalEdges ≤ globalEdgeID then none
  else bg.edgeDataBuffer.map fun buf =>
    readBytes buf (sizeofEdgeTy * (globalEdgeID - bg.edgeOffset)) sizeofEdgeTy

end BufferedGraph

/-! ## 2. The read loop -/

section ReadLoop

variable {file : List UInt8}

/-- Nothing left to read ends the loop. -/
theorem readLoop_zero (fuel pos : ℕ) (buf : List UInt8) :
    readLoop file (fuel + 1) pos buf 0 = some buf := by
  rw [readLoop, if_neg (Nat.lt_irrefl 0)]

/-- At or past the end of the file a read gets nothing, so the loop never ends. -/
theorem readLoop_stuck {pos k : ℕ} (hpos : file.length ≤ pos) (hk : 0 < k) :
    ∀ fuel buf, readLoop file fuel pos buf k = none
  | 0, _ => rfl
  | fuel + 1, buf => by
    have hnil : readBytes file pos k = [] := by
      rw [readBytes, List.drop_eq_nil_of_le hpos, List.take_nil]
    rw [readLoop, if_pos hk]
    simp only [hnil, List.length_nil, Nat.add_zero, List.append_nil, Nat.sub_zero]
    exact readLoop_stuck hpos hk fuel buf

/-- **When the file has the bytes, one pass reads them all** and the next ends the loop. -/
theorem readLoop_of_le {pos k : ℕ} (h : pos + k ≤ file.length) (fuel : ℕ) (buf : List UInt8) :
    readLoop file (fuel + 2) pos buf k = some (buf ++ readBytes file pos k) := by
  rcases Nat.eq_zero_or_pos k with rfl | hk
  · rw [readLoop_zero, readBytes, List.take_zero, List.append_nil]
  · have hlen : (readBytes file pos k).length = k := by
      rw [length_readBytes]
      omega
    rw [readLoop, if_pos hk]
    simp only [hlen, Nat.sub_self]
    rw [readLoop_zero]

/-- **When it has not, the loop never ends**: the first pass reads up to the end of the file,
and every pass after it reads nothing. -/
theorem readLoop_of_lt {pos k : ℕ} (hk : 0 < k) (h : file.length < pos + k) :
    ∀ fuel buf, readLoop file fuel pos buf k = none
  | 0, _ => rfl
  | fuel + 1, buf => by
    have hlen := length_readBytes file pos k
    rw [readLoop, if_pos hk]
    exact readLoop_stuck (by omega) (by omega) fuel _

theorem readFully_of_le {pos n : ℕ} (h : pos + n ≤ file.length) :
    readFully file pos n = some (readBytes file pos n) := by
  rw [readFully, readLoop_of_le h 0, List.nil_append]

/-- Two passes are as good as any number of them: `readFully` is the loop itself. -/
theorem readLoop_eq_readFully {fuel : ℕ} (hfuel : 2 ≤ fuel) (pos n : ℕ) :
    readLoop file fuel pos [] n = readFully file pos n := by
  obtain ⟨fuel, rfl⟩ : ∃ f, fuel = f + 2 := ⟨fuel - 2, by omega⟩
  rcases Nat.eq_zero_or_pos n with rfl | hn
  · rw [readFully, readLoop_zero, readLoop_zero]
  · by_cases h : pos + n ≤ file.length
    · rw [readLoop_of_le h, readFully_of_le h, List.nil_append]
    · rw [readFully, readLoop_of_lt hn (by omega), readLoop_of_lt hn (by omega)]

end ReadLoop

/-! ## 3. The loads -/

namespace BufferedGraph

variable {bg : BufferedGraph} {graphFile : List UInt8}

/-- A load of node data into an empty buffer, from a file that has the bytes. -/
theorem loadOutIndex_eq {nodeStart n : ℕ} (hnull : bg.outIndexBuffer = none)
    (hfit : (4 + nodeStart) * 8 + n * 8 ≤ graphFile.length) :
    bg.loadOutIndex graphFile nodeStart n = some { bg with
      outIndexBuffer := if n = 0 then none
        else some (readBytes graphFile ((4 + nodeStart) * 8) (n * 8))
      nodeOffset := if n = 0 then bg.nodeOffset else nodeStart } := by
  unfold loadOutIndex
  by_cases hn : n = 0
  · rw [if_pos hn, if_pos hn, if_pos hn, ← hnull]
  · simp only [if_neg hn, hnull, Option.isSome_none, Bool.false_eq_true, if_false,
      readFully_of_le hfit, Option.bind_eq_bind, Option.bind_some]

/-- A load of destinations into an empty buffer, from a file that has the bytes. -/
theorem loadEdgeDest_eq {edgeStart n numGlobalNodes : ℕ} (hnull : bg.edgeDestBuffer = none)
    (hfit : (4 + numGlobalNodes) * 8 + 4 * edgeStart + n * 4 ≤ graphFile.length) :
    bg.loadEdgeDest graphFile edgeStart n numGlobalNodes = some { bg with
      edgeDestBuffer := if n = 0 then none
        else some (readBytes graphFile ((4 + numGlobalNodes) * 8 + 4 * edgeStart) (n * 4))
      edgeOffset := if n = 0 then bg.edgeOffset else edgeStart } := by
  unfold loadEdgeDest
  by_cases hn : n = 0
  · rw [if_pos hn, if_pos hn, if_pos hn, ← hnull]
  · simp only [if_neg hn, hnull, Option.isSome_none, Bool.false_eq_true, if_false,
      readFully_of_le hfit, Option.bind_eq_bind, Option.bind_some]

/-- A load of edge data into an empty buffer, from a file that has the bytes. -/
theorem loadEdgeData_eq {s edgeStart n numGlobalNodes numGlobalEdges : ℕ}
    (hnull : bg.edgeDataBuffer = none)
    (hfit : (4 + numGlobalNodes) * 8 + 4 * numGlobalEdges +
      (if numGlobalEdges % 2 ≠ 0 then 4 else 0) + s * edgeStart + n * s ≤ graphFile.length) :
    bg.loadEdgeData s graphFile edgeStart n numGlobalNodes numGlobalEdges = some { bg with
      edgeDataBuffer := if s = 0 ∨ n = 0 then none
        else some (readBytes graphFile ((4 + numGlobalNodes) * 8 + 4 * numGlobalEdges +
          (if numGlobalEdges % 2 ≠ 0 then 4 else 0) + s * edgeStart) (n * s)) } := by
  unfold loadEdgeData
  by_cases hsn : s = 0 ∨ n = 0
  · rw [if_pos hsn, ← hnull]
    rcases hsn with hs | hn
    · rw [if_pos hs]
    · rw [if_pos hn, ite_self]
  · rw [if_neg hsn]
    simp only [not_or] at hsn
    simp only [if_neg hsn.1, if_neg hsn.2, hnull, Option.isSome_none, Bool.false_eq_true,
      if_false, readFully_of_le hfit, Option.bind_eq_bind, Option.bind_some]

/-- `loadOutIndex` does not read or write the edge count. -/
theorem loadOutIndex_numLocalEdges (nodeStart n m k : ℕ) :
    loadOutIndex { bg with numLocalNodes := m, numLocalEdges := k } graphFile nodeStart n =
      (loadOutIndex { bg with numLocalNodes := m } graphFile nodeStart n).map
        fun bg => { bg with numLocalEdges := k } := by
  unfold loadOutIndex
  split_ifs <;> cases readFully graphFile ((4 + nodeStart) * 8) (n * 8) <;> rfl

/-- **The whole-file load is the load of the whole range**, when the node count read from the
header fits the `uint32_t` it goes through. -/
theorem loadGraph_eq_loadPartialGraph (s : ℕ) (bg : BufferedGraph) (graphFile : List UInt8)
    (hN : readLE graphFile 16 8 < 2 ^ 32) :
    bg.loadGraph s graphFile = bg.loadPartialGraph s graphFile 0 (readLE graphFile 16 8) 0
      (readLE graphFile 24 8) (readLE graphFile 16 8) (readLE graphFile 24 8) := by
  unfold loadGraph loadPartialGraph
  by_cases hl : bg.graphLoaded = true
  · rw [if_pos hl, if_pos (Or.inl hl)]
  · have hguard : ¬(bg.graphLoaded = true ∨ readLE graphFile 16 8 < 0 ∨
        readLE graphFile 24 8 < 0) := by
      rw [not_or, not_or]
      exact ⟨hl, Nat.not_lt_zero _, Nat.not_lt_zero _⟩
    rw [if_neg hl, if_neg hguard, Nat.sub_zero, Nat.sub_zero, Nat.mod_eq_of_lt hN]
    -- `loadGraph` sets the edge count before the node data, `loadPartialGraph` after it
    simp only [Option.bind_eq_bind]
    rw [loadOutIndex_numLocalEdges, Option.bind_map]
    rfl

end BufferedGraph

/-! ## 4. Loading a range of a file -/

namespace GrGraph

open BufferedGraph

variable (G : GrGraph)

/-- The state that `loadPartialGraph` leaves for `G`'s image, the nodes `[a, b)` and the edges
`[pa, pb)`: a buffer and an offset for each range that is not empty. -/
def buffered (a b pa pb : ℕ) : BufferedGraph where
  outIndexBuffer := if b - a = 0 then none
    else some (readBytes G.image ((4 + a) * 8) ((b - a) * 8))
  edgeDestBuffer := if pb - pa = 0 then none
    else some (readBytes G.image ((4 + G.numNodes) * 8 + 4 * pa) ((pb - pa) * 4))
  edgeDataBuffer := if G.sizeofEdge = 0 ∨ pb - pa = 0 then none
    else some (readBytes G.image (G.edgeDataOffset + G.sizeofEdge * pa) ((pb - pa) * G.sizeofEdge))
  numLocalNodes := b - a
  numLocalEdges := pb - pa
  nodeOffset := if b - a = 0 then 0 else a
  edgeOffset := if pb - pa = 0 then 0 else pa
  graphLoaded := true

/-- `loadEdgeData`'s base position is the image's edge data offset, padding word included, for
version 1. -/
theorem edgeDataOffset_eq_base (hv : G.version = .v1) :
    G.edgeDataOffset =
      (4 + G.numNodes) * 8 + 4 * G.numEdges + if G.numEdges % 2 ≠ 0 then 4 else 0 := by
  rw [edgeDataOffset, hv]
  simp only [GraphVersion.dstWidth]
  split_ifs <;> omega

/-- **Loading a range of a version-1 image**: for the nodes `[a, b)` (fewer than `2 ^ 32` of
them) and the edges `[pa, pb)`, `loadPartialGraph` reads each section's part into its buffer. -/
theorem loadPartialGraph_image (hv : G.version = .v1) {a b pa pb : ℕ} (hab : a ≤ b)
    (hb : b ≤ G.numNodes) (hsize : b - a < 2 ^ 32) (hpab : pa ≤ pb) (hpb : pb ≤ G.numEdges) :
    init.loadPartialGraph G.sizeofEdge G.image a b pa pb G.numNodes G.numEdges =
      some (G.buffered a b pa pb) := by
  have hlen := G.length_image
  have hbase := G.edgeDataOffset_eq_base hv
  have hoff : G.edgeDataOffset = 8 * 4 + 8 * G.numNodes + 4 * (G.numEdges + G.numEdges % 2) := by
    rw [edgeDataOffset, hv]
    rfl
  -- the edge data of `[pa, pb)` ends at edge `pb`'s
  have hdata : G.sizeofEdge * pa + (pb - pa) * G.sizeofEdge ≤ G.sizeofEdge * G.numEdges := by
    rw [Nat.mul_comm (pb - pa), ← Nat.mul_add, Nat.add_sub_cancel' hpab]
    exact Nat.mul_le_mul_left _ hpb
  have hguard : ¬(init.graphLoaded = true ∨ b < a ∨ pb < pa) := by
    rw [not_or, not_or]
    exact ⟨Bool.false_ne_true, by omega, by omega⟩
  rw [loadPartialGraph, if_neg hguard, Nat.mod_eq_of_lt hsize]
  simp only [Option.bind_eq_bind]
  rw [loadOutIndex_eq rfl (by omega), Option.bind_some, loadEdgeDest_eq rfl (by omega),
    Option.bind_some, loadEdgeData_eq rfl (by omega), Option.bind_some, ← hbase]
  rfl

/-! ## 5. Reads from the loaded range -/

section Reads

variable {G} {a b : ℕ}

/-- Node `n`'s end, from the node data buffer. -/
theorem edgeEnd_buffered (pa pb : ℕ) (hb : b ≤ G.numNodes) {n : ℕ} (han : a ≤ n) (hnb : n < b) :
    (G.buffered a b pa pb).edgeEnd n = some (G.edgeEnd n) := by
  have hba : b - a ≠ 0 := by omega
  have hrange : ¬(n < a ∨ a + (b - a) ≤ n) := by omega
  have hn : n < G.numNodes := by omega
  have hread : readLE (readBytes G.image ((4 + a) * 8) ((b - a) * 8)) (8 * (n - a)) 8 =
      G.edgeEnd n := by
    rw [readLE_readBytes _ _ _ (by omega), show (4 + a) * 8 + 8 * (n - a) = 8 * 4 + 8 * n by omega,
      G.readLE_image_outIdx hn, G.edgeEnd_eq_getElem hn]
  unfold BufferedGraph.edgeEnd
  simp only [buffered, Bool.not_true, Bool.false_eq_true, if_false, if_neg hba, if_neg hrange,
    Option.map_some, hread]

/-- Node `n`'s first edge: for a node after the range's first, from the node data buffer; for
the first, `edgeOffset`, which is its first edge when the range has an edge or it is edge `0`. -/
theorem edgeBegin_buffered (hb : b ≤ G.numNodes)
    (hoff : G.edgeBegin a = 0 ∨ G.edgeBegin a < G.edgeBegin b) {n : ℕ} (han : a ≤ n)
    (hnb : n < b) :
    (G.buffered a b (G.edgeBegin a) (G.edgeBegin b)).edgeBegin n = some (G.edgeBegin n) := by
  have hba : b - a ≠ 0 := by omega
  have hrange : ¬(n < a ∨ a + (b - a) ≤ n) := by omega
  unfold BufferedGraph.edgeBegin
  simp only [buffered, Bool.not_true, Bool.false_eq_true, if_false, if_neg hba, if_neg hrange]
  rcases Nat.lt_or_ge a n with hlt | hge
  · have hn : n - 1 < G.numNodes := by omega
    have hread : readLE (readBytes G.image ((4 + a) * 8) ((b - a) * 8)) (8 * (n - a - 1)) 8 =
        G.edgeBegin n := by
      rw [readLE_readBytes _ _ _ (by omega),
        show (4 + a) * 8 + 8 * (n - a - 1) = 8 * 4 + 8 * (n - 1) by omega,
        G.readLE_image_outIdx hn, G.edgeBegin_eq_getElem (by omega) hn]
    rw [if_pos (by omega), Option.map_some, hread]
  · obtain rfl : n = a := by omega
    rw [Nat.sub_self, if_neg (fun h => h rfl)]
    rcases hoff with h0 | hlt
    · rw [h0, ite_self]
    · rw [if_neg (by omega)]

/-- Edge `e`'s destination, from the destination buffer. -/
theorem edgeDestination_buffered (hv : G.version = .v1) {pa pb : ℕ} (hpb : pb ≤ G.numEdges)
    {e : ℕ} (hae : pa ≤ e) (heb : e < pb) :
    (G.buffered a b pa pb).edgeDestination e = G.outs[e]? := by
  have hpe : pb - pa ≠ 0 := by omega
  have hrange : ¬(e < pa ∨ pa + (pb - pa) ≤ e) := by omega
  have he : e < G.numEdges := by omega
  have hdst := G.readLE_image_outs he
  rw [hv] at hdst
  simp only [GraphVersion.dstWidth] at hdst
  have hread : readLE (readBytes G.image ((4 + G.numNodes) * 8 + 4 * pa) ((pb - pa) * 4))
      (4 * (e - pa)) 4 = G.outs[e] := by
    rw [readLE_readBytes _ _ _ (by omega),
      show (4 + G.numNodes) * 8 + 4 * pa + 4 * (e - pa) = 8 * 4 + 8 * G.numNodes + 4 * e by omega,
      hdst]
  unfold BufferedGraph.edgeDestination
  simp only [buffered, Bool.not_true, Bool.false_eq_true, if_false, if_neg hpe, if_neg hrange,
    Option.map_some, hread, List.getElem?_eq_getElem he]

/-- Edge `e`'s data, from the edge data buffer. -/
theorem edgeData_buffered {pa pb : ℕ} {e : ℕ} (hae : pa ≤ e) (heb : e < pb) :
    (G.buffered a b pa pb).edgeData G.sizeofEdge e = some (G.edgeDataAt e) := by
  unfold BufferedGraph.edgeData
  by_cases hs : G.sizeofEdge = 0
  · rw [if_pos hs, edgeDataAt, hs, readBytes, List.take_zero]
  · have hsn : ¬(G.sizeofEdge = 0 ∨ pb - pa = 0) := by omega
    have hpe : pb - pa ≠ 0 := by omega
    have hrange : ¬(e < pa ∨ pa + (pb - pa) ≤ e) := by omega
    -- edge `e`'s data lies inside the data of `[pa, pb)`
    have hfit : G.sizeofEdge * (e - pa) + G.sizeofEdge ≤ (pb - pa) * G.sizeofEdge := by
      rw [Nat.mul_comm (pb - pa), ← Nat.mul_succ]
      exact Nat.mul_le_mul_left _ (by omega)
    have hread : readBytes (readBytes G.image (G.edgeDataOffset + G.sizeofEdge * pa)
        ((pb - pa) * G.sizeofEdge)) (G.sizeofEdge * (e - pa)) G.sizeofEdge = G.edgeDataAt e := by
      rw [readBytes_readBytes _ _ _ hfit, Nat.add_assoc, ← Nat.mul_add, Nat.add_sub_cancel' hae,
        readBytes_image_edgeData]
    simp only [buffered, if_neg hs, if_neg hsn, Option.isNone_some, Bool.not_true,
      Bool.false_eq_true, if_false, if_neg hpe, if_neg hrange, Option.map_some, hread]

/-- **With no edge in the range, its first node's edges begin at `0`**: `loadEdgeDest` returns
before it sets `edgeOffset`. -/
theorem edgeBegin_buffered_of_no_edges (hab : a < b) (pa : ℕ) :
    (G.buffered a b pa pa).edgeBegin a = some 0 := by
  have hba : b - a ≠ 0 := by omega
  have hrange : ¬(a < a ∨ a + (b - a) ≤ a) := by omega
  unfold BufferedGraph.edgeBegin
  simp only [buffered, Bool.not_true, Bool.false_eq_true, if_false, if_neg hba, if_neg hrange,
    Nat.sub_self, ne_eq, not_true_eq_false, if_true]

/-- With no edge in the range, every edge's destination reads `0`. -/
theorem edgeDestination_buffered_of_no_edges (a b pa e : ℕ) :
    (G.buffered a b pa pa).edgeDestination e = some 0 := by
  unfold BufferedGraph.edgeDestination
  simp only [buffered, Bool.not_true, Bool.false_eq_true, if_false, Nat.sub_self, if_true]

end Reads

/-! ## 6. What a load reads back -/

/-- `bg` answers for the nodes `[a, b)` what `G` stores: each node's first edge and end, and the
destination and data of each edge of the range. -/
structure ReadsBack (bg : BufferedGraph) (a b : ℕ) : Prop where
  begin_eq : ∀ n, a ≤ n → n < b → bg.edgeBegin n = some (G.edgeBegin n)
  end_eq : ∀ n, a ≤ n → n < b → bg.edgeEnd n = some (G.edgeEnd n)
  dst_eq : ∀ e, G.edgeBegin a ≤ e → e < G.edgeBegin b → bg.edgeDestination e = G.outs[e]?
  data_eq : ∀ e, G.edgeBegin a ≤ e → e < G.edgeBegin b →
    bg.edgeData G.sizeofEdge e = some (G.edgeDataAt e)

section Spec

variable {G} {a b : ℕ}

theorem readsBack_buffered (hv : G.version = .v1) (hb : b ≤ G.numNodes)
    (hoff : G.edgeBegin a = 0 ∨ G.edgeBegin a < G.edgeBegin b) :
    G.ReadsBack (G.buffered a b (G.edgeBegin a) (G.edgeBegin b)) a b where
  begin_eq _ han hnb := edgeBegin_buffered hb hoff han hnb
  end_eq _ han hnb := edgeEnd_buffered _ _ hb han hnb
  dst_eq _ hae heb := edgeDestination_buffered hv (G.edgeBegin_le_numEdges b) hae heb
  data_eq _ hae heb := edgeData_buffered hae heb

theorem not_readsBack_buffered (hab : a < b) (hpos : 0 < G.edgeBegin a)
    (heq : G.edgeBegin a = G.edgeBegin b) :
    ¬G.ReadsBack (G.buffered a b (G.edgeBegin a) (G.edgeBegin b)) a b := by
  intro h
  have hfirst := h.begin_eq a (Nat.le_refl a) hab
  rw [← heq, edgeBegin_buffered_of_no_edges hab] at hfirst
  have h0 : 0 = G.edgeBegin a := Option.some.inj hfirst
  omega

/-- **Loading a node range of a version-1 file reads it back exactly when the range has an edge
or starts at edge `0`**: otherwise its first node's edges begin at `0`. -/
theorem loadPartialGraph_readsBack_iff (hv : G.version = .v1) (hab : a < b)
    (hb : b ≤ G.numNodes) (hsize : b - a < 2 ^ 32) :
    ∃ bg, BufferedGraph.init.loadPartialGraph G.sizeofEdge G.image a b (G.edgeBegin a)
        (G.edgeBegin b) G.numNodes G.numEdges = some bg ∧
      (G.ReadsBack bg a b ↔ G.edgeBegin a = 0 ∨ G.edgeBegin a < G.edgeBegin b) := by
  have hmono := G.edgeBegin_mono (Nat.le_of_lt hab) hb
  refine ⟨_, G.loadPartialGraph_image hv (Nat.le_of_lt hab) hb hsize hmono
    (G.edgeBegin_le_numEdges b), fun h => ?_, readsBack_buffered hv hb⟩
  by_contra hne
  rw [not_or] at hne
  exact not_readsBack_buffered hab (Nat.pos_of_ne_zero hne.1) (by omega) h

end Spec

/-- Two nodes with one edge each, loaded for node 1: its edge is read back. -/
theorem loadPartialGraph_readsBack_second_node :
    let G : GrGraph := ⟨.v1, [1, 2], [1, 0], 0, [], by decide, rfl, by decide, rfl, by decide,
      by decide, by decide, by decide⟩
    ∃ bg, BufferedGraph.init.loadPartialGraph G.sizeofEdge G.image 1 2 (G.edgeBegin 1)
        (G.edgeBegin 2) G.numNodes G.numEdges = some bg ∧
      (G.ReadsBack bg 1 2 ↔ G.edgeBegin 1 = 0 ∨ G.edgeBegin 1 < G.edgeBegin 2) := by
  intro G
  exact G.loadPartialGraph_readsBack_iff rfl (by decide) (by decide) (by decide)

/-- **The whole-file load reads back a version-1 file** with fewer than `2 ^ 32` nodes. -/
theorem loadGraph_spec (hv : G.version = .v1) (hN : G.numNodes < 2 ^ 32) :
    ∃ bg, BufferedGraph.init.loadGraph G.sizeofEdge G.image = some bg ∧
      G.ReadsBack bg 0 G.numNodes := by
  have h0 : G.edgeBegin 0 = 0 := rfl
  refine ⟨_, ?_, readsBack_buffered hv (Nat.le_refl _) (Or.inl h0)⟩
  rw [loadGraph_eq_loadPartialGraph _ _ _ (by rw [readLE_image_numNodes]; exact hN),
    readLE_image_numNodes, readLE_image_numEdges, h0, edgeBegin_numNodes]
  exact G.loadPartialGraph_image hv (Nat.zero_le _) (Nat.le_refl _) (by omega) (Nat.zero_le _)
    (Nat.le_refl _)

theorem loadGraph_spec_two_nodes :
    let G : GrGraph := ⟨.v1, [1, 1], [1], 0, [], by decide, rfl, by decide, rfl, by decide,
      by decide, by decide, by decide⟩
    ∃ bg, BufferedGraph.init.loadGraph G.sizeofEdge G.image = some bg ∧ G.ReadsBack bg 0 2 := by
  intro G
  exact G.loadGraph_spec rfl (by decide)

end GrGraph

/-- **A range with no edge after an edge reads an edge that is not there.** Two nodes, node 0
with one edge `0 → 1`: loaded for node 1 alone, node 1's edges run from `0` to `1` where the
file gives it none, and that edge's destination reads `0` where the file's is `1`. -/
theorem loadPartialGraph_no_edges :
    let G : GrGraph := ⟨.v1, [1, 1], [1], 0, [], by decide, rfl, by decide, rfl, by decide,
      by decide, by decide, by decide⟩
    ∃ bg, BufferedGraph.init.loadPartialGraph 0 G.image 1 2 (G.edgeBegin 1) (G.edgeBegin 2)
        G.numNodes G.numEdges = some bg ∧
      G.edgeBegin 1 = 1 ∧ G.edgeEnd 1 = 1 ∧ bg.edgeBegin 1 = some 0 ∧ bg.edgeEnd 1 = some 1 ∧
      bg.edgeDestination 0 = some 0 ∧ G.outs[0]? = some 1 := by
  intro G
  exact ⟨G.buffered 1 2 (G.edgeBegin 1) (G.edgeBegin 2),
    G.loadPartialGraph_image rfl (by decide) (by decide) (by decide) (by decide) (by decide),
    rfl, rfl, GrGraph.edgeBegin_buffered_of_no_edges (by decide) 1,
    GrGraph.edgeEnd_buffered _ _ (by decide) (by decide) (by decide),
    GrGraph.edgeDestination_buffered_of_no_edges 1 2 1 0, rfl⟩

end Galois.Graphs
