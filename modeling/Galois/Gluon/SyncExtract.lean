import Galois.Compaction
import Galois.Gluon.Message

/-!
# Gluon synchronization, sender side (GluonSubstrate.h)

The CPU path of `syncExtract` (bitset variant) for one destination host, with the helpers it
calls:

* `getOffsetsFromBitset` -- the two-pass per-thread compaction of the set bits of
  `bit_set_comm`, an instance of `Compaction.writePass`, with its block bounds and counts in
  `unsigned int`; while `size + nthreads` fits in 32 bits none of them wraps
  (`offsetsBlock_eq_cutBlock`, `getOffsetsFromBitset_eq`);
* `getBitsetAndOffsets` -- marks the positions of `indices` whose node is set in
  `bitset_compute`, gathers them and picks the data mode;
* `extractSubset`, `extractWrapper` -- read the field of the chosen nodes (a reduce resets it);
* `convertLIDToGID`, `serializeMessage` -- lay the message out by mode;
* `syncExtract` -- all of it, with the scratch members `syncBitset`, `syncOffsets` and the static
  `val_vec` carried in and out (`Host`).

What the receiver needs from a message is `syncExtract_items`: per mode, the items it holds
in terms of the hit positions `hits` of the shared nodes.
-/

namespace Galois.Gluon

open Compaction

/-- The part of a host the sync code reads and writes: the field data of its local nodes
(`userGraph.getData`), its id maps, its number of active threads, and the scratch buffers
`syncBitset`, `syncOffsets` and the static `val_vec` that persist between calls. -/
structure Host (N V : Type) where
  data : ℕ → N
  getGID : ℕ → ℕ
  getLID : ℕ → ℕ
  nthreads : ℕ
  syncBitset : DynamicBitSet
  syncOffsets : List ℕ
  valVec : List V

variable {N V : Type}

/-! ## 1. `getOffsetsFromBitset` -/

/-- `block_size`: `size / nthreads`, rounded up, in an `unsigned int`. -/
def blockSize (size nthreads : ℕ) : ℕ :=
  (size / nthreads % 2 ^ 32 + if size % nthreads > 0 then 1 else 0) % 2 ^ 32

/-- Thread `tid`'s indices `[start, end)`: `start = tid * block_size` and
`end = (tid + 1) * block_size`, both `unsigned int`s, and `end` cut to `size`. -/
def offsetsBlock (size nthreads tid : ℕ) : List ℕ :=
  let start := tid * blockSize size nthreads % 2 ^ 32
  -- `end`
  let e := (tid + 1) * blockSize size nthreads % 2 ^ 32
  List.range' start ((if e > size then size % 2 ^ 32 else e) - start)

/-- `getOffsetsFromBitset`: count the set bits per thread, take running sums, and if any bit is
set, resize `offsets` to the total and write the set indices; returns the offsets and the
count. With no bit set, `offsets` is left as it was. The counts and their running sums are
`unsigned int`s, and the wrapping additions give the exact running sums modulo `2 ^ 32`. -/
def getOffsetsFromBitset (nthreads : ℕ) (bitset_comm : DynamicBitSet) (offsets : List ℕ) :
    List ℕ × ℕ :=
  let blk := offsetsBlock bitset_comm.size nthreads
  let pre := (prefixSumInPlace (countPass bitset_comm.test blk nthreads)).map (· % 2 ^ 32)
  let bit_set_count := pre.getD (nthreads - 1) 0
  if bit_set_count > 0 then
    (writePass bitset_comm.test id blk pre 0 (resizeArr offsets bit_set_count) nthreads,
      bit_set_count)
  else (offsets, bit_set_count)

section Words

variable {size nthreads : ℕ} (hT : 0 < nthreads) (hsize : size + nthreads ≤ 2 ^ 32)
include hT hsize

/-- While `size + nthreads` fits in 32 bits, `block_size` does not wrap. -/
theorem blockSize_eq :
    blockSize size nthreads = size / nthreads + if size % nthreads > 0 then 1 else 0 := by
  have h := Nat.div_add_mod size nthreads
  have hq : size / nthreads ≤ nthreads * (size / nthreads) := Nat.le_mul_of_pos_left _ hT
  unfold blockSize
  rw [Nat.mod_eq_of_lt (a := size / nthreads) (by omega)]
  split_ifs with hr
  · exact Nat.mod_eq_of_lt (by omega)
  · exact Nat.mod_eq_of_lt (by omega)

/-- `nthreads` blocks of `block_size` reach past `size`, and stay below `size + nthreads`. -/
theorem blockSize_bounds :
    size ≤ nthreads * blockSize size nthreads ∧ nthreads * blockSize size nthreads < 2 ^ 32 := by
  have h := Nat.div_add_mod size nthreads
  have hlt := Nat.mod_lt size hT
  rw [blockSize_eq hT hsize]
  split_ifs with hr
  · rw [Nat.mul_add, Nat.mul_one]
    omega
  · rw [Nat.add_zero]
    omega

/-- The block of a thread below `nthreads` is the block cut at `min (t * block_size) size`: no
bound wraps. -/
theorem offsetsBlock_eq_cutBlock {t : ℕ} (ht : t < nthreads) :
    offsetsBlock size nthreads t =
      cutBlock (fun t => min (t * blockSize size nthreads) size) t := by
  obtain ⟨-, hmul⟩ := blockSize_bounds hT hsize
  unfold offsetsBlock cutBlock
  generalize blockSize size nthreads = bs at hmul
  have h1 : (t + 1) * bs ≤ nthreads * bs := Nat.mul_le_mul_right bs ht
  have h0 : t * bs ≤ (t + 1) * bs := Nat.mul_le_mul_right bs (Nat.le_succ t)
  dsimp only
  rw [Nat.mod_eq_of_lt (a := t * bs) (by omega), Nat.mod_eq_of_lt (a := (t + 1) * bs) (by omega),
    Nat.mod_eq_of_lt (a := size) (by omega)]
  by_cases hts : t * bs ≤ size
  · rw [Nat.min_eq_left hts]
    split_ifs with he
    · rw [Nat.min_eq_right (Nat.le_of_lt he)]
    · rw [Nat.min_eq_left (Nat.le_of_not_lt he)]
  · -- a block past `size` is empty
    rw [if_pos (by omega), Nat.min_eq_right (by omega), Nat.min_eq_right (by omega), Nat.sub_self,
      Nat.sub_eq_zero_of_le (by omega)]
    rfl

/-- The thread blocks cover `[0, size)` in order. -/
theorem flatMap_offsetsBlock :
    (List.range nthreads).flatMap (offsetsBlock size nthreads) = List.range size := by
  have hmono : ∀ s t, s ≤ t →
      min (s * blockSize size nthreads) size ≤ min (t * blockSize size nthreads) size := by
    intro s t hst
    have := Nat.mul_le_mul_right (blockSize size nthreads) hst
    omega
  have hcut := flatMap_cutBlock _ hmono nthreads
  simp only [Nat.zero_mul, Nat.zero_min, Nat.sub_zero] at hcut
  rw [List.flatMap_congr fun t ht => offsetsBlock_eq_cutBlock hT hsize (List.mem_range.mp ht), hcut,
    Nat.min_eq_right (blockSize_bounds hT hsize).1, List.range_eq_range']

end Words

/-- **`getOffsetsFromBitset` gathers the set bits**: whatever the thread count, as long as
`size + nthreads` fits in 32 bits, the count is the number of set bits below the size and, if it
is positive, the offsets are those bits in increasing order. -/
theorem getOffsetsFromBitset_eq (nthreads : ℕ) (hT : 0 < nthreads) (b : DynamicBitSet)
    (hsize : b.size + nthreads ≤ 2 ^ 32) (offsets : List ℕ) :
    (getOffsetsFromBitset nthreads b offsets).2 = ((List.range b.size).filter b.test).length ∧
      (0 < (getOffsetsFromBitset nthreads b offsets).2 →
        (getOffsetsFromBitset nthreads b offsets).1 = (List.range b.size).filter b.test) := by
  have hhits : hitsBefore b.test (offsetsBlock b.size nthreads) nthreads =
      (List.range b.size).filter b.test := by
    rw [hitsBefore, flatMap_offsetsBlock hT hsize]
  -- the running sums count at most `size` bits, so they do not wrap
  have hwrap := map_mod_prefixSum b.test (offsetsBlock b.size nthreads) nthreads (m := 2 ^ 32)
    (by rw [hhits]; exact Nat.lt_of_le_of_lt ((List.filter_sublist).length_le.trans
      (List.length_range ..).le) (by omega))
  have hcount := total_prefixSum b.test (offsetsBlock b.size nthreads) nthreads hT
  rw [hhits] at hcount
  have hsnd : (getOffsetsFromBitset nthreads b offsets).2 =
      ((List.range b.size).filter b.test).length := by
    unfold getOffsetsFromBitset
    dsimp only
    rw [hwrap, hcount]
    split <;> rfl
  refine ⟨hsnd, fun hpos => ?_⟩
  rw [hsnd] at hpos
  unfold getOffsetsFromBitset
  dsimp only
  rw [hwrap, hcount, if_pos hpos, writePass_prefixSum, hhits, List.map_id,
    writeRun_eq _ _ _ (by simp)]
  simp

/-! ## 2. Marking, extracting, laying out -/

/-- The `do_all` of `getBitsetAndOffsets` over the first `k` positions: set bit `n` of `c` when
the node at position `n` is set in `bitset_compute` (the bits are distinct, so the parallel
loop is this sequential one). -/
def markBits (bitset_compute : DynamicBitSet) (indices : List ℕ) (c : DynamicBitSet) (k : ℕ) :
    DynamicBitSet :=
  (List.range k).foldl
    (fun c n => if bitset_compute.test (indices.getD n 0) then c.set n else c) c

/-- `getBitsetAndOffsets`: unless `onlyData` is enforced, clear `bitset_comm`, set bit `n` for
every position `n` of `indices` whose node is set in `bitset_compute` (a `do_all` over distinct
bits), and gather the offsets; then pick the data mode. Returns the bitset, the offsets, the
count and the mode. -/
def getBitsetAndOffsets (enforced : DataCommMode) (sizeofV nthreads : ℕ) (indices : List ℕ)
    (bitset_compute bitset_comm : DynamicBitSet) (offsets : List ℕ) (bit_set_count : ℕ) :
    DynamicBitSet × List ℕ × ℕ × DataCommMode :=
  if enforced ≠ .onlyData then
    let comm := markBits bitset_compute indices bitset_comm.reset indices.length
    let r := getOffsetsFromBitset nthreads comm offsets
    (comm, r.1, r.2, get_data_mode enforced sizeofV r.2 indices.length)
  else
    (bitset_comm, offsets, bit_set_count,
      get_data_mode enforced sizeofV bit_set_count indices.length)

/-- `extractWrapper`: the field value of node `lid`; a reduce also resets the node. -/
def extractWrapper (fn : SyncFn N V) (syncType : SyncType) (data : ℕ → N) (lid : ℕ) :
    V × (ℕ → N) :=
  match syncType with
  | .syncReduce => (fn.extract lid (data lid), Function.update data lid (fn.reset lid (data lid)))
  | .syncBroadcast => (fn.extract lid (data lid), data)

/-- `extractSubset` from `start = 0`: position `n < size` reads node `indices[offset]`, where
`offset` is `n` (identity offsets) or `offsets[n]`, into `val_vec[n]`. -/
def extractSubset (fn : SyncFn N V) (syncType : SyncType) (identity_offsets : Bool)
    (indices : List ℕ) (size : ℕ) (offsets : List ℕ) (val_vec : List V) (data : ℕ → N) :
    List V × (ℕ → N) :=
  (List.range size).foldl
    (fun acc n =>
      let offset := if identity_offsets then n else offsets.getD n 0
      let r := extractWrapper fn syncType acc.2 (indices.getD offset 0)
      (acc.1.set n r.1, r.2))
    (val_vec, data)

/-- `convertLIDToGID`: offset `n` becomes the GID of `indices[offsets[n]]`, cast to 32 bits. -/
def convertLIDToGID (getGID : ℕ → ℕ) (indices offsets : List ℕ) : List ℕ :=
  offsets.map fun o => getGID (indices.getD o 0) % 2 ^ 32

/-- `serializeMessage`: the items of the message, and the resized `offsets` and `val_vec`. -/
def serializeMessage [Inhabited V] (async : Bool) (data_mode : DataCommMode) (bit_set_count : ℕ)
    (getGID : ℕ → ℕ) (indices offsets : List ℕ) (bit_set_comm : DynamicBitSet)
    (val_vec : List V) : List (Item V) × List ℕ × List V :=
  match data_mode with
  | .noData => (if async then [] else [.mode .noData], offsets, val_vec)
  | .gidsData =>
    let offs := convertLIDToGID getGID indices (resizeArr offsets bit_set_count)
    let vv := resizeArr val_vec bit_set_count
    ([.mode .gidsData, .count bit_set_count, .offsets offs, .vals vv], offs, vv)
  | .offsetsData =>
    let offs := resizeArr offsets bit_set_count
    let vv := resizeArr val_vec bit_set_count
    ([.mode .offsetsData, .count bit_set_count, .offsets offs, .vals vv], offs, vv)
  | .bitsetData =>
    let vv := resizeArr val_vec bit_set_count
    ([.mode .bitsetData, .count bit_set_count, .bitset bit_set_comm, .vals vv], offsets, vv)
  | m => ([.mode m, .vals val_vec], offsets, val_vec)

/-- The CPU path of `syncExtract` (bitset variant) towards one host whose shared nodes are
`indices`, counted in a `uint32_t num`: the send buffer, and the host with its data (reset by a
reduce) and scratch buffers updated. The GPU batch extract fails on a CPU, so its branch is not
taken. -/
def syncExtract [Inhabited V] (enforced : DataCommMode) (sizeofV : ℕ) (fn : SyncFn N V) (syncType : SyncType)
    (async : Bool) (host : Host N V) (bitset_compute : DynamicBitSet) (indices : List ℕ) :
    List (Item V) × Host N V :=
  let num := indices.length % 2 ^ 32
  if num > 0 then
    let g := getBitsetAndOffsets enforced sizeofV host.nthreads indices bitset_compute
      (host.syncBitset.resize num) (resizeArr host.syncOffsets num) 0
    let vv0 := resizeArr host.valVec num
    let ex : ℕ × List V × (ℕ → N) :=
      if g.2.2.2 = .onlyData then (num, extractSubset fn syncType true indices num g.2.1 vv0 host.data)
      else if g.2.2.2 ≠ .noData then
        (g.2.2.1, extractSubset fn syncType false indices g.2.2.1 g.2.1 vv0 host.data)
      else (g.2.2.1, vv0, host.data)
    let s := serializeMessage async g.2.2.2 ex.1 host.getGID indices g.2.1 g.1 ex.2.1
    (s.1, { host with data := ex.2.2, syncBitset := g.1, syncOffsets := s.2.1, valVec := s.2.2 })
  else ((if async then [] else [.mode .noData]), host)

/-- The node `extractSubset` reads at position `n`. -/
def subsetLid (identity_offsets : Bool) (indices offsets : List ℕ) (n : ℕ) : ℕ :=
  indices.getD (if identity_offsets then n else offsets.getD n 0) 0

@[simp] theorem extractWrapper_fst (fn : SyncFn N V) (syncType : SyncType) (data : ℕ → N)
    (lid : ℕ) : (extractWrapper fn syncType data lid).1 = fn.extract lid (data lid) := by
  cases syncType <;> rfl

/-- An extract only touches its own node. -/
theorem extractWrapper_snd_ne (fn : SyncFn N V) (syncType : SyncType) (data : ℕ → N)
    {lid l : ℕ} (hl : l ≠ lid) : (extractWrapper fn syncType data lid).2 l = data l := by
  cases syncType with
  | syncReduce => exact Function.update_of_ne hl _ _
  | syncBroadcast => rfl

theorem extractSubset_succ (fn : SyncFn N V) (syncType : SyncType) (io : Bool)
    (indices : List ℕ) (k : ℕ) (offsets : List ℕ) (val_vec : List V) (data : ℕ → N) :
    extractSubset fn syncType io indices (k + 1) offsets val_vec data =
      let acc := extractSubset fn syncType io indices k offsets val_vec data
      let r := extractWrapper fn syncType acc.2 (subsetLid io indices offsets k)
      (acc.1.set k r.1, r.2) := by
  rw [extractSubset, List.range_succ, List.foldl_append]
  rfl

/-- **`extractSubset` reads each chosen node once, before any reset.** On distinct nodes, the
first `k` entries of `val_vec` become the field values of the nodes at positions `0 .. k - 1`,
the rest is untouched, and a node not read keeps its data. -/
theorem extractSubset_spec (fn : SyncFn N V) (syncType : SyncType) (io : Bool)
    (indices offsets : List ℕ) (val_vec : List V) (data : ℕ → N) (k : ℕ)
    (hk : k ≤ val_vec.length) (hnd : ((List.range k).map (subsetLid io indices offsets)).Nodup) :
    let r := extractSubset fn syncType io indices k offsets val_vec data
    r.1 = (List.range k).map (fun n => fn.extract (subsetLid io indices offsets n)
        (data (subsetLid io indices offsets n))) ++ val_vec.drop k ∧
      ∀ l, l ∉ (List.range k).map (subsetLid io indices offsets) → r.2 l = data l := by
  induction k with
  | zero => exact ⟨by simp [extractSubset], fun _ _ => rfl⟩
  | succ k ih =>
    rw [List.range_succ, List.map_append, List.nodup_append] at hnd
    obtain ⟨hnd', -, hfresh⟩ := hnd
    obtain ⟨hvals, hdata⟩ := ih (by omega) hnd'
    set lidOf := subsetLid io indices offsets
    -- the node read at step `k` was not reset by an earlier step
    have hk_fresh : lidOf k ∉ (List.range k).map lidOf := fun h =>
      hfresh _ h _ (List.mem_singleton_self _) rfl
    have hcur := hdata (lidOf k) hk_fresh
    rw [extractSubset_succ]
    dsimp only
    refine ⟨?_, fun l hl => ?_⟩
    · rw [hvals, extractWrapper_fst, hcur, List.set_append_right _ _ (by simp),
        List.length_map, List.length_range, Nat.sub_self,
        List.drop_eq_getElem_cons (by omega), List.set_cons_zero, List.range_succ,
        List.map_append, List.append_assoc]
      rfl
    · rw [List.range_succ, List.map_append, List.mem_append, not_or] at hl
      have hne : l ≠ lidOf k := fun e => hl.2 (by simp [e])
      rw [extractWrapper_snd_ne _ _ _ hne, hdata l hl.1]

/-! ## 3. What the message holds -/

/-- The positions of `indices` whose node is set in `bitset_compute`, in increasing order. -/
def hits (bitset_compute : DynamicBitSet) (indices : List ℕ) : List ℕ :=
  (List.range indices.length).filter fun n => bitset_compute.test (indices.getD n 0)

/-- After marking the first `k` positions of a cleared well-formed bitset of `num ≥ k` bits,
bit `j` is set exactly when `j < k` and the node at position `j` is set. -/
theorem markBits_test (bc : DynamicBitSet) (indices : List ℕ) (c : DynamicBitSet) (hc : c.WF)
    (hclr : ∀ j, c.test j = false) (k : ℕ) (hk : k ≤ c.num_bits) :
    (markBits bc indices c k).WF ∧ (markBits bc indices c k).num_bits = c.num_bits ∧
      ∀ j, (markBits bc indices c k).test j = (decide (j < k) && bc.test (indices.getD j 0)) := by
  induction k with
  | zero => exact ⟨hc, rfl, fun j => by simp [markBits, hclr]⟩
  | succ k ih =>
    obtain ⟨hwf, hnum, htest⟩ := ih (by omega)
    have hstep : markBits bc indices c (k + 1) =
        if bc.test (indices.getD k 0) then (markBits bc indices c k).set k
        else markBits bc indices c k := by
      rw [markBits, List.range_succ, List.foldl_append]
      rfl
    rw [hstep]
    split
    · rename_i hset
      have hword := DynamicBitSet.word_lt hwf (i := k) (by omega)
      refine ⟨DynamicBitSet.wf_set hwf k, by rw [DynamicBitSet.num_bits_set, hnum], fun j => ?_⟩
      rw [DynamicBitSet.test_set _ _ _ hword, htest]
      by_cases hj : j = k
      · subst hj
        rw [hset]
        simp
      · have hj' : (j < k + 1) = (j < k) := propext ⟨fun h => by omega, fun h => by omega⟩
        simp [Ne.symm hj, hj']
    · rename_i hset
      rw [Bool.not_eq_true] at hset
      refine ⟨hwf, hnum, fun j => ?_⟩
      rw [htest]
      by_cases hj : j = k
      · subst hj
        rw [hset]
        simp
      · have hj' : (j < k + 1) = (j < k) := propext ⟨fun h => by omega, fun h => by omega⟩
        simp [hj']

/-- The bits `markBits` leaves set are the hits. -/
theorem filter_markBits (bc : DynamicBitSet) (indices : List ℕ) (c : DynamicBitSet)
    (hc : c.WF) (hclr : ∀ j, c.test j = false) (hnum : c.num_bits = indices.length) :
    let m := markBits bc indices c indices.length
    m.size = indices.length ∧ (List.range m.size).filter m.test = hits bc indices := by
  obtain ⟨-, hn, ht⟩ := markBits_test bc indices c hc hclr indices.length (Nat.le_of_eq hnum.symm)
  refine ⟨by rw [DynamicBitSet.size, hn, hnum], ?_⟩
  rw [DynamicBitSet.size, hn, hnum, hits]
  apply List.filter_congr
  intro j hj
  rw [ht, decide_eq_true (List.mem_range.mp hj), Bool.true_and]

/-- **`getBitsetAndOffsets` from a resized bitset**: unless `onlyData` is enforced, the count
is the number of hits, the offsets (if any) are the hits, the bitset's set bits below its size
are the hits, and the mode is `get_data_mode` of the count. -/
theorem getBitsetAndOffsets_eq (enforced : DataCommMode) (henf : enforced ≠ .onlyData)
    (sizeofV nthreads : ℕ) (hT : 0 < nthreads) (indices : List ℕ)
    (hlen : indices.length + nthreads ≤ 2 ^ 32) (bc comm0 : DynamicBitSet) (offs0 : List ℕ) :
    let g := getBitsetAndOffsets enforced sizeofV nthreads indices bc
      (comm0.resize indices.length) offs0 0
    g.1.size = indices.length ∧ (List.range g.1.size).filter g.1.test = hits bc indices ∧
      g.2.2.1 = (hits bc indices).length ∧ (0 < g.2.2.1 → g.2.1 = hits bc indices) ∧
      g.2.2.2 = get_data_mode enforced sizeofV (hits bc indices).length indices.length := by
  have hc : (comm0.resize indices.length).reset.WF := by
    simpa [DynamicBitSet.WF, DynamicBitSet.reset] using DynamicBitSet.wf_resize comm0 indices.length
  obtain ⟨hsize, hfilt⟩ := filter_markBits bc indices _ hc
    (DynamicBitSet.test_reset _) rfl
  obtain ⟨hcount, hoffs⟩ := getOffsetsFromBitset_eq nthreads hT
    (markBits bc indices (comm0.resize indices.length).reset indices.length) (by rw [hsize]; exact hlen) offs0
  rw [hfilt] at hcount hoffs
  simp only [getBitsetAndOffsets, henf, ne_eq, not_false_eq_true, if_true]
  exact ⟨hsize, hfilt, hcount, hoffs,
    congrArg (fun c => get_data_mode enforced sizeofV c indices.length) hcount⟩

/-- Hit positions are positions of `indices`. -/
theorem lt_of_mem_hits {bc : DynamicBitSet} {indices : List ℕ} {i : ℕ}
    (h : i ∈ hits bc indices) : i < indices.length :=
  List.mem_range.mp (List.mem_filter.mp h).1

/-- Distinct shared nodes stay distinct when only the hits are read. -/
theorem nodup_map_hits (bc : DynamicBitSet) (indices : List ℕ) (hnd : indices.Nodup) :
    ((hits bc indices).map fun i => indices.getD i 0).Nodup := by
  have hsub : ((hits bc indices).map fun i => indices.getD i 0).Sublist
      ((List.range indices.length).map fun i => indices.getD i 0) :=
    List.filter_sublist.map _
  have hall : ((List.range indices.length).map fun i => indices.getD i 0) = indices := by
    simpa using map_range_getD indices 0 id (Nat.le_refl _)
  rw [hall] at hsub
  exact hsub.nodup hnd

/-- With identity offsets over every position, `extractSubset` fills a buffer of the same
length with the field values of `indices`. -/
theorem extractSubset_identity (fn : SyncFn N V) (syncType : SyncType)
    (indices offsets : List ℕ) (val_vec : List V) (data : ℕ → N)
    (hv : val_vec.length = indices.length) (hnd : indices.Nodup) :
    (extractSubset fn syncType true indices indices.length offsets val_vec data).1 =
      (List.range indices.length).map
        fun i => fn.extract (indices.getD i 0) (data (indices.getD i 0)) := by
  have hlid : (List.range indices.length).map (fun n => subsetLid true indices offsets n) =
      indices := by
    simpa [subsetLid] using map_range_getD indices 0 id (Nat.le_refl _)
  obtain ⟨hvals, -⟩ := extractSubset_spec fn syncType true indices offsets val_vec data
    indices.length (Nat.le_of_eq hv.symm) (by rw [hlid]; exact hnd)
  rw [hvals, List.drop_eq_nil_of_le (Nat.le_of_eq hv), List.append_nil]
  rfl

/-- With the hits as offsets, `extractSubset` writes the field values of the hit nodes in
front of the buffer. -/
theorem extractSubset_hits [Inhabited V] (fn : SyncFn N V) (syncType : SyncType)
    (bc : DynamicBitSet) (indices : List ℕ) (val_vec : List V) (data : ℕ → N)
    (hv : (hits bc indices).length ≤ val_vec.length) (hnd : indices.Nodup) :
    resizeArr (extractSubset fn syncType false indices (hits bc indices).length
        (hits bc indices) val_vec data).1 (hits bc indices).length =
      (hits bc indices).map fun i => fn.extract (indices.getD i 0) (data (indices.getD i 0)) := by
  have hlid : (List.range (hits bc indices).length).map
      (fun n => subsetLid false indices (hits bc indices) n) =
        (hits bc indices).map fun i => indices.getD i 0 := by
    simpa [subsetLid] using
      map_range_getD (hits bc indices) 0 (fun i => indices.getD i 0) (Nat.le_refl _)
  obtain ⟨hvals, -⟩ := extractSubset_spec fn syncType false indices (hits bc indices) val_vec data
    (hits bc indices).length hv (by rw [hlid]; exact nodup_map_hits bc indices hnd)
  have hfront : ((List.range (hits bc indices).length).map fun n =>
      fn.extract (subsetLid false indices (hits bc indices) n)
        (data (subsetLid false indices (hits bc indices) n))) =
      (hits bc indices).map fun i => fn.extract (indices.getD i 0) (data (indices.getD i 0)) := by
    simpa [subsetLid] using map_range_getD (hits bc indices) 0
      (fun i => fn.extract (indices.getD i 0) (data (indices.getD i 0))) (Nat.le_refl _)
  have hres := resizeArr_append_length
    ((hits bc indices).map fun i => fn.extract (indices.getD i 0) (data (indices.getD i 0)))
    (val_vec.drop (hits bc indices).length)
  rw [List.length_map] at hres
  rw [hvals, hfront, hres]

/-! ## 4. The message of `syncExtract` -/

/-- The mode `syncExtract` sends in: `noData` without shared nodes, else the one
`get_data_mode` picks from the number of hits (an enforced mode, `onlyData` included, stays). -/
def extractMode (enforced : DataCommMode) (sizeofV : ℕ) (bitset_compute : DynamicBitSet)
    (indices : List ℕ) : DataCommMode :=
  if 0 < indices.length then
    get_data_mode enforced sizeofV (hits bitset_compute indices).length indices.length
  else .noData

/-- A message with data comes from a host with shared nodes. -/
theorem pos_of_extractMode_ne {enforced : DataCommMode} {sizeofV : ℕ} {bc : DynamicBitSet}
    {indices : List ℕ} (h : extractMode enforced sizeofV bc indices ≠ .noData) :
    0 < indices.length := by
  by_contra hn
  exact h (if_neg hn)

/-- A `noData` message has nothing to carry: no shared node is set. -/
theorem hits_eq_nil_of_extractMode {enforced : DataCommMode} {sizeofV : ℕ} {bc : DynamicBitSet}
    {indices : List ℕ} (h : extractMode enforced sizeofV bc indices = .noData) :
    hits bc indices = [] := by
  unfold extractMode at h
  split at h
  · exact List.eq_nil_of_length_eq_zero (get_data_mode_eq_noData h)
  · rename_i hn
    have h0 : indices.length = 0 := by omega
    simp [hits, h0]

/-- The positions whose values a message in mode `m` carries. -/
def sentPositions (m : DataCommMode) (bitset_compute : DynamicBitSet) (indices : List ℕ) :
    List ℕ :=
  if m = .onlyData then List.range indices.length else hits bitset_compute indices

/-- In the modes that send a count, the message only reads the offsets and values up to it. -/
theorem serializeMessage_counted [Inhabited V] (async : Bool) {m : DataCommMode}
    (hm : m = .bitsetData ∨ m = .offsetsData ∨ m = .gidsData) (cnt : ℕ) (getGID : ℕ → ℕ)
    (indices : List ℕ) {o o' : List ℕ} (b : DynamicBitSet) {v v' : List V}
    (ho : resizeArr o cnt = resizeArr o' cnt) (hv : resizeArr v cnt = resizeArr v' cnt) :
    (serializeMessage async m cnt getGID indices o b v).1 =
      (serializeMessage async m cnt getGID indices o' b v').1 := by
  rcases hm with rfl | rfl | rfl <;> simp only [serializeMessage, ho, hv]

/-- An `onlyData` message is the mode and the whole value buffer. -/
theorem serializeMessage_onlyData [Inhabited V] (async : Bool) (cnt : ℕ) (getGID : ℕ → ℕ)
    (indices offsets : List ℕ) (b : DynamicBitSet) (val_vec : List V) :
    (serializeMessage async .onlyData cnt getGID indices offsets b val_vec).1 =
      [.mode .onlyData, .vals val_vec] := rfl

/-- **What `syncExtract` sends.** In every mode the option can enforce, with distinct shared
nodes, the send buffer is the message `serializeMessage` lays out from the positions the mode
carries (`sentPositions`), the field values of their nodes before any reset, and a bitset of
`indices.length` bits whose set bits are the hits, as long as `indices.length + nthreads` fits in
32 bits. -/
theorem syncExtract_message [Inhabited V] (enforced : DataCommMode) (henf : enforceable enforced)
    (sizeofV : ℕ) (fn : SyncFn N V) (syncType : SyncType) (async : Bool) (host : Host N V)
    (hT : 0 < host.nthreads) (bc : DynamicBitSet) (indices : List ℕ) (hnd : indices.Nodup)
    (hlen : indices.length + host.nthreads ≤ 2 ^ 32) :
    ∃ comm : DynamicBitSet, comm.size = indices.length ∧
      (List.range comm.size).filter comm.test = hits bc indices ∧
      (syncExtract enforced sizeofV fn syncType async host bc indices).1 =
        (serializeMessage async (extractMode enforced sizeofV bc indices)
          (sentPositions (extractMode enforced sizeofV bc indices) bc indices).length host.getGID
          indices (sentPositions (extractMode enforced sizeofV bc indices) bc indices) comm
          ((sentPositions (extractMode enforced sizeofV bc indices) bc indices).map
            fun i => fn.extract (indices.getD i 0) (host.data (indices.getD i 0)))).1 := by
  set n := indices.length with hn
  have hnum32 : n % 2 ^ 32 = n := Nat.mod_eq_of_lt (by omega)
  have hc : (host.syncBitset.resize n).reset.WF := by
    simpa [DynamicBitSet.WF, DynamicBitSet.reset] using DynamicBitSet.wf_resize host.syncBitset n
  set comm := markBits bc indices (host.syncBitset.resize n).reset n with hcomm
  obtain ⟨hsize, hfilt⟩ := filter_markBits bc indices _ hc (DynamicBitSet.test_reset _) rfl
  refine ⟨comm, hsize, hfilt, ?_⟩
  have hvals : (resizeArr host.valVec n).length = n := length_resizeArr _ _
  by_cases hnum : 0 < n
  swap
  · -- no shared nodes: the `else` branch sends `noData`
    have hm : extractMode enforced sizeofV bc indices = .noData := if_neg hnum
    simp only [syncExtract, ← hn, hnum32, hnum, if_false, hm]
    rfl
  by_cases he : enforced = .onlyData
  · -- enforced `onlyData`: nothing is marked, every position is read
    subst he
    have hm : extractMode .onlyData sizeofV bc indices = .onlyData := by
      rw [extractMode, if_pos hnum, get_data_mode_enforced (by decide)]
    have hps : sentPositions .onlyData bc indices = List.range n := if_pos rfl
    simp only [syncExtract, ← hn, hnum32, hnum, if_true, getBitsetAndOffsets, ne_eq,
      not_true_eq_false, if_false, get_data_mode_enforced (m := .onlyData) (by decide), hm, hps,
      serializeMessage_onlyData]
    rw [extractSubset_identity _ _ _ _ _ _ hvals hnd]
  -- otherwise the mode is picked from the count `getOffsetsFromBitset` returns
  obtain ⟨hcount, hoffs⟩ := getOffsetsFromBitset_eq host.nthreads hT comm (by rw [hsize]; exact hlen)
    (resizeArr host.syncOffsets n)
  rw [hfilt] at hcount hoffs
  have hmode : get_data_mode enforced sizeofV (hits bc indices).length n =
      extractMode enforced sizeofV bc indices := (if_pos hnum).symm
  simp only [syncExtract, ← hn, hnum32, hnum, if_true, getBitsetAndOffsets, ne_eq, he,
    not_false_eq_true, if_true, ← hcomm]
  generalize hr : getOffsetsFromBitset host.nthreads comm (resizeArr host.syncOffsets n) = r
    at hcount hoffs ⊢
  obtain ⟨offs, cnt⟩ := r
  dsimp only at hcount hoffs ⊢
  subst hcount
  rw [hmode]
  have henf' := enforceable_get_data_mode henf sizeofV (hits bc indices).length n
  rw [hmode] at henf'
  generalize extractMode enforced sizeofV bc indices = m at henf' ⊢
  by_cases h1 : m = .onlyData
  · -- every node selected: the values of all positions
    subst h1
    simp only [if_true, sentPositions, serializeMessage_onlyData]
    rw [extractSubset_identity _ _ _ _ _ _ hvals hnd]
  by_cases h2 : m = .noData
  · subst h2
    rfl
  -- a counted mode: the hits, their offsets and their values
  have hcounted : m = .bitsetData ∨ m = .offsetsData ∨ m = .gidsData := by
    rcases henf' with h | h | h | h | h
    · exact absurd h h2
    · exact Or.inl h
    · exact Or.inr (Or.inl h)
    · exact Or.inr (Or.inr h)
    · exact absurd h h1
  have hps : sentPositions m bc indices = hits bc indices := if_neg h1
  simp only [h1, if_false, h2, not_false_eq_true, if_true, hps]
  apply serializeMessage_counted async hcounted
  · by_cases h0 : (hits bc indices).length = 0
    · simp [resizeArr, h0]
    · rw [hoffs (Nat.pos_of_ne_zero h0)]
  · by_cases h0 : (hits bc indices).length = 0
    · simp [resizeArr, h0]
    · have hle : (hits bc indices).length ≤ (resizeArr host.valVec n).length := by
        rw [hvals]
        calc (hits bc indices).length ≤ (List.range n).length := List.filter_sublist.length_le
          _ = n := List.length_range
      rw [hoffs (Nat.pos_of_ne_zero h0), extractSubset_hits fn syncType bc indices _ host.data hle hnd]
      simp [resizeArr]

end Galois.Gluon
