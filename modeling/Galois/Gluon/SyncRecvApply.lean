import Galois.Gluon.SyncExtract

/-!
# Gluon synchronization, receiver side, and one message end to end (GluonSubstrate.h)

The CPU path of `syncRecvApply` (non-vector variant) for the message of one host:

* `deserializeMessage` -- reads the count and the mode's metadata (offsets, GIDs turned back
  into local ids by `convertGIDToLID`, a bitset, a split start) and the values;
* `setWrapper`, `setSubset` -- hand each position's node and value to the sync structure's
  `reduce` or `setVal`; `setSubset` returns the calls it makes, in loop order, with the state
  after them (`setSubset_state`);
* `syncRecvApply` -- all of it; a bitset message is turned into offsets again by the
  receiver's own `getOffsetsFromBitset`; the shared nodes are counted in a `uint32_t`, so
  `2 ^ 32` of them count as none (`syncRecvApply_num_wraps`);
* `syncMessage` -- `syncNetSend`'s body for one destination (extract, and send unless an
  asynchronous sync has nothing to send) followed by the receiver's `syncRecvApply`.

The receiver lemmas (`syncRecvApply_onlyData`, `syncRecvApply_offsetsData`, …) read each
layout `serializeMessage` writes; together with `syncExtract_message` they give the calls one
message makes on the receiver, position by position.
-/

namespace Galois.Gluon

open Compaction

variable {N V : Type}

/-! ## 1. The receiver -/

/-- `convertGIDToLID`: every entry of a received GID vector becomes the local id of its node. -/
def convertGIDToLID (getLID : ℕ → ℕ) (offsets : List ℕ) : List ℕ := offsets.map getLID

/-- The output arguments of `deserializeMessage` (and the scratch buffers they alias). -/
structure RecvVars (V : Type) where
  bit_set_count : ℕ
  offsets : List ℕ
  bit_set_comm : DynamicBitSet
  buf_start : ℕ
  retval : ℕ
  val_vec : List V

/-- `deserializeMessage`: unless the mode is `onlyData`, the count and the mode's metadata,
then the values. A bitset is read whole: `gDeserialize` of a `DynamicBitSet` resizes it to the
sent size and reads the sent words, so the `resize(num)` before it has no effect. -/
def deserializeMessage (getLID : ℕ → ℕ) (data_mode : DataCommMode) (buf : List (Item V))
    (st : RecvVars V) : Option (RecvVars V × List (Item V)) := do
  let (st, buf) ← if data_mode ≠ .onlyData then do
      let (bit_set_count, buf) ← popCount buf
      let st := { st with bit_set_count := bit_set_count }
      match data_mode with
      | .gidsData =>
        let (o, buf) ← popOffsets buf
        pure ({ st with offsets := convertGIDToLID getLID o }, buf)
      | .offsetsData =>
        let (o, buf) ← popOffsets buf
        pure ({ st with offsets := o }, buf)
      | .bitsetData =>
        let (b, buf) ← popBitset buf
        pure ({ st with bit_set_comm := b }, buf)
      | .dataSplit =>
        let (s, buf) ← popCount buf
        pure ({ st with buf_start := s }, buf)
      | .dataSplitFirst =>
        let (r, buf) ← popCount buf
        pure ({ st with retval := r }, buf)
      | _ => pure (st, buf)
    else pure (st, buf)
  let (val_vec, buf) ← popVals buf
  pure ({ st with val_vec := val_vec }, buf)

/-- `setWrapper`: a reduce combines the value into the node and marks the node in
`bit_set_compute` if that changed it (and the bitset is in use); a broadcast overwrites the
node, or reduces into it when the sync is asynchronous. -/
def setWrapper (fn : SyncFn N V) (syncType : SyncType) (async : Bool) (lid : ℕ) (val : V)
    (data : ℕ → N) (bit_set_compute : DynamicBitSet) : (ℕ → N) × DynamicBitSet :=
  match syncType with
  | .syncReduce =>
    let r := fn.reduce lid (data lid) val
    (Function.update data lid r.1,
      if r.2 then (if bit_set_compute.size ≠ 0 then bit_set_compute.set lid else bit_set_compute)
      else bit_set_compute)
  | .syncBroadcast =>
    if async then (Function.update data lid (fn.reduce lid (data lid) val).1, bit_set_compute)
    else (Function.update data lid (fn.setVal lid (data lid) val), bit_set_compute)

/-- The state after a list of `setWrapper` calls, made in order. -/
def applyCalls (fn : SyncFn N V) (syncType : SyncType) (async : Bool) (calls : List (ℕ × V))
    (data : ℕ → N) (bit_set_compute : DynamicBitSet) : (ℕ → N) × DynamicBitSet :=
  calls.foldl (fun st c => setWrapper fn syncType async c.1 c.2 st.1 st.2) (data, bit_set_compute)

/-- `setSubset`: position `n ∈ [start, start + size)` hands node `indices[offset]`, where
`offset` is `n` (identity offsets) or `offsets[n]`, and value `val_vec[n - start]` to
`setWrapper`. Returns the calls, in loop order, and the state after them (the `do_all` runs them
on distinct nodes, so any order gives this state). -/
def setSubset [Inhabited V] (fn : SyncFn N V) (syncType : SyncType) (async : Bool)
    (identity_offsets : Bool) (indices : List ℕ) (size : ℕ) (offsets : List ℕ) (val_vec : List V)
    (bit_set_compute : DynamicBitSet) (start : ℕ) (data : ℕ → N) :
    List (ℕ × V) × (ℕ → N) × DynamicBitSet :=
  let calls := (List.range' start size).map fun n =>
    (indices.getD (if identity_offsets then n else offsets.getD n 0) 0,
      val_vec.getD (n - start) default)
  (calls, applyCalls fn syncType async calls data bit_set_compute)

/-- What `syncRecvApply` leaves: the host with its data and scratch buffers, the receiver's
`bit_set_compute`, the `setWrapper` calls made, and the returned `retval`. -/
structure RecvResult (N V : Type) where
  host : Host N V
  bit_set_compute : DynamicBitSet
  calls : List (ℕ × V)
  retval : ℕ

/-- The CPU path of `syncRecvApply` for a message from a host whose shared nodes here are
`sharedNodes`, counted in a `uint32_t num`: nothing is read if no node is counted; otherwise the
mode, and unless it is
`noData` the rest of the message, applied by `setSubset` in the mode's layout. A read of the
wrong kind is `none`. The GPU batch set fails on a CPU, so its branch is not taken. -/
def syncRecvApply [Inhabited V] (fn : SyncFn N V) (syncType : SyncType) (async : Bool)
    (host : Host N V) (bit_set_compute : DynamicBitSet) (sharedNodes : List ℕ)
    (buf : List (Item V)) : Option (RecvResult N V) :=
  let num := sharedNodes.length % 2 ^ 32
  let idle : RecvResult N V := ⟨host, bit_set_compute, [], 0⟩
  if num > 0 then do
    let (data_mode, buf) ← popMode buf
    if data_mode ≠ .noData then do
      let (st, _) ← deserializeMessage host.getLID data_mode buf
        ⟨num, host.syncOffsets, host.syncBitset, 0, 0, host.valVec⟩
      let st := if data_mode = .bitsetData then
          { st with offsets := (getOffsetsFromBitset host.nthreads st.bit_set_comm st.offsets).1 }
        else st
      let r := match data_mode with
        | .onlyData => setSubset fn syncType async true sharedNodes st.bit_set_count st.offsets
            st.val_vec bit_set_compute 0 host.data
        | .dataSplit | .dataSplitFirst => setSubset fn syncType async true sharedNodes
            st.bit_set_count st.offsets st.val_vec bit_set_compute st.buf_start host.data
        | .gidsData => setSubset fn syncType async true st.offsets st.bit_set_count st.offsets
            st.val_vec bit_set_compute 0 host.data
        | _ => setSubset fn syncType async false sharedNodes st.bit_set_count st.offsets
            st.val_vec bit_set_compute 0 host.data
      let host' : Host N V := { host with
        data := r.2.1, syncBitset := st.bit_set_comm, syncOffsets := st.offsets,
        valVec := st.val_vec }
      pure ⟨host', r.2.2, r.1, st.retval⟩
    else pure idle
  else pure idle

/-- **A receive is its calls.** Whatever the message, the data and `bit_set_compute` that
`syncRecvApply` leaves are those of its `setWrapper` calls made in order from the host's. -/
theorem syncRecvApply_state [Inhabited V] (fn : SyncFn N V) (syncType : SyncType) (async : Bool)
    (host : Host N V) (bsc : DynamicBitSet) (sharedNodes : List ℕ) (buf : List (Item V))
    (r : RecvResult N V) (hr : syncRecvApply fn syncType async host bsc sharedNodes buf = some r) :
    (r.host.data, r.bit_set_compute) = applyCalls fn syncType async r.calls host.data bsc := by
  unfold syncRecvApply at hr
  generalize sharedNodes.length % 2 ^ 32 = num at hr
  dsimp only at hr
  split at hr
  · rcases hp : popMode buf with _ | ⟨m, rest⟩
    · simp [hp] at hr
    simp only [hp, Option.bind_eq_bind, Option.bind_some] at hr
    split at hr
    · rcases hd : deserializeMessage host.getLID m rest
          ⟨num, host.syncOffsets, host.syncBitset, 0, 0, host.valVec⟩ with
          _ | ⟨st, rest'⟩
      · simp [hd] at hr
      simp only [hd, Option.bind_some, Option.pure_def, Option.some.injEq] at hr
      subst hr
      split <;> rfl
    · cases hr
      rfl
  · cases hr
    rfl

/-! ## 2. Reading each layout -/

section Layouts

variable [Inhabited V] (fn : SyncFn N V) (syncType : SyncType) (async : Bool) (host : Host N V)
  (bsc : DynamicBitSet) (sharedNodes : List ℕ)

/-- **`num` is a `uint32_t`**: a host that shares `2 ^ 32` nodes with the sender counts none, and
reads no message and makes no call. -/
theorem syncRecvApply_num_wraps (hlen : sharedNodes.length = 2 ^ 32) (buf : List (Item V)) :
    (syncRecvApply fn syncType async host bsc sharedNodes buf).map RecvResult.calls = some [] := by
  unfold syncRecvApply
  rw [hlen, Nat.mod_self]
  rfl

/-- A `noData` message makes no call. -/
theorem syncRecvApply_noData :
    (syncRecvApply fn syncType async host bsc sharedNodes [.mode .noData]).map
      RecvResult.calls = some [] := by
  unfold syncRecvApply
  dsimp only
  split <;> rfl

/-- Without shared nodes nothing is read and no call is made. -/
theorem syncRecvApply_nil (buf : List (Item V)) :
    (syncRecvApply fn syncType async host bsc [] buf).map RecvResult.calls = some [] := rfl

/-- An `onlyData` message sets every shared node, in order, to the value at its position. -/
theorem syncRecvApply_onlyData (hnum : 0 < sharedNodes.length)
    (hlt : sharedNodes.length < 2 ^ 32) (vs : List V) :
    (syncRecvApply fn syncType async host bsc sharedNodes [.mode .onlyData, .vals vs]).map
      RecvResult.calls =
      some ((List.range sharedNodes.length).map
        fun n => (sharedNodes.getD n 0, vs.getD n default)) := by
  unfold syncRecvApply
  rw [Nat.mod_eq_of_lt hlt]
  simp [hnum, popMode, deserializeMessage, popVals, setSubset,
    List.range_eq_range']

/-- An offsets message sets the shared node at each sent offset to the value in its place. -/
theorem syncRecvApply_offsetsData (hnum : 0 < sharedNodes.length)
    (hlt : sharedNodes.length < 2 ^ 32) (ps : List ℕ) (vs : List V) :
    (syncRecvApply fn syncType async host bsc sharedNodes
        [.mode .offsetsData, .count ps.length, .offsets ps, .vals vs]).map RecvResult.calls =
      some ((List.range ps.length).map
        fun n => (sharedNodes.getD (ps.getD n 0) 0, vs.getD n default)) := by
  unfold syncRecvApply
  rw [Nat.mod_eq_of_lt hlt]
  simp [hnum, popMode, deserializeMessage, popCount,
    popOffsets, popVals, setSubset, List.range_eq_range']

/-- A GIDs message sets the node each sent GID names here to the value in its place. -/
theorem syncRecvApply_gidsData (hnum : 0 < sharedNodes.length)
    (hlt : sharedNodes.length < 2 ^ 32) (k : ℕ) (gs : List ℕ) (vs : List V) :
    (syncRecvApply fn syncType async host bsc sharedNodes
        [.mode .gidsData, .count k, .offsets gs, .vals vs]).map RecvResult.calls =
      some ((List.range k).map
        fun n => ((convertGIDToLID host.getLID gs).getD n 0, vs.getD n default)) := by
  unfold syncRecvApply
  rw [Nat.mod_eq_of_lt hlt]
  simp [hnum, popMode, deserializeMessage, popCount,
    popOffsets, popVals, setSubset, List.range_eq_range']

/-- A bitset message is gathered into offsets by the receiver's own `getOffsetsFromBitset`
(with any number of threads); then it reads like an offsets message of the set bits. -/
theorem syncRecvApply_bitsetData (hnum : 0 < sharedNodes.length)
    (hlt : sharedNodes.length < 2 ^ 32) (hT : 0 < host.nthreads) (b : DynamicBitSet)
    (hsize : b.size + host.nthreads ≤ 2 ^ 32) (vs : List V) :
    let ps := (List.range b.size).filter b.test
    (syncRecvApply fn syncType async host bsc sharedNodes
        [.mode .bitsetData, .count ps.length, .bitset b, .vals vs]).map RecvResult.calls =
      some ((List.range ps.length).map
        fun n => (sharedNodes.getD (ps.getD n 0) 0, vs.getD n default)) := by
  intro ps
  obtain ⟨hcount, hoffs⟩ := getOffsetsFromBitset_eq host.nthreads hT b hsize host.syncOffsets
  unfold syncRecvApply
  rw [Nat.mod_eq_of_lt hlt]
  simp [hnum, popMode, deserializeMessage, popCount,
    popBitset, popVals, setSubset, List.range_eq_range']
  -- only positions below the count are read, so the offsets are the set bits
  intro a ha
  rw [hoffs (by rw [hcount]; exact Nat.lt_of_le_of_lt (Nat.zero_le a) ha)]

end Layouts

/-! ## 3. One message, sender to receiver -/

/-- One message of a sync from `sender` to `receiver`: `syncNetSend`'s body for the destination
(the buffer of `syncExtract`, sent unless the sync is asynchronous and the buffer is empty) and
the receiver's `syncRecvApply` on it; a message not sent leaves the receiver as it is. -/
def syncMessage [Inhabited V] (enforced : DataCommMode) (sizeofV : ℕ) (fn : SyncFn N V)
    (syncType : SyncType) (async : Bool) (sender : Host N V) (bitset_compute : DynamicBitSet)
    (sendShared : List ℕ) (receiver : Host N V) (recvBitset : DynamicBitSet)
    (recvShared : List ℕ) : Option (RecvResult N V) :=
  let b := (syncExtract enforced sizeofV fn syncType async sender bitset_compute sendShared).1
  if !async || !b.isEmpty then syncRecvApply fn syncType async receiver recvBitset recvShared b
  else some ⟨receiver, recvBitset, [], 0⟩

/-- A message is sent whenever it is not empty. -/
theorem syncMessage_of_ne_nil [Inhabited V] (enforced : DataCommMode) (sizeofV : ℕ)
    (fn : SyncFn N V) (syncType : SyncType) (async : Bool) (sender : Host N V)
    (bitset_compute : DynamicBitSet) (sendShared : List ℕ) (receiver : Host N V)
    (recvBitset : DynamicBitSet) (recvShared : List ℕ)
    (h : (syncExtract enforced sizeofV fn syncType async sender bitset_compute sendShared).1 ≠ []) :
    syncMessage enforced sizeofV fn syncType async sender bitset_compute sendShared receiver
        recvBitset recvShared =
      syncRecvApply fn syncType async receiver recvBitset recvShared
        (syncExtract enforced sizeofV fn syncType async sender bitset_compute sendShared).1 := by
  have hne : (syncExtract enforced sizeofV fn syncType async sender bitset_compute
      sendShared).1.isEmpty = false := List.isEmpty_eq_false_iff.mpr h
  simp only [syncMessage, hne, Bool.not_false, Bool.or_true, if_true]

/-- A `noData` message makes no call on the receiver, whether it is sent or, in an asynchronous
sync, left out. -/
theorem syncMessage_calls_of_noData [Inhabited V] (enforced : DataCommMode) (sizeofV : ℕ)
    (fn : SyncFn N V) (syncType : SyncType) (async : Bool) (sender : Host N V)
    (bitset_compute : DynamicBitSet) (sendShared : List ℕ) (receiver : Host N V)
    (recvBitset : DynamicBitSet) (recvShared : List ℕ)
    (hmsg : (syncExtract enforced sizeofV fn syncType async sender bitset_compute sendShared).1 =
      if async then [] else [.mode .noData]) :
    (syncMessage enforced sizeofV fn syncType async sender bitset_compute sendShared receiver
        recvBitset recvShared).map RecvResult.calls = some [] := by
  cases async
  · rw [syncMessage_of_ne_nil _ _ _ _ _ _ _ _ _ _ _ (by rw [hmsg]; exact List.cons_ne_nil _ _),
      hmsg]
    exact syncRecvApply_noData fn syncType false receiver recvBitset recvShared
  · simp [syncMessage, hmsg]

/-- **One message, end to end.** For shared-node lists that correspond position by position
(the receiver's local id of the sender's node at position `i` is the receiver's node at `i`) and
distinct on the sender, in every mode the option can enforce, the receiver's `setWrapper` calls
are exactly one for each position the message carries -- every position in `onlyData`, else the
positions whose node is set in `bitset_compute` -- in order, on the receiver's node at that
position with the value extracted from the sender's node there. The block bounds of
`getOffsetsFromBitset` and the count `num` are 32-bit: on each host the shared nodes and the
threads have to fit in `2 ^ 32`. A GID vector carries 32-bit entries: with `gidsData` enforced,
the GIDs of the shared nodes have to fit. -/
theorem syncMessage_calls [Inhabited V] (enforced : DataCommMode) (henf : enforceable enforced)
    (sizeofV : ℕ) (fn : SyncFn N V) (syncType : SyncType) (async : Bool)
    (sender receiver : Host N V) (hS : 0 < sender.nthreads) (hR : 0 < receiver.nthreads)
    (bitset_compute recvBitset : DynamicBitSet) (sendShared recvShared : List ℕ)
    (hlen : sendShared.length = recvShared.length) (hnd : sendShared.Nodup)
    (hSsize : sendShared.length + sender.nthreads ≤ 2 ^ 32)
    (hRsize : recvShared.length + receiver.nthreads ≤ 2 ^ 32)
    (hid : ∀ i < sendShared.length,
      receiver.getLID (sender.getGID (sendShared.getD i 0)) = recvShared.getD i 0)
    (hgid : enforced = .gidsData →
      ∀ i < sendShared.length, sender.getGID (sendShared.getD i 0) < 2 ^ 32) :
    (syncMessage enforced sizeofV fn syncType async sender bitset_compute sendShared receiver
        recvBitset recvShared).map RecvResult.calls =
      some ((sentPositions (extractMode enforced sizeofV bitset_compute sendShared) bitset_compute
          sendShared).map fun i =>
        (recvShared.getD i 0, fn.extract (sendShared.getD i 0) (sender.data (sendShared.getD i 0)))) := by
  obtain ⟨comm, hcs, hfilt, hmsg⟩ := syncExtract_message enforced henf sizeofV fn syncType async
    sender hS bitset_compute sendShared hnd hSsize
  have hlt : recvShared.length < 2 ^ 32 := by omega
  set m := extractMode enforced sizeofV bitset_compute sendShared with hm
  set value := fun i => fn.extract (sendShared.getD i 0) (sender.data (sendShared.getD i 0))
  have hmodes := enforceable_get_data_mode henf sizeofV
    (hits bitset_compute sendShared).length sendShared.length
  -- a message with data: the sender has shared nodes, so the receiver reads it
  have hsend : ∀ items : List (Item V), items ≠ [] → m ≠ .noData →
      (syncExtract enforced sizeofV fn syncType async sender bitset_compute sendShared).1 = items →
      syncMessage enforced sizeofV fn syncType async sender bitset_compute sendShared receiver
        recvBitset recvShared = syncRecvApply fn syncType async receiver recvBitset recvShared
          items := by
    intro items hne _ hb
    rw [syncMessage_of_ne_nil _ _ _ _ _ _ _ _ _ _ _ (hb ▸ hne), hb]
  by_cases h0 : m = .noData
  · -- nothing to send: a `noData` message, or none at all
    have hps : sentPositions m bitset_compute sendShared = [] := by
      rw [sentPositions, if_neg (by rw [h0]; decide), hits_eq_nil_of_extractMode h0]
    rw [hps, List.map_nil]
    rw [h0] at hmsg
    exact syncMessage_calls_of_noData enforced sizeofV fn syncType async sender bitset_compute
      sendShared receiver recvBitset recvShared hmsg
  have hpos' : 0 < sendShared.length := pos_of_extractMode_ne h0
  have hpos : 0 < recvShared.length := hlen ▸ hpos'
  have hpicked : ∀ m', get_data_mode enforced sizeofV (hits bitset_compute sendShared).length
      sendShared.length = m' → m = m' := by
    intro m' h
    rw [hm, extractMode, if_pos hpos', h]
  have hvalue : ∀ (ps : List ℕ), ∀ n < ps.length,
      (ps.map value).getD n default = value (ps.getD n 0) :=
    fun ps n hn => getD_map_of_lt hn value 0 default
  by_cases h1 : m = .onlyData
  · -- every position, in order
    have hps : sentPositions m bitset_compute sendShared = List.range sendShared.length := if_pos h1
    rw [hps] at hmsg ⊢
    rw [h1, serializeMessage_onlyData] at hmsg
    rw [hsend _ (List.cons_ne_nil _ _) h0 hmsg, syncRecvApply_onlyData _ _ _ _ _ _ hpos hlt,
      ← hlen]
    congr 1
    apply List.map_congr_left
    intro n hn
    have hn' := List.mem_range.mp hn
    rw [hvalue _ n (by simpa using hn'), getD_range_of_lt hn']
  have hps : sentPositions m bitset_compute sendShared = hits bitset_compute sendShared :=
    if_neg h1
  rw [hps] at hmsg ⊢
  -- the counted modes read the hits back position by position
  have hread : ∀ lid : ℕ → ℕ, (∀ n < (hits bitset_compute sendShared).length,
      lid n = recvShared.getD ((hits bitset_compute sendShared).getD n 0) 0) →
      (List.range (hits bitset_compute sendShared).length).map
        (fun n => (lid n, ((hits bitset_compute sendShared).map value).getD n default)) =
      (hits bitset_compute sendShared).map fun i => (recvShared.getD i 0, value i) := by
    intro lid hlid
    apply map_range_eq_map
    intro n hn
    rw [hlid n hn, hvalue _ n hn]
  rcases hmodes with h | h | h | h | h
  · exact absurd (hpicked _ h) h0
  · -- a bitset: the receiver gathers the set bits itself
    rw [hpicked _ h] at hmsg
    simp only [serializeMessage, resizeArr_of_length (List.length_map _)] at hmsg
    rw [hsend _ (List.cons_ne_nil _ _) h0 hmsg]
    have hb := syncRecvApply_bitsetData fn syncType async receiver recvBitset recvShared hpos hlt
      hR comm (by rw [hcs, hlen]; exact hRsize) ((hits bitset_compute sendShared).map value)
    rw [hfilt] at hb
    rw [hb]
    exact congrArg some (hread _ fun n _ => rfl)
  · -- offsets: positions as sent
    rw [hpicked _ h] at hmsg
    simp only [serializeMessage, resizeArr_length, resizeArr_of_length (List.length_map _)] at hmsg
    rw [hsend _ (List.cons_ne_nil _ _) h0 hmsg,
      syncRecvApply_offsetsData _ _ _ _ _ _ hpos hlt]
    exact congrArg some (hread _ fun n _ => rfl)
  · -- GIDs: sent as 32-bit GIDs, turned back into local ids by the receiver
    have he : enforced = .gidsData := get_data_mode_eq_gidsData h
    rw [hpicked _ h] at hmsg
    simp only [serializeMessage, resizeArr_length, resizeArr_of_length (List.length_map _)] at hmsg
    rw [hsend _ (List.cons_ne_nil _ _) h0 hmsg,
      syncRecvApply_gidsData _ _ _ _ _ _ hpos hlt]
    refine congrArg some (hread _ fun n hn => ?_)
    have hi := lt_of_mem_hits (getD_mem_of_lt hn 0)
    rw [convertGIDToLID, convertLIDToGID, List.map_map, getD_map_of_lt hn _ 0 0,
      Function.comp_apply, Nat.mod_eq_of_lt (hgid he _ hi), hid _ hi]
  · exact absurd (hpicked _ h) h1

/-- Three shared nodes, of which the first and the last are set: a reduce message carries
their values to the receiver's nodes at positions 0 and 2, and nothing else. -/
theorem syncMessage_calls_reduce :
    (∀ i < 3, (⟨fun _ => 0, id, fun g => g - 104, 2, ⟨[], 0⟩, [], []⟩ : Host ℕ ℕ).getLID
        ((⟨fun l => l * 10, fun l => l + 100, id, 2, ⟨[], 0⟩, [], []⟩ : Host ℕ ℕ).getGID
          ([4, 5, 6].getD i 0)) = [0, 1, 2].getD i 0) ∧
    (syncMessage .noData 8 ⟨fun _ n => n, fun _ _ => 0, fun _ n v => (n + v, true), fun _ _ v => v⟩
      .syncReduce false ⟨fun l => l * 10, fun l => l + 100, id, 2, ⟨[], 0⟩, [], []⟩ ⟨[80], 7⟩
      [4, 5, 6] ⟨fun _ => 0, id, fun g => g - 104, 2, ⟨[], 0⟩, [], []⟩ ⟨[0], 3⟩ [0, 1, 2]).map
        RecvResult.calls = some [(0, 40), (2, 60)] :=
  ⟨by decide,
    (syncMessage_calls .noData (by decide) 8
      ⟨fun _ n => n, fun _ _ => 0, fun _ n v => (n + v, true), fun _ _ v => v⟩ .syncReduce false
      ⟨fun l => l * 10, fun l => l + 100, id, 2, ⟨[], 0⟩, [], []⟩
      ⟨fun _ => 0, id, fun g => g - 104, 2, ⟨[], 0⟩, [], []⟩ (by decide) (by decide)
      ⟨[80], 7⟩ ⟨[0], 3⟩ [4, 5, 6] [0, 1, 2] (by decide) (by decide) (by decide) (by decide)
      (by decide) (by decide)).trans (by decide)⟩

/-- With `gidsData` enforced, a sender GID of `2 ^ 32` is cast to `0` on the way: the receiver,
whose local id of GID `2 ^ 32` is node `0`, updates the node it maps GID `0` to instead. -/
theorem syncMessage_gid_truncated :
    (⟨fun _ => 0, id, fun g => if g = 2 ^ 32 then 0 else 1, 1, ⟨[], 0⟩, [], []⟩ : Host ℕ ℕ).getLID
        ((⟨fun _ => 5, fun l => 2 ^ 32 + l, id, 1, ⟨[], 0⟩, [], []⟩ : Host ℕ ℕ).getGID 0) = 0 ∧
    (syncMessage .gidsData 8 ⟨fun _ n => n, fun _ n => n, fun _ _ v => (v, true), fun _ _ v => v⟩
      .syncBroadcast false ⟨fun _ => 5, fun l => 2 ^ 32 + l, id, 1, ⟨[], 0⟩, [], []⟩ ⟨[1], 1⟩ [0]
      ⟨fun _ => 0, id, fun g => if g = 2 ^ 32 then 0 else 1, 1, ⟨[], 0⟩, [], []⟩ ⟨[], 0⟩ [0]).map
        RecvResult.calls = some [(1, 5)] := by
  decide

end Galois.Gluon
