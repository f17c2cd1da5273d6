import Galois.DynamicBitset

/-!
# Gluon synchronization: modes, sync structures and message items

The data a Gluon sync message carries (libgluon/include/galois/runtime/DataCommMode.h and the
`serializeMessage`/`deserializeMessage` pair of GluonSubstrate.h):

* `DataCommMode`, `get_data_mode` -- the layout of a message, picked from the number of nodes to
  send unless the command line enforces one (`commMetadata`: auto, bitset, offsets, gids, none);
* `SyncFn` -- the `SyncFnTy` interface of a synchronized field;
* `Item`, `popMode`, … -- a send buffer as the sequence of values `gSerialize` wrote into it, and
  `gDeserialize` reading them back in order. A read of the wrong kind fails (`none`): the byte
  layout of each value is Serialize.h's business, and the files here only need that both sides
  agree on the sequence.
-/

namespace Galois.Gluon

/-- `DataCommMode`: how the nodes of a message are named. The two split modes are declared but
marked unused in the source. -/
inductive DataCommMode
  | noData
  | bitsetData
  | offsetsData
  | gidsData
  | onlyData
  | dataSplitFirst
  | dataSplit
  deriving DecidableEq, Repr

/-- `SyncType`: a reduce goes from mirrors to masters, a broadcast from masters to mirrors. -/
inductive SyncType
  | syncReduce
  | syncBroadcast
  deriving DecidableEq, Repr

/-- The modes the `commMetadata` option can enforce (`auto` is `noData`: nothing enforced). -/
def enforceable (m : DataCommMode) : Prop :=
  m = .noData ∨ m = .bitsetData ∨ m = .offsetsData ∨ m = .gidsData ∨ m = .onlyData

/-- `get_data_mode<DataType>(num_selected, num_total)` under the global `enforcedDataMode`;
`sizeofData` is `sizeof(DataType)`. Without an enforced mode: nothing to send is `noData`,
everything is `onlyData`, otherwise the smaller of the bitset and offsets layouts. -/
def get_data_mode (enforcedDataMode : DataCommMode) (sizeofData num_selected num_total : ℕ) :
    DataCommMode :=
  if enforcedDataMode ≠ .noData then enforcedDataMode
  else if num_selected = 0 then .noData
  else if num_selected = num_total then .onlyData
  else
    let bitset_alloc_size := (num_total + 63) / 64 * 8 + 2 * 8
    let bitsetDataSize := num_selected * sizeofData + bitset_alloc_size + 8
    let offsetsDataSize := num_selected * sizeofData + num_selected * 4 + 8 + 8
    if bitsetDataSize < offsetsDataSize then .bitsetData else .offsetsData

/-- Without an enforced mode, `onlyData` is picked exactly when every node is selected. -/
theorem get_data_mode_onlyData {sizeofData num_selected num_total : ℕ} (h0 : num_selected ≠ 0)
    (h : get_data_mode .noData sizeofData num_selected num_total = .onlyData) :
    num_selected = num_total := by
  unfold get_data_mode at h
  simp only [ne_eq, not_true_eq_false, if_false, h0] at h
  by_contra hne
  rw [if_neg hne] at h
  split at h <;> cases h

/-- An enforced mode is the mode. -/
theorem get_data_mode_enforced {m : DataCommMode} (hm : m ≠ .noData) (sizeofData a b : ℕ) :
    get_data_mode m sizeofData a b = m := by
  simp [get_data_mode, hm]

/-- The picked mode is one the option could have enforced. -/
theorem enforceable_get_data_mode {m : DataCommMode} (hm : enforceable m) (sizeofData a b : ℕ) :
    enforceable (get_data_mode m sizeofData a b) := by
  unfold get_data_mode
  split
  · exact hm
  · unfold enforceable
    split
    · exact Or.inl rfl
    · split
      · exact Or.inr (Or.inr (Or.inr (Or.inr rfl)))
      · dsimp only
        split
        · exact Or.inr (Or.inl rfl)
        · exact Or.inr (Or.inr (Or.inl rfl))

/-- `noData` is only picked when nothing is selected. -/
theorem get_data_mode_eq_noData {m : DataCommMode} {sizeofData a b : ℕ}
    (h : get_data_mode m sizeofData a b = .noData) : a = 0 := by
  unfold get_data_mode at h
  split at h
  · rename_i hm
    exact absurd h hm
  · split at h
    · assumption
    · split at h
      · cases h
      · dsimp only at h
        split at h <;> cases h

/-- `gidsData` is never picked, only enforced. -/
theorem get_data_mode_eq_gidsData {m : DataCommMode} {sizeofData a b : ℕ}
    (h : get_data_mode m sizeofData a b = .gidsData) : m = .gidsData := by
  unfold get_data_mode at h
  split at h
  · exact h
  · split at h
    · cases h
    · split at h
      · cases h
      · dsimp only at h
        split at h <;> cases h

instance : DecidablePred enforceable := fun m => by
  unfold enforceable
  infer_instance

/-- Nothing selected and nothing enforced: `noData`. -/
@[simp] theorem get_data_mode_zero (sizeofData b : ℕ) :
    get_data_mode .noData sizeofData 0 b = .noData := by
  simp [get_data_mode]

/-- The synchronization structure `SyncFnTy` of a field with node data `N` and values `V`:
`extract` reads, `reset` restores the reduction identity after a reduce-extract, `reduce`
combines and reports a change, `setVal` overwrites. -/
structure SyncFn (N V : Type) where
  extract : ℕ → N → V
  reset : ℕ → N → N
  reduce : ℕ → N → V → N × Bool
  setVal : ℕ → N → V → N

/-- One value a sync message's `gSerialize` calls write: the mode, a count (`size_t`), a vector
of 32-bit offsets or GIDs, a bitset, or the field values. -/
inductive Item (V : Type)
  | mode (m : DataCommMode)
  | count (n : ℕ)
  | offsets (o : List ℕ)
  | bitset (b : DynamicBitSet)
  | vals (v : List V)

variable {V : Type}

/-- `gDeserialize(buf, data_mode)`. -/
def popMode : List (Item V) → Option (DataCommMode × List (Item V))
  | .mode m :: rest => some (m, rest)
  | _ => none

/-- `gDeserialize` of a `size_t`. -/
def popCount : List (Item V) → Option (ℕ × List (Item V))
  | .count n :: rest => some (n, rest)
  | _ => none

/-- `gDeserialize` of the offsets vector. -/
def popOffsets : List (Item V) → Option (List ℕ × List (Item V))
  | .offsets o :: rest => some (o, rest)
  | _ => none

/-- `gDeserialize` of a `DynamicBitSet`. -/
def popBitset : List (Item V) → Option (DynamicBitSet × List (Item V))
  | .bitset b :: rest => some (b, rest)
  | _ => none

/-- `gDeserialize` of the value vector. -/
def popVals : List (Item V) → Option (List V × List (Item V))
  | .vals v :: rest => some (v, rest)
  | _ => none

/-- `PODResizeableArray::resize(n)`: keep the first `n` entries and pad with fresh ones. -/
def resizeArr {α : Type} [Inhabited α] (xs : List α) (n : ℕ) : List α :=
  xs.take n ++ List.replicate (n - xs.length) default

@[simp] theorem length_resizeArr {α : Type} [Inhabited α] (xs : List α) (n : ℕ) :
    (resizeArr xs n).length = n := by
  simp only [resizeArr, List.length_append, List.length_take, List.length_replicate]
  omega

@[simp] theorem resizeArr_length {α : Type} [Inhabited α] (xs : List α) :
    resizeArr xs xs.length = xs := by
  simp [resizeArr]

theorem resizeArr_of_length {α : Type} [Inhabited α] {xs : List α} {n : ℕ} (h : xs.length = n) :
    resizeArr xs n = xs := h ▸ resizeArr_length xs

/-- Resizing a run followed by anything to the run's length gives the run. -/
theorem resizeArr_append_length {α : Type} [Inhabited α] (xs ys : List α) :
    resizeArr (xs ++ ys) xs.length = xs := by
  simp [resizeArr]

end Galois.Gluon
