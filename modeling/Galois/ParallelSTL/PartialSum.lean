import Galois.RacyPhase
import Mathlib.Algebra.BigOperators.Group.List.Basic
import Mathlib.Data.List.Perm.Basic
import Mathlib.Data.UInt

/-!
# ParallelSTL.h: `partial_sum`

From 1024 elements on, `ParallelSTL::partial_sum` cuts `[first, last)` into one block per
active thread, of `ceil(n / numBlocks)` elements each, clamped to `n`, so that trailing blocks
may be empty. It then runs

* a `do_all` over the blocks (`sumBlock`): `std::partial_sum` of the block into `d_first`, and
  `localSums[block]` set to `*(d_first + blockEnd - 1)`;
* a serial exclusive scan of `localSums` into `bulkPrefix` (`exclusiveScan`);
* a `do_all` over the blocks (`addBlock`): `std::transform` adding `bulkPrefix[block]` to the
  block's outputs.

The tasks of each loop run in any order (`order₁`, `order₂`, permutations of the blocks). The
only location two tasks of one loop touch is `d_first[n - 1]`: the last non-empty block writes it
once, and every empty block reads it. A task running in between the other's steps reads the
value from before the loop or the one written, as some order of whole tasks does, so orders of
whole tasks are all the schedules there are.

**`partial_sum_eq`**: for every `n`, every `numBlocks ≥ 1` and both orders, the output holds the
running sums `first[0] + ... + first[i]` for `i < n`, in any commutative monoid (the unsigned
types among them), nothing after it changes, and the returned offset is `n`.
-/

namespace Galois.ParallelSTL

open Function RacyPhase

variable {α : Type*}

/-! ## 1. The blocks -/

/-- `blockStart = std::min(block * blockSize, sizeOfVector)`. -/
def blockStart (sizeOfVector blockSize block : ℕ) : ℕ := min (block * blockSize) sizeOfVector

/-- `blockEnd = std::min((block + 1) * blockSize, sizeOfVector)`. -/
def blockEnd (sizeOfVector blockSize block : ℕ) : ℕ := min ((block + 1) * blockSize) sizeOfVector

/-- Block `block` covers index `j`. -/
def Covers (sizeOfVector blockSize block j : ℕ) : Prop :=
  blockStart sizeOfVector blockSize block ≤ j ∧ j < blockEnd sizeOfVector blockSize block

instance (n bs b j : ℕ) : Decidable (Covers n bs b j) := inferInstanceAs (Decidable (_ ∧ _))

section Blocks

variable {n bs b j : ℕ}

/-- An index below `n` lies in block `j / blockSize` and no other. -/
theorem covers_iff (hbs : 0 < bs) : Covers n bs b j ↔ j < n ∧ j / bs = b := by
  rw [Nat.div_eq_iff hbs, Covers, blockStart, blockEnd, Nat.add_mul, Nat.one_mul]
  omega

theorem covers_unique (hbs : 0 < bs) {b' : ℕ} (h : Covers n bs b j) (h' : Covers n bs b' j) :
    b = b' := by
  rw [covers_iff hbs] at h h'
  omega

/-- `numBlocks * blockSize ≥ sizeOfVector`, the assertion after `blockSize` is computed. -/
theorem le_mul_blockSize (T : ℕ) (hT : 0 < T) : n ≤ T * ((n + T - 1) / T) := by
  have h := Nat.lt_mul_div_succ (n + T - 1) hT
  rw [Nat.mul_add, Nat.mul_one] at h
  omega

/-- With `numBlocks * blockSize ≥ n`, the blocks of a permutation of `0 .. numBlocks - 1`
cover exactly the indices below `n`. -/
theorem exists_covers_iff {T : ℕ} {order : List ℕ} (hbs : 0 < bs) (hcov : n ≤ T * bs)
    (horder : order.Perm (List.range T)) : (∃ b ∈ order, Covers n bs b j) ↔ j < n := by
  constructor
  · rintro ⟨b, -, hb⟩
    exact ((covers_iff hbs).mp hb).1
  · intro hj
    have hlt : j / bs < T := (Nat.div_lt_iff_lt_mul hbs).mpr (by omega)
    exact ⟨j / bs, horder.mem_iff.mpr (List.mem_range.mpr hlt), (covers_iff hbs).mpr ⟨hj, rfl⟩⟩

end Blocks

/-! ## 2. The standard algorithms it calls -/

section Std

variable [AddCommMonoid α]

/-- `std::partial_sum(first, last, d_first)` on the elements `src` of `[first, last)`: it writes
`src[0] + ... + src[k]` at `d_first + k`. -/
def stdPartialSum (src : List α) (dFirst : ℕ) (d : ℕ → α) : ℕ → α := fun j =>
  if dFirst ≤ j ∧ j < dFirst + src.length then (src.take (j - dFirst + 1)).sum else d j

end Std

/-- `std::transform(d + s, d + e, d + s, f)`. -/
def stdTransform (f : α → α) (s e : ℕ) (d : ℕ → α) : ℕ → α := fun j =>
  if s ≤ j ∧ j < e then f (d j) else d j

/-! ## 3. `partial_sum` -/

section PartialSum

variable [AddCommMonoid α]

/-- The first loop's body: the running sums of the block into `d_first`, then
`localSums[block] = *(d_first + blockEnd - 1)`, or `0` if `blockEnd` is `0`. -/
def sumBlock (first : List α) (sizeOfVector blockSize : ℕ) (s : (ℕ → α) × (ℕ → α))
    (block : ℕ) : (ℕ → α) × (ℕ → α) :=
  let blockStart := blockStart sizeOfVector blockSize block
  let blockEnd := blockEnd sizeOfVector blockSize block
  let d := stdPartialSum ((first.drop blockStart).take (blockEnd - blockStart)) blockStart s.1
  (d, update s.2 block (if blockEnd > 0 then d (blockEnd - 1) else 0))

/-- The serial loop `bulkPrefix[i] = runningSum; runningSum += localSums[i]`, from a zeroed
`bulkPrefix` and `runningSum = 0`. -/
def exclusiveScan (localSums : ℕ → α) (numBlocks : ℕ) : (ℕ → α) × α :=
  (List.range numBlocks).foldl (fun s i => (update s.1 i s.2, s.2 + localSums i)) (fun _ => 0, 0)

/-- The second loop's body: `std::transform` adding `numToAdd = bulkPrefix[block]` over the
block. -/
def addBlock (bulkPrefix : ℕ → α) (sizeOfVector blockSize : ℕ) (d : ℕ → α) (block : ℕ) :
    ℕ → α :=
  let numToAdd := bulkPrefix block
  stdTransform (· + numToAdd) (blockStart sizeOfVector blockSize block)
    (blockEnd sizeOfVector blockSize block) d

/-- `ParallelSTL::partial_sum(first, last, d_first)` with `numBlocks` active threads, the two
`do_all` loops running their blocks in the orders `order₁` and `order₂`: the offset of the
returned iterator from `d_first`, and the output. -/
def partial_sum (first : List α) (numBlocks : ℕ) (order₁ order₂ : List ℕ) (d : ℕ → α) :
    ℕ × (ℕ → α) :=
  let sizeOfVector := first.length
  if sizeOfVector ≥ 1024 then
    let blockSize := (sizeOfVector + numBlocks - 1) / numBlocks
    let s := order₁.foldl (sumBlock first sizeOfVector blockSize) (d, fun _ => 0)
    let bulkPrefix := (exclusiveScan s.2 numBlocks).1
    (sizeOfVector, order₂.foldl (addBlock bulkPrefix sizeOfVector blockSize) s.1)
  else (sizeOfVector, stdPartialSum first 0 d)

end PartialSum

/-! ## 4. The running sums -/

section Proofs

variable [AddCommMonoid α] {first : List α} {bs : ℕ}

/-- The running sum of `j`'s block up to `j`, what the first loop writes at `j`. -/
def blockScan (first : List α) (bs j : ℕ) : α :=
  ((first.drop (j / bs * bs)).take (j - j / bs * bs + 1)).sum

/-- The sum of the full block `k`. -/
def blockSum (first : List α) (bs k : ℕ) : α := ((first.drop (k * bs)).take bs).sum

theorem sumBlock_fst_apply (hbs : 0 < bs) (s : (ℕ → α) × (ℕ → α)) (b j : ℕ) :
    (sumBlock first first.length bs s b).1 j =
      if Covers first.length bs b j then blockScan first bs j else s.1 j := by
  have hiff : (blockStart first.length bs b ≤ j ∧ j < blockStart first.length bs b +
      ((first.drop (blockStart first.length bs b)).take
        (blockEnd first.length bs b - blockStart first.length bs b)).length) ↔
      Covers first.length bs b j := by
    rw [List.length_take, List.length_drop, Covers, blockStart, blockEnd]
    omega
  simp only [sumBlock, stdPartialSum]
  rw [if_congr hiff rfl rfl]
  split_ifs with hcov
  · obtain ⟨hj, rfl⟩ := (covers_iff hbs).mp hcov
    have hstart : blockStart first.length bs (j / bs) = j / bs * bs := by
      rw [blockStart]
      have := Nat.div_mul_le_self j bs
      omega
    rw [blockScan, List.take_take, hstart]
    congr 3
    have hlo := hcov.1
    have hhi := hcov.2
    rw [hstart] at hlo
    omega
  · rfl

/-- **The first loop's output**, in any order of its blocks: each index below `n` holds the
running sum of its block. -/
theorem foldl_sumBlock_fst (hbs : 0 < bs) {order : List ℕ} (hnd : order.Nodup)
    (s : (ℕ → α) × (ℕ → α)) (j : ℕ) :
    (order.foldl (sumBlock first first.length bs) s).1 j =
      if ∃ b ∈ order, Covers first.length bs b j then blockScan first bs j else s.1 j := by
  -- the outputs do not depend on `localSums`
  have hfst : (order.foldl (sumBlock first first.length bs) s).1 =
      order.foldl (fun d b => (sumBlock first first.length bs (d, s.2) b).1) s.1 :=
    (List.foldl_hom Prod.fst fun _ _ => rfl).symm
  rw [hfst]
  exact foldl_owned (g := fun j _ => blockScan first bs j)
    (fun b d j => sumBlock_fst_apply hbs (d, s.2) b j) (fun _ _ _ => covers_unique hbs) hnd _ _

theorem foldl_sumBlock_snd_of_not_mem {order : List ℕ} {k : ℕ} (hk : k ∉ order)
    (s : (ℕ → α) × (ℕ → α)) : (order.foldl (sumBlock first first.length bs) s).2 k = s.2 k := by
  induction order generalizing s with
  | nil => rfl
  | cons b order ih =>
    rw [List.foldl_cons, ih fun h => hk (List.mem_cons_of_mem _ h)]
    exact update_of_ne (by rintro rfl; exact hk List.mem_cons_self) _ _

/-- A full block saves its sum: `*(d_first + blockEnd - 1)` is its running sum at the end. -/
theorem sumBlock_snd_self (hbs : 0 < bs) {k : ℕ} (hfull : (k + 1) * bs ≤ first.length)
    (s : (ℕ → α) × (ℕ → α)) : (sumBlock first first.length bs s k).2 k = blockSum first bs k := by
  have hkb : (k + 1) * bs = k * bs + bs := by rw [Nat.add_mul, Nat.one_mul]
  have hend : blockEnd first.length bs k = (k + 1) * bs := by
    rw [blockEnd]
    omega
  have hcov : Covers first.length bs k ((k + 1) * bs - 1) := by
    rw [Covers, blockStart, hend]
    omega
  have hdiv : ((k + 1) * bs - 1) / bs = k := ((covers_iff hbs).mp hcov).2
  have hsave : (sumBlock first first.length bs s k).2 k =
      if blockEnd first.length bs k > 0 then
        (sumBlock first first.length bs s k).1 (blockEnd first.length bs k - 1) else 0 :=
    update_self _ _ _
  rw [hsave, if_pos (by omega), hend, sumBlock_fst_apply hbs, if_pos hcov, blockScan, hdiv,
    show (k + 1) * bs - 1 - k * bs + 1 = bs by omega]
  rfl

/-- **`localSums` after the first loop**, in any order of its blocks: a full block's entry is
its sum. -/
theorem foldl_sumBlock_snd (hbs : 0 < bs) {order : List ℕ} (hnd : order.Nodup) {k : ℕ}
    (hk : k ∈ order) (hfull : (k + 1) * bs ≤ first.length) (s : (ℕ → α) × (ℕ → α)) :
    (order.foldl (sumBlock first first.length bs) s).2 k = blockSum first bs k := by
  induction order generalizing s with
  | nil => exact absurd hk List.not_mem_nil
  | cons b order ih =>
    obtain ⟨hb, hnd⟩ := List.nodup_cons.mp hnd
    rw [List.foldl_cons]
    rcases List.mem_cons.mp hk with rfl | hk
    · rw [foldl_sumBlock_snd_of_not_mem hb, sumBlock_snd_self hbs hfull]
    · exact ih hnd hk _

theorem exclusiveScan_succ (localSums : ℕ → α) (k : ℕ) :
    exclusiveScan localSums (k + 1) =
      (update (exclusiveScan localSums k).1 k (exclusiveScan localSums k).2,
        (exclusiveScan localSums k).2 + localSums k) := by
  rw [exclusiveScan, List.range_succ, List.foldl_append, List.foldl_cons, List.foldl_nil]
  rfl

theorem exclusiveScan_snd (localSums : ℕ → α) (k : ℕ) :
    (exclusiveScan localSums k).2 = ((List.range k).map localSums).sum := by
  induction k with
  | zero => rfl
  | succ k ih => simp only [exclusiveScan_succ, ih, List.range_succ, List.map_append,
      List.sum_append, List.map_cons, List.map_nil, List.sum_singleton]

/-- **`bulkPrefix[i]` is the sum of `localSums` before `i`.** -/
theorem exclusiveScan_fst (localSums : ℕ → α) {k i : ℕ} (hi : i < k) :
    (exclusiveScan localSums k).1 i = ((List.range i).map localSums).sum := by
  induction k with
  | zero => exact absurd hi (Nat.not_lt_zero i)
  | succ k ih =>
    rw [exclusiveScan_succ]
    dsimp only
    by_cases hik : i = k
    · rw [hik, update_self, exclusiveScan_snd]
    · rw [update_of_ne hik, ih (by omega)]

theorem addBlock_apply (hbs : 0 < bs) (bulkPrefix d : ℕ → α) (b j : ℕ) :
    addBlock bulkPrefix first.length bs d b j =
      if Covers first.length bs b j then d j + bulkPrefix (j / bs) else d j := by
  show (if Covers first.length bs b j then d j + bulkPrefix b else d j) = _
  split_ifs with hcov
  · rw [((covers_iff hbs).mp hcov).2]
  · rfl

/-- **The second loop's output**, in any order of its blocks: each index below `n` gains the
prefix of its block. -/
theorem foldl_addBlock (hbs : 0 < bs) {order : List ℕ} (hnd : order.Nodup) (bulkPrefix d : ℕ → α)
    (j : ℕ) :
    order.foldl (addBlock bulkPrefix first.length bs) d j =
      if ∃ b ∈ order, Covers first.length bs b j then d j + bulkPrefix (j / bs) else d j :=
  foldl_owned (g := fun j v => v + bulkPrefix (j / bs)) (fun b d j => addBlock_apply hbs _ d b j)
    (fun _ _ _ => covers_unique hbs) hnd d j

/-- The full blocks before block `b` sum to the prefix of `first` they cover. -/
theorem sum_blockSum (b : ℕ) :
    ((List.range b).map (blockSum first bs)).sum = (first.take (b * bs)).sum := by
  induction b with
  | zero => simp
  | succ b ih =>
    rw [List.range_succ, List.map_append, List.sum_append, ih, Nat.add_mul, Nat.one_mul,
      List.take_add, List.sum_append]
    simp only [List.map_cons, List.map_nil, List.sum_singleton, blockSum]

/-- **An output is the running sum of its block plus the full blocks before it.** -/
theorem blockScan_add_sum_blockSum {i : ℕ} :
    blockScan first bs i + ((List.range (i / bs)).map (blockSum first bs)).sum =
      (first.take (i + 1)).sum := by
  have hq := Nat.div_mul_le_self i bs
  rw [sum_blockSum, blockScan, add_comm, ← List.sum_append, ← List.take_add,
    show i / bs * bs + (i - i / bs * bs + 1) = i + 1 by omega]

/-! ## 5. The result -/

/-- **`partial_sum` computes the running sums**: for every input, every number of active
threads and every order of both loops, `d_first[i] = first[0] + ... + first[i]` for `i < n`,
nothing past `d_first + n` is written, and the returned iterator is `d_first + n`. -/
theorem partial_sum_eq (first : List α) (numBlocks : ℕ) (hT : 0 < numBlocks)
    {order₁ order₂ : List ℕ} (h₁ : order₁.Perm (List.range numBlocks))
    (h₂ : order₂.Perm (List.range numBlocks)) (d : ℕ → α) :
    (partial_sum first numBlocks order₁ order₂ d).1 = first.length ∧
      ∀ i, (partial_sum first numBlocks order₁ order₂ d).2 i =
        if i < first.length then (first.take (i + 1)).sum else d i := by
  dsimp only [partial_sum]
  split_ifs with hn
  · -- the blocked path: both loops cover exactly the indices below `n`
    refine ⟨rfl, fun i => ?_⟩
    dsimp only
    have hbs : 0 < (first.length + numBlocks - 1) / numBlocks := Nat.div_pos (by omega) hT
    have hcov := le_mul_blockSize (n := first.length) numBlocks hT
    have hnd₁ := h₁.nodup_iff.mpr List.nodup_range
    rw [foldl_addBlock hbs (h₂.nodup_iff.mpr List.nodup_range),
      if_congr (exists_covers_iff hbs hcov h₂) rfl rfl, foldl_sumBlock_fst hbs hnd₁,
      if_congr (exists_covers_iff hbs hcov h₁) rfl rfl]
    split_ifs with hi
    · set bs := (first.length + numBlocks - 1) / numBlocks
      have hq := Nat.div_mul_le_self i bs
      have hlt : i / bs < numBlocks := (Nat.div_lt_iff_lt_mul hbs).mpr (by omega)
      -- every block before `i`'s is full and saved its sum in `localSums`
      have hsaved : ∀ k ∈ List.range (i / bs),
          (order₁.foldl (sumBlock first first.length bs) (d, fun _ => 0)).2 k =
            blockSum first bs k := by
        intro k hk
        have hk := List.mem_range.mp hk
        have hfull : (k + 1) * bs ≤ i / bs * bs := Nat.mul_le_mul_right bs hk
        exact foldl_sumBlock_snd hbs hnd₁ (h₁.mem_iff.mpr (List.mem_range.mpr (by omega)))
          (by omega) _
      rw [exclusiveScan_fst _ hlt, List.map_congr_left hsaved, blockScan_add_sum_blockSum]
    · rfl
  · -- the serial path
    refine ⟨rfl, fun i => ?_⟩
    simp only [stdPartialSum, Nat.zero_le, true_and, Nat.zero_add, Nat.sub_zero]

end Proofs

theorem partial_sum_eq_three :
    0 < 3 ∧ [2, 0, 1].Perm (List.range 3) ∧ [1, 2, 0].Perm (List.range 3) ∧
      (partial_sum (List.replicate 1500 (1 : UInt8)) 3 [2, 0, 1] [1, 2, 0] fun _ => 0).1 = 1500 ∧
      ∀ i, (partial_sum (List.replicate 1500 (1 : UInt8)) 3 [2, 0, 1] [1, 2, 0] fun _ => 0).2 i =
        if i < 1500 then ((List.replicate 1500 (1 : UInt8)).take (i + 1)).sum else 0 := by
  have h₁ : [2, 0, 1].Perm (List.range 3) := by decide
  have h₂ : [1, 2, 0].Perm (List.range 3) := by decide
  obtain ⟨hlen, hsum⟩ := partial_sum_eq (List.replicate 1500 (1 : UInt8)) 3 (by decide) h₁ h₂
    fun _ => 0
  rw [List.length_replicate] at hlen hsum
  exact ⟨by decide, h₁, h₂, hlen, hsum⟩

end Galois.ParallelSTL
