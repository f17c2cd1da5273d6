import Galois.Gstl

/-!
# `galois::DynamicBitSet` (libgalois/include/galois/DynamicBitset.h)

A bitset of `num_bits` bits kept in a vector of 64-bit words. Bit `i` lives in word `i / 64`
under the mask `1 << (i % 64)`:

* `test`, `set` -- read and set one bit (`set`'s CAS loop is one atomic `|`);
* `reset`, `resize` -- clear every word; `resize` first gives the vector `⌈n / 64⌉` words;
* `WF` -- the vector has exactly the words `num_bits` needs, which `resize` establishes and
  `set` keeps.

* `getOffsets`, `count`, `bitwise_or` -- the set bits in order (two `on_each` passes whose loop
  counters are `unsigned int`s, `bitLoop`), the number of set bits (a popcount per word), and an
  in-place or with a bitset of the same size;
* `resetRange` -- `reset(begin, end)`: the words inside the range filled with zero and the two
  end words masked, with `resetLoop` the bit-by-bit loop its comment keeps.

The facts later files use are `test_set`, `test_reset`, `test_resize`, `test_bitwise_or` and
`getOffsets_eq`: each operation is read back bit by bit, through `getLsbD_mask` on the 64-bit
word. **`getOffsets_increasing`** -- below `2 ^ 32` bits the offsets are the set bits, increasing,
on any number of threads; **`getOffsets_four_billion_bits`** -- from `2 ^ 32` bits on the loop
counter wraps and the call never returns. **`resetRange_agrees_loop`** -- `reset(begin, end)`
clears exactly the bits `begin .. end`, as the loop does, with every shift below 64.
-/

namespace Galois

/-- `galois::DynamicBitSet`: the word vector `bitvec` and the bit count `num_bits`. -/
structure DynamicBitSet where
  bitvec : List UInt64
  num_bits : ℕ
  deriving DecidableEq, Repr

namespace DynamicBitSet

/-- The mask `bit_offset = 1 << (index % bits_uint64)` of a bit within its word. -/
def bitMask (index : ℕ) : UInt64 := (1 : UInt64) <<< (index % 64).toUInt64

/-- `size()`. -/
def size (b : DynamicBitSet) : ℕ := b.num_bits

/-- `test(index)`: the bit under the mask in word `index / 64` (a word past the vector reads
as zero; the code never reads one). -/
def test (b : DynamicBitSet) (index : ℕ) : Bool :=
  (b.bitvec.getD (index / 64) 0 &&& bitMask index) != 0

/-- `set(index)`: or the mask into the word. -/
def set (b : DynamicBitSet) (index : ℕ) : DynamicBitSet :=
  { b with bitvec := b.bitvec.set (index / 64) (b.bitvec.getD (index / 64) 0 ||| bitMask index) }

/-- `reset()`: `std::fill` the words with zero. -/
def reset (b : DynamicBitSet) : DynamicBitSet := { b with bitvec := b.bitvec.map fun _ => 0 }

/-- `resize(n)`: `n` bits in `⌈n / 64⌉` words, all cleared. -/
def resize (b : DynamicBitSet) (n : ℕ) : DynamicBitSet :=
  reset { bitvec := b.bitvec.take ((n + 63) / 64) ++
            List.replicate ((n + 63) / 64 - b.bitvec.length) 0,
          num_bits := n }

/-- The words match the bit count. -/
def WF (b : DynamicBitSet) : Prop := b.bitvec.length = (b.num_bits + 63) / 64

/-- The bits `0 .. size - 1` as a list. -/
def bits (b : DynamicBitSet) : List Bool := (List.range b.num_bits).map b.test

@[simp] theorem size_set (b : DynamicBitSet) (i : ℕ) : (b.set i).size = b.size := rfl

@[simp] theorem size_reset (b : DynamicBitSet) : b.reset.size = b.size := rfl

@[simp] theorem size_resize (b : DynamicBitSet) (n : ℕ) : (b.resize n).size = n := rfl

@[simp] theorem num_bits_set (b : DynamicBitSet) (i : ℕ) : (b.set i).num_bits = b.num_bits := rfl

@[simp] theorem num_bits_resize (b : DynamicBitSet) (n : ℕ) : (b.resize n).num_bits = n := rfl

/-! ## 1. One word -/

theorem toBitVec_bitMask (k : ℕ) : (bitMask k).toBitVec = 1#64 <<< (k % 64) := by
  have hk : k % 64 < 64 := Nat.mod_lt _ (by decide)
  rw [bitMask, UInt64.toBitVec_shiftLeft]
  simp [Nat.mod_eq_of_lt hk]

/-- The mask of bit `k` has bit `k % 64` set and no other. -/
theorem getLsbD_bitMask (k i : ℕ) : (bitMask k).toBitVec.getLsbD i = decide (i = k % 64) := by
  have hk : k % 64 < 64 := Nat.mod_lt _ (by decide)
  rw [toBitVec_bitMask, BitVec.getLsbD_shiftLeft, BitVec.getLsbD_one]
  by_cases hik : i = k % 64
  · subst hik
    simp [hk]
  · by_cases hlt : i < k % 64
    · simp [hik, hlt]
    · simp [hik, hlt]
      omega

/-- The bits of a word and the mask of bit `k`: only bit `k` of the word survives. -/
theorem getLsbD_mask (w : UInt64) (k i : ℕ) :
    (w &&& bitMask k).toBitVec.getLsbD i = (w.toBitVec.getLsbD i && decide (i = k % 64)) := by
  rw [UInt64.toBitVec_and, BitVec.getLsbD_and, getLsbD_bitMask]

/-- `((uint64_t)1 << s) - 1` for `s < 64`: the bits below `s`. -/
theorem getLsbD_lowMask {s : ℕ} (hs : s < 64) (i : ℕ) :
    (bitMask s - 1).toBitVec.getLsbD i = decide (i < s) := by
  have hpow : 1 ≤ 2 ^ s ∧ 2 ^ s < 2 ^ 64 :=
    ⟨Nat.one_le_two_pow, Nat.pow_lt_pow_right (by decide) hs⟩
  have hnat : (bitMask s - 1).toBitVec.toNat = 2 ^ s - 1 := by
    rw [UInt64.toBitVec_sub, toBitVec_bitMask, Nat.mod_eq_of_lt hs, BitVec.toNat_sub,
      BitVec.toNat_shiftLeft]
    simp only [BitVec.toNat_ofNat, UInt64.toBitVec_one, Nat.one_mod_two_pow (by decide : 0 < 64),
      Nat.one_shiftLeft, Nat.mod_eq_of_lt hpow.2]
    generalize 2 ^ s = p at hpow ⊢
    omega
  rw [BitVec.getLsbD, hnat, Nat.testBit_two_pow_sub_one]

/-- **Testing a word under a mask reads its bit.** -/
theorem mask_ne_zero (w : UInt64) (k : ℕ) :
    ((w &&& bitMask k) != 0) = w.toBitVec.getLsbD (k % 64) := by
  by_cases hw : w.toBitVec.getLsbD (k % 64)
  · rw [hw]
    have hne : (w &&& bitMask k) ≠ 0 := by
      intro h
      have h' := getLsbD_mask w k (k % 64)
      rw [h, hw] at h'
      simp at h'
    simpa using hne
  · rw [Bool.not_eq_true] at hw
    rw [hw]
    have heq : (w &&& bitMask k) = 0 := by
      apply UInt64.toBitVec_inj.mp
      apply BitVec.eq_of_getLsbD_eq
      intro i _
      rw [getLsbD_mask w k i]
      by_cases hik : i = k % 64
      · subst hik
        simp [hw]
      · simp [hik]
    simp [heq]

theorem test_eq (b : DynamicBitSet) (i : ℕ) :
    b.test i = (b.bitvec.getD (i / 64) 0).toBitVec.getLsbD (i % 64) :=
  mask_ne_zero _ i

/-! ## 2. The operations, bit by bit -/

/-- **`set(i)` sets bit `i` and no other**, as long as its word exists. -/
theorem test_set (b : DynamicBitSet) (i j : ℕ) (hi : i / 64 < b.bitvec.length) :
    (b.set i).test j = (decide (i = j) || b.test j) := by
  rw [test_eq, test_eq, set]
  dsimp only
  by_cases hw : j / 64 = i / 64
  · rw [hw, List.getD_eq_getElem?_getD, List.getElem?_set_self hi, Option.getD_some,
      UInt64.toBitVec_or, BitVec.getLsbD_or]
    -- in one word, the offsets agree exactly when the bits do
    have hmask : (bitMask i).toBitVec.getLsbD (j % 64) = decide (i = j) := by
      rw [getLsbD_bitMask]
      exact decide_eq_decide.mpr ⟨fun h => by omega, fun h => by rw [h]⟩
    rw [hmask, Bool.or_comm]
  · have hij : i ≠ j := fun e => hw (e ▸ rfl)
    rw [List.getD_eq_getElem?_getD, List.getElem?_set_ne (Ne.symm hw),
      ← List.getD_eq_getElem?_getD]
    simp [hij]

/-- `reset()` clears every bit. -/
@[simp] theorem test_reset (b : DynamicBitSet) (j : ℕ) : b.reset.test j = false := by
  rw [test_eq, reset]
  dsimp only
  rw [List.getD_eq_getElem?_getD, List.getElem?_map]
  cases b.bitvec[j / 64]? <;> simp

/-- `resize(n)` clears every bit. -/
@[simp] theorem test_resize (b : DynamicBitSet) (n j : ℕ) : (b.resize n).test j = false :=
  test_reset _ j

theorem wf_resize (b : DynamicBitSet) (n : ℕ) : (b.resize n).WF := by
  simp only [WF, resize, reset, List.length_map, List.length_append, List.length_take,
    List.length_replicate]
  omega

theorem wf_set {b : DynamicBitSet} (hb : b.WF) (i : ℕ) : (b.set i).WF := by
  simpa [WF, set] using hb

/-- In a well-formed bitset every bit below the size has its word. -/
theorem word_lt {b : DynamicBitSet} (hb : b.WF) {i : ℕ} (hi : i < b.num_bits) :
    i / 64 < b.bitvec.length := by
  rw [hb]
  omega

/-! ## 3. Whole-bitset operations -/

/-- The loop `for (unsigned int i = start; i < end; ++i)` of one thread of `getOffsets`, from the
state `s`, at most `fuel` tests of `i < end`: `i` wraps at `2 ^ 32`, and `none` is the loop still
running when the fuel is out. -/
def bitLoop {σ : Type} (body : σ → ℕ → σ) («end» : ℕ) : ℕ → ℕ → σ → Option σ
  | 0, _, _ => none
  | fuel + 1, i, s =>
    if i < «end» then bitLoop body «end» fuel ((i + 1) % 2 ^ 32) (body s i) else some s

/-- `getOffsets()` on `nthreads` threads: the first `on_each` counts each thread's set bits over
its `block_range((size_t)0, size(), tid, nthreads)`, one thread takes the running sums, and if
any bit is set the second `on_each` writes each thread's set bits from its running start
(`tPrefixBitCount + count`), the threads in turn. Both passes count in `bitLoop`, whose
`unsigned int` is truncated from the block's start; the counts and sums, `unsigned int`s too,
stay below `2 ^ 32` whenever the loops end, since every block then ends below `2 ^ 32`. `none` is
a loop still running after `fuel` tests. -/
def getOffsets (nthreads : ℕ) (b : DynamicBitSet) (fuel : ℕ) : Option (List ℕ) := do
  let counts ← (List.range nthreads).mapM fun tid =>
    let r := block_range_int 64 0 b.size tid nthreads
    bitLoop (fun count i => if b.test i then count + 1 else count) r.2 fuel (r.1 % 2 ^ 32) 0
  let tPrefixBitCounts := Compaction.prefixSumInPlace counts
  let bitsetCount := tPrefixBitCounts.getD (nthreads - 1) 0
  if bitsetCount > 0 then
    (List.range nthreads).foldlM (fun offsets tid =>
      let r := block_range_int 64 0 b.size tid nthreads
      let start := Compaction.writeStart tPrefixBitCounts tid
      (bitLoop (fun (s : List ℕ × ℕ) i => if b.test i then (s.1.set (start + s.2) i, s.2 + 1)
          else s) r.2 fuel (r.1 % 2 ^ 32) (offsets, 0)).map Prod.fst)
      (List.replicate bitsetCount 0)
  else some []

/-- `__builtin_popcountll`: the number of set bits of a word. -/
def popcount (w : UInt64) : ℕ := ((List.range 64).filter fun i => w.toBitVec.getLsbD i).length

/-- `count()`: the popcounts of the words, summed. -/
def count (b : DynamicBitSet) : ℕ := (b.bitvec.map popcount).sum

/-- `bitwise_or(other)`: or every word of `other` into this one (the sizes agree). -/
def bitwise_or (b other : DynamicBitSet) : DynamicBitSet :=
  { b with bitvec := List.zipWith (· ||| ·) b.bitvec other.bitvec }

/-- **Below `2 ^ 32` a thread's loop runs its body over its block**, in order, when the fuel
covers the block. -/
theorem bitLoop_eq {σ : Type} (body : σ → ℕ → σ) {«end» : ℕ} (hend : «end» < 2 ^ 32) :
    ∀ fuel start s, start ≤ «end» → «end» - start < fuel →
      bitLoop body «end» fuel start s = some ((List.range' start («end» - start)).foldl body s)
  | 0, _, _, _, hfuel => absurd hfuel (Nat.not_lt_zero _)
  | fuel + 1, start, s, hle, hfuel => by
    rw [bitLoop]
    by_cases hlt : start < «end»
    · rw [if_pos hlt, Nat.mod_eq_of_lt (by omega),
        bitLoop_eq body hend fuel (start + 1) (body s start) hlt (by omega),
        show «end» - start = «end» - (start + 1) + 1 by omega, List.range'_succ, List.foldl_cons]
    · rw [if_neg hlt, show «end» - start = 0 by omega]
      rfl

/-- **From `2 ^ 32` on a thread's loop never ends**: its `unsigned int` wraps before `end`. -/
theorem bitLoop_wraps {σ : Type} (body : σ → ℕ → σ) {«end» : ℕ} (hend : 2 ^ 32 ≤ «end») :
    ∀ fuel i s, i < 2 ^ 32 → bitLoop body «end» fuel i s = none
  | 0, _, _, _ => rfl
  | fuel + 1, i, s, hi => by
    rw [bitLoop, if_pos (by omega)]
    exact bitLoop_wraps body hend fuel _ _ (Nat.mod_lt _ (Nat.two_pow_pos 32))

/-- The first pass's body counts the set bits of the block. -/
theorem foldl_count (p : ℕ → Bool) :
    ∀ (l : List ℕ) (c : ℕ), l.foldl (fun count i => if p i then count + 1 else count) c =
      c + l.countP p
  | [], c => rfl
  | i :: l, c => by
    rw [List.foldl_cons, foldl_count p l, List.countP_cons]
    cases p i <;> simp
    omega

/-- The second pass's body writes the set bits of the block from `start + count` on. -/
theorem foldl_write (p : ℕ → Bool) (start : ℕ) :
    ∀ (l a : List ℕ) (c : ℕ), l.foldl (fun (s : List ℕ × ℕ) i =>
      if p i then (s.1.set (start + s.2) i, s.2 + 1) else s) (a, c) =
        (Compaction.scanWrite p id a (start + c) l, c + l.countP p)
  | [], a, c => rfl
  | i :: l, a, c => by
    rw [List.foldl_cons, List.countP_cons, Compaction.scanWrite]
    by_cases hp : p i
    · rw [if_pos hp, if_pos hp, if_pos hp, foldl_write p start l, Nat.add_assoc start c 1]
      simp only [id, Prod.mk.injEq, true_and]
      omega
    · rw [if_neg hp, if_neg hp, if_neg hp, foldl_write p start l, Nat.add_zero]

theorem mapM_some_of_forall {α β : Type} {f : α → Option β} (g : α → β) :
    ∀ {l : List α}, (∀ x ∈ l, f x = some (g x)) → l.mapM f = some (l.map g)
  | [], _ => rfl
  | x :: l, h => by
    rw [List.mapM_cons, h x List.mem_cons_self,
      mapM_some_of_forall g fun y hy => h y (List.mem_cons_of_mem x hy)]
    rfl

theorem mapM_none_of_mem {α β : Type} {f : α → Option β} :
    ∀ {l : List α} {x : α}, x ∈ l → f x = none → l.mapM f = none
  | y :: l, x, hx, h => by
    rw [List.mapM_cons]
    rcases List.mem_cons.mp hx with rfl | hx
    · rw [h]
      rfl
    · cases f y with
      | none => rfl
      | some z =>
        show (l.mapM f).bind (fun bs => some (z :: bs)) = none
        rw [mapM_none_of_mem hx h]
        rfl

theorem foldlM_some_of_forall {α β : Type} {f : β → α → Option β} (g : β → α → β) :
    ∀ {l : List α} (a : β), (∀ a, ∀ x ∈ l, f a x = some (g a x)) → l.foldlM f a = some (l.foldl g a)
  | [], _, _ => rfl
  | x :: l, a, h => by
    rw [List.foldlM_cons, h a x List.mem_cons_self]
    exact foldlM_some_of_forall g (g a x) fun a y hy => h a y (List.mem_cons_of_mem x hy)

theorem blockStart_le {b e : ℕ} (h : b ≤ e) (num t : ℕ) : blockStart b e num t ≤ e := by
  unfold blockStart
  omega

/-- **Below `2 ^ 32` bits `getOffsets` lists the set bits in increasing order**, on any number of
threads, once the loops have the fuel to run through their blocks. -/
theorem getOffsets_eq {nthreads : ℕ} (hT : 0 < nthreads) (hT32 : nthreads < 2 ^ 32)
    (b : DynamicBitSet) (hsize : b.size < 2 ^ 32) {fuel : ℕ} (hfuel : b.size < fuel) :
    b.getOffsets nthreads fuel = some ((List.range b.size).filter b.test) := by
  -- every thread's block is the exact one, so it ends below `2 ^ 32`
  have hblock : ∀ tid, tid < nthreads → block_range_int 64 0 b.size tid nthreads =
      (blockStart 0 b.size nthreads tid, blockStart 0 b.size nthreads (tid + 1)) :=
    fun tid htid => by
      rw [block_range_int_eq (by decide) (Nat.zero_le _) (by omega) hT hT32 htid (by omega),
        block_range_eq (Nat.zero_le _)]
  -- a thread's loop runs its body over its `blockOf`
  have hloop : ∀ {σ : Type} (body : σ → ℕ → σ) (s : σ) tid, tid < nthreads →
      bitLoop body (block_range_int 64 0 b.size tid nthreads).2 fuel
        ((block_range_int 64 0 b.size tid nthreads).1 % 2 ^ 32) s =
      some ((blockOf 0 b.size nthreads tid).foldl body s) := by
    intro σ body s tid htid
    have hs := blockStart_le (Nat.zero_le b.size) nthreads tid
    have he := blockStart_le (Nat.zero_le b.size) nthreads (tid + 1)
    rw [hblock tid htid, blockOf_eq_cutBlock (Nat.zero_le _), Compaction.cutBlock]
    dsimp only
    rw [Nat.mod_eq_of_lt (show blockStart 0 b.size nthreads tid < 2 ^ 32 by omega)]
    exact bitLoop_eq body (by omega) fuel _ s
      (blockStart_mono 0 b.size nthreads tid (tid + 1) (Nat.le_succ tid)) (by omega)
  unfold getOffsets
  -- the first pass counts every block
  rw [mapM_some_of_forall (fun t => (blockOf 0 b.size nthreads t).countP b.test)
    fun tid htid => by rw [hloop _ 0 tid (List.mem_range.mp htid), foldl_count, Nat.zero_add]]
  rw [Option.bind_eq_bind, Option.bind_some]
  dsimp only
  have hlast := onEachCount_last hT b.size b.test
  rw [onEachCount] at hlast
  rw [show (List.range nthreads).map (fun t => (blockOf 0 b.size nthreads t).countP b.test) =
    Compaction.countPass b.test (blockOf 0 b.size nthreads) nthreads from rfl, hlast]
  split
  · -- the second pass writes the set bits of every block from its running start
    rw [foldlM_some_of_forall (fun a t => Compaction.scanWrite b.test id a
        (0 + Compaction.writeStart (onEachCount nthreads b.size b.test) t)
        (blockOf 0 b.size nthreads t)) _ fun a tid htid => by
      rw [hloop _ (a, 0) tid (List.mem_range.mp htid), Option.map_some, foldl_write]
      simp only [Nat.add_zero, Nat.zero_add]
      rfl]
    have hw := onEachWrite_eq hT b.size b.test id 0
      (List.replicate ((List.range b.size).filter b.test).length 0)
    rw [onEachWrite, Compaction.writePass, List.map_id,
      Compaction.writeRun_eq _ _ _ (by simp)] at hw
    rw [hw]
    simp
  · rename_i h0
    exact congrArg some (List.eq_nil_of_length_eq_zero (by omega)).symm

/-- **`getOffsets` returns the set bits, increasing, each once**, for a bitset of fewer than
`2 ^ 32` bits on any number of threads, once the loops have the fuel to run through their
blocks. -/
theorem getOffsets_increasing (b : DynamicBitSet) (hsize : b.size < 2 ^ 32) {nthreads : ℕ}
    (hT : 0 < nthreads) (hT32 : nthreads < 2 ^ 32) :
    ∃ offsets, (∀ fuel, b.size < fuel → b.getOffsets nthreads fuel = some offsets) ∧
      offsets = (List.range b.size).filter b.test ∧ offsets.Pairwise (· < ·) ∧
      ∀ i, i ∈ offsets ↔ i < b.size ∧ b.test i = true :=
  ⟨_, fun _ hfuel => getOffsets_eq hT hT32 b hsize hfuel, rfl,
    List.pairwise_lt_range.filter _, fun i => by rw [List.mem_filter, List.mem_range]⟩

theorem getOffsets_increasing_three_threads :
    (⟨[5], 3⟩ : DynamicBitSet).size < 2 ^ 32 ∧ 0 < 3 ∧ 3 < 2 ^ 32 ∧
      ∃ offsets, (∀ fuel, (⟨[5], 3⟩ : DynamicBitSet).size < fuel →
          (⟨[5], 3⟩ : DynamicBitSet).getOffsets 3 fuel = some offsets) ∧
        offsets = (List.range 3).filter (⟨[5], 3⟩ : DynamicBitSet).test ∧
        offsets.Pairwise (· < ·) ∧
        ∀ i, i ∈ offsets ↔ i < (⟨[5], 3⟩ : DynamicBitSet).size ∧
          (⟨[5], 3⟩ : DynamicBitSet).test i = true :=
  ⟨by decide, by decide, by decide,
    getOffsets_increasing ⟨[5], 3⟩ (by decide) (by decide) (by decide)⟩

/-- **From `2 ^ 32` bits on `getOffsets` never returns**: the last thread's block ends at
`size()`, and its `unsigned int` loop counter wraps before it gets there. -/
theorem getOffsets_wraps (b : DynamicBitSet) (hsize : 2 ^ 32 ≤ b.size) {nthreads : ℕ}
    (hT : 0 < nthreads) (hT32 : nthreads < 2 ^ 32) (hwrap : b.size + nthreads - 1 < 2 ^ 64)
    (fuel : ℕ) : b.getOffsets nthreads fuel = none := by
  have hlast : block_range_int 64 0 b.size (nthreads - 1) nthreads =
      (blockStart 0 b.size nthreads (nthreads - 1), b.size) := by
    rw [block_range_int_eq (by decide) (Nat.zero_le _) (by omega) hT hT32 (by omega) (by omega),
      block_range_eq (Nat.zero_le _), Nat.sub_add_cancel hT, blockStart_num (Nat.zero_le _) hT]
  unfold getOffsets
  rw [mapM_none_of_mem (List.mem_range.mpr (Nat.sub_lt hT Nat.one_pos)) ?_]
  · rfl
  · dsimp only
    rw [hlast]
    exact bitLoop_wraps _ hsize fuel _ _ (Nat.mod_lt _ (Nat.two_pow_pos 32))

/-- **A bitset of `2 ^ 32` bits has no offsets**: `getOffsets()` on one thread loops for ever. -/
theorem getOffsets_four_billion_bits :
    (⟨List.replicate (2 ^ 26) 0, 2 ^ 32⟩ : DynamicBitSet).WF ∧
      ∀ fuel, (⟨List.replicate (2 ^ 26) 0, 2 ^ 32⟩ : DynamicBitSet).getOffsets 1 fuel = none := by
  refine ⟨?_, fun fuel => getOffsets_wraps _ (Nat.le_refl _) (by decide) (by decide) (by decide)
    fuel⟩
  rw [WF, List.length_replicate]
  decide

theorem wf_bitwise_or {b other : DynamicBitSet} (hb : b.WF) (ho : other.WF)
    (hsize : b.num_bits = other.num_bits) : (b.bitwise_or other).WF := by
  simp only [WF, bitwise_or, List.length_zipWith] at *
  omega

/-- **`bitwise_or` ors the bits**, for bitsets of one size. -/
theorem test_bitwise_or {b other : DynamicBitSet} (hb : b.WF) (ho : other.WF)
    (hsize : b.num_bits = other.num_bits) (i : ℕ) :
    (b.bitwise_or other).test i = (b.test i || other.test i) := by
  rw [test_eq, test_eq, test_eq, bitwise_or]
  dsimp only
  by_cases hi : i / 64 < b.bitvec.length
  · have hi' : i / 64 < other.bitvec.length := by
      rw [WF] at hb ho
      omega
    have hw : (List.zipWith (· ||| ·) b.bitvec other.bitvec).getD (i / 64) 0 =
        b.bitvec.getD (i / 64) 0 ||| other.bitvec.getD (i / 64) 0 := by
      simp [List.getD_eq_getElem?_getD, List.getElem?_zipWith, List.getElem?_eq_getElem hi,
        List.getElem?_eq_getElem hi']
    rw [hw, UInt64.toBitVec_or, BitVec.getLsbD_or]
  · have hi' : ¬ i / 64 < other.bitvec.length := by
      rw [WF] at hb ho
      omega
    rw [Compaction.getD_of_le (by simp; omega), Compaction.getD_of_le (by omega),
      Compaction.getD_of_le (by omega)]
    simp

/-! ## 4. A bitset as the set it holds -/

/-- `b` has the words for `n` bits and its bits are those of `f` below `n`. -/
structure Holds (b : DynamicBitSet) (n : ℕ) (f : ℕ → Bool) : Prop where
  wf : b.WF
  num_bits : b.num_bits = n
  test : ∀ i, b.test i = (decide (i < n) && f i)

theorem Holds.congr {b : DynamicBitSet} {n : ℕ} {f g : ℕ → Bool} (h : b.Holds n f)
    (hfg : ∀ i < n, f i = g i) : b.Holds n g := by
  refine ⟨h.wf, h.num_bits, fun i => ?_⟩
  rw [h.test]
  by_cases hi : i < n
  · rw [hfg i hi]
  · simp [hi]

theorem holds_resize (b : DynamicBitSet) (n : ℕ) : (b.resize n).Holds n fun _ => false :=
  ⟨wf_resize b n, rfl, fun i => by simp⟩

theorem Holds.reset {b : DynamicBitSet} {n : ℕ} {f : ℕ → Bool} (h : b.Holds n f) :
    b.reset.Holds n fun _ => false := by
  refine ⟨?_, h.num_bits, fun i => by simp⟩
  show (b.bitvec.map fun _ => (0 : UInt64)).length = (b.num_bits + 63) / 64
  rw [List.length_map]
  exact h.wf

theorem Holds.set {b : DynamicBitSet} {n : ℕ} {f : ℕ → Bool} (h : b.Holds n f) {i : ℕ}
    (hi : i < n) : (b.set i).Holds n fun j => (j == i) || f j := by
  refine ⟨wf_set h.wf i, h.num_bits, fun j => ?_⟩
  rw [test_set _ _ _ (word_lt h.wf (h.num_bits ▸ hi)), h.test]
  by_cases hj : j = i
  · subst hj
    simp [hi]
  · have hij : i ≠ j := Ne.symm hj
    have hji : (j == i) = false := beq_eq_false_iff_ne.mpr hj
    simp [hij, hji]

/-- Setting the bits of a list in turn adds them to the set. -/
theorem Holds.set_foldl {b : DynamicBitSet} {n : ℕ} {f : ℕ → Bool} (h : b.Holds n f)
    (l : List ℕ) (hl : ∀ i ∈ l, i < n) :
    (l.foldl (fun b i => b.set i) b).Holds n fun j => f j || l.contains j := by
  induction l generalizing b f with
  | nil => simpa using h
  | cons i l ih =>
    rw [List.foldl_cons]
    refine (ih (h.set (hl i List.mem_cons_self)) fun k hk =>
      hl k (List.mem_cons_of_mem _ hk)).congr fun j _ => ?_
    simp only [List.contains_cons]
    cases j == i <;> simp

theorem Holds.bitwise_or {b other : DynamicBitSet} {n : ℕ} {f g : ℕ → Bool} (hb : b.Holds n f)
    (ho : other.Holds n g) : (b.bitwise_or other).Holds n fun j => f j || g j := by
  have hsize : b.num_bits = other.num_bits := hb.num_bits.trans ho.num_bits.symm
  refine ⟨wf_bitwise_or hb.wf ho.wf hsize, hb.num_bits, fun j => ?_⟩
  rw [test_bitwise_or hb.wf ho.wf hsize, hb.test, ho.test]
  cases decide (j < n) <;> simp

/-- Below its size a bitset tests as the set it holds. -/
theorem Holds.filter_range {b : DynamicBitSet} {n : ℕ} {f : ℕ → Bool} (h : b.Holds n f) :
    (List.range n).filter b.test = (List.range n).filter f := by
  apply List.filter_congr
  intro j hj
  rw [h.test, decide_eq_true (List.mem_range.mp hj), Bool.true_and]

theorem Holds.getOffsets {b : DynamicBitSet} {n : ℕ} {f : ℕ → Bool} (h : b.Holds n f)
    (hn : n < 2 ^ 32) {nthreads : ℕ} (hT : 0 < nthreads) (hT32 : nthreads < 2 ^ 32) {fuel : ℕ}
    (hfuel : n < fuel) : b.getOffsets nthreads fuel = some ((List.range n).filter f) := by
  have hsize : b.size = n := h.num_bits
  rw [getOffsets_eq hT hT32 b (hsize ▸ hn) (hsize ▸ hfuel), hsize, h.filter_range]

/-- The popcounts of words count their set bits, bit `i` being bit `i % 64` of word `i / 64`. -/
theorem count_words (ws : List UInt64) :
    ((List.range (64 * ws.length)).filter fun i =>
      (ws.getD (i / 64) 0).toBitVec.getLsbD (i % 64)).length = (ws.map popcount).sum := by
  induction ws with
  | nil => simp
  | cons w ws ih =>
    rw [List.length_cons, Nat.mul_succ, Nat.add_comm, List.range_add, List.filter_append,
      List.length_append, List.map_cons, List.sum_cons]
    -- the first word
    have hfirst : ((List.range 64).filter fun i =>
        ((w :: ws).getD (i / 64) 0).toBitVec.getLsbD (i % 64)).length = popcount w := by
      unfold popcount
      refine congrArg List.length (List.filter_congr fun i hi => ?_)
      have hi := List.mem_range.mp hi
      rw [Nat.div_eq_of_lt hi, Nat.mod_eq_of_lt hi]
      rfl
    -- the words after it
    have hrest : (((List.range (64 * ws.length)).map (64 + ·)).filter fun i =>
        ((w :: ws).getD (i / 64) 0).toBitVec.getLsbD (i % 64)).length = (ws.map popcount).sum := by
      rw [List.filter_map, List.length_map, ← ih]
      refine congrArg List.length (List.filter_congr fun i _ => ?_)
      simp only [Function.comp_apply]
      rw [show (64 + i) / 64 = i / 64 + 1 by omega, show (64 + i) % 64 = i % 64 by omega]
      rfl
    rw [hfirst, hrest]

/-- **`count()` counts the set**: the bits past the size are clear. -/
theorem Holds.count {b : DynamicBitSet} {n : ℕ} {f : ℕ → Bool} (h : b.Holds n f) :
    b.count = ((List.range n).filter f).length := by
  have hbits : b.count = ((List.range (64 * b.bitvec.length)).filter b.test).length := by
    show (b.bitvec.map popcount).sum = _
    rw [← count_words]
    exact congrArg List.length (List.filter_congr fun i _ => (test_eq b i).symm)
  have hn : n ≤ 64 * b.bitvec.length := by
    rw [h.wf, h.num_bits]
    omega
  obtain ⟨k, hk⟩ := Nat.exists_eq_add_of_le hn
  have hpast : ((List.range k).map (n + ·)).filter b.test = [] := by
    rw [List.filter_eq_nil_iff]
    intro i hi
    obtain ⟨j, -, rfl⟩ := List.mem_map.mp hi
    rw [h.test, decide_eq_false (Nat.not_lt.mpr (Nat.le_add_right n j)), Bool.false_and]
    exact Bool.false_ne_true
  rw [hbits, hk, List.range_add, List.filter_append, List.length_append, hpast, List.length_nil,
    Nat.add_zero]
  exact congrArg List.length (List.filter_congr fun i hi => by
    rw [h.test, decide_eq_true (List.mem_range.mp hi), Bool.true_and])

/-! ## 5. `reset(begin, end)` -/

/-- `(uint64_t)1 << s`: the mask of bit `s`, and `none` from `s = 64` on, where the shift is
undefined. -/
def shiftOne (s : ℕ) : Option UInt64 := if s < 64 then some (bitMask s) else none

/-- `bitvec[bit_index] &= mask`. -/
def andWord (b : DynamicBitSet) (bit_index : ℕ) (mask : UInt64) : DynamicBitSet :=
  { b with bitvec := b.bitvec.set bit_index (b.bitvec.getD bit_index 0 &&& mask) }

/-- `std::fill(bitvec.begin() + first, bitvec.begin() + last, 0)`. -/
def fillZero (b : DynamicBitSet) (first last : ℕ) : DynamicBitSet :=
  { b with bitvec := b.bitvec.mapIdx fun k w => if first ≤ k ∧ k < last then 0 else w }

/-- The branch of `reset(begin, end)` where no word was filled (`vec_begin > vec_end`, both in
bits): the bits of `begin`'s word below `begin` and above `end` are kept. -/
def resetShared (b : DynamicBitSet) (begin «end» vec_begin vec_end : ℕ) : Option DynamicBitSet :=
  if begin < vec_begin then
    let diff := vec_begin - begin
    if diff < 64 then do
      let mask ← shiftOne (64 - diff)
      let or_mask ← shiftOne («end» - vec_end + 1)
      some (b.andWord (begin / 64) ((mask - 1) ||| ~~~(or_mask - 1)))
    else none
  else some b

/-- The first test of the other branch, `if (begin < vec_begin)`: the bits of `begin`'s word
below `begin` are kept. -/
def resetHead (b : DynamicBitSet) (begin vec_begin : ℕ) : Option DynamicBitSet :=
  if begin < vec_begin then
    let diff := vec_begin - begin
    if diff < 64 then (shiftOne (64 - diff)).map fun mask => b.andWord (begin / 64) (mask - 1)
    else none
  else some b

/-- The second test of the other branch, `if (end >= vec_end)`: the bits of `end`'s word up to
`end` are cleared. -/
def resetTail (b : DynamicBitSet) («end» vec_end : ℕ) : Option DynamicBitSet :=
  if «end» ≥ vec_end then
    let diff := «end» - vec_end + 1
    if diff < 64 then (shiftOne diff).map fun mask => b.andWord («end» / 64) (~~~(mask - 1))
    else none
  else some b

/-- `reset(begin, end)`: clear the bits `begin .. end`, both included. The words wholly inside
the range are filled with zero (up to the last word when `end` is the last bit), then
`vec_begin` and `vec_end` become bit positions and the words at either end are masked. `none`
is a failed `assert` or a shift by 64 or more. -/
def resetRange (b : DynamicBitSet) (begin «end» : ℕ) : Option DynamicBitSet :=
  if b.num_bits = 0 then some b
  else if ¬ (begin ≤ b.num_bits - 1 ∧ «end» ≤ b.num_bits - 1) then none
  else
    let vec_begin := (begin + 64 - 1) / 64
    let vec_end := if «end» = b.num_bits - 1 then b.bitvec.length else («end» + 1) / 64
    let b := if vec_begin < vec_end then b.fillZero vec_begin vec_end else b
    if vec_begin * 64 > vec_end * 64 then resetShared b begin «end» (vec_begin * 64) (vec_end * 64)
    else (resetHead b begin (vec_begin * 64)).bind fun b => resetTail b «end» (vec_end * 64)

/-- The loop the source keeps in a comment as the safe implementation: for `i` from `begin` to
`end`, `bitvec[i / 64] &= ~(1 << (i % 64))`. -/
def resetLoop (b : DynamicBitSet) (begin «end» : ℕ) : DynamicBitSet :=
  (List.range' begin («end» + 1 - begin)).foldl (fun b i => b.andWord (i / 64) (~~~(bitMask i))) b

@[simp] theorem length_andWord (b : DynamicBitSet) (k : ℕ) (mask : UInt64) :
    (b.andWord k mask).bitvec.length = b.bitvec.length := List.length_set

@[simp] theorem num_bits_andWord (b : DynamicBitSet) (k : ℕ) (mask : UInt64) :
    (b.andWord k mask).num_bits = b.num_bits := rfl

@[simp] theorem length_fillZero (b : DynamicBitSet) (first last : ℕ) :
    (b.fillZero first last).bitvec.length = b.bitvec.length := List.length_mapIdx

@[simp] theorem num_bits_fillZero (b : DynamicBitSet) (first last : ℕ) :
    (b.fillZero first last).num_bits = b.num_bits := rfl

theorem shiftOne_of_lt {s : ℕ} (hs : s < 64) : shiftOne s = some (bitMask s) := if_pos hs

/-- **Masking a word keeps the bits the mask has** in that word and every bit of the others. -/
theorem test_andWord (b : DynamicBitSet) {k : ℕ} (hk : k < b.bitvec.length) (mask : UInt64)
    (i : ℕ) : (b.andWord k mask).test i =
      (b.test i && (decide (i / 64 ≠ k) || mask.toBitVec.getLsbD (i % 64))) := by
  rw [test_eq, test_eq, andWord]
  dsimp only
  by_cases hw : i / 64 = k
  · subst hw
    rw [List.getD_eq_getElem?_getD, List.getElem?_set_self hk, Option.getD_some,
      UInt64.toBitVec_and, BitVec.getLsbD_and]
    simp
  · rw [List.getD_eq_getElem?_getD, List.getElem?_set_ne (Ne.symm hw),
      ← List.getD_eq_getElem?_getD]
    simp [hw]

theorem test_fillZero (b : DynamicBitSet) (first last i : ℕ) :
    (b.fillZero first last).test i = (b.test i && !decide (first ≤ i / 64 ∧ i / 64 < last)) := by
  rw [test_eq, test_eq, fillZero]
  dsimp only
  rw [List.getD_eq_getElem?_getD, List.getElem?_mapIdx, List.getD_eq_getElem?_getD]
  cases b.bitvec[i / 64]? with
  | none => simp
  | some w => by_cases h : first ≤ i / 64 ∧ i / 64 < last <;> simp [h]

/-- Two tests clear the bits of the union of what each clears. -/
theorem and_not_and_not (t : Bool) (P Q : Prop) [Decidable P] [Decidable Q] :
    ((t && !decide P) && !decide Q) = (t && !decide (P ∨ Q)) := by
  rw [Bool.and_assoc, ← Bool.not_or, Bool.decide_or]

/-- **The head clears `begin`'s word from `begin` on**, up to the word boundary `vec_begin` above
`begin`, with a shift below 64. -/
theorem resetHead_spec (b : DynamicBitSet) {begin vec_begin : ℕ}
    (hk : begin / 64 < b.bitvec.length) (hal : vec_begin % 64 = 0) (hle : begin ≤ vec_begin)
    (hlt : vec_begin < begin + 64) :
    ∃ b', resetHead b begin vec_begin = some b' ∧ b'.bitvec.length = b.bitvec.length ∧
      b'.num_bits = b.num_bits ∧
      ∀ i, b'.test i = (b.test i && !decide (begin ≤ i ∧ i < vec_begin)) := by
  unfold resetHead
  by_cases hb : begin < vec_begin
  · have hdiff : vec_begin - begin < 64 := by omega
    rw [if_pos hb]
    dsimp only
    rw [if_pos hdiff, shiftOne_of_lt (by omega), Option.map_some]
    refine ⟨_, rfl, by simp, rfl, fun i => ?_⟩
    rw [test_andWord _ hk, getLsbD_lowMask (by omega), ← Bool.decide_or, ← decide_not]
    -- a bit of `begin`'s word is kept exactly when it is below `begin`
    exact congrArg _ (decide_eq_decide.mpr (by omega))
  · rw [if_neg hb]
    refine ⟨b, rfl, rfl, rfl, fun i => ?_⟩
    have hnot : ¬ (begin ≤ i ∧ i < vec_begin) := by omega
    simp [hnot]

/-- **The tail clears `end`'s word up to `end`**, from the word boundary `vec_end` below `end`,
with a shift below 64. -/
theorem resetTail_spec (b : DynamicBitSet) {«end» vec_end : ℕ}
    (hk : «end» / 64 < b.bitvec.length) (hal : vec_end % 64 = 0) (hlt : «end» < vec_end + 63) :
    ∃ b', resetTail b «end» vec_end = some b' ∧ b'.bitvec.length = b.bitvec.length ∧
      b'.num_bits = b.num_bits ∧
      ∀ i, b'.test i = (b.test i && !decide (vec_end ≤ i ∧ i ≤ «end»)) := by
  unfold resetTail
  by_cases he : «end» ≥ vec_end
  · have hdiff : «end» - vec_end + 1 < 64 := by omega
    rw [if_pos he]
    dsimp only
    rw [if_pos hdiff, shiftOne_of_lt hdiff, Option.map_some]
    refine ⟨_, rfl, by simp, rfl, fun i => ?_⟩
    rw [test_andWord _ hk, UInt64.toBitVec_not, BitVec.getLsbD_not, getLsbD_lowMask hdiff]
    simp only [← decide_not, ← Bool.decide_and, ← Bool.decide_or]
    -- a bit of `end`'s word is kept exactly when it is above `end`
    exact congrArg _ (decide_eq_decide.mpr (by omega))
  · rw [if_neg he]
    refine ⟨b, rfl, rfl, rfl, fun i => ?_⟩
    have hnot : ¬ (vec_end ≤ i ∧ i ≤ «end») := by omega
    simp [hnot]

/-- **With `begin` and `end` in one word, that word loses exactly the bits between them**: the
word boundaries are the one below `begin` and the one above `end`. -/
theorem resetShared_spec (b : DynamicBitSet) {begin «end» vec_begin vec_end : ℕ}
    (hk : begin / 64 < b.bitvec.length) (hal : vec_end % 64 = 0)
    (hvb : vec_begin = vec_end + 64) (hbeg : vec_end < begin) (hle : begin ≤ «end»)
    (hend : «end» + 1 < vec_begin) :
    ∃ b', resetShared b begin «end» vec_begin vec_end = some b' ∧
      b'.bitvec.length = b.bitvec.length ∧ b'.num_bits = b.num_bits ∧
      ∀ i, b'.test i = (b.test i && !decide (begin ≤ i ∧ i ≤ «end»)) := by
  have hb : begin < vec_begin := by omega
  have hdiff : vec_begin - begin < 64 := by omega
  unfold resetShared
  rw [if_pos hb]
  dsimp only
  rw [if_pos hdiff, shiftOne_of_lt (by omega), shiftOne_of_lt (by omega)]
  refine ⟨_, rfl, by simp, rfl, fun i => ?_⟩
  rw [test_andWord _ hk, UInt64.toBitVec_or, BitVec.getLsbD_or, UInt64.toBitVec_not,
    BitVec.getLsbD_not, getLsbD_lowMask (by omega), getLsbD_lowMask (by omega)]
  simp only [← decide_not, ← Bool.decide_and, ← Bool.decide_or]
  -- the word keeps its bits below `begin` and above `end`
  exact congrArg _ (decide_eq_decide.mpr (by omega))

theorem wf_of_length {b b' : DynamicBitSet} (hwf : b.WF) (hl : b'.bitvec.length = b.bitvec.length)
    (hn : b'.num_bits = b.num_bits) : b'.WF := by
  rw [WF, hl, hn]
  exact hwf

theorem and_not_congr (t : Bool) {P Q : Prop} [Decidable P] [Decidable Q] (h : P ↔ Q) :
    (t && !decide P) = (t && !decide Q) := by
  rw [decide_eq_decide.mpr h]

/-- **`reset(begin, end)` clears the bits `begin .. end` and keeps every other bit below the
size**, for `begin ≤ end` below the size of a well-formed bitset: every `assert` holds and every
shift is below 64. -/
theorem test_resetRange (b : DynamicBitSet) (hwf : b.WF) {begin «end» : ℕ} (hle : begin ≤ «end»)
    (hend : «end» < b.num_bits) :
    ∃ b', b.resetRange begin «end» = some b' ∧ b'.WF ∧ b'.num_bits = b.num_bits ∧
      ∀ i < b.num_bits, b'.test i = (b.test i && !decide (begin ≤ i ∧ i ≤ «end»)) := by
  have hn : b.num_bits ≠ 0 := by omega
  have hk : begin / 64 < b.bitvec.length := word_lt hwf (by omega)
  have hk' : «end» / 64 < b.bitvec.length := word_lt hwf hend
  have hlen : b.bitvec.length = (b.num_bits + 63) / 64 := hwf
  unfold resetRange
  rw [if_neg hn, if_neg (not_not.mpr ⟨by omega, by omega⟩)]
  dsimp only
  -- `vec_end` is the word count when `end` is the last bit
  generalize hE : (if «end» = b.num_bits - 1 then b.bitvec.length else («end» + 1) / 64) = E
  have hEcases : («end» = b.num_bits - 1 ∧ E = b.bitvec.length) ∨
      («end» ≠ b.num_bits - 1 ∧ E = («end» + 1) / 64) := by
    split_ifs at hE with hlast
    · exact .inl ⟨hlast, hE.symm⟩
    · exact .inr ⟨hlast, hE.symm⟩
  -- the fill clears the words `vec_begin .. vec_end - 1`, and nothing when there are none
  generalize hb1 : (if (begin + 64 - 1) / 64 < E then b.fillZero ((begin + 64 - 1) / 64) E
    else b) = b1
  have hfill : b1.bitvec.length = b.bitvec.length ∧ b1.num_bits = b.num_bits ∧
      ∀ i, b1.test i = (b.test i && !decide ((begin + 64 - 1) / 64 ≤ i / 64 ∧ i / 64 < E)) := by
    subst hb1
    split_ifs with hlt
    · exact ⟨by simp, rfl, test_fillZero b _ _⟩
    · refine ⟨rfl, rfl, fun i => ?_⟩
      have hnot : ¬ ((begin + 64 - 1) / 64 ≤ i / 64 ∧ i / 64 < E) := by omega
      rw [decide_eq_false hnot, Bool.not_false, Bool.and_true]
  obtain ⟨hl1, hn1, ht1⟩ := hfill
  have hk1 : begin / 64 < b1.bitvec.length := hl1 ▸ hk
  split_ifs with hA
  · -- no word was filled: `begin` and `end` share a word
    obtain ⟨b', h, hl, hnb, ht⟩ := @resetShared_spec b1 begin «end»
      ((begin + 64 - 1) / 64 * 64) (E * 64) hk1 (by omega) (by omega) (by omega) hle (by omega)
    refine ⟨b', h, wf_of_length hwf (hl.trans hl1) (hnb.trans hn1), hnb.trans hn1,
      fun i hi => ?_⟩
    rw [ht, ht1, and_not_and_not]
    exact and_not_congr _ (by omega)
  · -- the head of `begin`'s word, the filled words and the tail of `end`'s word
    obtain ⟨b2, h2, hl2, hn2, ht2⟩ := @resetHead_spec b1 begin ((begin + 64 - 1) / 64 * 64) hk1
      (by omega) (by omega) (by omega)
    obtain ⟨b3, h3, hl3, hn3, ht3⟩ := @resetTail_spec b2 «end» (E * 64) (by omega) (by omega)
      (by omega)
    refine ⟨b3, by rw [h2, Option.bind_some, h3],
      wf_of_length hwf (hl3.trans (hl2.trans hl1)) (hn3.trans (hn2.trans hn1)),
      hn3.trans (hn2.trans hn1), fun i hi => ?_⟩
    rw [ht3, ht2, ht1, and_not_and_not, and_not_and_not]
    exact and_not_congr _ (by omega)

/-- The loop of the comment clears the bits of `l`, one at a time. -/
theorem test_foldl_andWord (l : List ℕ) : ∀ (b : DynamicBitSet),
    (∀ j ∈ l, j / 64 < b.bitvec.length) → ∀ i,
      (l.foldl (fun b j => b.andWord (j / 64) (~~~(bitMask j))) b).test i =
        (b.test i && !decide (i ∈ l)) := by
  induction l with
  | nil => intro b _ i; simp
  | cons j l ih =>
    intro b hl i
    rw [List.foldl_cons, ih _ fun k hk => by
        rw [length_andWord]; exact hl k (List.mem_cons_of_mem j hk),
      test_andWord _ (hl j List.mem_cons_self), UInt64.toBitVec_not, BitVec.getLsbD_not,
      getLsbD_bitMask]
    -- the mask keeps every bit but `j`
    have hbit : (decide (i / 64 ≠ j / 64) || (decide (i % 64 < 64) && !decide (i % 64 = j % 64))) =
        !decide (i = j) := by
      simp only [← decide_not, ← Bool.decide_and, ← Bool.decide_or]
      exact decide_eq_decide.mpr (by omega)
    rw [hbit, and_not_and_not]
    exact and_not_congr _ List.mem_cons.symm

/-- The loop of the comment clears the bits `begin .. end`. -/
theorem test_resetLoop (b : DynamicBitSet) (hwf : b.WF) {begin «end» : ℕ}
    (hend : «end» < b.num_bits) (i : ℕ) :
    (b.resetLoop begin «end»).test i = (b.test i && !decide (begin ≤ i ∧ i ≤ «end»)) := by
  rw [resetLoop, test_foldl_andWord _ b (fun j hj => word_lt hwf (by
    rw [List.mem_range'_1] at hj; omega)) i]
  exact and_not_congr _ (by rw [List.mem_range'_1]; omega)

/-- **`reset(begin, end)` is the bit-by-bit loop of its comment** on every bit below the size:
for `begin ≤ end` below the size of a well-formed bitset it returns, with every `assert` holding
and every shift amount in `[0, 63]`, and clears exactly the bits `begin .. end`. -/
theorem resetRange_agrees_loop (b : DynamicBitSet) (hwf : b.WF) {begin «end» : ℕ}
    (hle : begin ≤ «end») (hend : «end» < b.num_bits) :
    ∃ b', b.resetRange begin «end» = some b' ∧ b'.WF ∧ b'.num_bits = b.num_bits ∧
      ∀ i < b.num_bits, b'.test i = (b.resetLoop begin «end»).test i ∧
        b'.test i = (b.test i && !decide (begin ≤ i ∧ i ≤ «end»)) := by
  obtain ⟨b', h, hwf', hn, ht⟩ := test_resetRange b hwf hle hend
  refine ⟨b', h, hwf', hn, fun i hi => ⟨?_, ht i hi⟩⟩
  rw [ht i hi, test_resetLoop b hwf hend]

theorem resetRange_agrees_loop_two_words :
    let b : DynamicBitSet := ⟨[0xFFFFFFFFFFFFFFFF, 0xFFFF], 80⟩
    b.WF ∧ 3 ≤ 70 ∧ 70 < b.num_bits ∧
      ∃ b', b.resetRange 3 70 = some b' ∧ b'.WF ∧ b'.num_bits = b.num_bits ∧
        ∀ i < b.num_bits, b'.test i = (b.resetLoop 3 70).test i ∧
          b'.test i = (b.test i && !decide (3 ≤ i ∧ i ≤ 70)) :=
  ⟨rfl, by decide, by decide, resetRange_agrees_loop ⟨[0xFFFFFFFFFFFFFFFF, 0xFFFF], 80⟩ rfl
    (by decide) (by decide)⟩

end DynamicBitSet

end Galois
