import Galois.Compaction

/-!
# `galois::block_range` and the two-pass `on_each` gather (gstl.h)

Many loops of the runtime split an index range among the active threads with
`block_range(b, e, tid, nthreads)` and gather the indices that pass a test into a dense array in
two `on_each` passes: every thread counts its hits, one thread takes the running sums
(`threadPrefixSums`), and every thread writes its hits from its running start.

* `block_range`, `blockOf` -- the block of thread `tid`; the blocks cover the range in order
  (`flatMap_blockOf`);
* `onEachCount`, `onEachWrite` -- the two passes over `[0, n)`; whatever the number of threads,
  the write is the images of the hits in increasing order and the last running sum counts them
  (`onEachWrite_eq`, `onEachCount_last`);
* `block_range_int`, `block_range_long`, `block_range_iter` -- the overloads in machine words: an
  unsigned `IntTy` of `w` bits, a `long`, where an overflow is undefined, and iterators whose
  distance is a `size_t`; each computes the exact blocks while `dist + num - 1` fits
  (`block_range_int_eq`, `block_range_long_eq`, `block_range_iter_eq`);
* `Partitions` -- the law of a partition of `[b, e)` into consecutive blocks, which the exact
  blocks satisfy (`partitions_block_range`); **`block_range_wraps`** -- at the top of a `size_t`
  the rounding sum wraps, and two blocks of one element are all that is left of `[0, 2^64 - 1)`.
-/

namespace Galois

open Compaction

/-! ## 1. Blocks -/

/-- `galois::block_range(b, e, id, num)` on integers: blocks of `⌈(e - b) / num⌉` indices (at
least one), the last ones cut at `e`. -/
def block_range (b e id num : ℕ) : ℕ × ℕ :=
  let dist := e - b
  let numper := max ((dist + num - 1) / num) 1
  let A := min (numper * id) dist
  let B := min (numper * (id + 1)) dist
  (b + A, if dist ≠ B then b + A + (B - A) else e)

/-- The start of block `t`. -/
def blockStart (b e num t : ℕ) : ℕ := b + min (max ((e - b + num - 1) / num) 1 * t) (e - b)

/-- The indices thread `tid` visits: `[block_range(b, e, tid, num))`. -/
def blockOf (b e num tid : ℕ) : List ℕ :=
  List.range' (block_range b e tid num).1 ((block_range b e tid num).2 - (block_range b e tid num).1)

theorem block_range_eq {b e : ℕ} (h : b ≤ e) (tid num : ℕ) :
    block_range b e tid num = (blockStart b e num tid, blockStart b e num (tid + 1)) := by
  unfold block_range blockStart
  dsimp only
  generalize max ((e - b + num - 1) / num) 1 = k
  have hmono : k * tid ≤ k * (tid + 1) := Nat.mul_le_mul_left k (Nat.le_succ tid)
  generalize k * tid = A at hmono ⊢
  generalize k * (tid + 1) = B at hmono ⊢
  congr 1
  split <;> omega

theorem blockStart_mono (b e num : ℕ) (s t : ℕ) (hst : s ≤ t) :
    blockStart b e num s ≤ blockStart b e num t := by
  unfold blockStart
  generalize max ((e - b + num - 1) / num) 1 = k
  have hmono : k * s ≤ k * t := Nat.mul_le_mul_left k hst
  generalize k * s = A at hmono ⊢
  generalize k * t = B at hmono ⊢
  omega

theorem blockStart_zero (b e num : ℕ) : blockStart b e num 0 = b := by
  simp [blockStart]

/-- The last block ends at `e`: `num` blocks of `⌈(e - b) / num⌉` indices reach past it. -/
theorem blockStart_num {b e num : ℕ} (h : b ≤ e) (hnum : 0 < num) :
    blockStart b e num num = e := by
  unfold blockStart
  have hcover : e - b ≤ max ((e - b + num - 1) / num) 1 * num := by
    have hdiv := Nat.div_add_mod (e - b + num - 1) num
    have hmod := Nat.mod_lt (e - b + num - 1) hnum
    have hle := Nat.mul_le_mul_right num (Nat.le_max_left ((e - b + num - 1) / num) 1)
    rw [Nat.mul_comm] at hdiv
    omega
  rw [Nat.min_eq_right hcover]
  omega

theorem blockOf_eq_cutBlock {b e : ℕ} (h : b ≤ e) (num : ℕ) :
    blockOf b e num = cutBlock (blockStart b e num) := by
  funext tid
  rw [blockOf, block_range_eq h, cutBlock]

/-- **The blocks of the threads cover the range in order.** -/
theorem flatMap_blockOf {b e num : ℕ} (h : b ≤ e) (hnum : 0 < num) :
    (List.range num).flatMap (blockOf b e num) = List.range' b (e - b) := by
  rw [blockOf_eq_cutBlock h, flatMap_cutBlock _ (blockStart_mono b e num), blockStart_zero,
    blockStart_num h hnum]

/-! ## 2. The two `on_each` passes -/

variable {α : Type}

/-- The first `on_each` and the prefix sum after it: `threadPrefixSums`, the number of indices
`i < n` passing `p` in the blocks of the threads up to each one. -/
def onEachCount (nthreads n : ℕ) (p : ℕ → Bool) : List ℕ :=
  prefixSumInPlace (countPass p (blockOf 0 n nthreads) nthreads)

/-- The second `on_each`: thread `tid` writes `g i` for each of its indices passing `p`, from
`base` plus its running start. -/
def onEachWrite (nthreads n : ℕ) (p : ℕ → Bool) (g : ℕ → α) (pre : List ℕ) (base : ℕ)
    (a : List α) : List α :=
  writePass p g (blockOf 0 n nthreads) pre base a nthreads

/-- **The last running sum counts the hits**, whatever the number of threads. -/
theorem onEachCount_last {nthreads : ℕ} (hT : 0 < nthreads) (n : ℕ) (p : ℕ → Bool) :
    (onEachCount nthreads n p).getD (nthreads - 1) 0 = ((List.range n).filter p).length := by
  have h := (writePass_cutBlock p id (blockStart 0 n nthreads) (blockStart_mono 0 n nthreads) 0
    ([] : List ℕ) nthreads hT).2
  rw [blockStart_zero, blockStart_num (Nat.zero_le n) hT, Nat.sub_zero,
    ← List.range_eq_range'] at h
  rw [onEachCount, blockOf_eq_cutBlock (Nat.zero_le n), h]

/-- **The two passes gather the hits in order**, whatever the number of threads. -/
theorem onEachWrite_eq {nthreads : ℕ} (hT : 0 < nthreads) (n : ℕ) (p : ℕ → Bool) (g : ℕ → α)
    (base : ℕ) (a : List α) :
    onEachWrite nthreads n p g (onEachCount nthreads n p) base a =
      writeRun a base (((List.range n).filter p).map g) := by
  have h := (writePass_cutBlock p g (blockStart 0 n nthreads) (blockStart_mono 0 n nthreads)
    base a nthreads hT).1
  rw [blockStart_zero, blockStart_num (Nat.zero_le n) hT, Nat.sub_zero,
    ← List.range_eq_range'] at h
  rw [onEachWrite, onEachCount, blockOf_eq_cutBlock (Nat.zero_le n), h]

/-- **Growing an array by the number of hits and writing the hits there appends them.** -/
theorem onEachWrite_append {nthreads : ℕ} (hT : 0 < nthreads) (n : ℕ) (p : ℕ → Bool)
    (g : ℕ → α) (a : List α) (d : α) :
    onEachWrite nthreads n p g (onEachCount nthreads n p) a.length
        (a ++ List.replicate ((List.range n).filter p).length d) =
      a ++ ((List.range n).filter p).map g := by
  rw [onEachWrite_eq hT, writeRun_eq _ _ _ (by simp)]
  simp

/-! ## 3. `block_range` in machine words -/

/-- The offsets `(A, B)` of block `id` from the start of a range of `dist` elements: the block
size `numper` is the rounded-up quotient `(dist + num - 1) / num`, at least 1, every sum and
product is taken in `w` bits, and `id + 1` in an `unsigned`. -/
def blockOffsets (w dist id num : ℕ) : ℕ × ℕ :=
  let numper := max ((dist + num + 2 ^ w - 1) % 2 ^ w / num) 1
  (min (numper * id % 2 ^ w) dist, min (numper * ((id + 1) % 2 ^ 32) % 2 ^ w) dist)

/-- `galois::block_range(b, e, id, num)` for an unsigned integral `IntTy` of `w ≥ 32` bits: the
distance, the moved start and the moved end are taken in `w` bits too. -/
def block_range_int (w b e id num : ℕ) : ℕ × ℕ :=
  let dist := (e + 2 ^ w - b) % 2 ^ w
  let AB := blockOffsets w dist id num
  let b := (b + AB.1) % 2 ^ w
  (b, if dist ≠ AB.2 then (b + (AB.2 + 2 ^ w - AB.1) % 2 ^ w) % 2 ^ w else e)

/-- `galois::block_range(b, e, id, num)` for iterators, at positions `b ≤ e`: the distance and the
offsets are `size_t`s, and `std::advance` moves the positions exactly. -/
def block_range_iter (b e id num : ℕ) : ℕ × ℕ :=
  let dist := (e - b) % 2 ^ 64
  let AB := blockOffsets 64 dist id num
  (b + AB.1, if dist ≠ AB.2 then b + AB.1 + (AB.2 - AB.1) else e)

/-- `numper * num` stays below a bound that `num` and `dist + num - 1` stay below: the quotient
rounds `dist` up by less than `num`. -/
theorem numper_mul_lt {dist num m : ℕ} (hnum : num < m) (hwrap : dist + num - 1 < m) :
    max ((dist + num - 1) / num) 1 * num < m := by
  rcases Nat.le_total ((dist + num - 1) / num) 1 with hle | hle
  · rw [Nat.max_eq_right hle, Nat.one_mul]
    exact hnum
  · rw [Nat.max_eq_left hle]
    exact Nat.lt_of_le_of_lt (Nat.div_mul_le_self _ _) hwrap

/-- **Without wrap-around the offsets are the exact ones**: when `dist + num - 1` fits in `w`
bits, so do `numper * id` and `numper * (id + 1)`. -/
theorem blockOffsets_exact {w dist id num : ℕ} (hw : 32 ≤ w) (hnum : 0 < num)
    (hnum32 : num < 2 ^ 32) (hid : id < num) (hwrap : dist + num - 1 < 2 ^ w) :
    blockOffsets w dist id num =
      (min (max ((dist + num - 1) / num) 1 * id) dist,
        min (max ((dist + num - 1) / num) 1 * (id + 1)) dist) := by
  have h32 : 2 ^ 32 ≤ 2 ^ w := Nat.pow_le_pow_right (by decide) hw
  have hsum : (dist + num + 2 ^ w - 1) % 2 ^ w = dist + num - 1 := by
    rw [show dist + num + 2 ^ w - 1 = dist + num - 1 + 2 ^ w by omega, Nat.add_mod_right,
      Nat.mod_eq_of_lt hwrap]
  have hid1 : (id + 1) % 2 ^ 32 = id + 1 := Nat.mod_eq_of_lt (by omega)
  have hkn : max ((dist + num - 1) / num) 1 * num < 2 ^ w := numper_mul_lt (by omega) hwrap
  generalize hk : max ((dist + num - 1) / num) 1 = k at hkn
  have hk1 : k * (id + 1) < 2 ^ w :=
    Nat.lt_of_le_of_lt (Nat.mul_le_mul_left k (Nat.succ_le_of_lt hid)) hkn
  have hk0 : k * id < 2 ^ w := Nat.lt_of_le_of_lt (Nat.mul_le_mul_left k (Nat.le_succ id)) hk1
  simp only [blockOffsets, hsum, hk, hid1, Nat.mod_eq_of_lt hk0, Nat.mod_eq_of_lt hk1]

/-- **The integral overload computes the exact blocks** when `e < 2 ^ w` and
`(e - b) + num - 1` fits in `w` bits. -/
theorem block_range_int_eq {w b e id num : ℕ} (hw : 32 ≤ w) (hbe : b ≤ e) (he : e < 2 ^ w)
    (hnum : 0 < num) (hnum32 : num < 2 ^ 32) (hid : id < num) (hwrap : e - b + num - 1 < 2 ^ w) :
    block_range_int w b e id num = block_range b e id num := by
  have hdist : (e + 2 ^ w - b) % 2 ^ w = e - b := by
    rw [show e + 2 ^ w - b = e - b + 2 ^ w by omega, Nat.add_mod_right,
      Nat.mod_eq_of_lt (by omega)]
  unfold block_range_int block_range
  dsimp only
  rw [hdist, blockOffsets_exact hw hnum hnum32 hid hwrap]
  dsimp only
  generalize max ((e - b + num - 1) / num) 1 = k
  have hmono : k * id ≤ k * (id + 1) := Nat.mul_le_mul_left k (Nat.le_succ id)
  generalize k * id = A at hmono ⊢
  generalize k * (id + 1) = B at hmono ⊢
  -- the moved start and end stay at most `e`, so no sum wraps
  have hA : (b + min A (e - b)) % 2 ^ w = b + min A (e - b) := Nat.mod_eq_of_lt (by omega)
  have hBA : (min B (e - b) + 2 ^ w - min A (e - b)) % 2 ^ w = min B (e - b) - min A (e - b) := by
    rw [show min B (e - b) + 2 ^ w - min A (e - b) = min B (e - b) - min A (e - b) + 2 ^ w by
      omega, Nat.add_mod_right, Nat.mod_eq_of_lt (by omega)]
  rw [hA, hBA, Nat.mod_eq_of_lt (by omega)]

/-- **The iterator overload computes the exact blocks** when `(e - b) + num - 1` fits in a
`size_t`. -/
theorem block_range_iter_eq {b e id num : ℕ} (hnum : 0 < num) (hnum32 : num < 2 ^ 32)
    (hid : id < num) (hwrap : e - b + num - 1 < 2 ^ 64) :
    block_range_iter b e id num = block_range b e id num := by
  unfold block_range_iter block_range
  dsimp only
  rw [Nat.mod_eq_of_lt (by omega), blockOffsets_exact (by decide) hnum hnum32 hid hwrap]

/-- A `long` (or `long long`) result: the value where it lies in `[-2 ^ 63, 2 ^ 63)`, and `none`
where the signed operation overflows, which the source leaves undefined. -/
def longOf (x : ℤ) : Option ℤ := if -2 ^ 63 ≤ x ∧ x < 2 ^ 63 then some x else none

theorem longOf_eq {x : ℤ} (h₁ : -2 ^ 63 ≤ x) (h₂ : x < 2 ^ 63) : longOf x = some x :=
  if_pos ⟨h₁, h₂⟩

/-- `galois::block_range(b, e, id, num)` for `IntTy = long`, the signed type it compiles for (for
`int` and the narrower types `dist + num - 1` is `unsigned` and `std::max` cannot deduce its
type): `num` converts to `long`, `/` truncates, `id + 1` is taken in an `unsigned`, and every
other sum, difference and product is a `long`. -/
def block_range_long (b e : ℤ) (id num : ℕ) : Option (ℤ × ℤ) := do
  let dist ← longOf (e - b)
  let s ← longOf (dist + num)
  let s ← longOf (s - 1)
  if num = 0 then none else
  let numper := max (s.tdiv num) 1
  let A ← longOf (numper * id)
  let A := min A dist
  let B ← longOf (numper * ((id + 1) % 2 ^ 32 : ℕ))
  let B := min B dist
  let b ← longOf (b + A)
  if dist ≠ B then
    let d ← longOf (B - A)
    let e ← longOf (b + d)
    pure (b, e)
  else pure (b, e)

/-- **The `long` overload computes the exact blocks, moved to `b`**, when `b` and `e` are `long`s
and `(e - b) + num` is one too. -/
theorem block_range_long_eq {b e : ℤ} {id num : ℕ} (hb : -2 ^ 63 ≤ b) (hbe : b ≤ e)
    (he : e < 2 ^ 63) (hnum : 0 < num) (hnum32 : num < 2 ^ 32) (hid : id < num)
    (hwrap : e - b + num < 2 ^ 63) :
    block_range_long b e id num = some (b + (block_range 0 (e - b).toNat id num).1,
      b + (block_range 0 (e - b).toNat id num).2) := by
  obtain ⟨d, rfl⟩ : ∃ d : ℕ, e = b + d := ⟨(e - b).toNat, by omega⟩
  have hdist : b + d - b = (d : ℤ) := by omega
  have hd : d + num < 2 ^ 63 := by omega
  rw [hdist, Int.toNat_natCast, block_range_eq (Nat.zero_le d)]
  unfold block_range_long blockStart
  simp only [Nat.sub_zero, Nat.zero_add, hdist]
  -- the block size is the exact one, `k`, and no product reaches `k * num < 2 ^ 63`
  have hq : ((d : ℤ) + num - 1).tdiv num = (((d + num - 1) / num : ℕ) : ℤ) := by
    rw [Int.ofNat_tdiv, Nat.cast_sub (by omega), Nat.cast_add, Nat.cast_one]
  have hkn : max ((d + num - 1) / num) 1 * num < 2 ^ 63 := numper_mul_lt (by omega) (by omega)
  have hid1 : (id + 1) % 2 ^ 32 = id + 1 := Nat.mod_eq_of_lt (by omega)
  rw [longOf_eq (x := d) (by omega) (by omega), Option.bind_eq_bind, Option.bind_some,
    longOf_eq (x := d + num) (by omega) (by omega), Option.bind_some,
    longOf_eq (x := d + num - 1) (by omega) (by omega), Option.bind_some,
    if_neg (Nat.pos_iff_ne_zero.mp hnum), hq, hid1,
    show max (((d + num - 1) / num : ℕ) : ℤ) 1 = ((max ((d + num - 1) / num) 1 : ℕ) : ℤ) by omega]
  generalize max ((d + num - 1) / num) 1 = k at hkn ⊢
  have hA : k * id ≤ k * (id + 1) := Nat.mul_le_mul_left k (Nat.le_succ id)
  have hB : k * (id + 1) < 2 ^ 63 :=
    Nat.lt_of_le_of_lt (Nat.mul_le_mul_left k (Nat.succ_le_of_lt hid)) hkn
  rw [← Nat.cast_mul, ← Nat.cast_mul]
  generalize k * id = A at hA ⊢
  generalize k * (id + 1) = B at hA hB ⊢
  -- the moved start and end stay in `[b, e]`
  rw [longOf_eq (x := A) (by omega) (by omega), Option.bind_some,
    longOf_eq (x := B) (by omega) (by omega), Option.bind_some,
    longOf_eq (x := b + min (A : ℤ) d) (by omega) (by omega), Option.bind_some,
    Nat.cast_min, Nat.cast_min]
  split_ifs with hBd
  · rw [longOf_eq (x := min (B : ℤ) d - min (A : ℤ) d) (by omega) (by omega), Option.bind_some,
      longOf_eq (x := b + min (A : ℤ) d + (min (B : ℤ) d - min (A : ℤ) d)) (by omega) (by omega),
      Option.bind_some, Option.pure_def]
    congr 2
    omega
  · rw [Option.pure_def]
    congr 2
    omega

/-! ## 4. The partition law -/

/-- The blocks `r id` for `id < num` cut `[b, e)` into consecutive pieces: the first starts at
`b`, each ends where the next starts, the last ends at `e`, and none is reversed. -/
structure Partitions {α : Type} [LE α] (r : ℕ → α × α) (b e : α) (num : ℕ) : Prop where
  first : (r 0).1 = b
  last : (r (num - 1)).2 = e
  next : ∀ id, id + 1 < num → (r id).2 = (r (id + 1)).1
  le : ∀ id, id < num → (r id).1 ≤ (r id).2

/-- Only the blocks of the `num` ids matter. -/
theorem Partitions.congr {α : Type} [LE α] {r r' : ℕ → α × α} {b e : α} {num : ℕ}
    (h : Partitions r b e num)
    (hnum : 0 < num) (heq : ∀ id, id < num → r' id = r id) : Partitions r' b e num :=
  ⟨by rw [heq 0 hnum, h.first], by rw [heq (num - 1) (by omega), h.last],
    fun id hid => by rw [heq id (by omega), heq (id + 1) hid, h.next id hid],
    fun id hid => by rw [heq id hid]; exact h.le id hid⟩

/-- **Consecutive blocks are the range, each element once**: the first `k` blocks are
`[b, end of block k - 1)`, by induction on `k`. -/
theorem Partitions.flatMap_eq {r : ℕ → ℕ × ℕ} {b e num : ℕ} (h : Partitions r b e num)
    (hnum : 0 < num) :
    (List.range num).flatMap (fun id => List.range' (r id).1 ((r id).2 - (r id).1)) =
      List.range' b (e - b) := by
  have hrun : ∀ k, 0 < k → k ≤ num →
      (List.range k).flatMap (fun id => List.range' (r id).1 ((r id).2 - (r id).1)) =
        List.range' b ((r (k - 1)).2 - b) ∧ b ≤ (r (k - 1)).2 := by
    intro k hk hkn
    induction k with
    | zero => omega
    | succ k ih =>
      rcases Nat.eq_zero_or_pos k with rfl | hk0
      · have hle := h.le 0 hnum
        rw [h.first] at hle
        simp [h.first, hle]
      · obtain ⟨ih, hb⟩ := ih hk0 (by omega)
        have hnext := h.next (k - 1) (by omega)
        have hle := h.le k (by omega)
        rw [Nat.sub_add_cancel hk0] at hnext
        have happ := List.range'_append_1 (s := b) (m := (r (k - 1)).2 - b)
          (n := (r k).2 - (r (k - 1)).2)
        rw [Nat.add_sub_cancel' hb] at happ
        rw [List.range_succ, List.flatMap_append, ih, List.flatMap_singleton, ← hnext, happ,
          Nat.add_one_sub_one]
        constructor
        · congr 1
          omega
        · omega
  rw [(hrun num hnum (Nat.le_refl num)).1, h.last]

/-- Blocks of `[0, d)` moved to `c` are blocks of `[c, c + d)` among the integers. -/
theorem Partitions.cast_add {r : ℕ → ℕ × ℕ} {d num : ℕ} (h : Partitions r 0 d num) {c e : ℤ}
    (he : c + d = e) :
    Partitions (fun id => (c + ((r id).1 : ℤ), c + ((r id).2 : ℤ))) c e num := by
  refine ⟨?_, ?_, fun id hid => ?_, fun id hid => ?_⟩
  · rw [h.first, Nat.cast_zero, Int.add_zero]
  · rw [h.last, he]
  · rw [h.next id hid]
  · exact Int.add_le_add_left (Nat.cast_le.mpr (h.le id hid)) c

/-- The exact blocks partition the range. -/
theorem partitions_block_range {b e num : ℕ} (hbe : b ≤ e) (hnum : 0 < num) :
    Partitions (fun id => block_range b e id num) b e num := by
  refine ⟨?_, ?_, fun id _ => ?_, fun id _ => ?_⟩
  · rw [block_range_eq hbe, blockStart_zero]
  · rw [block_range_eq hbe, Nat.sub_add_cancel hnum, blockStart_num hbe hnum]
  · rw [block_range_eq hbe, block_range_eq hbe]
  · rw [block_range_eq hbe]
    exact blockStart_mono b e num id (id + 1) (Nat.le_succ id)

/-- **At the top of a `size_t` the block size wraps**: `block_range(0, 2^64 - 1, id, 2)` computes
`dist + num - 1 = 2^64`, which is `0`, so each block has one element and the last ends at `2`. In
a `long`, `block_range(0, 2^63 - 1, 0, 2)` overflows at `dist + num`. -/
theorem block_range_wraps :
    block_range_int 64 0 (2 ^ 64 - 1) 0 2 = (0, 1) ∧
      block_range_int 64 0 (2 ^ 64 - 1) 1 2 = (1, 2) ∧ block_range_long 0 (2 ^ 63 - 1) 0 2 = none := by
  decide

end Galois
