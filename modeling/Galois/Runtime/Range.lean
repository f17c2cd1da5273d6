import Mathlib.Data.List.Nodup
import Galois.Gstl

/-!
# The ranges of the runtime (runtime/Range.h)

A range hands each thread the part of the iteration it runs. Iterators are counting iterators
here: an iterator is its position, and `*it` reads the position.

* `StandardRange.block_pair`, `StandardRange.local_pair` -- `block_range` over the range's two
  iterators, for the thread's id among the active threads;
* `SpecificRange.block_pair` -- the part the array `thread_beginnings` gives the thread, returned
  as it is when the global range is all of `[0, thread_beginnings[T])`, and otherwise clipped to
  the global range, an empty part becoming `(global_end, global_end)`;
* `StandardRange.partitions` -- the standard parts cut the range into consecutive blocks;
  **`block_range_partitions`** -- so does `block_range` for every `IntTy` it compiles for, while
  nothing wraps;
* `flatMap_block_pair` -- the specific parts, in thread order, are the global range: each part
  is the block between two clamped thread beginnings; **`block_pair_partition`** -- so for a
  non-decreasing `thread_beginnings` from 0 and a global range inside `[0, thread_beginnings[T])`
  the parts are pairwise disjoint and cover the global range exactly.
-/

namespace Galois.Runtime

open Compaction

/-! ## 1. The model -/

/-- `StandardRange(ii, ei).block_pair()` on thread `tid` of `activeThreads`. -/
def StandardRange.block_pair (ii ei tid activeThreads : ℕ) : ℕ × ℕ :=
  block_range_iter ii ei tid activeThreads

/-- `StandardRange::local_pair()`: the `block_pair()`. -/
def StandardRange.local_pair (ii ei tid activeThreads : ℕ) : ℕ × ℕ :=
  StandardRange.block_pair ii ei tid activeThreads

/-- `SpecificRange(global_begin, global_end, thread_beginnings).block_pair()` on thread `tid` of
`total_threads`: the thread's own part when `thread_beginnings[total_threads] == *global_end` and
`*global_begin == 0`, and otherwise that part cut at `global_begin` and `global_end`, with
`(global_end, global_end)` for an empty cut. -/
def SpecificRange.block_pair (global_begin global_end : ℕ) (thread_beginnings : List ℕ)
    (total_threads tid : ℕ) : ℕ × ℕ :=
  let local_begin := thread_beginnings.getD tid 0
  let local_end := thread_beginnings.getD (tid + 1) 0
  if thread_beginnings.getD total_threads 0 = global_end ∧ global_begin = 0 then
    (local_begin, local_end)
  else
    let left := if local_begin < global_begin then global_begin else local_begin
    let right := if local_end > global_end then global_end else local_end
    if left ≥ right ∨ right ≤ left then (global_end, global_end) else (left, right)

/-! ## 2. The standard range -/

/-- **The standard parts cut the range into consecutive blocks** as long as
`std::distance(ii, ei) + activeThreads - 1` fits in a `size_t`. -/
theorem StandardRange.partitions {ii ei activeThreads : ℕ} (hie : ii ≤ ei)
    (hT : 0 < activeThreads) (hT32 : activeThreads < 2 ^ 32)
    (hwrap : ei - ii + activeThreads - 1 < 2 ^ 64) :
    Partitions (fun tid => StandardRange.local_pair ii ei tid activeThreads) ii ei
      activeThreads :=
  (partitions_block_range hie hT).congr hT fun _ htid => block_range_iter_eq hT hT32 htid hwrap

/-- **`block_range` partitions the range when nothing wraps**, for every `IntTy` it compiles for
and for the iterators of a `StandardRange`: the blocks of the ids `0 .. num - 1` cut `[b, e)`
into consecutive pieces for an unsigned `IntTy` of `w ≥ 32` bits with `e < 2 ^ w` and
`(e - b) + num - 1 < 2 ^ w`; for a `long`, where no operation overflows while `b`, `e` and
`(e - b) + num` are `long`s; and for iterators, and so for `StandardRange::local_pair`, with
`(e - b) + num - 1 < 2 ^ 64`. -/
theorem block_range_partitions {w b e num : ℕ} {bl el : ℤ} (hw : 32 ≤ w) (hbe : b ≤ e)
    (hble : bl ≤ el) (hnum : 0 < num) (hnum32 : num < 2 ^ 32) :
    (e < 2 ^ w → e - b + num - 1 < 2 ^ w →
      Partitions (fun id => block_range_int w b e id num) b e num) ∧
    (-2 ^ 63 ≤ bl → el < 2 ^ 63 → el - bl + num < 2 ^ 63 →
      (∀ id, id < num → (block_range_long bl el id num).isSome) ∧
        Partitions (fun id => (block_range_long bl el id num).getD (bl, bl)) bl el num) ∧
    (e - b + num - 1 < 2 ^ 64 →
      Partitions (fun id => block_range_iter b e id num) b e num ∧
        Partitions (fun tid => StandardRange.local_pair b e tid num) b e num) := by
  refine ⟨fun he hwrap => ?_, fun hb he hwrap => ?_, fun hwrap => ?_⟩
  · exact (partitions_block_range hbe hnum).congr hnum fun _ hid =>
      block_range_int_eq hw hbe he hnum hnum32 hid hwrap
  · -- the `long` blocks are the exact blocks of `[0, e - b)` moved to `b`
    have hlong := fun id (hid : id < num) =>
      block_range_long_eq hb hble he hnum hnum32 hid hwrap
    refine ⟨fun id hid => by rw [hlong id hid]; rfl, ?_⟩
    have hend : bl + ((el - bl).toNat : ℤ) = el := by
      rw [Int.toNat_of_nonneg (by omega)]
      omega
    exact ((partitions_block_range (Nat.zero_le _) hnum).cast_add hend).congr hnum fun id hid => by
      rw [hlong id hid]
      rfl
  · exact ⟨(partitions_block_range hbe hnum).congr hnum fun _ hid =>
      block_range_iter_eq hnum hnum32 hid hwrap, StandardRange.partitions hbe hnum hnum32 hwrap⟩

/-- An unsigned `size_t` range, a `long` range from `-5` and a range of iterators, in three
blocks. -/
theorem block_range_partitions_size_t :
    Partitions (fun id => block_range_int 64 0 10 id 3) 0 10 3 ∧
      ((∀ id, id < 3 → (block_range_long (-5) 6 id 3).isSome) ∧
        Partitions (fun id => (block_range_long (-5) 6 id 3).getD (-5, -5)) (-5) 6 3) ∧
      Partitions (fun id => block_range_iter 0 10 id 3) 0 10 3 ∧
        Partitions (fun tid => StandardRange.local_pair 0 10 tid 3) 0 10 3 := by
  obtain ⟨hint, hlong, hiter⟩ := @block_range_partitions 64 0 10 3 (-5) 6 (by decide) (by decide)
    (by decide) (by decide) (by decide)
  exact ⟨hint (by decide) (by decide), hlong (by decide) (by decide) (by decide),
    hiter (by decide)⟩

/-! ## 3. The specific range -/

section Specific

variable {thread_beginnings : List ℕ} {T : ℕ}

/-- A non-decreasing array read at two positions up to its last one. -/
theorem getD_mono (hsorted : thread_beginnings.Pairwise (· ≤ ·))
    (hlen : thread_beginnings.length = T + 1) {s t : ℕ} (hst : s ≤ t) (ht : t ≤ T) :
    thread_beginnings.getD s 0 ≤ thread_beginnings.getD t 0 := by
  rw [List.getD_eq_getElem?_getD, List.getElem?_eq_getElem (by omega), Option.getD_some,
    List.getD_eq_getElem?_getD, List.getElem?_eq_getElem (by omega), Option.getD_some]
  rcases Nat.lt_or_eq_of_le hst with hlt | rfl
  · exact List.pairwise_iff_getElem.mp hsorted s t (by omega) (by omega) hlt
  · exact Nat.le_refl _

/-- The thread beginnings clamped to `[global_begin, global_end]`, constant past thread `T`. -/
def clampedBeginning (global_begin global_end : ℕ) (thread_beginnings : List ℕ) (T t : ℕ) : ℕ :=
  min global_end (max global_begin (thread_beginnings.getD (min t T) 0))

theorem clampedBeginning_mono {global_begin global_end : ℕ}
    (hsorted : thread_beginnings.Pairwise (· ≤ ·)) (hlen : thread_beginnings.length = T + 1)
    (s t : ℕ) (hst : s ≤ t) :
    clampedBeginning global_begin global_end thread_beginnings T s ≤
      clampedBeginning global_begin global_end thread_beginnings T t := by
  have hmono := getD_mono hsorted hlen (show min s T ≤ min t T by omega) (Nat.min_le_right t T)
  unfold clampedBeginning
  omega

/-- **Each part is the block between two clamped beginnings**, on the clipping path: a part that
is not empty runs from its beginning to the next, both clamped, and an empty one has equal
clamped ends. -/
theorem block_pair_eq_cutBlock {global_begin global_end : ℕ}
    (hsorted : thread_beginnings.Pairwise (· ≤ ·)) (hlen : thread_beginnings.length = T + 1)
    (hfast : ¬ (thread_beginnings.getD T 0 = global_end ∧ global_begin = 0)) {tid : ℕ}
    (htid : tid < T) :
    List.range' (SpecificRange.block_pair global_begin global_end thread_beginnings T tid).1
        ((SpecificRange.block_pair global_begin global_end thread_beginnings T tid).2 -
          (SpecificRange.block_pair global_begin global_end thread_beginnings T tid).1) =
      cutBlock (clampedBeginning global_begin global_end thread_beginnings T) tid := by
  have hmono := getD_mono hsorted hlen (Nat.le_succ tid) (Nat.succ_le_of_lt htid)
  have hmin : min tid T = tid := Nat.min_eq_left (Nat.le_of_lt htid)
  have hmin' : min (tid + 1) T = tid + 1 := Nat.min_eq_left (Nat.succ_le_of_lt htid)
  unfold SpecificRange.block_pair cutBlock clampedBeginning
  rw [if_neg hfast, hmin, hmin']
  dsimp only
  generalize thread_beginnings.getD tid 0 = lb at hmono ⊢
  generalize thread_beginnings.getD (tid + 1) 0 = le at hmono ⊢
  split_ifs <;> first
    | (congr 1 <;> omega)
    | (rw [Nat.sub_self, List.range'_zero, Nat.sub_eq_zero_of_le (by omega), List.range'_zero])

/-- **The parts, in thread order, are the global range**, for a non-decreasing
`thread_beginnings` of `T + 1` entries from 0 and a global range inside
`[0, thread_beginnings[T])`. -/
theorem flatMap_block_pair {global_begin global_end : ℕ}
    (hsorted : thread_beginnings.Pairwise (· ≤ ·)) (hlen : thread_beginnings.length = T + 1)
    (hzero : thread_beginnings.getD 0 0 = 0)
    (hsub : ∀ x, global_begin ≤ x → x < global_end → x < thread_beginnings.getD T 0) :
    (List.range T).flatMap (fun tid =>
      List.range' (SpecificRange.block_pair global_begin global_end thread_beginnings T tid).1
        ((SpecificRange.block_pair global_begin global_end thread_beginnings T tid).2 -
          (SpecificRange.block_pair global_begin global_end thread_beginnings T tid).1)) =
      List.range' global_begin (global_end - global_begin) := by
  by_cases hfast : thread_beginnings.getD T 0 = global_end ∧ global_begin = 0
  · -- the fast path: each thread's own part, the blocks between its beginning and the next
    obtain ⟨hT, hgb⟩ := hfast
    have hcut := flatMap_cutBlock (fun t => thread_beginnings.getD (min t T) 0)
      (fun s t hst => getD_mono hsorted hlen (show min s T ≤ min t T by omega)
        (Nat.min_le_right t T)) T
    rw [← List.flatMap_congr fun tid htid => ?_]
    · rw [hcut, Nat.min_self, Nat.zero_min, hzero, hT, hgb]
    · have htid := List.mem_range.mp htid
      unfold SpecificRange.block_pair cutBlock
      dsimp only
      rw [if_pos ⟨hT, hgb⟩, Nat.min_eq_left (Nat.le_of_lt htid),
        Nat.min_eq_left (Nat.succ_le_of_lt htid)]
  · -- the clipping path: the blocks between the clamped beginnings
    rw [List.flatMap_congr fun tid htid =>
      block_pair_eq_cutBlock hsorted hlen hfast (List.mem_range.mp htid),
      flatMap_cutBlock _ (clampedBeginning_mono hsorted hlen) T]
    unfold clampedBeginning
    rw [Nat.min_self, Nat.zero_min, hzero]
    by_cases hlt : global_begin < global_end
    · have hT := hsub (global_end - 1) (by omega) (by omega)
      congr 1 <;> omega
    · rw [Nat.sub_eq_zero_of_le (by omega), Nat.sub_eq_zero_of_le (by omega)]
      rfl

/-- **The threads' parts are pairwise disjoint and cover the global range exactly**, for every
non-decreasing `thread_beginnings` of `T + 1` entries from 0 and every global range inside
`[0, thread_beginnings[T])`. -/
theorem block_pair_partition {global_begin global_end : ℕ}
    (hsorted : thread_beginnings.Pairwise (· ≤ ·)) (hlen : thread_beginnings.length = T + 1)
    (hzero : thread_beginnings.getD 0 0 = 0)
    (hsub : ∀ x, global_begin ≤ x → x < global_end → x < thread_beginnings.getD T 0) :
    (∀ x, (∃ tid, tid < T ∧
        (SpecificRange.block_pair global_begin global_end thread_beginnings T tid).1 ≤ x ∧
        x < (SpecificRange.block_pair global_begin global_end thread_beginnings T tid).2) ↔
        global_begin ≤ x ∧ x < global_end) ∧
      ∀ s t x, s < T → t < T →
        (SpecificRange.block_pair global_begin global_end thread_beginnings T s).1 ≤ x →
        x < (SpecificRange.block_pair global_begin global_end thread_beginnings T s).2 →
        (SpecificRange.block_pair global_begin global_end thread_beginnings T t).1 ≤ x →
        x < (SpecificRange.block_pair global_begin global_end thread_beginnings T t).2 →
        s = t := by
  set part := SpecificRange.block_pair global_begin global_end thread_beginnings T
  have hcat : (List.range T).flatMap (fun tid =>
      List.range' (part tid).1 ((part tid).2 - (part tid).1)) =
      List.range' global_begin (global_end - global_begin) :=
    flatMap_block_pair hsorted hlen hzero hsub
  refine ⟨fun x => ⟨?_, ?_⟩, fun s t x hs ht hs1 hs2 ht1 ht2 => ?_⟩
  · -- a point of a part is a point of the concatenation
    rintro ⟨tid, htid, h1, h2⟩
    have hx : x ∈ (List.range T).flatMap fun tid =>
        List.range' (part tid).1 ((part tid).2 - (part tid).1) :=
      List.mem_flatMap.mpr ⟨tid, List.mem_range.mpr htid, List.mem_range'_1.mpr ⟨h1, by omega⟩⟩
    rw [hcat, List.mem_range'_1] at hx
    omega
  · rintro ⟨h1, h2⟩
    have hx : x ∈ List.range' global_begin (global_end - global_begin) :=
      List.mem_range'_1.mpr ⟨h1, by omega⟩
    rw [← hcat, List.mem_flatMap] at hx
    obtain ⟨tid, htid, hx⟩ := hx
    rw [List.mem_range'_1] at hx
    exact ⟨tid, List.mem_range.mp htid, hx.1, by omega⟩
  · -- the concatenation has no duplicate, so two parts with a common point are one
    by_contra hne
    have hnd : ((List.range T).flatMap fun tid =>
        List.range' (part tid).1 ((part tid).2 - (part tid).1)).Nodup := by
      rw [hcat]
      exact List.nodup_range'
    have hpw := (List.nodup_flatMap.mp hnd).2
    have hxs : x ∈ List.range' (part s).1 ((part s).2 - (part s).1) :=
      List.mem_range'_1.mpr ⟨hs1, by omega⟩
    have hxt : x ∈ List.range' (part t).1 ((part t).2 - (part t).1) :=
      List.mem_range'_1.mpr ⟨ht1, by omega⟩
    rcases Nat.lt_or_gt_of_ne hne with hst | hts
    · have hd := List.pairwise_iff_getElem.mp hpw s t (by simpa using hs) (by simpa using ht) hst
      simp only [List.getElem_range, Function.onFun] at hd
      exact hd hxs hxt
    · have hd := List.pairwise_iff_getElem.mp hpw t s (by simpa using ht) (by simpa using hs) hts
      simp only [List.getElem_range, Function.onFun] at hd
      exact hd hxt hxs

theorem block_pair_partition_clipped :
    [0, 3, 5].Pairwise (· ≤ ·) ∧ [0, 3, 5].length = 2 + 1 ∧ [0, 3, 5].getD 0 0 = 0 ∧
      (∀ x, 1 ≤ x → x < 4 → x < [0, 3, 5].getD 2 0) ∧
      (∀ x, (∃ tid, tid < 2 ∧ (SpecificRange.block_pair 1 4 [0, 3, 5] 2 tid).1 ≤ x ∧
          x < (SpecificRange.block_pair 1 4 [0, 3, 5] 2 tid).2) ↔ 1 ≤ x ∧ x < 4) ∧
        ∀ s t x, s < 2 → t < 2 → (SpecificRange.block_pair 1 4 [0, 3, 5] 2 s).1 ≤ x →
          x < (SpecificRange.block_pair 1 4 [0, 3, 5] 2 s).2 →
          (SpecificRange.block_pair 1 4 [0, 3, 5] 2 t).1 ≤ x →
          x < (SpecificRange.block_pair 1 4 [0, 3, 5] 2 t).2 → s = t :=
  have hsub : ∀ x, 1 ≤ x → x < 4 → x < [0, 3, 5].getD 2 0 := fun x _ hx =>
    Nat.lt_of_lt_of_le hx (by decide)
  ⟨by decide, rfl, rfl, hsub, block_pair_partition (by decide) rfl rfl hsub⟩

end Specific

end Galois.Runtime
