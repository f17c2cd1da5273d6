import Mathlib

/-!
# Two-pass blockwise compaction

Parallel loops that gather the hits of a predicate over an index range into a dense array
run two passes over the same per-thread blocks of the range:

* `countPass` -- every thread counts the hits of its block;
* `prefixSumInPlace` -- one thread turns the counts into running sums with the loop
  `for i in 1 .. n: a[i] += a[i - 1]`;
* `writePass` -- every thread walks its block again and writes the image of each hit at the
  running sum of the blocks before it plus its own count so far (`scanWrite`).

The blocks are written from consecutive starts, so the result does not depend on how many
threads there are or in which order they run: `writePass_prefixSum` says it is the hits of the
concatenated blocks, in order, written as one run (`writeRun`) from the base position, and
`total_prefixSum` that the last running sum counts them. Nothing here names a program: the
file is about lists.
-/

namespace Compaction

variable {α : Type*}

/-! ## 1. Writing a run of values -/

/-- Write `vs` into `a` at positions `pos, pos + 1, …`. -/
def writeRun : List α → ℕ → List α → List α
  | a, _, [] => a
  | a, pos, v :: vs => writeRun (a.set pos v) (pos + 1) vs

@[simp] theorem writeRun_nil (a : List α) (pos : ℕ) : writeRun a pos [] = a := rfl

@[simp] theorem length_writeRun (a : List α) (pos : ℕ) (vs : List α) :
    (writeRun a pos vs).length = a.length := by
  induction vs generalizing a pos with
  | nil => rfl
  | cons v vs ih => simp [writeRun, ih]

theorem writeRun_append (a : List α) (pos : ℕ) (vs ws : List α) :
    writeRun a pos (vs ++ ws) = writeRun (writeRun a pos vs) (pos + vs.length) ws := by
  induction vs generalizing a pos with
  | nil => rfl
  | cons v vs ih =>
    rw [List.cons_append, writeRun, writeRun, ih, List.length_cons, Nat.add_right_comm,
      Nat.add_assoc]

/-- **A run that fits replaces exactly its interval** and keeps the rest of the array. -/
theorem writeRun_eq (a : List α) (pos : ℕ) (vs : List α) (h : pos + vs.length ≤ a.length) :
    writeRun a pos vs = a.take pos ++ vs ++ a.drop (pos + vs.length) := by
  induction vs generalizing a pos with
  | nil => simp
  | cons v vs ih =>
    have hpos : pos < a.length := by simp only [List.length_cons] at h; omega
    have hset : a.set pos v = a.take pos ++ v :: a.drop (pos + 1) :=
      List.set_eq_take_append_cons_drop.trans (if_pos hpos)
    have hlen : (a.take pos).length = pos := List.length_take_of_le (Nat.le_of_lt hpos)
    rw [writeRun, ih _ _ (by simp only [List.length_set, List.length_cons] at h ⊢; omega), hset]
    have htake : (a.take pos ++ v :: a.drop (pos + 1)).take (pos + 1) = a.take pos ++ [v] := by
      rw [List.take_append, hlen, List.take_of_length_le (by omega), Nat.add_sub_cancel_left]
      rfl
    have hdrop : (a.take pos ++ v :: a.drop (pos + 1)).drop (pos + 1 + vs.length) =
        a.drop (pos + (v :: vs).length) := by
      rw [List.drop_append, hlen, List.length_cons, List.drop_eq_nil_of_le (by omega),
        List.nil_append, show pos + 1 + vs.length - pos = vs.length + 1 by omega,
        List.drop_succ_cons, List.drop_drop]
      congr 1
      omega
    rw [htake, hdrop]
    simp

/-- Reading back a run that fits: inside its interval the run, elsewhere the array. -/
theorem getD_writeRun (a : List α) (pos : ℕ) (vs : List α) (h : pos + vs.length ≤ a.length)
    (p : ℕ) (d : α) :
    (writeRun a pos vs).getD p d =
      if pos ≤ p ∧ p < pos + vs.length then vs.getD (p - pos) d else a.getD p d := by
  induction vs generalizing a pos with
  | nil => rw [writeRun_nil, if_neg (by simp only [List.length_nil]; omega)]
  | cons v vs ih =>
    rw [List.length_cons] at h
    rw [writeRun, ih (a.set pos v) (pos + 1) (by rw [List.length_set]; omega)]
    have hset : p ≠ pos → (a.set pos v).getD p d = a.getD p d := fun hp => by
      rw [List.getD_eq_getElem?_getD, List.getElem?_set_ne (Ne.symm hp),
        ← List.getD_eq_getElem?_getD]
    rcases Nat.lt_trichotomy p pos with hp | rfl | hp
    · rw [if_neg (by omega), if_neg (by omega), hset (by omega)]
    · rw [if_neg (by omega), if_pos ⟨Nat.le_refl p, by simp⟩, Nat.sub_self,
        List.getD_eq_getElem?_getD, List.getElem?_set_self (by omega)]
      rfl
    · by_cases hin : p < pos + 1 + vs.length
      · rw [if_pos ⟨by omega, hin⟩, if_pos ⟨by omega, by simp only [List.length_cons]; omega⟩,
          show p - pos = p - (pos + 1) + 1 by omega, List.getD_cons_succ]
      · rw [if_neg (by omega), if_neg (by simp only [List.length_cons]; omega), hset (by omega)]

/-- **Runs that agree with a target, written in any order**: every position some run covers
holds the target, every other keeps its value. Overlaps do no harm, as all runs agree. -/
theorem getD_foldl_writeRun (t : ℕ → α) (d : α) (runs : List (ℕ × List α)) (a : List α)
    (hfit : ∀ r ∈ runs, r.1 + r.2.length ≤ a.length)
    (hagree : ∀ r ∈ runs, ∀ j < r.2.length, r.2.getD j d = t (r.1 + j)) (p : ℕ) :
    (runs.foldl (fun a r => writeRun a r.1 r.2) a).getD p d =
      if ∃ r ∈ runs, r.1 ≤ p ∧ p < r.1 + r.2.length then t p else a.getD p d := by
  induction runs generalizing a with
  | nil => simp
  | cons r runs ih =>
    rw [List.foldl_cons, ih (writeRun a r.1 r.2)
      (fun r' hr' => by rw [length_writeRun]; exact hfit r' (List.mem_cons_of_mem _ hr'))
      (fun r' hr' => hagree r' (List.mem_cons_of_mem _ hr')),
      getD_writeRun a r.1 r.2 (hfit r List.mem_cons_self)]
    by_cases hlater : ∃ r' ∈ runs, r'.1 ≤ p ∧ p < r'.1 + r'.2.length
    · obtain ⟨r', hr', hp⟩ := hlater
      rw [if_pos ⟨r', hr', hp⟩, if_pos ⟨r', List.mem_cons_of_mem _ hr', hp⟩]
    · rw [if_neg hlater]
      by_cases hr : r.1 ≤ p ∧ p < r.1 + r.2.length
      · rw [if_pos hr, if_pos ⟨r, List.mem_cons_self, hr⟩,
          hagree r List.mem_cons_self _ (by omega), Nat.add_sub_cancel' hr.1]
      · have hnone : ¬ ∃ r' ∈ r :: runs, r'.1 ≤ p ∧ p < r'.1 + r'.2.length := by
          rintro ⟨r', hr', hp⟩
          rcases List.mem_cons.mp hr' with rfl | h
          · exact hr hp
          · exact hlater ⟨r', h, hp⟩
        rw [if_neg hr, if_neg hnone]

/-! ## 2. One thread's second pass -/

/-- Walk `is` and write `g i` for every hit `i` of `p` at the next free position, starting at
`pos` (the code keeps the position as its start plus a running counter). -/
def scanWrite (p : ℕ → Bool) (g : ℕ → α) : List α → ℕ → List ℕ → List α
  | a, _, [] => a
  | a, pos, i :: is =>
    if p i then scanWrite p g (a.set pos (g i)) (pos + 1) is else scanWrite p g a pos is

/-- A thread's walk writes the images of its hits as one run. -/
theorem scanWrite_eq (p : ℕ → Bool) (g : ℕ → α) (a : List α) (pos : ℕ) (is : List ℕ) :
    scanWrite p g a pos is = writeRun a pos ((is.filter p).map g) := by
  induction is generalizing a pos with
  | nil => rfl
  | cons i is ih =>
    by_cases hi : p i
    · simp only [scanWrite, hi, if_true, List.filter_cons_of_pos hi, List.map_cons, writeRun, ih]
    · simp only [scanWrite, hi, Bool.false_eq_true, if_false, List.filter_cons_of_neg hi, ih]

/-! ## 3. The in-place prefix sum -/

/-- The loop `for i in 1 .. a.size: a[i] += a[i - 1]`. -/
def prefixSumInPlace (a : List ℕ) : List ℕ :=
  (List.range' 1 (a.length - 1)).foldl (fun a i => a.set i (a.getD i 0 + a.getD (i - 1) 0)) a

@[simp] theorem length_prefixSumInPlace (a : List ℕ) : (prefixSumInPlace a).length = a.length := by
  have hrounds : ∀ (is : List ℕ) (b : List ℕ),
      (is.foldl (fun a i => a.set i (a.getD i 0 + a.getD (i - 1) 0)) b).length = b.length := by
    intro is
    induction is with
    | nil => intro b; rfl
    | cons i is ih => intro b; rw [List.foldl_cons, ih, List.length_set]
  exact hrounds _ a

/-- After the first `k` rounds, entries `0 .. k` hold running sums and the rest is untouched. -/
theorem prefixSum_rounds (a : List ℕ) (k : ℕ) (hk : k < a.length) :
    let b := (List.range' 1 k).foldl (fun a i => a.set i (a.getD i 0 + a.getD (i - 1) 0)) a
    b.length = a.length ∧ ∀ i, b.getD i 0 = if i ≤ k then (a.take (i + 1)).sum else a.getD i 0 := by
  induction k with
  | zero =>
    refine ⟨rfl, fun i => ?_⟩
    split
    · rename_i hi
      obtain rfl : i = 0 := by omega
      cases a with
      | nil => simp at hk
      | cons x xs => simp
    · rfl
  | succ k ih =>
    obtain ⟨hlen, hget⟩ := ih (by omega)
    rw [List.range'_1_concat, List.foldl_append, List.foldl_cons, List.foldl_nil]
    simp only [Nat.add_comm 1 k, Nat.add_sub_cancel]
    set b := (List.range' 1 k).foldl (fun a i => a.set i (a.getD i 0 + a.getD (i - 1) 0)) a
    have hb : k + 1 < b.length := by omega
    have hk1 : b.getD (k + 1) 0 = a[k + 1] := by
      rw [hget, if_neg (by omega), List.getD_eq_getElem?_getD, List.getElem?_eq_getElem hk,
        Option.getD_some]
    have hk0 : b.getD k 0 = (a.take (k + 1)).sum := by rw [hget, if_pos (Nat.le_refl k)]
    refine ⟨by rw [List.length_set, hlen], fun i => ?_⟩
    by_cases hi : i = k + 1
    · subst hi
      have htake : a.take (k + 1 + 1) = a.take (k + 1) ++ [a[k + 1]] := by
        rw [List.take_add_one, List.getElem?_eq_getElem hk]
        rfl
      rw [List.getD_eq_getElem?_getD, List.getElem?_set_self hb, Option.getD_some, hk1, hk0,
        if_pos (Nat.le_refl _), htake, List.sum_append, List.sum_singleton, Nat.add_comm]
    · rw [List.getD_eq_getElem?_getD, List.getElem?_set_ne (Ne.symm hi),
        ← List.getD_eq_getElem?_getD, hget]
      by_cases hik : i ≤ k
      · rw [if_pos hik, if_pos (by omega)]
      · rw [if_neg hik, if_neg (by omega)]

/-- **The in-place loop computes running sums.** -/
theorem getD_prefixSumInPlace (a : List ℕ) (i : ℕ) (hi : i < a.length) :
    (prefixSumInPlace a).getD i 0 = (a.take (i + 1)).sum := by
  have h := (prefixSum_rounds a (a.length - 1) (by omega)).2 i
  rw [if_pos (by omega)] at h
  exact h

/-- A list is the running sums of `a` when it has `a`'s length and each entry sums `a` up to it. -/
theorem prefixSumInPlace_eq_of_getD {a b : List ℕ} (hlen : b.length = a.length)
    (h : ∀ i < a.length, b.getD i 0 = (a.take (i + 1)).sum) : prefixSumInPlace a = b := by
  refine List.ext_getElem (by rw [length_prefixSumInPlace, hlen]) fun i h1 h2 => ?_
  have hi : i < a.length := by rw [length_prefixSumInPlace] at h1; exact h1
  have hsum := getD_prefixSumInPlace a i hi
  rw [List.getD_eq_getElem?_getD, List.getElem?_eq_getElem h1, Option.getD_some] at hsum
  rw [hsum, ← h i hi, List.getD_eq_getElem?_getD, List.getElem?_eq_getElem h2, Option.getD_some]

/-- Zeros after `a` repeat its total. -/
theorem prefixSumInPlace_append_zeros (a : List ℕ) (k : ℕ) :
    prefixSumInPlace (a ++ List.replicate k 0) = prefixSumInPlace a ++ List.replicate k a.sum := by
  refine prefixSumInPlace_eq_of_getD (by simp) fun i hi => ?_
  rw [List.length_append, List.length_replicate] at hi
  have hzero : ∀ m, (List.replicate m 0).sum = 0 := fun m => by simp
  rw [List.take_append, List.take_replicate, List.sum_append, hzero, Nat.add_zero]
  by_cases hia : i < a.length
  · rw [List.getD_eq_getElem?_getD, List.getElem?_append_left (by simpa using hia),
      ← List.getD_eq_getElem?_getD, getD_prefixSumInPlace a i hia]
  · rw [List.getD_eq_getElem?_getD, List.getElem?_append_right (by simp; omega),
      length_prefixSumInPlace, List.getElem?_replicate, if_pos (by omega), Option.getD_some,
      List.take_of_length_le (by omega)]

/-- Rounds at indices inside `a` leave what follows `a` alone. -/
theorem prefixRounds_append (is : List ℕ) (a b : List ℕ) (h : ∀ i ∈ is, i < a.length) :
    is.foldl (fun a i => a.set i (a.getD i 0 + a.getD (i - 1) 0)) (a ++ b) =
      is.foldl (fun a i => a.set i (a.getD i 0 + a.getD (i - 1) 0)) a ++ b := by
  induction is generalizing a with
  | nil => rfl
  | cons i is ih =>
    have hi := h i List.mem_cons_self
    have hget : ∀ j, j < a.length → (a ++ b).getD j 0 = a.getD j 0 := fun j hj => by
      rw [List.getD_eq_getElem?_getD, List.getElem?_append_left hj, ← List.getD_eq_getElem?_getD]
    rw [List.foldl_cons, List.foldl_cons, hget i hi, hget (i - 1) (by omega),
      List.set_append_left _ _ hi]
    exact ih _ fun j hj => by rw [List.length_set]; exact h j (List.mem_cons_of_mem _ hj)

/-- Rounds over zeros leave zeros. -/
theorem prefixRounds_replicate (is : List ℕ) (n : ℕ) :
    is.foldl (fun a i => a.set i (a.getD i 0 + a.getD (i - 1) 0)) (List.replicate n 0) =
      List.replicate n 0 := by
  induction is with
  | nil => rfl
  | cons i is ih =>
    have hzero : ∀ j, (List.replicate n 0).getD j 0 = 0 := fun j => by
      rw [List.getD_eq_getElem?_getD, List.getElem?_replicate]
      split <;> rfl
    rw [List.foldl_cons, hzero, hzero, Nat.add_zero, List.set_replicate_self, ih]

/-! ## 4. The two passes -/

/-- The first pass: thread `t` of `T` counts the hits of its block `blk t`. -/
def countPass (p : ℕ → Bool) (blk : ℕ → List ℕ) (T : ℕ) : List ℕ :=
  (List.range T).map fun t => (blk t).countP p

@[simp] theorem length_countPass (p : ℕ → Bool) (blk : ℕ → List ℕ) (T : ℕ) :
    (countPass p blk T).length = T := by
  simp [countPass]

/-- Where thread `t` starts writing: nothing before thread `0`, else running sum `t - 1`. -/
def writeStart (pre : List ℕ) (t : ℕ) : ℕ := if t = 0 then 0 else pre.getD (t - 1) 0

/-- The second pass: every thread, in turn, walks its block and writes from `base` plus its
start. The threads write disjoint intervals, so running them in order is one of their
interleavings and gives the same array as any other. -/
def writePass (p : ℕ → Bool) (g : ℕ → α) (blk : ℕ → List ℕ) (pre : List ℕ) (base : ℕ)
    (a : List α) (T : ℕ) : List α :=
  (List.range T).foldl (fun a t => scanWrite p g a (base + writeStart pre t) (blk t)) a

/-- The hits of the first `t` blocks, in order. -/
def hitsBefore (p : ℕ → Bool) (blk : ℕ → List ℕ) (t : ℕ) : List ℕ :=
  ((List.range t).flatMap blk).filter p

theorem hitsBefore_succ (p : ℕ → Bool) (blk : ℕ → List ℕ) (t : ℕ) :
    hitsBefore p blk (t + 1) = hitsBefore p blk t ++ (blk t).filter p := by
  simp [hitsBefore, List.range_succ, List.flatMap_append, List.filter_append]

/-- The running sums of the counts are the numbers of hits before each thread's end. -/
theorem getD_prefixSum_countPass (p : ℕ → Bool) (blk : ℕ → List ℕ) (T t : ℕ) (ht : t < T) :
    (prefixSumInPlace (countPass p blk T)).getD t 0 = (hitsBefore p blk (t + 1)).length := by
  rw [getD_prefixSumInPlace _ _ (by simpa using ht)]
  induction t with
  | zero =>
    cases T with
    | zero => omega
    | succ T => simp [countPass, List.range_succ_eq_map, hitsBefore, List.countP_eq_length_filter]
  | succ t ih =>
    have hlt : t + 1 < (countPass p blk T).length := by simpa using ht
    rw [List.take_add_one, List.sum_append, ih (by omega), List.getElem?_eq_getElem hlt,
      hitsBefore_succ p blk (t + 1), List.length_append]
    simp [countPass, List.countP_eq_length_filter]

/-- The second pass from any starts that are the hit counts of the blocks before. -/
theorem writePass_of_starts (p : ℕ → Bool) (g : ℕ → α) (blk : ℕ → List ℕ) (pre : List ℕ)
    (base : ℕ) (a : List α) (T : ℕ)
    (hpre : ∀ t < T, writeStart pre t = (hitsBefore p blk t).length) :
    writePass p g blk pre base a T = writeRun a base ((hitsBefore p blk T).map g) := by
  induction T with
  | zero => rfl
  | succ T ih =>
    rw [writePass, List.range_succ, List.foldl_append, List.foldl_cons, List.foldl_nil,
      ← writePass, ih (fun t ht => hpre t (by omega)), scanWrite_eq, hpre T (by omega),
      hitsBefore_succ, List.map_append, writeRun_append, List.length_map]

/-- **Two-pass compaction is one run of the hits**: whatever the number of threads, the array
after the second pass holds the images of the hits of the concatenated blocks, in order, from
`base` on. -/
theorem writePass_prefixSum (p : ℕ → Bool) (g : ℕ → α) (blk : ℕ → List ℕ) (base : ℕ)
    (a : List α) (T : ℕ) :
    writePass p g blk (prefixSumInPlace (countPass p blk T)) base a T =
      writeRun a base ((hitsBefore p blk T).map g) := by
  refine writePass_of_starts p g blk _ base a T fun t ht => ?_
  cases t with
  | zero => simp [writeStart, hitsBefore]
  | succ t => simp only [writeStart, Nat.add_one_ne_zero, if_false, Nat.add_sub_cancel,
      getD_prefixSum_countPass p blk T t (by omega)]

/-! ## 5. Blocks cut at monotone boundaries -/

/-- The block of thread `t` when the range is cut at the boundaries `b`: `[b t, b (t + 1))`. -/
def cutBlock (b : ℕ → ℕ) (t : ℕ) : List ℕ := List.range' (b t) (b (t + 1) - b t)

/-- **Blocks cut at monotone boundaries cover the range in order.** -/
theorem flatMap_cutBlock (b : ℕ → ℕ) (hb : ∀ s t, s ≤ t → b s ≤ b t) (T : ℕ) :
    (List.range T).flatMap (cutBlock b) = List.range' (b 0) (b T - b 0) := by
  induction T with
  | zero => simp
  | succ T ih =>
    have h0 : b 0 ≤ b T := hb 0 T (Nat.zero_le T)
    have h1 : b T ≤ b (T + 1) := hb T (T + 1) (Nat.le_succ T)
    have happ := List.range'_append_1 (s := b 0) (m := b T - b 0) (n := b (T + 1) - b T)
    rw [Nat.add_sub_cancel' h0] at happ
    rw [List.range_succ, List.flatMap_append, ih, List.flatMap_singleton, cutBlock, happ]
    congr 1
    omega

/-- **The last running sum counts every hit.** -/
theorem total_prefixSum (p : ℕ → Bool) (blk : ℕ → List ℕ) (T : ℕ) (hT : 0 < T) :
    (prefixSumInPlace (countPass p blk T)).getD (T - 1) 0 = (hitsBefore p blk T).length := by
  rw [getD_prefixSum_countPass p blk T (T - 1) (by omega), Nat.sub_add_cancel hT]

/-- The hits before a thread are at most those before a later one. -/
theorem length_hitsBefore_le (p : ℕ → Bool) (blk : ℕ → List ℕ) {s t : ℕ} (hst : s ≤ t) :
    (hitsBefore p blk s).length ≤ (hitsBefore p blk t).length := by
  induction t, hst using Nat.le_induction with
  | base => exact Nat.le_refl _
  | succ t _ ih =>
    rw [hitsBefore_succ, List.length_append]
    exact Nat.le_add_right_of_le ih

/-- **Running sums taken modulo `m` are the running sums** when every hit count stays below `m`:
the wrapping additions of `m`-bit counters compute them exactly. -/
theorem map_mod_prefixSum (p : ℕ → Bool) (blk : ℕ → List ℕ) (T : ℕ) {m : ℕ}
    (hm : (hitsBefore p blk T).length < m) :
    (prefixSumInPlace (countPass p blk T)).map (· % m) = prefixSumInPlace (countPass p blk T) := by
  refine List.ext_getElem (List.length_map _) fun t h₁ h₂ => ?_
  have ht : t < T := by simpa using h₂
  have hle := getD_prefixSum_countPass p blk T t ht ▸ length_hitsBefore_le p blk (Nat.succ_le_of_lt ht)
  rw [List.getD_eq_getElem _ _ h₂] at hle
  rw [List.getElem_map]
  exact Nat.mod_eq_of_lt (Nat.lt_of_le_of_lt hle hm)

/-- **Two-pass compaction over blocks cut at monotone boundaries**: the second pass writes the
images of the hits of `[b 0, b T)` in order from `base`, and the last running sum counts them. -/
theorem writePass_cutBlock (p : ℕ → Bool) (g : ℕ → α) (b : ℕ → ℕ)
    (hb : ∀ s t, s ≤ t → b s ≤ b t) (base : ℕ) (a : List α) (T : ℕ) (hT : 0 < T) :
    writePass p g (cutBlock b) (prefixSumInPlace (countPass p (cutBlock b) T)) base a T =
        writeRun a base (((List.range' (b 0) (b T - b 0)).filter p).map g) ∧
      (prefixSumInPlace (countPass p (cutBlock b) T)).getD (T - 1) 0 =
        ((List.range' (b 0) (b T - b 0)).filter p).length := by
  have hhits : hitsBefore p (cutBlock b) T = (List.range' (b 0) (b T - b 0)).filter p := by
    rw [hitsBefore, flatMap_cutBlock b hb T]
  exact ⟨by rw [writePass_prefixSum, hhits], by rw [total_prefixSum p _ T hT, hhits]⟩

/-! ## 6. Reading a dense array back -/

/-- Reading the first `n` entries of a list by index is mapping over its prefix. -/
theorem map_range_getD {β : Type*} (xs : List α) (d : α) (f : α → β) {n : ℕ}
    (hn : n ≤ xs.length) :
    (List.range n).map (fun i => f (xs.getD i d)) = (xs.take n).map f := by
  apply List.ext_getElem (by simp [hn])
  intro i h1 h2
  simp only [List.getElem_map, List.getElem_range, List.getElem_take]
  have hi : i < xs.length := by simp at h1; omega
  rw [List.getD_eq_getElem?_getD, List.getElem?_eq_getElem hi, Option.getD_some]

/-- An entry of a mapped list below its length. -/
theorem getD_map_of_lt {β : Type*} {xs : List α} {n : ℕ} (h : n < xs.length) (g : α → β)
    (d : α) (e : β) : (xs.map g).getD n e = g (xs.getD n d) := by
  rw [List.getD_eq_getElem?_getD, List.getElem?_map, List.getElem?_eq_getElem h,
    List.getD_eq_getElem?_getD, List.getElem?_eq_getElem h]
  rfl

theorem getD_of_le {xs : List α} {n : ℕ} (h : xs.length ≤ n) (d : α) : xs.getD n d = d := by
  rw [List.getD_eq_getElem?_getD, List.getElem?_eq_none h, Option.getD_none]

theorem getD_modify {xs : List α} {j : ℕ} (h : j < xs.length) (i : ℕ) (f : α → α) (d : α) :
    (xs.modify i f).getD j d = if i = j then f (xs.getD j d) else xs.getD j d := by
  rw [List.getD_eq_getElem?_getD, List.getElem?_eq_getElem (by simpa using h),
    List.getElem_modify, Option.getD_some, List.getD_eq_getElem?_getD, List.getElem?_eq_getElem h,
    Option.getD_some]

theorem getD_set_of_lt {xs : List α} {j : ℕ} (h : j < xs.length) (i : ℕ) (x d : α) :
    (xs.set i x).getD j d = if i = j then x else xs.getD j d := by
  rw [List.getD_eq_getElem?_getD, List.getElem?_set, List.getD_eq_getElem?_getD,
    List.getElem?_eq_getElem h]
  by_cases hij : i = j <;> simp [hij, h]

/-- Setting entries in turn, each to a value fixed by its index: an index that was set holds
its value. -/
theorem getD_foldl_set (v : ℕ → α) (rs : List ℕ) {xs : List α} {j : ℕ} (hj : j < xs.length)
    (d : α) :
    (rs.foldl (fun c r => c.set r (v r)) xs).getD j d = if j ∈ rs then v j else xs.getD j d := by
  induction rs generalizing xs with
  | nil => simp
  | cons r rs ih =>
    rw [List.foldl_cons, ih (by simpa using hj), getD_set_of_lt hj]
    by_cases hjr : j ∈ rs
    · simp [hjr]
    · by_cases hrj : r = j
      · subst hrj
        simp
      · simp [hjr, hrj, Ne.symm hrj]

theorem length_foldl_set (v : ℕ → α) (rs : List ℕ) (xs : List α) :
    (rs.foldl (fun c r => c.set r (v r)) xs).length = xs.length := by
  induction rs generalizing xs with
  | nil => rfl
  | cons r rs ih => rw [List.foldl_cons, ih, List.length_set]

/-- Writing every index `g` of `[lo, lo + n)` at offset `g - lo`, in any order, lays the range out
in order. -/
theorem foldl_set_offsets (v : ℕ → α) (d : α) {lo n : ℕ} {order : List ℕ}
    (horder : order.Perm (List.range' lo n)) :
    (order.map (· - lo)).foldl (fun c r => c.set r (v (r + lo))) (List.replicate n d) =
      (List.range' lo n).map v := by
  refine List.ext_getElem (by rw [length_foldl_set]; simp) fun j h1 h2 => ?_
  have hj : j < n := by simpa using h2
  -- offset `j` is written, by node `lo + j`
  have hmem : j ∈ order.map (· - lo) :=
    List.mem_map.mpr ⟨lo + j, horder.mem_iff.mpr (List.mem_range'_1.mpr ⟨by omega, by omega⟩),
      by omega⟩
  have hget := getD_foldl_set (fun r => v (r + lo)) (order.map (· - lo))
    (by rw [List.length_replicate]; exact hj : j < (List.replicate n d).length) d
  rw [if_pos hmem, List.getD_eq_getElem?_getD, List.getElem?_eq_getElem h1,
    Option.getD_some] at hget
  rw [hget, List.getElem_map, List.getElem_range', Nat.one_mul, Nat.add_comm]

theorem getD_mem_of_lt {xs : List α} {n : ℕ} (h : n < xs.length) (d : α) : xs.getD n d ∈ xs := by
  rw [List.getD_eq_getElem?_getD, List.getElem?_eq_getElem h, Option.getD_some]
  exact List.getElem_mem h

theorem getD_range_of_lt {n k : ℕ} (h : n < k) (d : ℕ) : (List.range k).getD n d = n := by
  rw [List.getD_eq_getElem?_getD, List.getElem?_range h, Option.getD_some]

/-- A list built position by position over the positions of `xs` is a map over `xs` as soon as
each position's entry is the image of the entry of `xs` there. -/
theorem map_range_eq_map {β : Type*} (xs : List α) (d : α) (F : ℕ → β) (G : α → β)
    (h : ∀ n < xs.length, F n = G (xs.getD n d)) :
    (List.range xs.length).map F = xs.map G := by
  have hpt : (List.range xs.length).map F = (List.range xs.length).map fun n => G (xs.getD n d) :=
    List.map_congr_left fun n hn => h n (List.mem_range.mp hn)
  rw [hpt, map_range_getD xs d G (Nat.le_refl _), List.take_length]

/-- Entry `j` of block `l` of a concatenation sits after the blocks before it. -/
theorem getD_flatMap_sum {β : Type*} (xs : List β) (f : β → List α) (d : α) {l j : ℕ}
    (hl : l < xs.length) (hj : j < (f xs[l]).length) :
    (xs.flatMap f).getD (((xs.take l).map fun x => (f x).length).sum + j) d = (f xs[l]).getD j d := by
  induction xs generalizing l with
  | nil => simp at hl
  | cons x xs ih =>
    cases l with
    | zero =>
      simp only [List.take_zero, List.map_nil, List.sum_nil, Nat.zero_add, List.flatMap_cons,
        List.getElem_cons_zero] at hj ⊢
      rw [List.getD_eq_getElem?_getD, List.getElem?_append_left hj, ← List.getD_eq_getElem?_getD]
    | succ l =>
      simp only [List.take_succ_cons, List.map_cons, List.sum_cons, List.flatMap_cons,
        List.getElem_cons_succ] at hj ⊢
      rw [List.getD_eq_getElem?_getD, Nat.add_assoc, List.getElem?_append_right (by omega),
        Nat.add_sub_cancel_left, ← List.getD_eq_getElem?_getD]
      exact ih (by simp only [List.length_cons] at hl; omega) hj

/-- Filtering offsets `i` by a test on `i + s` is filtering the range shifted by `s`. -/
theorem map_filter_range_shift {β : Type*} (s n : ℕ) (p : ℕ → Bool) (f : ℕ → β) :
    ((List.range n).filter fun i => p (i + s)).map f =
      ((List.range' s n).filter p).map fun g => f (g - s) := by
  rw [List.range'_eq_map_range, List.filter_map, List.map_map]
  have hp : (p ∘ fun x => s + x) = fun i => p (i + s) :=
    funext fun i => by rw [Function.comp_apply, Nat.add_comm]
  rw [hp]
  refine List.map_congr_left fun i _ => ?_
  simp

/-- The offsets below `n` whose shift by `s` passes `p`, shifted: the nodes of `[s, s + n)`
passing `p`. -/
theorem map_filter_range_add (s n : ℕ) (p : ℕ → Bool) :
    ((List.range n).filter fun i => p (i + s)).map (· + s) = (List.range' s n).filter p := by
  rw [map_filter_range_shift]
  refine (List.map_congr_left fun g hg => ?_).trans (List.map_id _)
  have := (List.mem_range'_1.mp (List.mem_of_mem_filter hg)).1
  simp only [id_eq]
  omega

/-! ## 7. Loops over pairs, and maps built by updates -/

/-- A loop that updates two independent accumulators is two loops. -/
theorem foldl_prod_mk {β γ δ : Type*} (f : β → δ → β) (g : γ → δ → γ) (l : List δ) (b : β)
    (c : γ) : l.foldl (fun p x => (f p.1 x, g p.2 x)) (b, c) = (l.foldl f b, l.foldl g c) := by
  induction l generalizing b c with
  | nil => rfl
  | cons x l ih => rw [List.foldl_cons, List.foldl_cons, List.foldl_cons, ih]

section Update

variable {β : Type*} [DecidableEq β] (f : ℕ → β)

/-- Keys the loop never writes keep their value. -/
theorem foldl_update_of_not_mem (is : List ℕ) (m0 : β → Option ℕ) {g : β}
    (hg : g ∉ is.map f) :
    (is.foldl (fun m i => Function.update m (f i) (some i)) m0) g = m0 g := by
  induction is generalizing m0 with
  | nil => rfl
  | cons i is ih =>
    rw [List.map_cons, List.mem_cons, not_or] at hg
    rw [List.foldl_cons, ih _ hg.2, Function.update_of_ne hg.1]

/-- **Writing `m[f i] = i` for distinct keys builds the inverse of `f`** on the indices written. -/
theorem foldl_update_of_mem (is : List ℕ) (hnd : (is.map f).Nodup) (m0 : β → Option ℕ) {i : ℕ}
    (hi : i ∈ is) :
    (is.foldl (fun m i => Function.update m (f i) (some i)) m0) (f i) = some i := by
  induction is generalizing m0 with
  | nil => exact absurd hi List.not_mem_nil
  | cons j is ih =>
    rw [List.map_cons, List.nodup_cons] at hnd
    rw [List.foldl_cons]
    rcases List.mem_cons.mp hi with rfl | hi
    · rw [foldl_update_of_not_mem f is _ hnd.1, Function.update_self]
    · exact ih hnd.2 _ hi

end Update

end Compaction
