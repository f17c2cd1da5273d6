import Mathlib

/-!
# ParallelSTL.h: `partition`

From 1025 elements on, `ParallelSTL::partition` runs `partition_helper` on every thread. A
thread owns a low and a high block, each claimed under the lock from its end of the unclaimed
middle `[first, last)` (`takeLow`, `takeHigh`, at most `BlockSize() = 1024` elements), and swaps
misplaced elements between them with `dual_partition` until one block is used up and no block
is left to replace it; it then reports its partly processed blocks (`update`), whose hull
`[rfirst, rlast)` is partitioned serially afterwards, unless it is the whole range ("perfect").

* `dual_partition` -- the two scans and the swaps, `first3` a reverse iterator kept by its base;
* `PState`, `Worker`, `workerStep`, `Step` -- the state under the lock, one thread's
  `operator()` as a program counter over its lock-protected steps, and any interleaving of the
  threads. `dual_partition` is one step: it touches only the thread's own blocks;
* `PartitionEnds` -- what the call ends in: `std::partition(first, last)` for short ranges, and
  after `on_each` either the "perfect" return of `s.first` or `std::partition(rfirst, rlast)`;
* **`partition_inverted_range`** -- on `1023` elements that satisfy `pred`, one that does not and
  one that does, one thread uses up both of its blocks in the same swap, finds the middle empty
  and reports nothing, so `rfirst = last` and `rlast = first`: the call ends in
  `std::partition(1025, 0)`, on an inverted range.
-/

namespace Galois.ParallelSTL

variable {α : Type*}

/-! ## 1. `dual_partition` -/

/-- `while (first1 != last1 && pred(*first1)) ++first1`. -/
def skipLow (pred : α → Bool) (a : List α) (first1 last1 : ℕ) : ℕ :=
  first1 + (((a.drop first1).take (last1 - first1)).takeWhile pred).length

/-- `while (first3 != last3 && !pred(*first3)) ++first3`, for the reverse iterator `first3` over
`[first2, last2)` given by its base: the base moves down past the elements that fail `pred`. -/
def skipHigh (pred : α → Bool) (a : List α) (first2 base : ℕ) : ℕ :=
  base - (((a.drop first2).take (base - first2)).reverse.takeWhile fun x => !pred x).length

/-- `std::swap(a[i], a[j])`. -/
def swapAt (a : List α) (i j : ℕ) : List α :=
  match a[i]?, a[j]? with
  | some x, some y => (a.set i y).set j x
  | _, _ => a

/-- The `while (true)` loop of `dual_partition`; every round that does not break moves `first1`
up, so `last1 - first1 + 1` rounds are enough. -/
def dualLoop (pred : α → Bool) : ℕ → List α → ℕ → ℕ → ℕ → ℕ → List α × ℕ × ℕ
  | 0, a, first1, _, _, base => (a, first1, base)
  | fuel + 1, a, first1, last1, first2, base =>
    let first1 := skipLow pred a first1 last1
    if first1 = last1 then (a, first1, base) else
    let base := skipHigh pred a first2 base
    if base = first2 then (a, first1, base) else
    dualLoop pred fuel (swapAt a first1 (base - 1)) (first1 + 1) last1 first2 (base - 1)

/-- `dual_partition(first1, last1, first2, last2, pred)`: the array, `first1` and
`first3.base()`. -/
def dual_partition (pred : α → Bool) (a : List α) (first1 last1 first2 last2 : ℕ) :
    List α × ℕ × ℕ :=
  dualLoop pred (last1 - first1 + 1) a first1 last1 first2 last2

/-! ## 2. The threads -/

/-- `partition_helper_state`: the array and the iterators the lock guards. -/
structure PState (α : Type*) where
  a : List α
  first : ℕ
  last : ℕ
  rfirst : ℕ
  rlast : ℕ

/-- `BlockSize()`. -/
def BlockSize : ℕ := 1024

namespace PState

/-- `takeHigh()`: the last `min(BlockSize(), last - first)` unclaimed elements. -/
def takeHigh (s : PState α) : PState α × (ℕ × ℕ) :=
  let BS := min BlockSize (s.last - s.first)
  let last := s.last - BS
  ({ s with last := last }, (last, last + BS))

/-- `takeLow()`: the first `min(BlockSize(), last - first)` unclaimed elements. -/
def takeLow (s : PState α) : PState α × (ℕ × ℕ) :=
  let BS := min BlockSize (s.last - s.first)
  ({ s with first := s.first + BS }, (s.first, s.first + BS))

/-- `update(low, high)`: widen `[rfirst, rlast)` over the blocks that are not empty. -/
def update (s : PState α) (low high : ℕ × ℕ) : PState α :=
  let s := if low.1 ≠ low.2 then
    { s with rfirst := min s.rfirst low.1, rlast := max s.rlast low.2 } else s
  if high.1 ≠ high.2 then
    { s with rfirst := min s.rfirst high.1, rlast := max s.rlast high.2 } else s

end PState

/-- Where a thread is in `partition_helper::operator()`: at the top of the `do` loop, at
`takeLow`, at `takeHigh` and the loop test, at `update`, or returned. -/
inductive Pc
  | loop
  | takeLow
  | takeHigh
  | update
  | done
  deriving DecidableEq, Repr

/-- A thread of `on_each`: its blocks `low` and `high` and where it is. -/
structure Worker where
  low : ℕ × ℕ
  high : ℕ × ℕ
  pc : Pc
  deriving DecidableEq, Repr

/-- One step of a thread. -/
def workerStep (pred : α → Bool) (s : PState α) (w : Worker) : PState α × Worker :=
  match w.pc with
  | .loop =>
    let parts := dual_partition pred s.a w.low.1 w.low.2 w.high.1 w.high.2
    ({ s with a := parts.1 },
      { w with low := (parts.2.1, w.low.2), high := (w.high.1, parts.2.2), pc := .takeLow })
  | .takeLow =>
    if w.low.1 = w.low.2 then
      (s.takeLow.1, { w with low := s.takeLow.2, pc := .takeHigh })
    else (s, { w with pc := .takeHigh })
  | .takeHigh =>
    let r := if w.high.1 = w.high.2 then s.takeHigh else (s, w.high)
    -- the test of the `do` loop
    let pc : Pc := if w.low.1 ≠ w.low.2 ∧ r.2.1 ≠ r.2.2 then .loop else .update
    (r.1, { w with high := r.2, pc := pc })
  | .update => (s.update w.low w.high, { w with pc := .done })
  | .done => (s, w)

/-- Any thread that has not returned takes its next step. -/
inductive Step (pred : α → Bool) : PState α × List Worker → PState α × List Worker → Prop
  | worker {s : PState α} {ws : List Worker} (i : ℕ) (hi : i < ws.length)
      (hpc : (ws.get ⟨i, hi⟩).pc ≠ .done) :
      Step pred (s, ws)
        ((workerStep pred s (ws.get ⟨i, hi⟩)).1, ws.set i (workerStep pred s (ws.get ⟨i, hi⟩)).2)

/-- `on_each` with `T` threads on the state `partition_helper_state(first, last, pred)`:
`rfirst = last`, `rlast = first`, and every thread's `RP high, low` empty. -/
def init (a : List α) (T : ℕ) : PState α × List Worker :=
  (⟨a, 0, a.length, a.length, 0⟩, List.replicate T ⟨(0, 0), (0, 0), .loop⟩)

/-! ## 3. `partition` -/

/-- How `ParallelSTL::partition` ends: by returning `s.first` on the "perfect" test, or in
`std::partition(rfirst, rlast, pred)`. -/
inductive Finish
  | perfect (ret : ℕ)
  | serial (rfirst rlast : ℕ)
  deriving DecidableEq, Repr

/-- The test after `on_each`: `s.rfirst == first && s.rlast == last`. -/
def finish (n : ℕ) (s : PState α) : Finish :=
  if s.rfirst = 0 ∧ s.rlast = n then .perfect s.first else .serial s.rfirst s.rlast

/-- `ParallelSTL::partition(first, last, pred)` on `a` with `T` threads may end in `r`. -/
inductive PartitionEnds (pred : α → Bool) (a : List α) (T : ℕ) : Finish → Prop
  | serial : a.length ≤ 1024 → PartitionEnds pred a T (.serial 0 a.length)
  | parallel {c : PState α × List Worker} : 1024 < a.length →
      Relation.ReflTransGen (Step pred) (init a T) c → (∀ w ∈ c.2, w.pc = .done) →
      PartitionEnds pred a T (finish a.length c.1)

/-! ## 4. An inverted range -/

/-- One thread of a one-thread configuration steps. -/
theorem step_single {pred : α → Bool} {s s' : PState α} {w w' : Worker} (hpc : w.pc ≠ .done)
    (h : workerStep pred s w = (s', w')) : Step pred (s, [w]) (s', [w']) := by
  have hstep : Step pred (s, [w]) _ := Step.worker 0 (by simp) hpc
  simp only [List.get_eq_getElem, List.getElem_cons_zero, h, List.set_cons_zero] at hstep
  exact hstep

/-- The failing input, for `pred = id`: `1023` elements that satisfy it, one that does not and
one that does. -/
def inverted : List Bool := List.replicate 1023 true ++ [false, true]

/-- `dual_partition` on the blocks `[0, 1024)` and `[1024, 1025)` of `inverted`: the low scan
stops at `1023`, the high scan at once, and the one swap uses up both blocks. -/
theorem dual_partition_inverted :
    dual_partition id inverted 0 1024 1024 1025 =
      (List.replicate 1023 true ++ [true, false], 1024, 1024) := by
  have hlow : skipLow id inverted 0 1024 = 1023 := by
    simp [-List.reduceReplicate, skipLow, inverted, List.take_append,
      List.takeWhile_append_of_pos, List.take_replicate]
  have hhigh : skipHigh id inverted 1024 1025 = 1025 := by
    simp [-List.reduceReplicate, skipHigh, inverted, List.drop_append]
  have hswap : swapAt inverted 1023 1024 = List.replicate 1023 true ++ [true, false] := by
    simp [-List.reduceReplicate, swapAt, inverted]
  have hdone : skipLow id (List.replicate 1023 true ++ [true, false]) 1024 1024 = 1024 := by
    simp only [skipLow, Nat.sub_self, List.take_zero, List.takeWhile_nil, List.length_nil,
      Nat.add_zero]
  show dualLoop id (1024 + 1) inverted 0 1024 1024 1025 = _
  rw [dualLoop, hlow, if_neg (by decide), hhigh, if_neg (by decide), hswap,
    show (1024 : ℕ) = 1023 + 1 from rfl, dualLoop, hdone, if_pos rfl]

/-- **`partition` can call `std::partition` on an inverted range**: with one thread, on
`inverted`, the thread claims `[0, 1024)` and `[1024, 1025)`, uses both up in one swap, finds
nothing left to claim and reports no block, so `rfirst` and `rlast` keep their initial `last`
and `first`, the "perfect" test fails, and the call ends in `std::partition(1025, 0)`. -/
theorem partition_inverted_range : PartitionEnds id inverted 1 (.serial 1025 0) := by
  have hlen : inverted.length = 1025 := by simp [-List.reduceReplicate, inverted]
  have hinit : init inverted 1 = (⟨inverted, 0, 1025, 1025, 0⟩, [⟨(0, 0), (0, 0), .loop⟩]) := by
    rw [init, hlen]
    rfl
  have hrun : Relation.ReflTransGen (Step id) (init inverted 1)
      (⟨List.replicate 1023 true ++ [true, false], 1024, 1024, 1025, 0⟩,
        [⟨(1024, 1024), (1024, 1024), .done⟩]) := by
    rw [hinit]
    -- the first round runs `dual_partition` on two empty blocks
    refine .head (b := (⟨inverted, 0, 1025, 1025, 0⟩, [⟨(0, 0), (0, 0), .takeLow⟩]))
      (step_single (by decide) rfl) ?_
    refine .head (b := (⟨inverted, 1024, 1025, 1025, 0⟩, [⟨(0, 1024), (0, 0), .takeHigh⟩]))
      (step_single (by decide) rfl) ?_
    refine .head (b := (⟨inverted, 1024, 1024, 1025, 0⟩, [⟨(0, 1024), (1024, 1025), .loop⟩]))
      (step_single (by decide) rfl) ?_
    refine .head (b := (⟨List.replicate 1023 true ++ [true, false], 1024, 1024, 1025, 0⟩,
        [⟨(1024, 1024), (1024, 1024), .takeLow⟩]))
      (step_single (by decide) (by simp only [workerStep, dual_partition_inverted])) ?_
    -- both blocks are used up and the middle is empty: the thread claims nothing
    refine .head (b := (⟨List.replicate 1023 true ++ [true, false], 1024, 1024, 1025, 0⟩,
        [⟨(1024, 1024), (1024, 1024), .takeHigh⟩]))
      (step_single (by decide) rfl) ?_
    refine .head (b := (⟨List.replicate 1023 true ++ [true, false], 1024, 1024, 1025, 0⟩,
        [⟨(1024, 1024), (1024, 1024), .update⟩]))
      (step_single (by decide) rfl) ?_
    exact .single (step_single (by decide) rfl)
  have hends := PartitionEnds.parallel (by rw [hlen]; decide) hrun (by simp)
  rw [hlen] at hends
  exact hends

end Galois.ParallelSTL
