import Galois.MergeFold
import Mathlib.Algebra.BigOperators.Group.List.Basic
import Mathlib.Order.Lattice

/-!
# Reductions over per-thread values (Reduction.h)

A `Reducible` keeps one value per thread, each starting at `IdFunc()`; a thread's `update`
merges into its own slot, and `reduce()`, called outside the parallel region, merges every other
slot into the caller's and resets them:

* `Reducible.init`, `update`, `reduce`, `reset` -- the constructor and the three methods, with
  `reduce` taking the id of the calling thread;
* `ReduceOp`, `Reducible.step`, `pending` -- a run of calls in the order the threads make them,
  and the values updated since construction or the last `reset`;
* `GAccumulator` -- the `Reducible` under `std::plus` with identity `0`, with its `+=` and `-=`.

`reduce_run_eq_fold` says what `reduce()` from thread 0 returns after any run of calls, under
`MergeLaws`: the fold of the pending values. `GAccumulator.reduce_run_eq_sum` reads it for the
accumulator, whose `-=` calls `update(rhs)` as `+=` does: both add their operand.
-/

namespace Galois

variable {T : Type}

/-! ## 1. The model -/

/-- `Reducible`'s `PerThreadStorage<T>`: slot `i` belongs to thread `i`. -/
structure Reducible (T : Type) where
  data : List T

namespace Reducible

variable (merge : T → T → T) (idv : T)

/-- The constructor on `nthreads` threads: every slot holds `IdFunc()`. -/
def init (nthreads : ℕ) : Reducible T :=
  ⟨List.replicate nthreads idv⟩

/-- `update(rhs)` on thread `tid`: its slot becomes `MergeFunc(slot, rhs)`. -/
def update (tid : ℕ) (rhs : T) (r : Reducible T) : Reducible T :=
  ⟨r.data.modify tid fun lhs => merge lhs rhs⟩

/-- One iteration of `reduce()`'s loop on thread `me`: merge slot `i` into `me`'s, then reset it
to `IdFunc()` (for `i = me` the slot is merged with itself and then reset, as the references
alias there). -/
def reduceStep (me : ℕ) (d : List T) (i : ℕ) : List T :=
  (d.set me (merge (d.getD me idv) (d.getD i idv))).set i idv

/-- `reduce()` on thread `me`: the loop over the slots `1 .. size - 1`, and the caller's slot as
the result. -/
def reduce (me : ℕ) (r : Reducible T) : T × Reducible T :=
  let d := (List.range' 1 (r.data.length - 1)).foldl (reduceStep merge idv me) r.data
  (d.getD me idv, ⟨d⟩)

/-- `reset()`: every slot back to `IdFunc()`. -/
def reset (r : Reducible T) : Reducible T :=
  ⟨r.data.map fun _ => idv⟩

end Reducible

/-- The calls a program makes on a `Reducible`: an update by a thread, a `reduce()` from thread
0 outside the parallel region, or a `reset()`. -/
inductive ReduceOp (T : Type) where
  | update (tid : ℕ) (rhs : T)
  | reduce
  | reset

namespace Reducible

variable (merge : T → T → T) (idv : T)

/-- One call. -/
def step (r : Reducible T) : ReduceOp T → Reducible T
  | .update tid rhs => r.update merge tid rhs
  | .reduce => (r.reduce merge idv 0).2
  | .reset => r.reset idv

end Reducible

/-- The values updated since construction or the last `reset()`, in call order. -/
def pending (ops : List (ReduceOp T)) : List T :=
  ops.foldl (fun p op => match op with
    | .update _ rhs => p ++ [rhs]
    | .reduce => p
    | .reset => []) []

/-- Every update of a run is made by one of the `nthreads` threads. -/
def ThreadsBelow (nthreads : ℕ) (ops : List (ReduceOp T)) : Prop :=
  ∀ tid rhs, ReduceOp.update tid rhs ∈ ops → tid < nthreads

/-! ## 2. One call -/

namespace Reducible

/-- What a `Reducible` on `nthreads` threads holds: a slot per thread, whose fold is `acc`. -/
structure Holds (r : Reducible T) (merge : T → T → T) (idv : T) (nthreads : ℕ) (acc : T) :
    Prop where
  length : r.data.length = nthreads
  fold : r.data.foldl merge idv = acc

/-- `reduce()`'s loop on thread 0, by induction on the slots merged: after slot `k`, slot 0 holds
the first `k + 1` slots merged and slots `1 .. k` are reset. -/
theorem foldl_reduceStep_zero (merge : T → T → T) (idv : T) (x : T) (xs : List T) {k : ℕ} (hk : k ≤ xs.length) :
    (List.range' 1 k).foldl (reduceStep merge idv 0) (x :: xs) =
      (xs.take k).foldl merge x :: List.replicate k idv ++ xs.drop k := by
  induction k with
  | zero => simp
  | succ k ih =>
    rw [List.range'_1_concat, List.foldl_append, ih (by omega), List.foldl_cons, List.foldl_nil]
    have hlt : k < xs.length := by omega
    -- slot `k + 1` is the first slot not yet merged
    have hget : (xs.take k).foldl merge x :: List.replicate k idv ++ xs.drop k =
        (xs.take k).foldl merge x :: (List.replicate k idv ++ xs[k] :: xs.drop (k + 1)) := by
      rw [List.cons_append, List.drop_eq_getElem_cons hlt]
    rw [hget, reduceStep, List.getD_cons_zero, Nat.add_comm 1 k, List.getD_cons_succ,
      List.getD_eq_getElem?_getD, List.getElem?_append_right (by simp),
      List.length_replicate, Nat.sub_self, List.getElem?_cons_zero, Option.getD_some,
      List.set_cons_zero, List.set_cons_succ, List.set_append_right _ _ (by simp),
      List.length_replicate, Nat.sub_self, List.set_cons_zero, List.take_add_one,
      List.getElem?_eq_getElem hlt, Option.toList_some, List.foldl_append, List.foldl_cons,
      List.foldl_nil, List.replicate_succ', List.cons_append, List.append_assoc, List.singleton_append]

/-- `reduce()` from thread 0 returns the fold of the slots from slot 0, under any merge. -/
theorem reduce_zero_fst (merge : T → T → T) (idv : T) {r : Reducible T} {x : T} {xs : List T}
    (hr : r.data = x :: xs) : (r.reduce merge idv 0).1 = xs.foldl merge x := by
  have hloop := foldl_reduceStep_zero merge idv x xs (Nat.le_refl xs.length)
  rw [List.take_length] at hloop
  simp only [Reducible.reduce]
  rw [hr, List.length_cons, Nat.add_sub_cancel, hloop, List.cons_append, List.getD_cons_zero]

variable {merge : T → T → T} {idv : T} (hm : MergeLaws merge idv)
include hm

theorem holds_init (nthreads : ℕ) : (init idv nthreads).Holds merge idv nthreads idv :=
  ⟨List.length_replicate, hm.foldl_replicate nthreads idv⟩

/-- An update merges its value into the fold. -/
theorem Holds.update {r : Reducible T} {nthreads : ℕ} {acc : T} (h : r.Holds merge idv nthreads acc)
    {tid : ℕ} (htid : tid < nthreads) (rhs : T) :
    (r.update merge tid rhs).Holds merge idv nthreads (merge acc rhs) := by
  refine ⟨by rw [Reducible.update, List.length_modify, h.length], ?_⟩
  rw [Reducible.update, hm.foldl_modify (h.length ▸ htid), h.fold]

/-- **`reduce()` from thread 0 returns the fold, and keeps it** in slot 0 with the other slots
reset. -/
theorem Holds.reduce {r : Reducible T} {nthreads : ℕ} {acc : T}
    (h : r.Holds merge idv nthreads acc) (hn : 0 < nthreads) :
    (r.reduce merge idv 0).1 = acc ∧ (r.reduce merge idv 0).2.Holds merge idv nthreads acc := by
  obtain ⟨x, xs, hxs⟩ : ∃ x xs, r.data = x :: xs :=
    List.exists_cons_of_ne_nil (List.ne_nil_of_length_pos (h.length ▸ hn))
  have hloop := foldl_reduceStep_zero merge idv x xs (Nat.le_refl xs.length)
  rw [List.take_length, List.drop_length, List.append_nil] at hloop
  -- the total of the slots is the fold from slot 0 over the others
  have htotal : xs.foldl merge x = acc := by
    rw [← h.fold, hxs, List.foldl_cons, hm.id_left]
  have hlen : (r.data.length - 1) = xs.length := by rw [hxs, List.length_cons, Nat.add_sub_cancel]
  have hred : r.reduce merge idv 0 = (acc, ⟨acc :: List.replicate xs.length idv⟩) := by
    simp only [Reducible.reduce]
    rw [hlen, hxs, hloop, htotal, List.getD_cons_zero]
  rw [hred]
  refine ⟨rfl, ?_, ?_⟩
  · rw [List.length_cons, List.length_replicate, ← h.length, hxs, List.length_cons]
  · rw [List.foldl_cons, hm.id_left, hm.foldl_replicate]

theorem holds_reset (r : Reducible T) : (r.reset idv).Holds merge idv r.data.length idv :=
  ⟨List.length_map _, by rw [reset, List.map_const', hm.foldl_replicate]⟩

end Reducible

/-! ## 3. Runs -/

namespace Reducible

variable {merge : T → T → T} {idv : T} (hm : MergeLaws merge idv)
include hm

/-- **Every call keeps the slots folding to the pending values**, by induction on the run: an
update merges its value in, `reduce()` keeps the fold, `reset()` empties both. -/
theorem holds_run {nthreads : ℕ} (hn : 0 < nthreads) (ops : List (ReduceOp T))
    (hops : ThreadsBelow nthreads ops) :
    (ops.foldl (step merge idv) (init idv nthreads)).Holds merge idv nthreads
      ((pending ops).foldl merge idv) := by
  -- the run from any state holding the pending values of a prefix
  suffices hgen : ∀ (pre : List T) (r : Reducible T), r.Holds merge idv nthreads (pre.foldl merge idv) →
      (ops.foldl (step merge idv) r).Holds merge idv nthreads
        ((ops.foldl (fun p op => match op with
          | .update _ rhs => p ++ [rhs]
          | .reduce => p
          | .reset => []) pre).foldl merge idv) from
    hgen [] _ (holds_init hm nthreads)
  induction ops with
  | nil => exact fun pre r h => h
  | cons op ops ih =>
    intro pre r h
    have hops' : ThreadsBelow nthreads ops := fun tid rhs hmem => hops tid rhs (List.mem_cons_of_mem _ hmem)
    cases op with
    | update tid rhs =>
      refine ih hops' (pre ++ [rhs]) _ ?_
      rw [List.foldl_append, List.foldl_cons, List.foldl_nil]
      exact h.update hm (hops tid rhs List.mem_cons_self) rhs
    | reduce => exact ih hops' pre _ (h.reduce hm hn).2
    | reset =>
      refine ih hops' [] _ ?_
      have hr := holds_reset hm r
      rw [h.length] at hr
      exact hr

/-- **`reduce()` returns the fold of all updates since construction or the last `reset()`**:
for any number of threads and any run of calls, in any order and spread among the threads, with
earlier `reduce()` calls anywhere in it. -/
theorem reduce_run_eq_fold {nthreads : ℕ} (hn : 0 < nthreads) (ops : List (ReduceOp T))
    (hops : ThreadsBelow nthreads ops) :
    ((ops.foldl (step merge idv) (init idv nthreads)).reduce merge idv 0).1 =
      (pending ops).foldl merge idv :=
  ((holds_run hm hn ops hops).reduce hm hn).1

omit hm in
/-- Two threads updating, a `reduce()` between their updates, and a second `reduce()` after. -/
theorem reduce_run_eq_fold_two_threads :
    ((([ReduceOp.update 0 3, .update 1 4, .reduce, .update 1 5] : List (ReduceOp ℕ)).foldl
        (step (· + ·) 0) (init 0 2)).reduce (· + ·) 0 0).1 = 12 :=
  reduce_run_eq_fold ⟨Nat.add_assoc, Nat.add_comm, Nat.add_zero⟩ (by decide) _
    (fun tid rhs hmem => by simp at hmem; omega)

end Reducible

/-! ## 4. The wrappers -/

/-- The calls a program makes on a `GAccumulator`. -/
inductive AccumOp (T : Type) where
  | plusEq (tid : ℕ) (rhs : T)
  | minusEq (tid : ℕ) (rhs : T)
  | reduce
  | reset

namespace GAccumulator

variable [AddCommMonoid T]

/-- `GAccumulator()` on `nthreads` threads: a `Reducible` under `std::plus<T>` with
`identity_value_zero<T>`. -/
def init (nthreads : ℕ) : Reducible T :=
  Reducible.init 0 nthreads

/-- `operator+=(rhs)` on thread `tid`: `update(rhs)`. -/
def plusEq (tid : ℕ) (rhs : T) (r : Reducible T) : Reducible T :=
  r.update (· + ·) tid rhs

/-- `operator-=(rhs)` on thread `tid`: `update(rhs)`, as the source has it. -/
def minusEq (tid : ℕ) (rhs : T) (r : Reducible T) : Reducible T :=
  r.update (· + ·) tid rhs

/-- `reduce()` from thread 0. -/
def reduce (r : Reducible T) : T × Reducible T :=
  r.reduce (· + ·) 0 0

/-- One call. -/
def step (r : Reducible T) : AccumOp T → Reducible T
  | .plusEq tid rhs => plusEq tid rhs r
  | .minusEq tid rhs => minusEq tid rhs r
  | .reduce => (reduce r).2
  | .reset => r.reset 0

/-- The `Reducible` call an accumulator call makes. -/
def toReduceOp : AccumOp T → ReduceOp T
  | .plusEq tid rhs => .update tid rhs
  | .minusEq tid rhs => .update tid rhs
  | .reduce => .reduce
  | .reset => .reset

theorem mergeLaws_add : MergeLaws (fun a b : T => a + b) 0 :=
  ⟨add_assoc, add_comm, add_zero⟩

/-- An accumulator call is the `Reducible` call it makes. -/
theorem step_eq (r : Reducible T) (op : AccumOp T) :
    step r op = Reducible.step (· + ·) 0 r (toReduceOp op) := by
  cases op <;> rfl

/-- **An accumulator reduces to the sum of the operands of all its `+=` and `-=` calls** since
construction or the last `reset()`: `-=` adds its operand. -/
theorem reduce_run_eq_sum {nthreads : ℕ} (hn : 0 < nthreads) (ops : List (AccumOp T))
    (hops : ThreadsBelow nthreads (ops.map toReduceOp)) :
    (reduce (ops.foldl step (init nthreads))).1 = (pending (ops.map toReduceOp)).sum := by
  have hrun : ops.foldl step (init nthreads) =
      (ops.map toReduceOp).foldl (Reducible.step (· + ·) 0) (Reducible.init 0 nthreads) := by
    rw [List.foldl_map]
    exact congrArg (fun f => ops.foldl f (init nthreads)) (funext fun r => funext (step_eq r))
  have hred := (Reducible.holds_run mergeLaws_add hn _ hops).reduce mergeLaws_add hn
  rw [hrun, reduce, hred.1, List.sum_eq_foldl]

/-- `+= 4` on one thread and `-= 3` on another. -/
theorem reduce_run_eq_sum_two_threads :
    (reduce (([AccumOp.plusEq 0 4, .minusEq 1 3] : List (AccumOp ℤ)).foldl step (init 2))).1 =
      7 :=
  reduce_run_eq_sum (by decide) _ (fun tid rhs hmem => by simp [toReduceOp] at hmem; omega)

/-- On one thread, `+= 5` and then `-= 3` reduce to `8`, not to `5 - 3`. -/
theorem minusEq_adds :
    (reduce (([AccumOp.plusEq 0 5, .minusEq 0 3] : List (AccumOp ℤ)).foldl step (init 1))).1 =
      8 := by
  decide

end GAccumulator

/-- `GReduceMax`: a `Reducible` under `gmax` with `identity_value_min<T>`, the type's least
value `lowest`. -/
def GReduceMax.init [LinearOrder T] (lowest : T) (nthreads : ℕ) : Reducible T :=
  Reducible.init lowest nthreads

/-- `GReduceMin`: a `Reducible` under `gmin` with `identity_value_max<T>`, the type's greatest
value `highest`. -/
def GReduceMin.init [LinearOrder T] (highest : T) (nthreads : ℕ) : Reducible T :=
  Reducible.init highest nthreads

/-- `gmax` has the least value as identity exactly when it is below every value (as for the
integer types, not for floating point, whose `numeric_limits::min()` is positive). -/
theorem mergeLaws_max [LinearOrder T] {lowest : T} (hlow : ∀ x, lowest ≤ x) :
    MergeLaws (fun a b : T => max a b) lowest :=
  ⟨max_assoc, max_comm, fun a => max_eq_left (hlow a)⟩

theorem mergeLaws_min [LinearOrder T] {highest : T} (hhigh : ∀ x, x ≤ highest) :
    MergeLaws (fun a b : T => min a b) highest :=
  ⟨min_assoc, min_comm, fun a => min_eq_left (hhigh a)⟩

/-- `GReduceLogicalAnd` and `GReduceLogicalOr`: `logical_and` with `true`, `logical_or` with
`false`. -/
theorem mergeLaws_and : MergeLaws (fun a b : Bool => a && b) true :=
  ⟨Bool.and_assoc, Bool.and_comm, Bool.and_true⟩

theorem mergeLaws_or : MergeLaws (fun a b : Bool => a || b) false :=
  ⟨Bool.or_assoc, Bool.or_comm, Bool.or_false⟩

end Galois
