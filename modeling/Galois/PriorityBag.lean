import Mathlib

/-!
# A worklist that pops an item of least index

What a priority scheduler is for: the worklist is a multiset of items; `push` adds its item, and
`pop` returns an item whose index is least among those present, or nothing, which it may only
when the worklist is empty.

* `Op`, `PopStep`, `Trace` -- the operations, what one `pop` may do, and the relation
  `Trace s ops outs s'`: from the items `s`, the operations `ops` may return the pop results
  `outs` and leave the items `s'`;
* `Trace.conserves` -- what was there and what was pushed is what is left and what was popped.

Nothing here names a program.
-/

namespace PriorityBag

variable {T ι : Type*} [LinearOrder ι] (index : T → ι)

inductive Op (T : Type*) where
  | push (x : T)
  | pop

/-- The items the operations push. -/
def pushed : List (Op T) → Multiset T
  | [] => 0
  | .push x :: ops => x ::ₘ pushed ops
  | .pop :: ops => pushed ops

/-- The items the pops returned. -/
def popped (outs : List (Option T)) : Multiset T := ↑(outs.filterMap id)

theorem popped_some (x : T) (outs : List (Option T)) :
    popped (some x :: outs) = x ::ₘ popped outs := rfl

theorem popped_none (outs : List (Option T)) : popped (none :: outs) = popped outs := rfl

/-- What one `pop` may do: return nothing from an empty worklist, or return an item of least
index and take it out. -/
def PopStep (s : Multiset T) : Option T → Multiset T → Prop
  | none, s' => s = 0 ∧ s' = 0
  | some x, s' => s = x ::ₘ s' ∧ ∀ y ∈ s', index x ≤ index y

/-- From the items `s`, the operations `ops` may return `outs` and leave `s'`. -/
inductive Trace : Multiset T → List (Op T) → List (Option T) → Multiset T → Prop
  | nil (s : Multiset T) : Trace s [] [] s
  | push {s : Multiset T} {x : T} {ops outs s'} :
      Trace (x ::ₘ s) ops outs s' → Trace s (.push x :: ops) outs s'
  | pop {s s₁ : Multiset T} {r : Option T} {ops outs s'} :
      PopStep index s r s₁ → Trace s₁ ops outs s' → Trace s (.pop :: ops) (r :: outs) s'

/-- **No item is lost or made up**: the items there at the start and the pushed ones are the
ones left and the popped ones. -/
theorem Trace.conserves {s s' : Multiset T} {ops : List (Op T)} {outs : List (Option T)}
    (h : Trace index s ops outs s') : s + pushed ops = s' + popped outs := by
  induction h with
  | nil s => rfl
  | @push s x ops outs s' _ ih =>
    rw [pushed, Multiset.add_cons, ← Multiset.cons_add, ih]
  | @pop s s₁ r ops outs s' hstep _ ih =>
    cases r with
    | none =>
      obtain ⟨rfl, rfl⟩ := hstep
      rw [pushed, ih, popped_none]
    | some x =>
      rw [pushed, hstep.1, Multiset.cons_add, ih, popped_some, Multiset.add_cons]

end PriorityBag
