import Mathlib

/-!
# Folds under an associative, commutative merge with an identity

A reduction that keeps one partial value per worker and merges them at the end gives the fold
of everything merged in, whatever the workers and the order, as soon as the merge is
associative and commutative and has an identity (`MergeLaws`):

* `MergeLaws.foldl_start` -- a fold from any start is the start merged with the fold from the
  identity;
* `MergeLaws.foldl_modify` -- merging a value into one slot of a list merges it into the fold of
  the list;
* `MergeLaws.foldl_perm` -- the fold does not depend on the order of the values.

Nothing here names a program: the file is about lists and one binary operation.
-/

namespace Galois

variable {T : Type}

/-- An associative, commutative merge with `idv` as its identity. -/
structure MergeLaws (merge : T → T → T) (idv : T) : Prop where
  assoc : ∀ a b c, merge (merge a b) c = merge a (merge b c)
  comm : ∀ a b, merge a b = merge b a
  id_right : ∀ a, merge a idv = a

namespace MergeLaws

variable {merge : T → T → T} {idv : T} (hm : MergeLaws merge idv)
include hm

theorem id_left (a : T) : merge idv a = a := by
  rw [hm.comm, hm.id_right]

/-- A fold from any start is the start merged with the fold from the identity. -/
theorem foldl_start (l : List T) (a : T) : l.foldl merge a = merge a (l.foldl merge idv) := by
  induction l generalizing a with
  | nil => rw [List.foldl_nil, List.foldl_nil, hm.id_right]
  | cons x l ih =>
    rw [List.foldl_cons, List.foldl_cons, ih, ih (merge idv x), hm.id_left, hm.assoc]

/-- Identities add nothing to a fold. -/
theorem foldl_replicate (n : ℕ) (a : T) : (List.replicate n idv).foldl merge a = a := by
  induction n generalizing a with
  | zero => rfl
  | succ n ih => rw [List.replicate_succ, List.foldl_cons, hm.id_right, ih]

/-- **Merging a value into one slot merges it into the fold.** -/
theorem foldl_modify {l : List T} {i : ℕ} (hi : i < l.length) (v a : T) :
    (l.modify i fun x => merge x v).foldl merge a = merge (l.foldl merge a) v := by
  induction l generalizing i a with
  | nil => exact absurd hi (Nat.not_lt_zero _)
  | cons x l ih =>
    rw [List.modify_cons]
    cases i with
    | zero =>
      -- the slot is the head: the value moves past the rest of the fold
      rw [if_pos rfl, List.foldl_cons, List.foldl_cons, hm.foldl_start _ (merge a (merge x v)),
        hm.foldl_start _ (merge a x), hm.assoc, hm.assoc, hm.assoc,
        hm.comm v (l.foldl merge idv), hm.assoc]
    | succ i =>
      rw [if_neg (Nat.succ_ne_zero i), List.foldl_cons, List.foldl_cons, Nat.add_sub_cancel,
        ih (by simp only [List.length_cons] at hi; omega)]

/-- **The fold does not depend on the order of the values.** -/
theorem foldl_perm {l₁ l₂ : List T} (h : l₁.Perm l₂) (a : T) :
    l₁.foldl merge a = l₂.foldl merge a :=
  h.foldl_eq' (fun x _ y _ z => by rw [hm.assoc, hm.comm x y, hm.assoc]) a

end MergeLaws

end Galois
