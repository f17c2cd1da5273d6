import Mathlib

/-!
# Counting over lists without repetition

A count or a sum over a list without repetition, inside a finite set `s`, is a sum over `s` of
an indicator; counts taken in different orders are then compared by reordering sums over `s`.
Folds in `Option` that accumulate a count are reduced to such counts:

* `countP_eq_sum_map` -- a count is a sum of ones;
* `sum_map_eq_sum_ite`, `countP_eq_sum_ite` -- over a list without repetition inside `s`, a sum
  or a count is a sum over `s`;
* `sum_range_eq` -- a sum over `List.range N` is one over `Finset.range N`;
* `sum_comm_three` -- three sums in the reverse order;
* `ite_eq_sum_boole` -- a guarded count is a count of a test that implies the guard;
* `countP_eq_add` -- a count splits over two exclusive tests;
* `foldlM_add` -- a fold whose step adds `h x` returns the sum of `h`;
* `foldlM_cursor` -- a fold whose step moves a cursor forward to `pos x` and counts the `x` it
  hits returns the number of hits, when `pos` does not decrease along the list.

Nothing here names a program.
-/

namespace Galois.Counting

open Finset

theorem countP_eq_sum_map {α : Type*} (p : α → Bool) (l : List α) :
    l.countP p = (l.map fun x => if p x then 1 else 0).sum := by
  induction l with
  | nil => rfl
  | cons x l ih => rw [List.countP_cons, List.map_cons, List.sum_cons, ih, Nat.add_comm]

theorem sum_range_eq {M : Type*} [AddCommMonoid M] (N : ℕ) (f : ℕ → M) :
    ((List.range N).map f).sum = ∑ x ∈ range N, f x := by
  rw [← List.sum_toFinset f List.nodup_range, List.toFinset_range]

section Inside

variable {α : Type*} [DecidableEq α] {s : Finset α} {l : List α} (hl : l.Nodup)
  (hs : ∀ x ∈ l, x ∈ s)
include hl hs

theorem sum_map_eq_sum_ite {M : Type*} [AddCommMonoid M] (f : α → M) :
    (l.map f).sum = ∑ x ∈ s, if x ∈ l then f x else 0 := by
  rw [← List.sum_toFinset f hl, ← Finset.sum_filter]
  refine Finset.sum_congr (Finset.ext fun x => ?_) fun _ _ => rfl
  rw [List.mem_toFinset, Finset.mem_filter]
  exact ⟨fun hx => ⟨hs x hx, hx⟩, And.right⟩

theorem countP_eq_sum_ite (p : α → Bool) :
    l.countP p = ∑ x ∈ s, if x ∈ l ∧ p x then 1 else 0 := by
  rw [countP_eq_sum_map, sum_map_eq_sum_ite hl hs]
  exact Finset.sum_congr rfl fun x _ => (ite_and _ _ _ _).symm

end Inside

/-- Three sums taken in the reverse order. -/
theorem sum_comm_three {α β γ M : Type*} [AddCommMonoid M] {s : Finset α} {t : Finset β}
    {u : Finset γ} (f : α → β → γ → M) :
    ∑ x ∈ s, ∑ y ∈ t, ∑ z ∈ u, f x y z = ∑ z ∈ u, ∑ y ∈ t, ∑ x ∈ s, f x y z :=
  calc ∑ x ∈ s, ∑ y ∈ t, ∑ z ∈ u, f x y z = ∑ x ∈ s, ∑ z ∈ u, ∑ y ∈ t, f x y z :=
        Finset.sum_congr rfl fun _ _ => Finset.sum_comm
    _ = ∑ z ∈ u, ∑ x ∈ s, ∑ y ∈ t, f x y z := Finset.sum_comm
    _ = ∑ z ∈ u, ∑ y ∈ t, ∑ x ∈ s, f x y z := Finset.sum_congr rfl fun _ _ => Finset.sum_comm

/-- A count under a guard is the count of a test that implies the guard, if the count is that
count where the guard holds. -/
theorem ite_eq_sum_boole {α : Type*} {s : Finset α} {P : Prop} [Decidable P] {X : ℕ}
    {R : α → Prop} [DecidablePred R] (hX : P → X = ∑ x ∈ s, if R x then 1 else 0)
    (hR : ∀ x, R x → P) : (if P then X else 0) = ∑ x ∈ s, if R x then 1 else 0 := by
  split_ifs with hP
  · exact hX hP
  · exact (Finset.sum_eq_zero fun x _ => if_neg fun hx => hP (hR x hx)).symm

/-- A count under a test that is one of two exclusive tests is the sum of their counts. -/
theorem countP_eq_add {α : Type*} {p q r : α → Bool} :
    ∀ (l : List α), (∀ x ∈ l, p x = (q x || r x)) → (∀ x ∈ l, ¬ (q x = true ∧ r x = true)) →
      l.countP p = l.countP q + l.countP r
  | [], _, _ => rfl
  | x :: l, hp, hqr => by
    rw [List.countP_cons, List.countP_cons, List.countP_cons,
      countP_eq_add l (fun y hy => hp y (List.mem_cons_of_mem x hy))
        (fun y hy => hqr y (List.mem_cons_of_mem x hy)), hp x List.mem_cons_self]
    have hx := hqr x List.mem_cons_self
    cases hq : q x <;> cases hr : r x
    · simp
    · simp only [Bool.false_or, Bool.false_eq_true, if_true, if_false]
      omega
    · simp only [Bool.or_false, Bool.false_eq_true, if_true, if_false]
      omega
    · exact absurd ⟨hq, hr⟩ hx

/-- **A fold that adds `h x` for each `x` returns the sum of `h`.** -/
theorem foldlM_add {α : Type*} {g : ℕ → α → Option ℕ} (h : α → ℕ) :
    ∀ (l : List α), (∀ x ∈ l, ∀ n, g n x = some (n + h x)) →
      ∀ n, l.foldlM g n = some (n + (l.map h).sum)
  | [], _, n => rfl
  | x :: l, hg, n => by
    rw [List.foldlM_cons, hg x List.mem_cons_self n]
    refine (foldlM_add h l (fun y hy => hg y (List.mem_cons_of_mem x hy)) (n + h x)).trans ?_
    rw [List.map_cons, List.sum_cons, Nat.add_assoc]

/-- **A fold that moves a cursor forward and counts its hits returns their number.** Each step
moves the cursor from at or before `pos x` to `pos x`, and counts one when `hit x`; along a list
where `pos` does not decrease, a cursor at or before every `pos x` stays so. -/
theorem foldlM_cursor {α : Type*} {f : ℕ × ℕ → α → Option (ℕ × ℕ)} (pos : α → ℕ)
    (hit : α → Bool) :
    ∀ (l : List α), l.Pairwise (fun x y => pos x ≤ pos y) →
      (∀ x ∈ l, ∀ st : ℕ × ℕ, st.1 ≤ pos x →
        f st x = some (pos x, if hit x then st.2 + 1 else st.2)) →
      ∀ st : ℕ × ℕ, (∀ x ∈ l, st.1 ≤ pos x) →
        (l.foldlM f st).map Prod.snd = some (st.2 + l.countP hit)
  | [], _, _, st, _ => rfl
  | x :: l, hl, hf, st, hst => by
    obtain ⟨hx, hl⟩ := List.pairwise_cons.mp hl
    rw [List.foldlM_cons, hf x List.mem_cons_self st (hst x List.mem_cons_self)]
    refine (foldlM_cursor pos hit l hl (fun y hy => hf y (List.mem_cons_of_mem x hy)) _ hx).trans ?_
    rw [List.countP_cons]
    split <;> simp only [Option.some.injEq] <;> omega

end Galois.Counting
