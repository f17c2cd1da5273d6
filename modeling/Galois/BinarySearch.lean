import Mathlib

/-!
# Lower-bound binary search over an upward-closed predicate

The search halves `[lo, hi)` until it is empty, keeping the lower half when the predicate holds
at the midpoint. When the predicate holds from some point on below `ub` (`UpwardClosed`), the
result is the first index of `[lb, ub)` where it holds, or `ub` (`IsLowerBound`):

* `lowerBoundLoop_spec` -- with as much fuel as the interval is long, the loop finds it;
* `IsLowerBound.eq_of_le` -- the answer does not depend on where the search starts, as long as
  it starts at or before the answer;
* `IsLowerBound.le_of_imp` -- a weaker predicate is answered no later;
* `IsLowerBound.eq_ub` -- where the predicate never holds, the answer is `ub`.

Nothing here names a program: the file is about one search over `ℕ`.
-/

namespace Galois.BinarySearch

variable (p : ℕ → Bool)

/-- Lower-bound search for `p` over `[lo, hi)`, for at most `fuel` halvings. -/
def lowerBoundLoop : ℕ → ℕ → ℕ → ℕ
  | 0, lo, _ => lo
  | fuel + 1, lo, hi =>
    if lo < hi then
      if p (lo + (hi - lo) / 2) then lowerBoundLoop fuel lo (lo + (hi - lo) / 2)
      else lowerBoundLoop fuel (lo + (hi - lo) / 2 + 1) hi
    else lo

/-- Below `ub`, `p` holds from some point on. -/
def UpwardClosed (ub : ℕ) : Prop := ∀ i j, i ≤ j → j < ub → p i = true → p j = true

/-- `r` answers a search from `lb` below `ub`: it lies in `[lb, ub]`, `p` fails from `lb` up to
it, and `p` holds at it unless it is `ub`. -/
structure IsLowerBound (lb ub r : ℕ) : Prop where
  lb_le : lb ≤ r
  le_ub : r ≤ ub
  below : ∀ i, lb ≤ i → i < r → p i = false
  at_r : r < ub → p r = true

/-- The loop's invariant: the answer lies in `[lo, hi]`. -/
structure SearchInv (lb ub lo hi : ℕ) : Prop where
  lb_le : lb ≤ lo
  lo_le : lo ≤ hi
  hi_le : hi ≤ ub
  below : ∀ i, lb ≤ i → i < lo → p i = false
  at_hi : hi < ub → p hi = true

variable {p}

theorem searchInv_init {lb ub : ℕ} (h : lb ≤ ub) : SearchInv p lb ub lb ub :=
  ⟨Nat.le_refl lb, h, Nat.le_refl ub, fun _ hi hlt => absurd hi (Nat.not_le_of_lt hlt),
    fun hlt => absurd hlt (Nat.lt_irrefl ub)⟩

/-- A midpoint where `p` holds becomes the new upper end. -/
theorem SearchInv.step_true {lb ub lo hi mid : ℕ} (h : SearchInv p lb ub lo hi)
    (hmid : lo ≤ mid) (hmid' : mid < hi) (hp : p mid = true) : SearchInv p lb ub lo mid :=
  ⟨h.lb_le, hmid, by have := h.hi_le; omega, h.below, fun _ => hp⟩

/-- A midpoint where `p` fails moves the lower end past it: by upward closure, `p` fails
before it too. -/
theorem SearchInv.step_false {lb ub lo hi mid : ℕ} (hup : UpwardClosed p ub)
    (h : SearchInv p lb ub lo hi) (hmid : lo ≤ mid) (hmid' : mid < hi) (hp : p mid = false) :
    SearchInv p lb ub (mid + 1) hi := by
  refine ⟨by have := h.lb_le; omega, hmid', h.hi_le, fun i hlb hi => ?_, h.at_hi⟩
  rcases Nat.lt_or_ge i lo with hlo | hlo
  · exact h.below i hlb hlo
  · cases hpi : p i with
    | false => rfl
    | true =>
      rw [hup i mid (by omega) (by have := h.hi_le; omega) hpi] at hp
      exact Bool.noConfusion hp

/-- **The search finds the lower bound**, given as many halvings as the interval is long. -/
theorem lowerBoundLoop_spec {lb ub : ℕ} (hup : UpwardClosed p ub) :
    ∀ (fuel lo hi : ℕ), SearchInv p lb ub lo hi → hi - lo ≤ fuel →
      IsLowerBound p lb ub (lowerBoundLoop p fuel lo hi)
  | 0, lo, hi, h, hfuel => by
    obtain rfl : hi = lo := by have := h.lo_le; omega
    exact ⟨h.lb_le, h.hi_le, h.below, h.at_hi⟩
  | fuel + 1, lo, hi, h, hfuel => by
    rw [lowerBoundLoop]
    split_ifs with hlt hp
    · exact lowerBoundLoop_spec hup fuel _ _ (h.step_true (by omega) (by omega) hp) (by omega)
    · exact lowerBoundLoop_spec hup fuel _ _
        (h.step_false hup (by omega) (by omega) (Bool.eq_false_iff.mpr hp)) (by omega)
    · obtain rfl : hi = lo := by have := h.lo_le; omega
      exact ⟨h.lb_le, h.hi_le, h.below, h.at_hi⟩

/-- The loop never answers past `hi`. -/
theorem lowerBoundLoop_le : ∀ (fuel lo hi : ℕ), lo ≤ hi → lowerBoundLoop p fuel lo hi ≤ hi
  | 0, _, _, h => h
  | fuel + 1, lo, hi, h => by
    rw [lowerBoundLoop]
    split_ifs with hlt hp
    · exact Nat.le_trans (lowerBoundLoop_le fuel _ _ (Nat.le_add_right lo _)) (by omega)
    · exact lowerBoundLoop_le fuel _ _ (by omega)
    · exact h

/-- A lower bound is one for every later start up to it. -/
theorem IsLowerBound.of_le {lb lb' ub r : ℕ} (h : IsLowerBound p lb ub r) (hlb : lb ≤ lb')
    (hr : lb' ≤ r) : IsLowerBound p lb' ub r :=
  ⟨hr, h.le_ub, fun i hi hir => h.below i (Nat.le_trans hlb hi) hir, h.at_r⟩

/-- **A weaker predicate is answered no later.** -/
theorem IsLowerBound.le_of_imp {q : ℕ → Bool} {lb ub r s : ℕ} (hp : IsLowerBound p lb ub r)
    (hq : IsLowerBound q lb ub s) (himp : ∀ i, p i = true → q i = true) : s ≤ r := by
  by_contra hlt
  have hqr := himp r (hp.at_r (by have := hq.le_ub; omega))
  rw [hq.below r hp.lb_le (by omega)] at hqr
  exact Bool.false_ne_true hqr

/-- **Two answers of searches that each start at or before the other's answer agree.** -/
theorem IsLowerBound.eq_of_le {lb lb' ub r r' : ℕ} (h : IsLowerBound p lb ub r)
    (h' : IsLowerBound p lb' ub r') (hlb : lb ≤ r') (hlb' : lb' ≤ r) : r = r' := by
  rcases Nat.lt_trichotomy r r' with hlt | heq | hgt
  · -- `r` lies before `r'`, where `p` fails, and before `ub`, where it holds at `r`
    have hpr := h.at_r (Nat.lt_of_lt_of_le hlt h'.le_ub)
    rw [h'.below r hlb' hlt] at hpr
    exact absurd hpr Bool.false_ne_true
  · exact heq
  · have hpr := h'.at_r (Nat.lt_of_lt_of_le hgt h.le_ub)
    rw [h.below r' hlb hgt] at hpr
    exact absurd hpr Bool.false_ne_true

/-- Where `p` never holds in `[lb, ub)`, the answer is `ub`. -/
theorem IsLowerBound.eq_ub {lb ub r : ℕ} (h : IsLowerBound p lb ub r)
    (hnone : ∀ i, lb ≤ i → i < ub → p i = false) : r = ub := by
  by_contra hne
  have hlt : r < ub := Nat.lt_of_le_of_ne h.le_ub hne
  have hpr := h.at_r hlt
  rw [hnone r h.lb_le hlt] at hpr
  exact Bool.false_ne_true hpr

end Galois.BinarySearch
