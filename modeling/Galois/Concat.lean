import Mathlib

/-!
# Positions in a concatenation of lists

An iterator over a list of lists names an element by two numbers: the list it is in and its
offset inside that list. The element's position in the concatenation is the number of elements
in the lists before it plus the offset (`before l o + b`). This file is the arithmetic of that
map:

* `before_succ`, `before_of_length_le` -- the count grows by one list's length at a time and
  ends at the length of the concatenation;
* `before_of_empty` -- empty lists add nothing, so skipping them keeps the position;
* `getElem?_flatten_before` -- the element at `before l o + b` is the `b`-th of list `o`;
* `before_add_lt_before`, `eq_of_before_add_eq` -- positions of elements grow strictly with the
  pair, so two pairs that point at elements name the same one only when they are equal;
* `Names`, `pos` -- a pair that names an element or the end, and its position, the abstraction
  of a two-level iterator; `pos_eq_iff`, `le_of_pos_le` and `pos_lt_pos_of_lt` compare pairs by
  their positions.

Nothing here names a program.
-/

namespace Concat

variable {α : Type*}

/-- The length of list `o`, and `0` past the last list. -/
def lenAt (l : List (List α)) (o : ℕ) : ℕ := (l.getD o []).length

/-- The number of elements in the lists before list `o`. -/
def before (l : List (List α)) (o : ℕ) : ℕ := ((l.take o).map List.length).sum

section

variable {l : List (List α)}

theorem lt_length_of_lenAt_pos {o : ℕ} (h : 0 < lenAt l o) : o < l.length := by
  by_contra hge
  rw [lenAt, List.getD_eq_getElem?_getD, List.getElem?_eq_none (Nat.le_of_not_lt hge)] at h
  exact Nat.lt_irrefl 0 h

theorem lenAt_cons_succ (r : List α) (o : ℕ) : lenAt (r :: l) (o + 1) = lenAt l o := rfl

@[simp] theorem before_zero : before l 0 = 0 := by
  simp [before]

theorem before_cons_succ (r : List α) (o : ℕ) :
    before (r :: l) (o + 1) = r.length + before l o := by
  simp [before]

/-- The count steps by the length of list `o`, also past the last list, where that is `0`. -/
theorem before_succ (o : ℕ) : before l (o + 1) = before l o + lenAt l o := by
  induction l generalizing o with
  | nil => simp [before, lenAt]
  | cons r l ih =>
    cases o with
    | zero => simp [before, lenAt]
    | succ o => rw [before_cons_succ, before_cons_succ, ih, lenAt_cons_succ, Nat.add_assoc]

theorem before_of_length_le {o : ℕ} (h : l.length ≤ o) : before l o = l.flatten.length := by
  rw [before, List.take_of_length_le h, List.length_flatten]

theorem before_mono {o o' : ℕ} (h : o ≤ o') : before l o ≤ before l o' := by
  induction h with
  | refl => exact Nat.le_refl _
  | step _ ih =>
    rw [before_succ]
    exact Nat.le_add_right_of_le ih

theorem before_le_length_flatten (o : ℕ) : before l o ≤ l.flatten.length := by
  calc before l o ≤ before l (max o l.length) := before_mono (Nat.le_max_left _ _)
    _ = l.flatten.length := before_of_length_le (Nat.le_max_right _ _)

/-- Empty lists in `[o, o')` add nothing to the count. -/
theorem before_of_empty {o o' : ℕ} (hle : o ≤ o') (h : ∀ j, o ≤ j → j < o' → lenAt l j = 0) :
    before l o' = before l o := by
  induction hle with
  | refl => rfl
  | @step n hn ih =>
    rw [before_succ, h n hn (Nat.lt_succ_self n), Nat.add_zero]
    exact ih fun j hj hjn => h j hj (Nat.lt_succ_of_lt hjn)

/-- An element of list `o` comes before every element of the lists after it. -/
theorem before_add_lt_before {o o' b : ℕ} (hb : b < lenAt l o) (ho : o < o') :
    before l o + b < before l o' := by
  calc before l o + b < before l (o + 1) := by rw [before_succ]; omega
    _ ≤ before l o' := before_mono ho

/-- Two offsets inside their lists name the same position only when the pairs are equal. -/
theorem eq_of_before_add_eq {o o' b b' : ℕ} (hb : b < lenAt l o) (hb' : b' < lenAt l o')
    (h : before l o + b = before l o' + b') : o = o' ∧ b = b' := by
  rcases Nat.lt_trichotomy o o' with hlt | rfl | hgt
  · have := before_add_lt_before hb hlt
    omega
  · exact ⟨rfl, by omega⟩
  · have := before_add_lt_before hb' hgt
    omega

/-- The element at `before l o + b` of the concatenation is the `b`-th of list `o`. -/
theorem getElem?_flatten_before {o b : ℕ} (hb : b < lenAt l o) :
    l.flatten[before l o + b]? = (l.getD o [])[b]? := by
  induction l generalizing o with
  | nil => simp [lenAt] at hb
  | cons r l ih =>
    cases o with
    | zero =>
      simp only [lenAt, List.getD_cons_zero] at hb
      rw [before_zero, Nat.zero_add, List.flatten_cons, List.getElem?_append_left hb,
        List.getD_cons_zero]
    | succ o =>
      rw [before_cons_succ, List.flatten_cons, Nat.add_assoc,
        List.getElem?_append_right (Nat.le_add_right _ _), Nat.add_sub_cancel_left,
        ih (by rwa [lenAt_cons_succ] at hb), List.getD_cons_succ]

end

/-! ## Pairs that name an element or the end -/

/-- The pair `(o, b)` names element `b` of list `o`, or the end of the concatenation. -/
def Names (l : List (List α)) (o b : ℕ) : Prop := o = l.length ∨ b < lenAt l o

instance (l : List (List α)) (o b : ℕ) : Decidable (Names l o b) :=
  inferInstanceAs (Decidable (_ ∨ _))

/-- The position of the pair `(o, b)` in the concatenation: `before l o + b` inside the lists,
and the length of the concatenation from the end on. -/
def pos (l : List (List α)) (o b : ℕ) : ℕ :=
  if o < l.length then before l o + b else l.flatten.length

section Pairs

variable {l : List (List α)} {o o' b b' : ℕ}

theorem Names.le (h : Names l o b) : o ≤ l.length := by
  rcases h with h | h
  · exact Nat.le_of_eq h
  · exact Nat.le_of_lt (lt_length_of_lenAt_pos (Nat.lt_of_le_of_lt (Nat.zero_le _) h))

theorem Names.lt (h : Names l o b) (hne : o ≠ l.length) : b < lenAt l o :=
  h.resolve_left hne

theorem Names.lt_length (h : Names l o b) (hne : o ≠ l.length) : o < l.length :=
  Nat.lt_of_le_of_ne h.le hne

theorem pos_of_lt (h : o < l.length) : pos l o b = before l o + b :=
  if_pos h

theorem pos_of_end (h : o = l.length) : pos l o b = l.flatten.length :=
  if_neg (Nat.not_lt_of_ge (Nat.le_of_eq h.symm))

/-- A pair that names an element is at a position before the end. -/
theorem pos_lt_of_ne (h : Names l o b) (hne : o ≠ l.length) : pos l o b < l.flatten.length := by
  rw [pos_of_lt (h.lt_length hne)]
  calc before l o + b < before l (o + 1) := before_add_lt_before (h.lt hne) (Nat.lt_succ_self _)
    _ ≤ l.flatten.length := before_le_length_flatten _

theorem pos_le (h : Names l o b) : pos l o b ≤ l.flatten.length := by
  by_cases hne : o = l.length
  · exact Nat.le_of_eq (pos_of_end hne)
  · exact Nat.le_of_lt (pos_lt_of_ne h hne)

theorem before_le_pos (h : Names l o b) : before l o ≤ pos l o b := by
  by_cases hne : o = l.length
  · apply Nat.le_of_eq
    rw [pos_of_end hne, before_of_length_le (Nat.le_of_eq hne.symm)]
  · rw [pos_of_lt (h.lt_length hne)]
    exact Nat.le_add_right _ _

/-- On pairs that name elements or the end, the lists follow the positions. -/
theorem le_of_pos_le (ha : Names l o b) (hb : Names l o' b') (h : pos l o b ≤ pos l o' b') :
    o ≤ o' := by
  refine Nat.le_of_not_lt fun hlt => ?_
  have hne : o' ≠ l.length := Nat.ne_of_lt (Nat.lt_of_lt_of_le hlt ha.le)
  have hb' : pos l o' b' < before l o := by
    rw [pos_of_lt (hb.lt_length hne)]
    exact before_add_lt_before (hb.lt hne) hlt
  have := before_le_pos ha
  omega

theorem pos_lt_pos_of_lt (ha : Names l o b) (hb : Names l o' b') (h : o < o') :
    pos l o b < pos l o' b' := by
  have hne : o ≠ l.length := Nat.ne_of_lt (Nat.lt_of_lt_of_le h hb.le)
  rw [pos_of_lt (ha.lt_length hne)]
  exact Nat.lt_of_lt_of_le (before_add_lt_before (ha.lt hne) h) (before_le_pos hb)

/-- A pair at or after the end of list `o` is in a later list, or the end. -/
theorem lt_of_before_succ_le (hb : Names l o' b') (ho : o < l.length)
    (h : before l (o + 1) ≤ pos l o' b') : o < o' := by
  refine Nat.lt_of_not_le fun hle => ?_
  have hne : o' ≠ l.length := by omega
  rw [pos_of_lt (hb.lt_length hne)] at h
  have := before_add_lt_before (hb.lt hne) (show o' < o + 1 by omega)
  omega

/-- **Two pairs are at one position exactly when both are the end or they are equal.** -/
theorem pos_eq_iff (ha : Names l o b) (hb : Names l o' b') :
    pos l o b = pos l o' b' ↔ (o = l.length ∧ o = o') ∨ (o = o' ∧ b = b') := by
  by_cases hae : o = l.length <;> by_cases hbe : o' = l.length
  · -- both are the end
    rw [pos_of_end hae, pos_of_end hbe]
    exact iff_of_true rfl (Or.inl ⟨hae, hae.trans hbe.symm⟩)
  · have := pos_lt_of_ne hb hbe
    rw [pos_of_end hae]
    exact iff_of_false (by omega) (by omega)
  · have := pos_lt_of_ne ha hae
    rw [pos_of_end hbe]
    exact iff_of_false (by omega) (by omega)
  · -- both name elements
    rw [pos_of_lt (ha.lt_length hae), pos_of_lt (hb.lt_length hbe)]
    constructor
    · exact fun h => Or.inr (eq_of_before_add_eq (ha.lt hae) (hb.lt hbe) h)
    · rintro (⟨h1, -⟩ | ⟨rfl, rfl⟩)
      · exact absurd h1 hae
      · rfl

end Pairs

end Concat
