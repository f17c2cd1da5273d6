import Mathlib

/-!
# Forests of descending parent pointers

A parent function `f : ℕ → ℕ` whose parents never exceed their child (`Descending`) is a forest:
a node with `f x = x` is a root, and following parents from `x` reaches the root `root f x`
within `x` steps.

* `root_fixed`, `root_apply`, `root_of_fixed` -- the root is a root, a node has its parent's
  root, and a root is its own;
* `root_eq_of_step` -- the induction rule: a labelling that every root keeps and every other
  node shares with its parent is `root`;
* `root_update_of_lt` -- compression: pointing a node at a smaller node of its tree changes no
  root;
* `root_update_link` -- linking: pointing a root at a smaller root moves exactly the first
  root's tree under the second;
* `relabel_eq_iff` -- where equal labels answer an equivalence closure, merging the labels of
  two elements answers the closure with that pair added.

Nothing here names a program.
-/

namespace Galois.ParentForest

open Function

variable {f g : ℕ → ℕ}

/-- Parents never exceed their child. -/
def Descending (f : ℕ → ℕ) : Prop := ∀ x, f x ≤ x

/-- The root of `x`: `x` steps of following parents. -/
def root (f : ℕ → ℕ) (x : ℕ) : ℕ := f^[x] x

section Root

variable (hf : Descending f)
include hf

theorem iterate_le (x : ℕ) : ∀ n, f^[n] x ≤ x
  | 0 => Nat.le_refl x
  | n + 1 => by
    rw [iterate_succ_apply']
    exact Nat.le_trans (hf _) (iterate_le x n)

/-- Until the walk reaches a root, every step goes down. -/
theorem iterate_add_le (x : ℕ) : ∀ n, f (f^[n] x) ≠ f^[n] x → f^[n] x + n ≤ x
  | 0, _ => Nat.le_refl x
  | n + 1, hne => by
    rw [iterate_succ_apply'] at hne ⊢
    have hprev : f (f^[n] x) ≠ f^[n] x := fun heq => hne (by rw [heq, heq])
    have hlt : f (f^[n] x) < f^[n] x := Nat.lt_of_le_of_ne (hf _) hprev
    have := iterate_add_le x n hprev
    omega

/-- **The root is a root**: a walk that had not stopped after `x` steps would be below `0`. -/
theorem root_fixed (x : ℕ) : f (root f x) = root f x := by
  by_contra hne
  have hle := iterate_add_le hf x x hne
  have hzero : root f x = 0 := by unfold root; omega
  rw [hzero] at hne
  exact hne (Nat.le_zero.mp (hf 0))

/-- From `x` steps on, the walk stays at the root. -/
theorem iterate_eq_root {x n : ℕ} (hn : x ≤ n) : f^[n] x = root f x := by
  obtain ⟨k, rfl⟩ := Nat.exists_eq_add_of_le hn
  rw [Nat.add_comm, iterate_add_apply]
  exact iterate_fixed (root_fixed hf x) k

theorem root_le (x : ℕ) : root f x ≤ x := iterate_le hf x x

/-- **A node has its parent's root.** -/
theorem root_apply (x : ℕ) : root f (f x) = root f x :=
  calc root f (f x) = f^[x] (f x) := (iterate_eq_root hf (hf x)).symm
    _ = f (f^[x] x) := by rw [← iterate_succ_apply, iterate_succ_apply']
    _ = root f x := root_fixed hf x

/-- A node that is its own root is a root. -/
theorem fixed_of_root_eq {x : ℕ} (hx : root f x = x) : f x = x := by
  refine Nat.le_antisymm (hf x) ?_
  calc x = root f x := hx.symm
    _ = root f (f x) := (root_apply hf x).symm
    _ ≤ f x := root_le hf (f x)

end Root

theorem root_of_fixed {x : ℕ} (hx : f x = x) : root f x = x := iterate_fixed hx x

/-- **The induction rule for roots**: over a descending `g`, a labelling `φ` that every root
keeps and every other node shares with its parent is `root g`. -/
theorem root_eq_of_step (hg : Descending g) (φ : ℕ → ℕ) (hroot : ∀ z, g z = z → φ z = z)
    (hstep : ∀ z, g z ≠ z → φ (g z) = φ z) : ∀ z, root g z = φ z := by
  intro z
  -- strong induction on the node: a parent is smaller than its non-root child
  induction z using Nat.strongRecOn with
  | ind z ih =>
    by_cases hz : g z = z
    · rw [root_of_fixed hz, hroot z hz]
    · rw [← root_apply hg z, ih (g z) (Nat.lt_of_le_of_ne (hg z) hz), hstep z hz]

/-! ## Moving one pointer -/

section Update

variable (hf : Descending f)
include hf

theorem descending_update {x y : ℕ} (hy : y ≤ x) : Descending (update f x y) := by
  intro z
  by_cases hz : z = x
  · subst hz
    rw [update_self]
    exact hy
  · rw [update_of_ne hz]
    exact hf z

/-- **Compression changes no root**: `x` pointed at a smaller node `y` of its tree. -/
theorem root_update_of_lt {x y : ℕ} (hy : y < x) (hr : root f y = root f x) :
    Descending (update f x y) ∧ root (update f x y) = root f := by
  have hg := descending_update hf (Nat.le_of_lt hy)
  refine ⟨hg, funext (root_eq_of_step hg _ (fun z hz => ?_) (fun z _ => ?_))⟩
  · -- a root of the new forest is not `x`, which now points below itself
    have hzx : z ≠ x := by
      rintro rfl
      rw [update_self] at hz
      exact absurd hz (Nat.ne_of_lt hy)
    rw [update_of_ne hzx] at hz
    exact root_of_fixed hz
  · by_cases hzx : z = x
    · subst hzx
      rw [update_self, hr]
    · rw [update_of_ne hzx, root_apply hf]

/-- **Linking moves exactly one tree**: the root `a` pointed at a smaller root `b` gives every
node of `a`'s tree the root `b`, and every other node keeps its root. -/
theorem root_update_link {a b : ℕ} (ha : f a = a) (hb : f b = b) (hba : b < a) :
    Descending (update f a b) ∧
      ∀ z, root (update f a b) z = if root f z = a then b else root f z := by
  have hg := descending_update hf (Nat.le_of_lt hba)
  refine ⟨hg, root_eq_of_step hg _ (fun z hz => ?_) (fun z _ => ?_)⟩
  · have hza : z ≠ a := by
      rintro rfl
      rw [update_self] at hz
      exact absurd hz (Nat.ne_of_lt hba)
    rw [update_of_ne hza] at hz
    rw [root_of_fixed hz, if_neg hza]
  · by_cases hza : z = a
    · subst hza
      rw [update_self, root_of_fixed hb, root_of_fixed ha, if_neg (Nat.ne_of_lt hba), if_pos rfl]
    · rw [update_of_ne hza, root_apply hf]

end Update

/-! ## Classes -/

section Classes

variable {α β : Type*} [DecidableEq β]

/-- The labelling after the class labelled `u` joins the class labelled `v`. -/
def relabel (u v t : β) : β := if t = u then v else t

theorem relabel_of_mem {u v t : β} (ht : t = u ∨ t = v) : relabel u v t = v := by
  unfold relabel
  split_ifs with htu
  · rfl
  · exact ht.resolve_left htu

/-- Merging a class with itself changes nothing. -/
theorem relabel_self (u t : β) : relabel u u t = t := by
  unfold relabel
  split_ifs with htu
  · exact htu.symm
  · rfl

/-- Two labels that relabel alike were alike, or both belong to the merged classes. -/
theorem eq_or_mem_of_relabel {u v s t : β} (h : relabel u v s = relabel u v t) :
    s = t ∨ ((s = u ∨ s = v) ∧ (t = u ∨ t = v)) := by
  unfold relabel at h
  split_ifs at h with hs ht ht
  · exact .inl (hs.trans ht.symm)
  · exact .inr ⟨.inl hs, .inr h.symm⟩
  · exact .inr ⟨.inr h, .inl ht⟩
  · exact .inl h

/-- **Merging two classes answers the closure with one more pair**: where equal labels answer
`EqvGen r`, and `u`, `v` are the labels of `a` and `b` in either order, the relabelled labels
answer `EqvGen` of `r` with `(a, b)` added. -/
theorem relabel_eq_iff {r : α → α → Prop} {φ : α → β}
    (hφ : ∀ x y, φ x = φ y ↔ Relation.EqvGen r x y) {a b : α} {u v : β}
    (huv : (u = φ a ∧ v = φ b) ∨ (u = φ b ∧ v = φ a)) (x y : α) :
    relabel u v (φ x) = relabel u v (φ y) ↔
      Relation.EqvGen (fun x y => r x y ∨ (x = a ∧ y = b)) x y := by
  have hmono : ∀ x y, Relation.EqvGen r x y →
      Relation.EqvGen (fun x y => r x y ∨ (x = a ∧ y = b)) x y :=
    Relation.EqvGen.mono fun _ _ h => .inl h
  have hmem : ∀ t, (t = u ∨ t = v) → t = φ a ∨ t = φ b := by
    rcases huv with ⟨rfl, rfl⟩ | ⟨rfl, rfl⟩
    · exact fun _ ht => ht
    · exact fun _ ht => ht.symm
  constructor
  · intro h
    -- both ends reach `a`: through `r` alone, or through the added pair
    have hab : Relation.EqvGen (fun x y => r x y ∨ (x = a ∧ y = b)) a b :=
      .rel _ _ (.inr ⟨rfl, rfl⟩)
    have hto : ∀ z, (φ z = φ a ∨ φ z = φ b) →
        Relation.EqvGen (fun x y => r x y ∨ (x = a ∧ y = b)) z a := by
      rintro z (hz | hz)
      · exact hmono _ _ ((hφ z a).mp hz)
      · exact .trans _ _ _ (hmono _ _ ((hφ z b).mp hz)) (.symm _ _ hab)
    rcases eq_or_mem_of_relabel h with hxy | ⟨hx, hy⟩
    · exact hmono _ _ ((hφ x y).mp hxy)
    · exact .trans _ _ _ (hto x (hmem _ hx)) (.symm _ _ (hto y (hmem _ hy)))
  · intro h
    induction h with
    | rel x y hxy =>
      rcases hxy with hxy | ⟨rfl, rfl⟩
      · rw [(hφ x y).mpr (.rel _ _ hxy)]
      · have hu : u = φ x ∨ v = φ x := by rcases huv with h | h <;> simp [h]
        have hv : u = φ y ∨ v = φ y := by rcases huv with h | h <;> simp [h]
        rw [relabel_of_mem (hu.imp Eq.symm Eq.symm), relabel_of_mem (hv.imp Eq.symm Eq.symm)]
    | refl => rfl
    | symm _ _ _ ih => exact ih.symm
    | trans _ _ _ _ _ ih₁ ih₂ => exact ih₁.trans ih₂

/-- With no pair, the closure is equality. -/
theorem eqvGen_bot_iff {x y : α} : Relation.EqvGen (fun _ _ : α => False) x y ↔ x = y := by
  constructor
  · intro h
    induction h with
    | rel _ _ h => exact h.elim
    | refl => rfl
    | symm _ _ _ ih => exact ih.symm
    | trans _ _ _ _ _ ih₁ ih₂ => exact ih₁.trans ih₂
  · rintro rfl
    exact .refl _

end Classes

end Galois.ParentForest
