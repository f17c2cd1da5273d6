import Mathlib

/-!
# Strict weak orders

The comparators of the standard library's sorting and heap algorithms are strict weak
orderings: irreflexive and transitive, with incomparability transitive (`IsStrictWeakOrder`).
Two consequences that the proofs about them use: being below an element is being below
everything equivalent to it (`rel_of_rel_of_incomp`), and not being below is transitive
(`not_rel_trans`), which is what makes the front of a heap minimal. Nothing here names a
program.
-/

namespace Galois.WeakOrder

variable {α : Type*} {r : α → α → Prop} [IsStrictWeakOrder α r] {x y z : α}

/-- Below an element is below everything equivalent to it. -/
theorem rel_of_rel_of_incomp (hxy : r x y) (hyz : ¬r y z) (hzy : ¬r z y) : r x z := by
  refine Classical.byContradiction fun hxz => ?_
  have hzx : ¬r z x := fun hzx => hzy (IsTrans.trans _ _ _ hzx hxy)
  exact (IsStrictWeakOrder.incomp_trans x z y ⟨hxz, hzx⟩ ⟨hzy, hyz⟩).1 hxy

/-- **Not being below is transitive.** -/
theorem not_rel_trans (hxy : ¬r x y) (hyz : ¬r y z) : ¬r x z := by
  intro hxz
  -- `y` is then equivalent to both `x` and `z`, and so are they to each other
  have hyx : ¬r y x := fun hyx => hyz (IsTrans.trans _ _ _ hyx hxz)
  have hzy : ¬r z y := fun hzy => hxy (IsTrans.trans _ _ _ hxz hzy)
  exact (IsStrictWeakOrder.incomp_trans x y z ⟨hxy, hyx⟩ ⟨hyz, hzy⟩).1 hxz

end Galois.WeakOrder
