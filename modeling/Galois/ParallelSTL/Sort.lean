import Galois.WeakOrder
import Mathlib.Logic.Relation
import Mathlib.Data.List.TakeWhile
import Mathlib.Data.List.Perm.Basic
import Mathlib.Data.Nat.Notation

/-!
# ParallelSTL.h: `sort`

From 1025 elements on, `ParallelSTL::sort` runs `sort_helper` as a `for_each` over a work list
of ranges, starting from the whole array. An item of at most 1024 elements is sorted with
`std::sort`; a larger one is partitioned with `std::partition` around the value `pv` at
`choose_rand`, the part below `pv` is pushed, the elements right after it that are equivalent
to `pv` are skipped with `std::find_if`, and the rest is pushed.

* `SegmentPerm` -- what an algorithm on a subrange leaves: the array with that range replaced by
  a permutation of it. `std::sort` and `std::partition` are given by their specifications on top
  of it (`StdSort`, `StdPartition`), for any of the orders they may produce;
* `SortHelper`, `SortStep`, `SortEnds` -- one item, the work list run in any order, and the
  call, for every value `rand()` returns;
* `SortHelper.spec` -- what one item does: it permutes its range and pushes disjoint non-empty
  ranges inside it, and it leaves in order any two positions of its range that no pushed range
  holds both;
* `SortInv` -- the invariant of the work list: the array is a permutation of the input, the
  pending ranges are disjoint, and two positions that no pending range holds both are in order.
  With disjoint ranges, items that run at the same time touch disjoint parts of the array, so
  running them one at a time in any order covers every interleaving;
* **`sort_spec`** -- under a strict weak ordering, whenever the call ends the array is a sorted
  permutation of the input, and every item pushes ranges inside its own, disjoint, with the
  elements between them equivalent to the pivot.
-/

namespace Galois.ParallelSTL

open WeakOrder

variable {α : Type*}

/-! ## 1. Rewriting one range of an array -/

/-- `a'` is `a` with the elements of `[s, e)` replaced by a permutation `mid` of them: what an
algorithm on the subrange `[a + s, a + e)` leaves. -/
structure SegmentPerm (a : List α) (s e : ℕ) (mid a' : List α) : Prop where
  perm : mid.Perm ((a.drop s).take (e - s))
  eq : a' = a.take s ++ mid ++ a.drop e

namespace SegmentPerm

variable {a a' mid : List α} {s e k : ℕ} {x : α}

theorem length_mid (h : SegmentPerm a s e mid a') (he : e ≤ a.length) : mid.length = e - s := by
  rw [h.perm.length_eq, List.length_take, List.length_drop]
  omega

theorem length_eq (h : SegmentPerm a s e mid a') (hse : s ≤ e) (he : e ≤ a.length) :
    a'.length = a.length := by
  rw [h.eq, List.length_append, List.length_append, List.length_take, h.length_mid he,
    List.length_drop]
  omega

theorem perm_whole (h : SegmentPerm a s e mid a') (hse : s ≤ e) : a'.Perm a := by
  have hsplit : a.take s ++ (a.drop s).take (e - s) ++ a.drop e = a := by
    rw [List.append_assoc, show a.drop e = (a.drop s).drop (e - s) by
      rw [List.drop_drop, Nat.add_sub_cancel' hse], List.take_append_drop, List.take_append_drop]
  calc a'.Perm (a.take s ++ (a.drop s).take (e - s) ++ a.drop e) := by
        rw [h.eq]
        exact (h.perm.append_left _).append_right _
    _ = a := hsplit

theorem getElem?_of_lt (h : SegmentPerm a s e mid a') (hk : k < s) (hs : s ≤ a.length) :
    a'[k]? = a[k]? := by
  rw [h.eq, List.append_assoc, List.getElem?_append_left (by rw [List.length_take]; omega),
    List.getElem?_take_of_lt hk]

theorem getElem?_of_le (h : SegmentPerm a s e mid a') (hk : e ≤ k) (hse : s ≤ e)
    (he : e ≤ a.length) : a'[k]? = a[k]? := by
  have hlen : (a.take s ++ mid).length = e := by
    rw [List.length_append, List.length_take, h.length_mid he]
    omega
  rw [h.eq, List.getElem?_append_right (by omega), hlen, List.getElem?_drop,
    Nat.add_sub_cancel' hk]

theorem getElem?_mid (h : SegmentPerm a s e mid a') (hk1 : s ≤ k) (hk2 : k < e)
    (he : e ≤ a.length) : a'[k]? = mid[k - s]? := by
  have hs : (a.take s).length = s := by
    rw [List.length_take]
    omega
  rw [h.eq, List.getElem?_append_left (by rw [List.length_append, hs, h.length_mid he]; omega),
    List.getElem?_append_right (by omega), hs]

/-- An element of the new range was somewhere in the old one. -/
theorem exists_of_mid (h : SegmentPerm a s e mid a') (hk1 : s ≤ k) (hk2 : k < e)
    (he : e ≤ a.length) (hx : a'[k]? = some x) : ∃ k', s ≤ k' ∧ k' < e ∧ a[k']? = some x := by
  rw [h.getElem?_mid hk1 hk2 he] at hx
  obtain ⟨n, hn⟩ := List.mem_iff_getElem?.mp (h.perm.subset (List.mem_of_getElem? hx))
  rw [List.getElem?_take] at hn
  split_ifs at hn with hlt
  rw [List.getElem?_drop] at hn
  exact ⟨s + n, by omega, by omega, hn⟩

/-- **Where an element of `a'` was in `a`**: at the same position, or, for a position in
`[s, e)`, somewhere in `[s, e)`. -/
theorem exists_origin (h : SegmentPerm a s e mid a') (hse : s ≤ e) (he : e ≤ a.length)
    (hx : a'[k]? = some x) :
    ∃ k', a[k']? = some x ∧ (k' = k ∨ s ≤ k ∧ k < e ∧ s ≤ k' ∧ k' < e) := by
  by_cases hlt : k < s
  · exact ⟨k, by rw [← h.getElem?_of_lt hlt (by omega)]; exact hx, .inl rfl⟩
  by_cases hge : e ≤ k
  · exact ⟨k, by rw [← h.getElem?_of_le hge hse he]; exact hx, .inl rfl⟩
  obtain ⟨k', hk1, hk2, hk'⟩ := h.exists_of_mid (by omega) (by omega) he hx
  exact ⟨k', hk', .inr ⟨by omega, by omega, hk1, hk2⟩⟩

end SegmentPerm

/-- Two related entries of a pairwise related list. -/
theorem rel_of_pairwise_of_getElem? {R : α → α → Prop} {l : List α} (hl : l.Pairwise R)
    {i j : ℕ} {x y : α} (hij : i < j) (hx : l[i]? = some x) (hy : l[j]? = some y) : R x y := by
  obtain ⟨hi, rfl⟩ := List.getElem?_eq_some_iff.mp hx
  obtain ⟨hj, rfl⟩ := List.getElem?_eq_some_iff.mp hy
  exact List.pairwise_iff_getElem.mp hl i j hi hj hij

/-- Two ranges `[r.1, r.2)` and `[r'.1, r'.2)` do not overlap. -/
def RangesDisjoint (r r' : ℕ × ℕ) : Prop := r.2 ≤ r'.1 ∨ r'.2 ≤ r.1

/-- Positions `i < j` lie in one of the ranges. -/
def SameRange (ranges : List (ℕ × ℕ)) (i j : ℕ) : Prop := ∃ r ∈ ranges, r.1 ≤ i ∧ j < r.2

/-- Ranges at two positions of a list of pairwise disjoint ranges are disjoint. -/
theorem disjoint_of_ne {ranges : List (ℕ × ℕ)} (h : ranges.Pairwise RangesDisjoint) {p q : ℕ}
    (hp : p < ranges.length) (hq : q < ranges.length) (hne : p ≠ q) :
    RangesDisjoint ranges[p] ranges[q] := by
  rcases Nat.lt_or_gt_of_ne hne with hlt | hlt
  · exact List.pairwise_iff_getElem.mp h p q hp hq hlt
  · exact (List.pairwise_iff_getElem.mp h q p hq hp hlt).symm

/-- A range of the list is the one at `idx` or one disjoint from it that erasing `idx` keeps. -/
theorem eq_or_mem_eraseIdx {ranges : List (ℕ × ℕ)} (h : ranges.Pairwise RangesDisjoint)
    {idx : ℕ} (hidx : idx < ranges.length) {r : ℕ × ℕ} (hr : r ∈ ranges) :
    r = ranges[idx] ∨ r ∈ ranges.eraseIdx idx ∧ RangesDisjoint r ranges[idx] := by
  obtain ⟨p, hp, rfl⟩ := List.getElem_of_mem hr
  by_cases hpi : p = idx
  · exact .inl (by subst hpi; rfl)
  · exact .inr ⟨List.mem_eraseIdx_iff_getElem.mpr ⟨p, hp, hpi, rfl⟩, disjoint_of_ne h hp hidx hpi⟩

/-! ## 2. `sort` -/

section Sorting

variable (comp : α → α → Prop) [DecidableRel comp]

/-- `std::sort(a + s, a + e, comp)`: `[s, e)` rearranged in an order sorted under `comp`. -/
def StdSort (a : List α) (s e : ℕ) (a' : List α) : Prop :=
  ∃ mid, SegmentPerm a s e mid a' ∧ mid.Pairwise fun x y => ¬comp y x

/-- `std::partition(a + s, a + e, pred)` returning `a + m`: `[s, e)` rearranged into the
elements that satisfy `pred`, then those that do not, the first of these at `m`. -/
def StdPartition (pred : α → Prop) (a : List α) (s e : ℕ) (a' : List α) (m : ℕ) : Prop :=
  ∃ lo hi, SegmentPerm a s e (lo ++ hi) a' ∧ (∀ x ∈ lo, pred x) ∧ (∀ x ∈ hi, ¬pred x) ∧
    m = s + lo.length

/-- `std::find_if(a + m, a + e, p)`. -/
def findIf (p : α → Prop) [DecidablePred p] (a : List α) (m e : ℕ) : ℕ :=
  m + (((a.drop m).take (e - m)).takeWhile fun x => !decide (p x)).length

/-- `choose_rand(first, last)`, with `rand` the value `rand()` returns. -/
def choose_rand (first last rand : ℕ) : ℕ :=
  if last - first ≠ 0 then first + rand % (last - first) else first

/-- `sort_helper::neq_to`: not equal in terms of less-than. -/
def neq_to (a b : α) : Prop := comp a b ∨ comp b a

instance : DecidableRel (neq_to comp) := fun _ _ => inferInstanceAs (Decidable (_ ∨ _))

/-- One call of `sort_helper::operator()` on `bounds = (s, e)` of the array `a`: the array it
leaves and the ranges it pushes, in order. `rand` is the value `rand()` returns. -/
inductive SortHelper : List α → ℕ × ℕ → List α → List (ℕ × ℕ) → Prop
  | small {a a' : List α} {s e : ℕ} : e - s ≤ 1024 → StdSort comp a s e a' →
      SortHelper a (s, e) a' []
  | split {a a' : List α} {s e m : ℕ} {pv : α} (rand : ℕ) : 1024 < e - s →
      a[choose_rand s e rand]? = some pv → StdPartition (fun x => comp x pv) a s e a' m →
      SortHelper a (s, e) a'
        ((if s ≠ m then [(s, m)] else []) ++
          if e ≠ findIf (fun x => neq_to comp x pv) a' m e then
            [(findIf (fun x => neq_to comp x pv) a' m e, e)] else [])

/-- The `for_each` over the work list: any pending range runs `sort_helper` next, exactly once,
and the ranges it pushes join the list. -/
inductive SortStep : List α × List (ℕ × ℕ) → List α × List (ℕ × ℕ) → Prop
  | item {a a' : List α} {pending pushed : List (ℕ × ℕ)} (i : ℕ) (hi : i < pending.length) :
      SortHelper comp a (pending.get ⟨i, hi⟩) a' pushed →
      SortStep (a, pending) (a', pending.eraseIdx i ++ pushed)

/-- `ParallelSTL::sort(first, last, comp)` on `a` ends with `a'`: the `for_each` has emptied
its work list. -/
inductive SortEnds (a : List α) : List α → Prop
  | serial {a' : List α} : a.length ≤ 1024 → StdSort comp a 0 a.length a' → SortEnds a a'
  | parallel {a' : List α} : 1024 < a.length →
      Relation.ReflTransGen (SortStep comp) (a, [(0, a.length)]) (a', []) → SortEnds a a'

end Sorting

/-! ## 3. One item -/

section Item

variable {comp : α → α → Prop} [DecidableRel comp] {a a' : List α} {s e m : ℕ}

theorem StdPartition.le {pred : α → Prop} (h : StdPartition pred a s e a' m) (hse : s ≤ e)
    (he : e ≤ a.length) : s ≤ m ∧ m ≤ e := by
  obtain ⟨lo, hi, hseg, -, -, rfl⟩ := h
  have hlen := hseg.length_mid he
  rw [List.length_append] at hlen
  omega

/-- The partition's two sides, by position. -/
theorem StdPartition.below {pred : α → Prop} (h : StdPartition pred a s e a' m)
    (he : e ≤ a.length) {k : ℕ} {x : α} (hk1 : s ≤ k) (hk2 : k < e) (hx : a'[k]? = some x) :
    (k < m → pred x) ∧ (m ≤ k → ¬pred x) := by
  obtain ⟨lo, hi, hseg, hlo, hhi, rfl⟩ := h
  rw [hseg.getElem?_mid hk1 hk2 he] at hx
  refine ⟨fun hlt => hlo x ?_, fun hge => hhi x ?_⟩
  · rw [List.getElem?_append_left (by omega)] at hx
    exact List.mem_of_getElem? hx
  · rw [List.getElem?_append_right (by omega)] at hx
    exact List.mem_of_getElem? hx

theorem le_findIf (p : α → Prop) [DecidablePred p] (a : List α) (m e : ℕ) : m ≤ findIf p a m e :=
  Nat.le_add_right _ _

theorem findIf_le (p : α → Prop) [DecidablePred p] (a : List α) {m e : ℕ} (hme : m ≤ e) :
    findIf p a m e ≤ e := by
  have h := (List.takeWhile_prefix (l := (a.drop m).take (e - m))
    (fun x => !decide (p x))).length_le
  rw [List.length_take] at h
  unfold findIf
  omega

/-- `std::find_if` passes only elements that fail `p`. -/
theorem not_of_lt_findIf {p : α → Prop} [DecidablePred p] {k : ℕ} {x : α} (hk1 : m ≤ k)
    (hk2 : k < findIf p a m e) (hx : a[k]? = some x) : ¬p x := by
  have hpre := List.takeWhile_prefix (l := (a.drop m).take (e - m)) (fun x => !decide (p x))
  have hlt : k - m < (((a.drop m).take (e - m)).takeWhile fun x => !decide (p x)).length := by
    unfold findIf at hk2
    omega
  have hget : ((a.drop m).take (e - m))[k - m]? = some x := by
    rw [List.getElem?_take_of_lt (by have := hpre.length_le; rw [List.length_take] at this; omega),
      List.getElem?_drop, Nat.add_sub_cancel' hk1, hx]
  have hmem : x ∈ ((a.drop m).take (e - m)).takeWhile fun x => !decide (p x) := by
    rw [List.getElem?_eq_getElem (hlt.trans_le hpre.length_le)] at hget
    rw [← Option.some_inj.mp hget, ← hpre.getElem hlt]
    exact List.getElem_mem hlt
  simpa using List.mem_takeWhile_imp hmem

/-- **What one item does**: it permutes its range, pushes disjoint non-empty ranges inside it,
and leaves in order any two positions of its range that no pushed range holds both. -/
theorem SortHelper.spec [IsStrictWeakOrder α comp] {pushed : List (ℕ × ℕ)}
    (h : SortHelper comp a (s, e) a' pushed) (he : e ≤ a.length) :
    (∃ mid, SegmentPerm a s e mid a') ∧ (∀ r ∈ pushed, s ≤ r.1 ∧ r.1 < r.2 ∧ r.2 ≤ e) ∧
      pushed.Pairwise RangesDisjoint ∧
      ∀ i j x y, s ≤ i → i < j → j < e → a'[i]? = some x → a'[j]? = some y →
        ¬SameRange pushed i j → ¬comp y x := by
  cases h with
  | small _ hsort =>
    obtain ⟨mid, hseg, hsorted⟩ := hsort
    refine ⟨⟨mid, hseg⟩, by simp, List.Pairwise.nil, fun i j x y hi hij hj hx hy _ => ?_⟩
    rw [hseg.getElem?_mid hi (by omega) he] at hx
    rw [hseg.getElem?_mid (by omega) hj he] at hy
    exact rel_of_pairwise_of_getElem? hsorted (by omega) hx hy
  | @split _ _ _ m pv rand _ _ hpart =>
    set m' := findIf (fun x => neq_to comp x pv) a' m e
    have hseg : ∃ mid, SegmentPerm a s e mid a' := by
      obtain ⟨lo, hi, hseg, -⟩ := hpart
      exact ⟨_, hseg⟩
    obtain ⟨hsm, hme⟩ := hpart.le (by omega) he
    have hmm' : m ≤ m' := le_findIf _ _ _ _
    have hm'e : m' ≤ e := findIf_le _ _ hme
    refine ⟨hseg, fun r hr => ?_, ?_, fun i j x y hi hij hj hx hy hsame => ?_⟩
    · simp only [List.mem_append] at hr
      rcases hr with hr | hr
      · split_ifs at hr with hne
        · rw [List.mem_singleton.mp hr]
          exact ⟨Nat.le_refl s, by omega, hme⟩
        · exact absurd hr List.not_mem_nil
      · split_ifs at hr with hne
        · rw [List.mem_singleton.mp hr]
          exact ⟨by omega, by omega, Nat.le_refl e⟩
        · exact absurd hr List.not_mem_nil
    · -- the lower part ends where the upper part can start
      rw [List.pairwise_append]
      refine ⟨by split_ifs <;> simp, by split_ifs <;> simp, fun r hr r' hr' => ?_⟩
      split_ifs at hr hr' <;> simp only [List.mem_singleton, List.not_mem_nil] at hr hr'
      rw [hr, hr']
      exact .inl hmm'
    · obtain ⟨hxlo, -⟩ := hpart.below he hi (by omega) hx
      have hyhi := (hpart.below he (by omega) hj hy).2
      intro hyx
      by_cases him : i < m
      · -- `x` is below the pivot and `y` is not: `y` below `x` would put `y` below the pivot
        have hjm : m ≤ j := by
          refine Nat.le_of_not_lt fun hjm => hsame ⟨(s, m), ?_, hi, hjm⟩
          rw [List.mem_append, if_pos (by omega)]
          exact .inl (List.mem_singleton_self _)
        exact hyhi hjm (IsTrans.trans _ _ _ hyx (hxlo him))
      · -- `x` is equivalent to the pivot and `y` is not below it
        have him' : i < m' := by
          refine Nat.lt_of_not_le fun him' => hsame ⟨(m', e), ?_, him', hj⟩
          rw [List.mem_append]
          refine .inr ?_
          rw [if_pos (by omega)]
          exact List.mem_singleton_self _
        have hxeq : ¬neq_to comp x pv :=
          not_of_lt_findIf (p := fun z => neq_to comp z pv) (by omega) him' hx
        simp only [neq_to, not_or] at hxeq
        exact hyhi (by omega) (rel_of_rel_of_incomp hyx hxeq.1 hxeq.2)

end Item

/-! ## 4. The work list -/

section WorkList

variable {comp : α → α → Prop} [DecidableRel comp]

/-- The invariant of the work list over the input `a₀`: the array is a permutation of it, the
pending ranges are non-empty, inside the array and pairwise disjoint, and two positions that no
pending range holds both are in order. -/
structure SortInv (comp : α → α → Prop) (a₀ : List α) (c : List α × List (ℕ × ℕ)) : Prop where
  perm : c.1.Perm a₀
  bounds : ∀ r ∈ c.2, r.1 < r.2 ∧ r.2 ≤ c.1.length
  disjoint : c.2.Pairwise RangesDisjoint
  ordered : ∀ i j x y, i < j → c.1[i]? = some x → c.1[j]? = some y → ¬SameRange c.2 i j →
    ¬comp y x

theorem sortInv_init (comp : α → α → Prop) (a : List α) (hn : 0 < a.length) :
    SortInv comp a (a, [(0, a.length)]) where
  perm := List.Perm.refl a
  bounds := by simp [hn]
  disjoint := List.pairwise_singleton _ _
  ordered _ _ _ _ _ _ hy hsame :=
    absurd ⟨(0, a.length), List.mem_singleton_self _, Nat.zero_le _,
      (List.getElem?_eq_some_iff.mp hy).1⟩ hsame

/-- **One item keeps the invariant.** Two positions that no new pending range holds both are
either both in the item's range, where the item ordered them, or they hold elements that
came from positions no old pending range held both. -/
theorem SortInv.step [IsStrictWeakOrder α comp] {a₀ : List α} {c c' : List α × List (ℕ × ℕ)}
    (hinv : SortInv comp a₀ c) (hs : SortStep comp c c') : SortInv comp a₀ c' := by
  cases hs with
  | @item a a' pending pushed idx hidx hitem =>
  obtain ⟨hperm, hbounds, hdis, hord⟩ := hinv
  dsimp only at hperm hbounds hdis hord ⊢
  rcases hr : pending.get ⟨idx, hidx⟩ with ⟨s, e⟩
  rw [hr] at hitem
  have hr' : pending[idx] = (s, e) := hr
  obtain ⟨hse, he⟩ := hbounds (s, e) (hr ▸ List.get_mem _ _)
  obtain ⟨⟨mid, hseg⟩, hpin, hpdis, hpord⟩ := hitem.spec he
  have hlen := hseg.length_eq hse.le he
  refine ⟨(hseg.perm_whole hse.le).trans hperm, fun r hr => ?_, ?_, ?_⟩
  · rw [hlen]
    rcases List.mem_append.mp hr with hr | hr
    · exact hbounds r (List.mem_of_mem_eraseIdx hr)
    · have := hpin r hr
      omega
  · -- the pushed ranges lie in the item's range, which every other pending range avoids
    refine List.pairwise_append.mpr ⟨hdis.sublist (List.eraseIdx_sublist _ _), hpdis,
      fun r hr q hq => ?_⟩
    obtain ⟨p, hp, hne, rfl⟩ := List.mem_eraseIdx_iff_getElem.mp hr
    have hD := disjoint_of_ne hdis hp hidx hne
    rw [hr'] at hD
    have := hpin q hq
    simp only [RangesDisjoint] at hD ⊢
    omega
  · intro i j x y hij hx hy hsame
    by_cases hin : s ≤ i ∧ j < e
    · exact hpord i j x y hin.1 hij hin.2 hx hy fun ⟨q, hq, hq1, hq2⟩ =>
        hsame ⟨q, List.mem_append_right _ hq, hq1, hq2⟩
    obtain ⟨i', hi', hii⟩ := hseg.exists_origin hse.le he hx
    obtain ⟨j', hj', hjj⟩ := hseg.exists_origin hse.le he hy
    refine hord i' j' x y (by omega) hi' hj' fun ⟨q, hq, hq1, hq2⟩ => ?_
    rcases eq_or_mem_eraseIdx hdis hidx hq with rfl | ⟨hq, hD⟩
    · -- the item's own range holds neither pair
      rw [hr'] at hq1 hq2
      dsimp only at hq1 hq2
      omega
    · rw [hr'] at hD
      simp only [RangesDisjoint] at hD
      by_cases hsame' : i' = i ∧ j' = j
      · exact hsame ⟨q, List.mem_append_left _ hq, hsame'.1 ▸ hq1, hsame'.2 ▸ hq2⟩
      · -- one of the two elements came from the item's range, which `q` avoids
        omega

theorem SortInv.run [IsStrictWeakOrder α comp] {a₀ : List α} {c c' : List α × List (ℕ × ℕ)}
    (hinv : SortInv comp a₀ c) (hrun : Relation.ReflTransGen (SortStep comp) c c') :
    SortInv comp a₀ c' := by
  induction hrun with
  | refl => exact hinv
  | tail _ hs ih => exact ih.step hs

omit [DecidableRel comp] in
/-- With no range pending, the whole array is in order. -/
theorem SortInv.sorted {a₀ a : List α} (hinv : SortInv comp a₀ (a, [])) :
    a.Pairwise fun x y => ¬comp y x :=
  List.pairwise_iff_getElem.mpr fun i j hi hj hij =>
    hinv.ordered i j _ _ hij (List.getElem?_eq_getElem hi) (List.getElem?_eq_getElem hj)
      fun ⟨_, hr, _⟩ => List.not_mem_nil hr

/-- **Whenever `sort` ends, the array is a sorted permutation of its input.** -/
theorem SortEnds.sorted_perm [IsStrictWeakOrder α comp] {a a' : List α}
    (h : SortEnds comp a a') : a'.Perm a ∧ a'.Pairwise fun x y => ¬comp y x := by
  cases h with
  | serial _ hsort =>
    obtain ⟨mid, hseg, hsorted⟩ := hsort
    have hmid : a' = mid := by
      rw [hseg.eq, List.take_zero, List.drop_length, List.nil_append, List.append_nil]
    subst hmid
    exact ⟨hseg.perm_whole (Nat.zero_le _), hsorted⟩
  | parallel hn hrun =>
    have hinv := (sortInv_init comp a (by omega)).run hrun
    exact ⟨hinv.perm, hinv.sorted⟩

/-- What an item pushes: nothing, or, for the pivot `pv` at `choose_rand`, the part below it and
the part after the elements equivalent to it. -/
theorem SortHelper.pushes {a a' : List α} {s e : ℕ} {pushed : List (ℕ × ℕ)}
    (h : SortHelper comp a (s, e) a' pushed) (he : e ≤ a.length) :
    pushed = [] ∨ ∃ rand pv m m', a[choose_rand s e rand]? = some pv ∧ s ≤ m ∧ m ≤ m' ∧ m' ≤ e ∧
      pushed = (if s ≠ m then [(s, m)] else []) ++ (if e ≠ m' then [(m', e)] else []) ∧
      ∀ k x, m ≤ k → k < m' → a'[k]? = some x → ¬comp x pv ∧ ¬comp pv x := by
  cases h with
  | small => exact .inl rfl
  | @split _ _ _ m pv rand hlarge hpv hpart =>
    obtain ⟨hsm, hme⟩ := hpart.le (by omega) he
    refine .inr ⟨rand, pv, m, findIf (fun x => neq_to comp x pv) a' m e, hpv, hsm,
      le_findIf _ _ _ _, findIf_le _ _ hme, rfl, fun k x hk1 hk2 hx => ?_⟩
    have hne := not_of_lt_findIf (p := fun z => neq_to comp z pv) hk1 hk2 hx
    simpa only [neq_to, not_or] using hne

end WorkList

/-! ## 5. The result -/

/-- **`ParallelSTL::sort` sorts.** Under a strict weak ordering, for every array and every value
`rand()` returns, whenever the `for_each` runs each pushed range once and ends, the array is a
permutation of its input sorted under `comp`; and every `sort_helper` call on a range inside the
array pushes ranges inside it, the lower one ending where the upper one may start, with every
element between them equivalent to the pivot `choose_rand` picks. -/
theorem sort_spec (comp : α → α → Prop) [DecidableRel comp] [IsStrictWeakOrder α comp] :
    (∀ a a', SortEnds comp a a' → a'.Perm a ∧ a'.Pairwise fun x y => ¬comp y x) ∧
    ∀ a a' s e pushed, e ≤ a.length → SortHelper comp a (s, e) a' pushed →
      pushed = [] ∨ ∃ rand pv m m', a[choose_rand s e rand]? = some pv ∧ s ≤ m ∧ m ≤ m' ∧
        m' ≤ e ∧
        pushed = (if s ≠ m then [(s, m)] else []) ++ (if e ≠ m' then [(m', e)] else []) ∧
        ∀ k x, m ≤ k → k < m' → a'[k]? = some x → ¬comp x pv ∧ ¬comp pv x :=
  ⟨fun _ _ h => h.sorted_perm, fun _ _ _ _ _ he h => h.pushes he⟩

/-- `1025` equal keys take the parallel path: the one item partitions around its pivot `0`,
nothing is below it, and `find_if` skips the whole range as equivalent to it, so nothing is
pushed and the `for_each` ends after one item. -/
theorem sort_spec_equal_keys :
    IsStrictWeakOrder ℕ (· < ·) ∧
      SortHelper (· < ·) (List.replicate 1025 0) (0, 1025) (List.replicate 1025 0) [] ∧
      SortEnds (· < ·) (List.replicate 1025 0) (List.replicate 1025 0) ∧
      (List.replicate 1025 0).Perm (List.replicate 1025 0) ∧
      (List.replicate 1025 0).Pairwise fun x y => ¬y < x := by
  have hord : IsStrictWeakOrder ℕ (· < ·) :=
    { irrefl := Nat.lt_irrefl, trans := fun _ _ _ => Nat.lt_trans,
      incomp_trans := fun _ _ _ _ _ => by omega }
  set a := List.replicate 1025 0
  have hlen : a.length = 1025 := List.length_replicate
  -- `std::partition` leaves the range as it is, with nothing below the pivot
  have hpart :
      ∀ n, StdPartition (fun x => x < 0) (List.replicate n 0) 0 n (List.replicate n 0) 0 :=
    fun n => ⟨[], List.replicate n 0, ⟨by simp, by simp⟩, by simp, by simp, rfl⟩
  have hskip : ∀ n, findIf (fun x => neq_to (· < ·) x 0) (List.replicate n 0) 0 n = n := by
    intro n
    simp [findIf, neq_to]
  have hitem : SortHelper (· < ·) a (0, 1025) a [] := by
    have hpv : (List.replicate 1025 0)[choose_rand 0 1025 0]? = some 0 :=
      List.getElem?_replicate_of_lt (by decide)
    have : SortHelper (· < ·) a (0, 1025) a _ := SortHelper.split 0 (by decide) hpv (hpart 1025)
    rwa [hskip, if_neg (by decide), if_neg (by decide)] at this
  have hends : SortEnds (· < ·) a a := by
    refine .parallel (by omega) (.single ?_)
    rw [hlen]
    exact SortStep.item 0 (by decide) hitem
  exact ⟨hord, hitem, hends, (sort_spec (· < ·)).1 a a hends⟩

end Galois.ParallelSTL
