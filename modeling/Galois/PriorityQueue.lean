import Galois.WeakOrder
import Mathlib.Data.List.Perm.Basic
import Mathlib.Data.Nat.Notation
import Mathlib.Data.Int.Notation

/-!
# PriorityQueue.h: `MinHeap`

`MinHeap<T, Cmp>` keeps its elements in a container ordered as a `std` heap under
`RevCmp(left, right) = cmp(right, left)`, so that the front is minimal under `cmp`. The heap
algorithms of the standard library are given by their specifications (`MakeHeap`, `PushHeap`,
`PopHeap`), for every arrangement they may produce; an algorithm called on a range that is not
a heap, against its precondition, may leave anything.

* `HeapStep`, `HeapRun` -- `push`, `pop` and `remove` on a container, and a sequence of them;
* `revCmp_top_min` -- the front of a heap under `RevCmp` is minimal under `cmp`, for a strict
  weak ordering `cmp`;
* **`heapStep_spec`** -- from a heap every operation leaves a heap: `pop` returns a minimal
  element and takes one copy of it out, `push` adds its element, and `remove(x)` takes out one
  copy of `x` when `x` is on top, every copy otherwise; from the empty heap every container a run
  reaches is a heap;
* **`fromRange_top_not_min`** -- the range constructor calls `std::make_heap` without `revCmp`,
  so it orders the container by `operator<` with the largest element in front: built from
  `[1, 2]` with `Cmp = std::less<int>`, `top()` is `2`.
-/

namespace Galois

open WeakOrder

variable {T : Type*}

/-! ## 1. The heap algorithms -/

section HeapAlgorithms

variable (comp : T → T → Prop)

/-- The `std` heap property (`std::is_heap`): no element is below its parent under `comp`. -/
def IsHeap (a : List T) : Prop :=
  ∀ k, 0 < k → ∀ x ∈ a[(k - 1) / 2]?, ∀ y ∈ a[k]?, ¬comp x y

/-- `std::make_heap(first, last, comp)`: a rearrangement of the range that is a heap. -/
def MakeHeap (a a' : List T) : Prop := a'.Perm a ∧ IsHeap comp a'

/-- `std::push_heap(first, last, comp)`: with `[first, last - 1)` a heap, a rearrangement of
the range that is a heap. -/
def PushHeap (a a' : List T) : Prop := IsHeap comp a.dropLast → a'.Perm a ∧ IsHeap comp a'

/-- `std::pop_heap(first, last, comp)`: with `[first, last)` a non-empty heap, a rearrangement
with the front moved to `last - 1` and `[first, last - 1)` a heap. -/
def PopHeap (a a' : List T) : Prop :=
  IsHeap comp a → a ≠ [] → a'.Perm a ∧ a'.getLast? = a.head? ∧ IsHeap comp a'.dropLast

theorem isHeap_nil : IsHeap comp ([] : List T) :=
  fun _ _ _ hx => by simp at hx

end HeapAlgorithms

/-! ## 2. `MinHeap` -/

section MinHeap

variable (cmp : T → T → Prop) [DecidableEq T]

/-- `MinHeap::RevCmp`: `revCmp(left, right) = cmp(right, left)`. -/
def revCmp (left right : T) : Prop := cmp right left

/-- The operations on a `MinHeap`. -/
inductive HeapOp (T : Type*)
  | push (x : T)
  | pop
  | remove (x : T)

/-- What an operation returns: nothing (`push`), the popped value, or whether `remove` removed
anything. -/
inductive HeapOut (T : Type*)
  | none
  | value (x : T)
  | removed (b : Bool)

/-- One operation on the container `c`, leaving `c'` and returning `o`. -/
inductive HeapStep : List T → HeapOp T → List T → HeapOut T → Prop
  /-- `push(x)`: `container.push_back(x)`, then `std::push_heap` with `revCmp`. -/
  | push {c c' : List T} {x : T} : PushHeap (revCmp cmp) (c ++ [x]) c' →
      HeapStep c (.push x) c' .none
  /-- `pop()` on a non-empty heap: `std::pop_heap` with `revCmp`, then the back is taken off
  and returned. -/
  | pop {c c₁ : List T} {x : T} : c ≠ [] → PopHeap (revCmp cmp) c c₁ → c₁.getLast? = some x →
      HeapStep c .pop c₁.dropLast (.value x)
  /-- `remove(x)` with `x == top()`: `pop()`. -/
  | removeTop {c c₁ : List T} {x : T} : c.head? = some x → PopHeap (revCmp cmp) c c₁ →
      HeapStep c (.remove x) c₁.dropLast (.removed true)
  /-- `remove(x)` on a non-empty heap otherwise: `std::remove` and `erase` of every element equal
  to `x`, then `std::make_heap` with `revCmp`. On an empty heap `x == top()` reads `front()` of an
  empty vector, so `remove` has no step there. -/
  | removeOther {c c' : List T} {x : T} : c ≠ [] → c.head? ≠ some x →
      MakeHeap (revCmp cmp) (c.filter fun y => y ≠ x) c' →
      HeapStep c (.remove x) c'
        (.removed (decide ((c.filter fun y => y ≠ x).length ≠ c.length)))

/-- A sequence of operations from the container `c`, leaving `c'`, with what each returned. -/
inductive HeapRun : List T → List (HeapOp T) → List T → List (HeapOut T) → Prop
  | nil {c : List T} : HeapRun c [] c []
  | cons {c c₁ c' : List T} {op : HeapOp T} {ops : List (HeapOp T)} {o : HeapOut T}
      {outs : List (HeapOut T)} :
      HeapStep cmp c op c₁ o → HeapRun c₁ ops c' outs → HeapRun c (op :: ops) c' (o :: outs)

/-- `MinHeap(Iter b, Iter e, const Cmp&)`: `container(b, e)`, then
`std::make_heap(container.begin(), container.end())`, which orders by `operator<`. -/
def FromRange [LT T] (range c : List T) : Prop := MakeHeap (fun x y : T => x < y) range c

end MinHeap

/-! ## 3. The heap under `RevCmp` -/

section Proofs

variable {cmp : T → T → Prop} [IsStrictWeakOrder T cmp]

/-- **The front of a heap under `RevCmp` is minimal under `cmp`.** -/
theorem revCmp_top_min {l : List T} (hc : IsHeap (revCmp cmp) l) {t : T}
    (ht : l.head? = some t) : ∀ y ∈ l, ¬cmp y t := by
  -- by strong induction on the position of `y`: it is not below its parent, which is not
  -- below the front
  have hpos : ∀ (k : ℕ) y, l[k]? = some y → ¬cmp y t := by
    intro k
    induction k using Nat.strongRecOn with
    | ind k ih =>
      intro y hy
      rcases Nat.eq_zero_or_pos k with rfl | hk
      · rw [← List.head?_eq_getElem?, ht] at hy
        cases hy
        exact irrefl_of cmp t
      · have hlen := (List.getElem?_eq_some_iff.mp hy).1
        have hx : l[(k - 1) / 2]? = some l[(k - 1) / 2] := List.getElem?_eq_getElem (by omega)
        have hyx : ¬revCmp cmp l[(k - 1) / 2] y := hc k hk _ hx y hy
        exact not_rel_trans hyx (ih _ (by omega) _ hx)
  intro y hy
  obtain ⟨k, hk⟩ := List.mem_iff_getElem?.mp hy
  exact hpos k y hk

/-- What an operation on the container `c` does to it and returns, against the multiset of
its contents. -/
def OpSpec (cmp : T → T → Prop) [DecidableEq T] (c : List T) : HeapOp T → List T → HeapOut T →
    Prop
  | .push x, c', o => o = .none ∧ c'.Perm (c ++ [x])
  | .pop, c', o => ∃ x, o = .value x ∧ x ∈ c ∧ (∀ y ∈ c, ¬cmp y x) ∧ c'.Perm (c.erase x)
  | .remove x, c', o =>
    if c.head? = some x then o = .removed true ∧ c'.Perm (c.erase x)
    else o = .removed (decide (x ∈ c)) ∧ c'.Perm (c.filter fun y => y ≠ x)

/-- What `std::pop_heap` leaves before the back: the container without one copy of the
front. -/
theorem dropLast_perm_erase [DecidableEq T] {c c₁ : List T} {x : T} (hperm : c₁.Perm c)
    (hlast : c₁.getLast? = some x) : c₁.dropLast.Perm (c.erase x) := by
  obtain ⟨ys, rfl⟩ := List.getLast?_eq_some_iff.mp hlast
  rw [List.dropLast_concat]
  have hcons : c.Perm (x :: ys) := hperm.symm.trans (List.perm_append_singleton x ys)
  have herase := hcons.erase x
  rw [List.erase_cons_head] at herase
  exact herase.symm

theorem removed_iff [DecidableEq T] (c : List T) (x : T) :
    (c.filter fun y => y ≠ x).length ≠ c.length ↔ x ∈ c := by
  have hle : (c.filter fun y => y ≠ x).length ≤ c.length := List.length_filter_le _ _
  have hlt : (c.filter fun y => y ≠ x).length ≠ c.length ↔
      (c.filter fun y => y ≠ x).length < c.length := ⟨Nat.lt_of_le_of_ne hle, Nat.ne_of_lt⟩
  rw [hlt, List.length_filter_lt_length_iff_exists]
  simp

variable [DecidableEq T]

omit [IsStrictWeakOrder T cmp] in
/-- `pop()` on a heap, and `remove(x)` with `x` on top: the value is the front, which is
minimal, and one copy of it leaves. -/
theorem popHeap_spec {c c₁ : List T} (hc : IsHeap (revCmp cmp) c) (hne : c ≠ [])
    (hpop : PopHeap (revCmp cmp) c c₁) {x : T} (hx : c₁.getLast? = some x) :
    c.head? = some x ∧ IsHeap (revCmp cmp) c₁.dropLast ∧ c₁.dropLast.Perm (c.erase x) := by
  obtain ⟨hperm, hlast, hheap⟩ := hpop hc hne
  rw [hx] at hlast
  exact ⟨hlast.symm, hheap, dropLast_perm_erase hperm hx⟩

/-- **What one operation does on a heap.** It leaves a heap, whose front is minimal; `push(x)`
adds `x`; `pop()` returns a minimal element and takes one copy of it out; `remove(x)` takes one
copy out when `x` is on top and every copy otherwise, and says whether `x` was there. -/
theorem HeapStep.spec {c c' : List T} {op : HeapOp T} {o : HeapOut T}
    (hc : IsHeap (revCmp cmp) c) (h : HeapStep cmp c op c' o) :
    IsHeap (revCmp cmp) c' ∧ (∀ t ∈ c'.head?, ∀ y ∈ c', ¬cmp y t) ∧ OpSpec cmp c op c' o := by
  have htop : IsHeap (revCmp cmp) c' → ∀ t ∈ c'.head?, ∀ y ∈ c', ¬cmp y t :=
    fun hc' t ht => revCmp_top_min hc' ht
  cases h with
  | push hpush =>
    obtain ⟨hperm, hheap⟩ := hpush (by rwa [List.dropLast_concat])
    exact ⟨hheap, htop hheap, rfl, hperm⟩
  | pop hne hpop hx =>
    obtain ⟨hhead, hheap, hperm⟩ := popHeap_spec hc hne hpop hx
    exact ⟨hheap, htop hheap, _, rfl, List.mem_of_mem_head? hhead, revCmp_top_min hc hhead, hperm⟩
  | @removeTop c₁ x hhead hpop =>
    have hne : c ≠ [] := fun h => by rw [h] at hhead; cases hhead
    obtain ⟨hperm, hlast, hheap⟩ := hpop hc hne
    rw [hhead] at hlast
    refine ⟨hheap, htop hheap, ?_⟩
    rw [OpSpec, if_pos hhead]
    exact ⟨rfl, dropLast_perm_erase hperm hlast⟩
  | @removeOther _ x _ hhead hmake =>
    obtain ⟨hperm, hheap⟩ := hmake
    refine ⟨hheap, htop hheap, ?_⟩
    rw [OpSpec, if_neg hhead]
    exact ⟨by rw [decide_eq_decide.mpr (removed_iff c x)], hperm⟩

/-- From a heap, every container a run reaches is a heap. -/
theorem HeapRun.heap {c c' : List T} {ops : List (HeapOp T)} {outs : List (HeapOut T)}
    (hc : IsHeap (revCmp cmp) c) (h : HeapRun cmp c ops c' outs) : IsHeap (revCmp cmp) c' := by
  induction h with
  | nil => exact hc
  | cons hstep _ ih => exact ih (hstep.spec hc).1

end Proofs

/-! ## 4. The results -/

/-- **`MinHeap` constructed empty keeps its heap.** Under a strict weak ordering `cmp`, every
operation from a heap behaves as `HeapStep.spec` says, and every container a sequence of
operations reaches from the empty container is a heap. -/
theorem heapStep_spec (cmp : T → T → Prop) [DecidableEq T] [IsStrictWeakOrder T cmp] :
    (∀ c op c' o, IsHeap (revCmp cmp) c → HeapStep cmp c op c' o →
      IsHeap (revCmp cmp) c' ∧ (∀ t ∈ c'.head?, ∀ y ∈ c', ¬cmp y t) ∧ OpSpec cmp c op c' o) ∧
    ∀ ops c outs, HeapRun cmp [] ops c outs → IsHeap (revCmp cmp) c :=
  ⟨fun _ _ _ _ hc h => h.spec hc, fun _ _ _ h => h.heap (isHeap_nil _)⟩

theorem heapStep_spec_nat :
    IsStrictWeakOrder ℕ (· < ·) ∧
      ∀ ops (c : List ℕ) outs, HeapRun (· < ·) [] ops c outs → IsHeap (revCmp (· < ·)) c :=
  have h : IsStrictWeakOrder ℕ (· < ·) :=
    { irrefl := Nat.lt_irrefl, trans := fun _ _ _ => Nat.lt_trans,
      incomp_trans := fun _ _ _ _ _ => by omega }
  ⟨h, (heapStep_spec (· < ·)).2⟩

/-- **The range constructor builds a heap under `operator<`, not under `revCmp`.** For
`MinHeap<int>` built from `[1, 2]`, where `Cmp = std::less<int>`, `std::make_heap` without a
comparator can only leave `[2, 1]`, so `top()` is `2` although `1 < 2` is in the heap. -/
theorem fromRange_top_not_min :
    FromRange [1, 2] [2, 1] ∧
      ∀ c : List ℤ, FromRange [1, 2] c → c.head? = some 2 ∧ (1 : ℤ) ∈ c ∧ (1 : ℤ) < 2 := by
  refine ⟨⟨List.Perm.swap 1 2 [], fun k hk x hx y hy => ?_⟩, fun c hc => ?_⟩
  · -- the only parent in `[2, 1]` is the front
    rcases k with _ | _ | k
    · exact absurd hk (Nat.lt_irrefl 0)
    · simp only [Nat.zero_add, Nat.sub_self, Nat.zero_div, List.getElem?_cons_zero,
        List.getElem?_cons_succ, Option.mem_def, Option.some.injEq] at hx hy
      subst hx hy
      decide
    · simp at hy
  · obtain ⟨hperm, hheap⟩ := hc
    match c, hperm.length_eq with
    | [u, v], _ =>
      have hu : u ∈ [1, 2] := hperm.mem_iff.mp (by simp)
      have hv : v ∈ [1, 2] := hperm.mem_iff.mp (by simp)
      have h1 : (1 : ℤ) ∈ [u, v] := hperm.mem_iff.mpr (by simp)
      have h2 : (2 : ℤ) ∈ [u, v] := hperm.mem_iff.mpr (by simp)
      refine ⟨?_, h1, by decide⟩
      simp only [List.mem_cons, List.not_mem_nil, or_false] at hu hv h1 h2
      -- `[1, 2]` is not a heap under `<`: its front is below its second element
      have hfront : ¬u < v := hheap 1 Nat.one_pos u rfl v rfl
      rw [List.head?_cons]
      congr 1
      omega

end Galois
