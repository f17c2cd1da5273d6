import Mathlib.Order.Basic
import Mathlib.Data.List.Sort
import Mathlib.Data.List.TakeWhile
import Galois.BinarySearch

/-!
# `flat_map` (FlatMap.h)

A `flat_map<K, V, Cmp>` is a vector of pairs that its operations keep sorted by key: each looks
up a key with `std::lower_bound` over the vector and inserts or erases at the position found.
The range constructors are the exception: they copy the range and `std::sort` it, and never
remove an entry whose key is already there.

* `lowerBound` -- `std::lower_bound` as the binary search of `BinarySearch`; on a vector sorted
  by key it counts the entries below the key (`lowerBound_eq`);
* `emplace`, `subscript`, `«at»`, `erase`, `eraseAt`, `find`, `count`, `ofRange` -- the members;
* `Sorted` -- the vector strictly sorted by key, the invariant; `toRef` reads the vector as the
  finite map it stands for;
* `apply_sorted`, `toRef_apply` -- every operation but the range constructor keeps the vector
  strictly sorted and acts on the finite map as `std::map` does, and the lookups read it so;
* `ofRange_duplicate` -- built from a range with two entries of one key, the vector holds both.

`upper_bound` is not modelled: it passes `(key, entry)` to `value_key_compare`, which takes
`(entry, key)`, so it does not compile for a key type that does not convert to the pair.
-/

namespace Galois.FlatMap

open BinarySearch

variable {K V : Type}

/-! ## 1. The model -/

section Model

variable [LT K] [DecidableLT K]

/-- `std::lower_bound(begin, begin + n, k, value_key_comp())`: the binary search for the first
of the first `n` entries whose key is not below `k`. -/
def lowerBound (data : List (K × V)) (n : ℕ) (k : K) : ℕ :=
  lowerBoundLoop (fun i => match data[i]? with
    | some x => !decide (x.1 < k)
    | none => true) n 0 n

/-- `key_eq(k1, k2)`: neither key is below the other. -/
def keyEq (k1 k2 : K) : Bool := !decide (k1 < k2) && !decide (k2 < k1)

/-- `emplace(x)`: `x` is pushed at the back, the vector before it is searched for its key, and
the new entry is moved to the position found when the key there is above it (`retval`), or
popped when an entry of its key is there. The vector, the position, and `retval`. -/
def emplace (data : List (K × V)) (x : K × V) : List (K × V) × ℕ × Bool :=
  let i := lowerBound data data.length x.1
  match data[i]? with
  | none => (data ++ [x], i, true)
  | some y => if x.1 < y.1 then (data.insertIdx i x, i, true) else (data, i, false)

/-- `operator[](k)`: the position of `k`'s entry, inserted with the default value when the key
is not there. -/
def subscript [Inhabited V] (data : List (K × V)) (k : K) : List (K × V) × ℕ :=
  let i := lowerBound data data.length k
  match data[i]? with
  | some y => if k < y.1 then (data.insertIdx i (k, default), i) else (data, i)
  | none => (data.insertIdx i (k, default), i)

/-- `at(k)`: the value of `k`'s entry, or `none` for the `std::out_of_range` it throws. -/
def «at» (data : List (K × V)) (k : K) : Option V :=
  let i := lowerBound data data.length k
  match data[i]? with
  | some y => if k < y.1 then none else some y.2
  | none => none

/-- `find(k)`: the position of `k`'s entry, or `none` for `end()`. -/
def find (data : List (K × V)) (k : K) : Option ℕ :=
  let i := lowerBound data data.length k
  match data[i]? with
  | some y => if keyEq y.1 k then some i else none
  | none => none

/-- `count(k)`. -/
def count (data : List (K × V)) (k : K) : ℕ :=
  match find data k with
  | some _ => 1
  | none => 0

/-- `erase(k)`: the entry `find(k)` finds is erased; the vector and how many were erased. -/
def erase (data : List (K × V)) (k : K) : List (K × V) × ℕ :=
  match find data k with
  | some i => (data.eraseIdx i, 1)
  | none => (data, 0)

/-- `erase(position)`: `_data.erase(position)`. -/
def eraseAt (data : List (K × V)) (i : ℕ) : List (K × V) :=
  data.eraseIdx i

/-- `resort()`: `std::sort` by `value_comp()`, the key order. The standard leaves the order of
entries of equivalent keys open; a merge sort gives one of the orders it may give. -/
def resort (data : List (K × V)) : List (K × V) :=
  data.mergeSort fun a b => !decide (b.1 < a.1)

/-- `flat_map(first, last)`: the range, copied and sorted. -/
def ofRange (xs : List (K × V)) : List (K × V) :=
  resort xs

/-- The operations on a `flat_map` after its construction. -/
inductive Op (K V : Type) where
  | emplace (x : K × V)
  | subscript (k : K)
  | assign (k : K) (v : V)
  | erase (k : K)
  | eraseAt (i : ℕ)

/-- What an operation leaves of the vector: `assign` is `operator[](k) = v`. -/
def apply [Inhabited V] (data : List (K × V)) : Op K V → List (K × V)
  | .emplace x => (emplace data x).1
  | .subscript k => (subscript data k).1
  | .assign k v =>
    let r := subscript data k
    r.1.set r.2 (k, v)
  | .erase k => (erase data k).1
  | .eraseAt i => eraseAt data i

end Model

/-! ## 2. The vector as a finite map -/

theorem insertIdx_append_length (A B : List (K × V)) (x : K × V) :
    (A ++ B).insertIdx A.length x = A ++ x :: B := by
  induction A with
  | nil => exact List.insertIdx_zero
  | cons a A ih => rw [List.cons_append, List.length_cons, List.insertIdx_succ_cons, ih]; rfl

/-- The entry right after the ones `p` passes is the first of those it does not. -/
theorem getElem?_length_takeWhile (p : K × V → Bool) (l : List (K × V)) :
    l[(l.takeWhile p).length]? = (l.dropWhile p).head? := by
  induction l with
  | nil => rfl
  | cons a l ih =>
    by_cases ha : p a
    · rw [List.takeWhile_cons_of_pos ha, List.dropWhile_cons_of_pos ha, List.length_cons]
      exact ih
    · rw [List.takeWhile_cons_of_neg ha, List.dropWhile_cons_of_neg ha]
      rfl

section Sorted

variable [LinearOrder K]

/-- The vector is strictly sorted by key: no two entries have one key. -/
def Sorted (data : List (K × V)) : Prop := data.Pairwise fun a b => a.1 < b.1

/-- The finite map the vector stands for: the value of each key's first entry. -/
def toRef (data : List (K × V)) (k : K) : Option V :=
  (data.find? fun x => x.1 = k).map Prod.snd

/-- "The key of `x` is below `k`": the entries `lower_bound(k)` passes. -/
def Below (k : K) (x : K × V) : Bool := decide (x.1 < k)

theorem toRef_nil (k : K) : toRef ([] : List (K × V)) k = none := rfl

theorem toRef_cons (x : K × V) (data : List (K × V)) (k : K) :
    toRef (x :: data) k = if x.1 = k then some x.2 else toRef data k := by
  unfold toRef
  by_cases h : x.1 = k <;> simp [h]

/-- Entries whose keys are not `k` do not change `k`'s value. -/
theorem toRef_append_of_forall (A B : List (K × V)) {k : K} (hA : ∀ a ∈ A, a.1 ≠ k) :
    toRef (A ++ B) k = toRef B k := by
  induction A with
  | nil => rfl
  | cons a A ih =>
    rw [List.cons_append, toRef_cons, if_neg (hA a (List.mem_cons_self ..)),
      ih fun b hb => hA b (List.mem_cons_of_mem _ hb)]

theorem toRef_eq_none {data : List (K × V)} {k : K} (h : ∀ x ∈ data, x.1 ≠ k) :
    toRef data k = none := by
  have := toRef_append_of_forall data [] h
  rwa [List.append_nil] at this

/-- On a sorted vector, `lower_bound(k)` stops after the entries below `k`. -/
theorem lowerBound_eq {data : List (K × V)} (h : data.Pairwise fun a b => a.1 ≤ b.1) (k : K) :
    lowerBound data data.length k = (data.takeWhile (Below k)).length := by
  set p : ℕ → Bool := fun i => match data[i]? with
    | some x => !decide (x.1 < k)
    | none => true with hp
  -- the keys do not decrease, so once an entry is not below `k` none after it is
  have hup : UpwardClosed p data.length := by
    intro i j hij hj hpi
    have hi : i < data.length := Nat.lt_of_le_of_lt hij hj
    simp only [hp, List.getElem?_eq_getElem hi, List.getElem?_eq_getElem hj, Bool.not_eq_true',
      decide_eq_false_iff_not, not_lt] at hpi ⊢
    rcases Nat.lt_or_eq_of_le hij with hlt | rfl
    · exact le_trans hpi (List.pairwise_iff_getElem.mp h i j hi hj hlt)
    · exact hpi
  have hr : IsLowerBound p 0 data.length (lowerBound data data.length k) :=
    lowerBoundLoop_spec hup _ _ _ (searchInv_init (Nat.zero_le _)) (Nat.le_refl _)
  have hpre := List.takeWhile_prefix (l := data) (Below k)
  have ht : IsLowerBound p 0 data.length (data.takeWhile (Below k)).length := by
    refine ⟨Nat.zero_le _, hpre.length_le, fun i _ hi => ?_, fun _ => ?_⟩
    · have hbelow : Below k (data.takeWhile (Below k))[i] = true :=
        List.mem_takeWhile_imp (List.getElem_mem hi)
      rw [hpre.getElem hi] at hbelow
      simp only [hp, List.getElem?_eq_getElem (Nat.lt_of_lt_of_le hi hpre.length_le)]
      simpa [Below] using hbelow
    · have hnot := List.head?_dropWhile_not (Below k) data
      simp only [hp, getElem?_length_takeWhile]
      cases hd : (data.dropWhile (Below k)).head? with
      | none => rfl
      | some y =>
        rw [hd] at hnot
        simpa [Below] using hnot
  exact hr.eq_of_le ht (Nat.zero_le _) (Nat.zero_le _)

section Split

variable {data : List (K × V)} {k : K}

theorem toRef_eq_none_iff : toRef data k = none ↔ ∀ x ∈ data, x.1 ≠ k := by
  simp [toRef]

/-- An entry of another key does not change `k`'s value. -/
theorem toRef_append_cons_of_ne (A B : List (K × V)) {x : K × V} (hx : x.1 ≠ k) :
    toRef (A ++ x :: B) k = toRef (A ++ B) k := by
  induction A with
  | nil => rw [List.nil_append, toRef_cons, if_neg hx, List.nil_append]
  | cons a A ih => rw [List.cons_append, List.cons_append, toRef_cons, toRef_cons, ih]

/-- **An entry put after the keys below it sets its key's value.** -/
theorem toRef_append_cons (A B : List (K × V)) {x : K × V} (hA : ∀ a ∈ A, a.1 < x.1) :
    toRef (A ++ x :: B) = Function.update (toRef (A ++ B)) x.1 (some x.2) := by
  funext k
  by_cases hk : k = x.1
  · subst hk
    rw [Function.update_self, toRef_append_of_forall A _ fun a ha => ne_of_lt (hA a ha),
      toRef_cons, if_pos rfl]
  · rw [Function.update_of_ne hk, toRef_append_cons_of_ne A B (Ne.symm hk)]

theorem sorted_append_cons {A B : List (K × V)} {x : K × V} (hA : Sorted A) (hB : Sorted B)
    (hAx : ∀ a ∈ A, a.1 < x.1) (hxB : ∀ b ∈ B, x.1 < b.1) : Sorted (A ++ x :: B) := by
  refine List.pairwise_append.mpr ⟨hA, List.pairwise_cons.mpr ⟨hxB, hB⟩, fun a ha c hc => ?_⟩
  rcases List.mem_cons.mp hc with rfl | hc
  · exact hAx a ha
  · exact lt_trans (hAx a ha) (hxB c hc)

/-- The value of a key is the value of one of its entries. -/
theorem mem_of_toRef {v : V} (hr : toRef data k = some v) : (k, v) ∈ data := by
  obtain ⟨x, hx, rfl⟩ := Option.map_eq_some_iff.mp hr
  have hk : x.1 = k := by simpa using List.find?_some hx
  rw [← hk]
  exact List.mem_of_find?_eq_some hx

/-- An entry whose key is not below `k` is among those from `lower_bound(k)` on. -/
theorem mem_dropWhile_of_le {x : K × V} (hx : x ∈ data) (hk : k ≤ x.1) :
    x ∈ data.dropWhile (Below k) := by
  rw [← List.takeWhile_append_dropWhile (p := Below k) (l := data)] at hx
  rcases List.mem_append.mp hx with hx | hx
  · have := List.mem_takeWhile_imp hx
    simp only [Below, decide_eq_true_eq] at this
    exact absurd hk (not_le_of_gt this)
  · exact hx

variable (h : Sorted data)
include h

/-- The entries `lower_bound(k)` passes have keys below `k`, the others keys from `k` on. -/
theorem le_of_mem_dropWhile : ∀ b ∈ data.dropWhile (Below k), k ≤ b.1 := by
  have hsorted : Sorted (data.dropWhile (Below k)) := h.sublist (List.dropWhile_suffix _).sublist
  have hhead := List.head?_dropWhile_not (Below k) data
  generalize data.dropWhile (Below k) = B at hsorted hhead
  cases B with
  | nil => exact fun b hb => absurd hb (List.not_mem_nil)
  | cons b0 B =>
    have hb0 : k ≤ b0.1 := by simpa [Below] using hhead
    intro b hb
    rcases List.mem_cons.mp hb with rfl | hb
    · exact hb0
    · exact le_trans hb0 (le_of_lt ((List.pairwise_cons.mp hsorted).1 b hb))

theorem lowerBound_sorted (k : K) :
    lowerBound data data.length k = (data.takeWhile (Below k)).length :=
  lowerBound_eq (h.imp le_of_lt) k

/-- On a sorted vector, `k`'s value is the one of the first entry not below `k`, if that entry
has key `k`. -/
theorem toRef_eq_head :
    toRef data k = match (data.dropWhile (Below k)).head? with
      | some y => if y.1 = k then some y.2 else none
      | none => none := by
  have hle := le_of_mem_dropWhile (k := k) h
  have hsorted : Sorted (data.dropWhile (Below k)) := h.sublist (List.dropWhile_suffix _).sublist
  conv_lhs => rw [← List.takeWhile_append_dropWhile (p := Below k) (l := data)]
  rw [toRef_append_of_forall _ _ fun a ha => ne_of_lt (by
    simpa [Below] using List.mem_takeWhile_imp ha)]
  generalize data.dropWhile (Below k) = B at hle hsorted
  cases B with
  | nil => rfl
  | cons b0 B =>
    rw [toRef_cons, List.head?_cons]
    dsimp only
    by_cases hb0 : b0.1 = k
    · rw [if_pos hb0, if_pos hb0]
    · rw [if_neg hb0, if_neg hb0]
      refine (toRef_eq_none_iff).mpr fun b hb => ne_of_gt ?_
      exact lt_of_le_of_lt (hle b0 (List.mem_cons_self ..))
        ((List.pairwise_cons.mp hsorted).1 b hb)

/-- The entry after the ones below `k`: it has key `k` and gives `k`'s value, or `k` has no
value and the entry, if any, has a key above `k`. -/
theorem head_cases (k : K) :
    (∃ y, (data.dropWhile (Below k)).head? = some y ∧ y.1 = k ∧ toRef data k = some y.2) ∨
      (toRef data k = none ∧ ∀ y, (data.dropWhile (Below k)).head? = some y → k < y.1) := by
  have hle := le_of_mem_dropWhile (k := k) h
  rw [toRef_eq_head h]
  cases hB : (data.dropWhile (Below k)).head? with
  | none => exact .inr ⟨rfl, fun y hy => by cases hy⟩
  | some y =>
    have hyk : k ≤ y.1 := hle y (List.mem_of_mem_head? hB)
    dsimp only
    by_cases hy : y.1 = k
    · exact .inl ⟨y, rfl, hy, by rw [if_pos hy]⟩
    · refine .inr ⟨by rw [if_neg hy], fun y' hy' => ?_⟩
      cases hy'
      exact lt_of_le_of_ne hyk (Ne.symm hy)

/-- `lower_bound(k)` skips exactly the entries below `k`. -/
theorem drop_lowerBound :
    data.drop (lowerBound data data.length k) = data.dropWhile (Below k) := by
  have hsplit := List.takeWhile_append_dropWhile (p := Below k) (l := data)
  rw [lowerBound_sorted h]
  calc data.drop (data.takeWhile (Below k)).length
      = (data.takeWhile (Below k) ++ data.dropWhile (Below k)).drop
          (data.takeWhile (Below k)).length := by rw [hsplit]
    _ = data.dropWhile (Below k) := List.drop_left

/-- On a sorted vector an entry gives its key's value. -/
theorem toRef_of_mem {v : V} (hm : (k, v) ∈ data) : toRef data k = some v := by
  induction data with
  | nil => cases hm
  | cons x data ih =>
    obtain ⟨hx, hs⟩ := List.pairwise_cons.mp h
    rw [toRef_cons]
    rcases List.mem_cons.mp hm with rfl | hm
    · rw [if_pos rfl]
    · rw [if_neg (ne_of_lt (hx _ hm))]
      exact ih hs hm

end Split

/-! ## 3. The members on a sorted vector -/

/-- `x` put after the entries below its key. -/
def insertSorted (data : List (K × V)) (x : K × V) : List (K × V) :=
  data.takeWhile (Below x.1) ++ x :: data.dropWhile (Below x.1)

section Members

variable {data : List (K × V)} (h : Sorted data)
include h

theorem sorted_insertSorted {x : K × V} (hx : toRef data x.1 = none) :
    Sorted (insertSorted data x) := by
  have hne := toRef_eq_none_iff.mp hx
  refine sorted_append_cons (h.sublist (List.takeWhile_prefix _).sublist)
    (h.sublist (List.dropWhile_suffix _).sublist)
    (fun a ha => by simpa [Below] using List.mem_takeWhile_imp ha) fun b hb => ?_
  exact lt_of_le_of_ne (le_of_mem_dropWhile h b hb)
    (Ne.symm (hne b ((List.dropWhile_suffix _).subset hb)))

omit h in
theorem toRef_insertSorted {x : K × V} :
    toRef (insertSorted data x) = Function.update (toRef data) x.1 (some x.2) := by
  rw [insertSorted, toRef_append_cons _ _ fun a ha => by
    simpa [Below] using List.mem_takeWhile_imp ha, List.takeWhile_append_dropWhile]

omit h in
theorem insertIdx_lowerBound (x : K × V) :
    data.insertIdx (data.takeWhile (Below x.1)).length x = insertSorted data x := by
  have hsplit := List.takeWhile_append_dropWhile (p := Below x.1) (l := data)
  unfold insertSorted
  generalize data.takeWhile (Below x.1) = A at hsplit ⊢
  generalize data.dropWhile (Below x.1) = B at hsplit ⊢
  subst hsplit
  exact insertIdx_append_length A B x

/-- **`emplace` on a sorted vector**: the vector stays when the key has a value, and otherwise
gets the entry after the keys below it; `retval` says which. -/
theorem emplace_spec (x : K × V) :
    emplace data x = if (toRef data x.1).isSome then
      (data, (data.takeWhile (Below x.1)).length, false)
    else (insertSorted data x, (data.takeWhile (Below x.1)).length, true) := by
  unfold emplace
  dsimp only
  rw [lowerBound_sorted h, getElem?_length_takeWhile]
  rcases head_cases h x.1 with ⟨y, hy, hyx, hr⟩ | ⟨hr, hgt⟩
  · rw [hy, hr]
    dsimp only
    rw [if_neg (by rw [hyx]; exact lt_irrefl _)]
    rfl
  · rw [hr]
    cases hB : (data.dropWhile (Below x.1)).head? with
    | none =>
      have hnil := List.head?_eq_none_iff.mp hB
      have hsplit := List.takeWhile_append_dropWhile (p := Below x.1) (l := data)
      rw [hnil, List.append_nil] at hsplit
      dsimp only
      rw [insertSorted, hnil, hsplit]
      rfl
    | some y =>
      dsimp only
      rw [if_pos (hgt y hB), insertIdx_lowerBound]
      rfl

/-- `operator[]` on a sorted vector, likewise with the default value. -/
theorem subscript_spec [Inhabited V] (k : K) :
    subscript data k = if (toRef data k).isSome then (data, (data.takeWhile (Below k)).length)
    else (insertSorted data (k, default), (data.takeWhile (Below k)).length) := by
  unfold subscript
  dsimp only
  rw [lowerBound_sorted h, getElem?_length_takeWhile]
  rcases head_cases h k with ⟨y, hy, hyk, hr⟩ | ⟨hr, hgt⟩
  · rw [hy, hr]
    dsimp only
    rw [if_neg (by rw [hyk]; exact lt_irrefl k)]
    rfl
  · rw [hr]
    cases hB : (data.dropWhile (Below k)).head? with
    | none =>
      dsimp only
      rw [insertIdx_lowerBound (k, default)]
      rfl
    | some y =>
      dsimp only
      rw [if_pos (hgt y hB), insertIdx_lowerBound (k, default)]
      rfl

/-- `operator[]` finds or puts `k`'s entry at the position it returns. -/
theorem getElem?_subscript [Inhabited V] (k : K) :
    ∃ v, (subscript data k).1[(subscript data k).2]? = some (k, v) := by
  rw [subscript_spec h]
  rcases head_cases h k with ⟨y, hy, hyk, hr⟩ | ⟨hr, -⟩
  · rw [hr]
    refine ⟨y.2, ?_⟩
    show data[(data.takeWhile (Below k)).length]? = some (k, y.2)
    rw [getElem?_length_takeWhile, hy, ← hyk]
  · rw [hr]
    exact ⟨default, by simp [insertSorted]⟩

/-- **`at` reads the finite map.** -/
theorem at_eq_toRef (k : K) : «at» data k = toRef data k := by
  unfold «at»
  dsimp only
  rw [lowerBound_sorted h, getElem?_length_takeWhile]
  rcases head_cases h k with ⟨y, hy, hyk, hr⟩ | ⟨hr, hgt⟩
  · rw [hy, hr]
    dsimp only
    rw [if_neg (by rw [hyk]; exact lt_irrefl k)]
  · rw [hr]
    cases hB : (data.dropWhile (Below k)).head? with
    | none => rfl
    | some y =>
      dsimp only
      rw [if_pos (hgt y hB)]

omit h in
theorem keyEq_iff (a b : K) : keyEq a b = true ↔ a = b := by
  simp only [keyEq, Bool.and_eq_true, Bool.not_eq_true', decide_eq_false_iff_not, not_lt]
  exact ⟨fun hab => le_antisymm hab.2 hab.1, fun hab => ⟨hab.ge, hab.le⟩⟩

/-- `find` finds `k`'s entry exactly when `k` has a value, after the entries below it. -/
theorem find_spec (k : K) :
    find data k = if (toRef data k).isSome then some (data.takeWhile (Below k)).length
    else none := by
  unfold find
  dsimp only
  rw [lowerBound_sorted h, getElem?_length_takeWhile]
  rcases head_cases h k with ⟨y, hy, hyk, hr⟩ | ⟨hr, hgt⟩
  · rw [hy, hr]
    dsimp only
    rw [if_pos ((keyEq_iff _ _).mpr hyk)]
    rfl
  · rw [hr]
    cases hB : (data.dropWhile (Below k)).head? with
    | none => rfl
    | some y =>
      dsimp only
      rw [if_neg (by rw [keyEq_iff]; exact ne_of_gt (hgt y hB))]
      rfl

/-- **`count` reads the finite map.** -/
theorem count_eq (k : K) : count data k = if (toRef data k).isSome then 1 else 0 := by
  unfold count
  rw [find_spec h]
  split_ifs <;> rfl

/-- `erase(k)` erases `k`'s entry, after the entries below it, when `k` has a value. -/
theorem erase_spec (k : K) :
    erase data k = if (toRef data k).isSome then
      (data.eraseIdx (data.takeWhile (Below k)).length, 1) else (data, 0) := by
  unfold erase
  rw [find_spec h]
  split_ifs <;> rfl

/-- An entry of a sorted vector sits between the keys below its own and the keys above. -/
theorem split_at {i : ℕ} {y : K × V} (hi : data[i]? = some y) :
    data = data.take i ++ y :: data.drop (i + 1) ∧ Sorted (data.take i) ∧
      Sorted (data.drop (i + 1)) ∧ (∀ a ∈ data.take i, a.1 < y.1) ∧
      ∀ b ∈ data.drop (i + 1), y.1 < b.1 := by
  obtain ⟨hlt, rfl⟩ := List.getElem?_eq_some_iff.mp hi
  have hsplit : data = data.take i ++ data[i] :: data.drop (i + 1) := by
    rw [← List.drop_eq_getElem_cons hlt, List.take_append_drop]
  have hs : Sorted (data.take i ++ data[i] :: data.drop (i + 1)) := hsplit ▸ h
  obtain ⟨hA, hyB, hAB⟩ := List.pairwise_append.mp hs
  obtain ⟨hyB, hB⟩ := List.pairwise_cons.mp hyB
  exact ⟨hsplit, hA, hB, fun a ha => hAB a ha _ (List.mem_cons_self ..), hyB⟩

/-- **Erasing an entry erases its key's value.** -/
theorem toRef_eraseIdx {i : ℕ} {y : K × V} (hi : data[i]? = some y) :
    toRef (data.eraseIdx i) = Function.update (toRef data) y.1 none := by
  obtain ⟨hsplit, -, -, hA, hB⟩ := split_at h hi
  rw [List.eraseIdx_eq_take_drop_succ]
  funext k
  by_cases hk : k = y.1
  · subst hk
    rw [Function.update_self]
    refine toRef_eq_none_iff.mpr fun x hx => ?_
    rcases List.mem_append.mp hx with hx | hx
    · exact ne_of_lt (hA x hx)
    · exact ne_of_gt (hB x hx)
  · rw [Function.update_of_ne hk, ← toRef_append_cons_of_ne _ _ (Ne.symm hk), ← hsplit]

theorem sorted_eraseIdx (i : ℕ) : Sorted (data.eraseIdx i) :=
  h.sublist (List.eraseIdx_sublist _ _)

/-- **Writing a new value into an entry sets its key's value.** -/
theorem toRef_set {i : ℕ} {y : K × V} (hi : data[i]? = some y) (v : V) :
    toRef (data.set i (y.1, v)) = Function.update (toRef data) y.1 (some v) ∧
      Sorted (data.set i (y.1, v)) := by
  obtain ⟨hsplit, hsA, hsB, hA, hB⟩ := split_at h hi
  have hlt : i < data.length := (List.getElem?_eq_some_iff.mp hi).1
  have hset : data.set i (y.1, v) = data.take i ++ (y.1, v) :: data.drop (i + 1) :=
    List.set_eq_take_append_cons_drop.trans (if_pos hlt)
  have hdata : toRef data = Function.update (toRef (data.take i ++ data.drop (i + 1))) y.1
      (some y.2) := by
    conv_lhs => rw [hsplit]
    exact toRef_append_cons _ _ hA
  rw [hset]
  exact ⟨by rw [toRef_append_cons (x := (y.1, v)) _ _ hA, hdata, Function.update_idem],
    sorted_append_cons hsA hsB hA hB⟩

end Members

/-! ## 4. Runs of operations -/

/-- What each operation does to a `std::map` that holds the same finite map; `eraseAt i` erases
the key of the vector's entry `i`, as the iterator points at it. -/
def refApply [Inhabited V] (data : List (K × V)) (m : K → Option V) : Op K V → K → Option V
  | .emplace x => if (m x.1).isSome then m else Function.update m x.1 (some x.2)
  | .subscript k => if (m k).isSome then m else Function.update m k (some default)
  | .assign k v => Function.update m k (some v)
  | .erase k => Function.update m k none
  | .eraseAt i => match data[i]? with
    | some y => Function.update m y.1 none
    | none => m

/-- **Every operation keeps the vector strictly sorted and does to its finite map what it does
to a `std::map`.** -/
theorem apply_spec [Inhabited V] {data : List (K × V)} (h : Sorted data) (op : Op K V) :
    Sorted (apply data op) ∧ toRef (apply data op) = refApply data (toRef data) op := by
  cases op with
  | emplace x =>
    rw [apply, refApply, emplace_spec h]
    split_ifs with hx
    · exact ⟨h, rfl⟩
    · have hnone := Option.not_isSome_iff_eq_none.mp hx
      exact ⟨sorted_insertSorted h hnone, toRef_insertSorted⟩
  | subscript k =>
    rw [apply, refApply, subscript_spec h]
    split_ifs with hk
    · exact ⟨h, rfl⟩
    · exact ⟨sorted_insertSorted h (Option.not_isSome_iff_eq_none.mp hk), toRef_insertSorted⟩
  | assign k v =>
    rw [apply, refApply, subscript_spec h]
    rcases head_cases h k with ⟨y, hy, rfl, hr⟩ | ⟨hr, -⟩
    · rw [hr, Option.isSome_some, if_pos rfl]
      have hi : data[(data.takeWhile (Below y.1)).length]? = some y := by
        rw [getElem?_length_takeWhile, hy]
      obtain ⟨href, hsorted⟩ := toRef_set h hi v
      exact ⟨hsorted, href⟩
    · rw [hr, Option.isSome_none, if_neg Bool.false_ne_true]
      have hset : (insertSorted data (k, default)).set (data.takeWhile (Below k)).length (k, v) =
          insertSorted data (k, v) := by
        rw [insertSorted, List.set_append_right _ _ (Nat.le_refl _), Nat.sub_self,
          List.set_cons_zero]
        rfl
      rw [hset]
      exact ⟨sorted_insertSorted h hr, toRef_insertSorted⟩
  | erase k =>
    rw [apply, refApply, erase_spec h]
    rcases head_cases h k with ⟨y, hy, rfl, hr⟩ | ⟨hr, -⟩
    · rw [hr, Option.isSome_some, if_pos rfl]
      have hi : data[(data.takeWhile (Below y.1)).length]? = some y := by
        rw [getElem?_length_takeWhile, hy]
      exact ⟨sorted_eraseIdx h _, toRef_eraseIdx h hi⟩
    · rw [hr, Option.isSome_none, if_neg Bool.false_ne_true]
      exact ⟨h, by rw [← hr, Function.update_eq_self]⟩
  | eraseAt i =>
    rw [apply, refApply, eraseAt]
    cases hi : data[i]? with
    | some y => exact ⟨sorted_eraseIdx h i, toRef_eraseIdx h hi⟩
    | none =>
      rw [List.eraseIdx_of_length_le (List.getElem?_eq_none_iff.mp hi)]
      exact ⟨h, rfl⟩

/-- The operations run on the vector and on the finite map side by side. -/
def runBoth [Inhabited V] : List (K × V) × (K → Option V) → List (Op K V) →
    List (K × V) × (K → Option V)
  | s, [] => s
  | s, op :: ops => runBoth (apply s.1 op, refApply s.1 s.2 op) ops

/-- The run invariant: by induction on the operations, from `apply_spec`. -/
theorem runBoth_spec [Inhabited V] (ops : List (Op K V)) :
    ∀ {data : List (K × V)}, Sorted data →
      Sorted (runBoth (data, toRef data) ops).1 ∧
        toRef (runBoth (data, toRef data) ops).1 = (runBoth (data, toRef data) ops).2 := by
  induction ops with
  | nil => exact fun h => ⟨h, rfl⟩
  | cons op ops ih =>
    intro data h
    obtain ⟨hsorted, href⟩ := apply_spec h op
    rw [runBoth, ← href]
    exact ih hsorted

/-- **From an empty `flat_map`, every sequence of `emplace`, `operator[]`, assignments through
it, `erase(key)` and `erase(position)` keeps the vector strictly sorted and builds the finite
map `std::map` builds**; `at`, `count` and `emplace`'s `retval` read it as `std::map` does. -/
theorem flatMap_refines [Inhabited V] (ops : List (Op K V)) :
    Sorted (runBoth ([], fun _ => none) ops).1 ∧
      toRef (runBoth ([], fun _ => none) ops).1 = (runBoth ([], fun _ => none) ops).2 ∧
      ∀ k x, «at» (runBoth ([], fun _ => none) ops).1 k = (runBoth ([], fun _ => none) ops).2 k ∧
        count (runBoth ([], fun _ => none) ops).1 k =
          (if ((runBoth ([], fun _ => none) ops).2 k).isSome then 1 else 0) ∧
        (emplace (runBoth ([], fun _ => none) ops).1 x).2.2 =
          ((runBoth ([], fun _ => none) ops).2 x.1).isNone := by
  have hempty : toRef ([] : List (K × V)) = fun _ => none := rfl
  obtain ⟨hsorted, href⟩ := hempty ▸ runBoth_spec ops (List.Pairwise.nil)
  refine ⟨hsorted, href, fun k x => ⟨?_, ?_, ?_⟩⟩
  · rw [at_eq_toRef hsorted, href]
  · rw [count_eq hsorted, href]
  · rw [emplace_spec hsorted, ← href]
    cases toRef (runBoth ([], fun _ => none) ops).1 x.1 <;> rfl

end Sorted

/-! ## 5. The range constructor -/

/-- **Built from a range with two entries of key `1`, the vector holds both**: it is not
strictly sorted, and after `erase(1)` the key is still counted, where a `std::map` built from
the same range holds `1 ↦ 10` once and counts `0` after the erase. -/
theorem ofRange_duplicate :
    ofRange [((1 : ℕ), (10 : ℕ)), (1, 20)] = [(1, 10), (1, 20)] ∧
      ¬ Sorted (ofRange [((1 : ℕ), (10 : ℕ)), (1, 20)]) ∧
      count (erase (ofRange [((1 : ℕ), (10 : ℕ)), (1, 20)]) 1).1 1 = 1 := by
  have hsort : ofRange [((1 : ℕ), (10 : ℕ)), (1, 20)] = [(1, 10), (1, 20)] := by
    simp [ofRange, resort, List.mergeSort]
  refine ⟨hsort, ?_, ?_⟩
  · rw [hsort]
    simp [Sorted]
  · rw [hsort]
    decide

end Galois.FlatMap
