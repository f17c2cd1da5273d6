import Mathlib

/-!
# Placing items in the blocks of their keys

A counting sort, the scatter of a graph transpose and a CSR writer place items one at a time:
every item has a key, every key owns a block of slots from its start, and a cursor per key says
where the key's next item goes. `Placed` says what such a run has done after the items `P`:
every cursor is past the items of its key, and the key's slots hold them, in order. `Places` is
what one placement does, and `Placed.run` carries `Placed` over a whole run of placements, as long
as no key takes more items than the room its block has before another's.

The usual layout starts every key's block after the counts of the keys below it: `sumBelow`,
whose blocks do not overlap (`sumBelow_add_ne`) and cover every slot below the total
(`exists_of_lt_sumBelow`). Nothing here names a program.
-/

namespace Galois.Placement

/-! ## Blocks after the counts below them -/

/-- The sum of `c` below `n`. -/
def sumBelow (c : ℕ → ℕ) (n : ℕ) : ℕ := ((List.range n).map c).sum

@[simp] theorem sumBelow_zero (c : ℕ → ℕ) : sumBelow c 0 = 0 := rfl

theorem sumBelow_succ (c : ℕ → ℕ) (n : ℕ) : sumBelow c (n + 1) = sumBelow c n + c n := by
  simp [sumBelow, List.range_succ]

theorem sumBelow_mono (c : ℕ → ℕ) {m n : ℕ} (h : m ≤ n) : sumBelow c m ≤ sumBelow c n := by
  induction n, h using Nat.le_induction with
  | base => exact Nat.le_refl _
  | succ n _ ih =>
    rw [sumBelow_succ]
    omega

/-- A place below the whole sum lies in one of the summands' blocks. -/
theorem exists_of_lt_sumBelow (c : ℕ → ℕ) {k : ℕ} :
    ∀ {n : ℕ}, k < sumBelow c n → ∃ v < n, sumBelow c v ≤ k ∧ k < sumBelow c (v + 1)
  | 0, h => absurd h (Nat.not_lt_zero k)
  | n + 1, h => by
    by_cases hk : k < sumBelow c n
    · obtain ⟨v, hv, hle, hlt⟩ := exists_of_lt_sumBelow c hk
      exact ⟨v, Nat.lt_succ_of_lt hv, hle, hlt⟩
    · exact ⟨n, Nat.lt_succ_self n, Nat.le_of_not_lt hk, h⟩

/-- Slots numbered from the sum of the counts before each key do not overlap. -/
theorem sumBelow_add_ne (c : ℕ → ℕ) {v w i j : ℕ} (hvw : v ≠ w) (hi : i < c v) (hj : j < c w) :
    sumBelow c v + i ≠ sumBelow c w + j := by
  rcases Nat.lt_or_gt_of_ne hvw with h | h
  · have hle := sumBelow_mono c (Nat.succ_le_of_lt h)
    rw [sumBelow_succ] at hle
    omega
  · have hle := sumBelow_mono c (Nat.succ_le_of_lt h)
    rw [sumBelow_succ] at hle
    omega

theorem sumBelow_le_mul (c : ℕ → ℕ) {b : ℕ} :
    ∀ {n : ℕ}, (∀ k, k < n → c k ≤ b) → sumBelow c n ≤ n * b
  | 0, _ => Nat.zero_le _
  | n + 1, h => by
    have ih := sumBelow_le_mul c fun k hk => h k (Nat.lt_succ_of_lt hk)
    rw [sumBelow_succ, Nat.succ_mul]
    exact Nat.add_le_add ih (h n (Nat.lt_succ_self n))

/-- Counting a list by a key below `n` counts all of it. -/
theorem sumBelow_countP {α : Type*} {f : α → ℕ} {n : ℕ} :
    ∀ {l : List α}, (∀ x ∈ l, f x < n) → sumBelow (fun v => l.countP fun x => f x = v) n = l.length
  | [], _ => by simp [sumBelow]
  | x :: l, h => by
    -- the head is counted once, at its key
    have hone : ∀ m, sumBelow (fun v => if f x = v then 1 else 0) m = if f x < m then 1 else 0 := by
      intro m
      induction m with
      | zero => rfl
      | succ m ih =>
        rw [sumBelow_succ, ih]
        split_ifs <;> omega
    have hsplit : sumBelow (fun v => (x :: l).countP fun y => f y = v) n =
        sumBelow (fun v => l.countP fun y => f y = v) n +
          sumBelow (fun v => if f x = v then 1 else 0) n := by
      simp only [sumBelow, List.countP_cons, decide_eq_true_eq, List.sum_map_add]
    rw [hsplit, sumBelow_countP fun y hy => h y (List.mem_cons_of_mem x hy), hone,
      if_pos (h x List.mem_cons_self), List.length_cons]

/-! ## Placements -/

section Placements

variable {α β σ : Type*} (key : α → ℕ)

/-- The items of `P` with key `k`, in order. -/
def bucket (P : List α) (k : ℕ) : List α := P.filter fun x => key x = k

variable {key}

@[simp] theorem bucket_nil (k : ℕ) : bucket key [] k = [] := rfl

theorem bucket_append_singleton (P : List α) (x : α) (k : ℕ) :
    bucket key (P ++ [x]) k = if key x = k then bucket key P k ++ [x] else bucket key P k := by
  by_cases hk : key x = k <;> simp [bucket, List.filter_append, hk]

theorem length_bucket_eq_countP (P : List α) (k : ℕ) :
    (bucket key P k).length = P.countP fun x => key x = k :=
  List.countP_eq_length_filter.symm

theorem mem_of_mem_bucket {P : List α} {k : ℕ} {x : α} (h : x ∈ bucket key P k) : x ∈ P :=
  List.mem_of_mem_filter h

variable (key) (payload : α → β) (start : ℕ → ℕ) (cursor : σ → ℕ → ℕ) (slot : σ → ℕ → β)

/-- The state `s` has placed the items `P`: every key's cursor is past the key's items, and its
slots from `start` on hold their payloads, in order. -/
structure Placed (P : List α) (s : σ) : Prop where
  cursor_eq : ∀ k, cursor s k = start k + (bucket key P k).length
  slots_eq : ∀ k, (List.range' (start k) (bucket key P k).length).map (slot s) =
    (bucket key P k).map payload

/-- One placement: `s'` is `s` with `x`'s payload in the slot its key's cursor points at, and that
cursor moved one slot on. -/
structure Places (s : σ) (x : α) (s' : σ) : Prop where
  cursor_self : cursor s' (key x) = cursor s (key x) + 1
  cursor_other : ∀ k, k ≠ key x → cursor s' k = cursor s k
  slot_self : slot s' (cursor s (key x)) = payload x
  slot_other : ∀ i, i ≠ cursor s (key x) → slot s' i = slot s i

variable {key payload start cursor slot}

theorem placed_nil {s : σ} (h : ∀ k, cursor s k = start k) :
    Placed key payload start cursor slot [] s :=
  ⟨fun k => by simp [h], fun k => by simp⟩

/-- **One placement** keeps the invariant, as long as the slot it fills is no other key's filled
slot. -/
theorem Placed.step {P : List α} {s s' : σ} {x : α} (h : Placed key payload start cursor slot P s)
    (hs : Places key payload cursor slot s x s')
    (hdisj : ∀ k, k ≠ key x → ∀ i ∈ List.range' (start k) (bucket key P k).length,
      i ≠ cursor s (key x)) :
    Placed key payload start cursor slot (P ++ [x]) s' := by
  refine ⟨fun k => ?_, fun k => ?_⟩
  · rw [bucket_append_singleton]
    by_cases hk : key x = k
    · subst hk
      rw [if_pos rfl, hs.cursor_self, h.cursor_eq, List.length_append, List.length_singleton,
        Nat.add_assoc]
    · rw [if_neg hk, hs.cursor_other k (Ne.symm hk), h.cursor_eq]
  · rw [bucket_append_singleton]
    by_cases hk : key x = k
    · -- the new slot follows the key's filled ones, which keep what they hold
      subst hk
      have hcur := h.cursor_eq (key x)
      rw [if_pos rfl, List.length_append, List.length_singleton, List.range'_concat,
        List.map_append, List.map_append, ← h.slots_eq, Nat.one_mul, ← hcur]
      congr 1
      · refine List.map_congr_left fun i hi => hs.slot_other i ?_
        rw [List.mem_range'_1] at hi
        omega
      · rw [List.map_singleton, List.map_singleton, hs.slot_self]
    · rw [if_neg hk, ← h.slots_eq]
      exact List.map_congr_left fun i hi => hs.slot_other i (hdisj k (Ne.symm hk) i hi)

/-- **A run of placements**, in any order of the items, keeps the invariant as long as no key takes
more items than the room `cap` its block has before any other key's. A step may rely on a state
invariant `Inv` that every step keeps, on `Placed` and on that room to place its item. -/
theorem Placed.run {step : σ → α → σ} {cap : ℕ → ℕ} {Inv : σ → Prop}
    (hlayout : ∀ k k', k ≠ k' → ∀ i j, i < cap k → j < cap k' → start k + i ≠ start k' + j)
    (hinv : ∀ s x, Inv s → Inv (step s x))
    (hstep : ∀ P s x, Inv s → Placed key payload start cursor slot P s →
      (bucket key (P ++ [x]) (key x)).length ≤ cap (key x) →
      Places key payload cursor slot s x (step s x)) :
    ∀ (l P : List α) (s : σ), Inv s → Placed key payload start cursor slot P s →
      (∀ k, (bucket key (P ++ l) k).length ≤ cap k) →
      Inv (l.foldl step s) ∧ Placed key payload start cursor slot (P ++ l) (l.foldl step s)
  | [], P, s, hs, h, _ => ⟨hs, by simpa using h⟩
  | x :: l, P, s, hs, h, hcap => by
    -- the items up to `x` are a prefix of all of them
    have hcap' : ∀ k, (bucket key (P ++ [x]) k).length ≤ cap k := fun k =>
      Nat.le_trans (List.Sublist.length_le (List.Sublist.filter _ (by simp))) (hcap k)
    have hnext := h.step (hstep P s x hs h (hcap' (key x))) fun k hk i hi => by
      obtain ⟨hi₁, hi₂⟩ := List.mem_range'_1.mp hi
      have hk' := hcap' k
      have hx' := hcap' (key x)
      rw [bucket_append_singleton, if_neg (Ne.symm hk)] at hk'
      rw [bucket_append_singleton, if_pos rfl, List.length_append, List.length_singleton] at hx'
      have := hlayout k (key x) hk (i - start k) (bucket key P (key x)).length (by omega) (by omega)
      rw [h.cursor_eq]
      omega
    rw [List.foldl_cons, show P ++ x :: l = P ++ [x] ++ l by simp]
    exact Placed.run hlayout hinv hstep l (P ++ [x]) _ (hinv s x hs) hnext (by simpa using hcap)

/-- **Every slot below the total holds a placed item**, in the layout after the counts, once every
key below `n` has had all its items placed. -/
theorem Placed.exists_mem {P : List α} {s : σ} (h : Placed key payload start cursor slot P s)
    {c : ℕ → ℕ} {n : ℕ} (hstart : ∀ k, k < n → start k = sumBelow c k)
    (hc : ∀ k, k < n → (bucket key P k).length = c k) {i : ℕ} (hi : i < sumBelow c n) :
    ∃ x ∈ P, slot s i = payload x := by
  obtain ⟨k, hk, hle, hlt⟩ := exists_of_lt_sumBelow c hi
  have hmem : slot s i ∈ (bucket key P k).map payload := by
    rw [← h.slots_eq, hc k hk, hstart k hk]
    rw [sumBelow_succ] at hlt
    exact List.mem_map_of_mem (List.mem_range'_1.mpr ⟨hle, hlt⟩)
  obtain ⟨x, hx, hxi⟩ := List.mem_map.mp hmem
  exact ⟨x, mem_of_mem_bucket hx, hxi.symm⟩

end Placements

end Galois.Placement
