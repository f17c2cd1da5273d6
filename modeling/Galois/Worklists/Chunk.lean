import Mathlib.Algebra.Order.Group.Multiset
import Mathlib.Tactic.Abel
import Galois.FixedSizeRing

/-!
# Chunk.h: `ChunkMaster`, the chunked FIFO and LIFO worklists

`ChunkMaster<T, QT, Distributed, IsStack, ChunkSize, Concurrent>` keeps its items in chunks,
`FixedSizeRing`s of `ChunkSize` slots. A thread pushes into its chunk `next`; a LIFO pops from
`next` too, a FIFO from its chunk `cur`. A full chunk goes to the list `Q` of chunks, a
`ConExtLinkedStack` for the LIFOs and a `ConExtLinkedQueue` for the FIFOs. With one active
thread there is one `p` and one list `Q` that `popChunk` searches (with `Distributed`, the one
of the thread's socket), so the model has one of each.

* `ChunkMaster`, `push`, `pop` -- the model, with `pushChunk`, `popChunk` and `emplacei`;
* `items`, `Inv` -- the items of all chunks as a multiset; every chunk holds its elements, the
  chunks in `Q` are not empty, a LIFO has no `cur` and a FIFO's `next` is not empty;
* `push_spec`, `pop_spec` -- for `ChunkSize ≥ 1`, `push` adds its item, and `pop` takes out the
  item it returns and returns nothing only when there is no item.
-/

namespace Galois.Worklists

/-- One thread's `ChunkMaster`: its `p`, the chunks `cur` and `next` (`none` is null), and the
list `Q` of chunks. -/
structure ChunkMaster (T : Type*) where
  cur : Option (Ring T)
  next : Option (Ring T)
  Q : List (Ring T)

namespace ChunkMaster

variable {T : Type*}

/-! ## 1. The model -/

section Model

variable (ChunkSize : ℕ) (IsStack : Bool)

def empty : ChunkMaster T := ⟨none, none, []⟩

/-- `mkChunk()`: a new, empty chunk. -/
def mkChunk : Ring T := Ring.empty

/-- `pushChunk(C)`: onto the head of a `ConExtLinkedStack`, at the tail of a
`ConExtLinkedQueue`. -/
def pushChunk (c : ChunkMaster T) (C : Ring T) : ChunkMaster T :=
  { c with Q := if IsStack then C :: c.Q else c.Q ++ [C] }

/-- `popChunk()`: the head of `Q`, or null. -/
def popChunk (c : ChunkMaster T) : ChunkMaster T × Option (Ring T) :=
  match c.Q with
  | [] => (c, none)
  | C :: Q => ({ c with Q := Q }, some C)

/-- `emplacei(n, val)`: into `next`, or, when it is full or null, into a new chunk, after `next`
goes to `Q`; `none` for the failed `assert(retval)` of a chunk without slots. -/
def emplacei (c : ChunkMaster T) (val : T) : Option (ChunkMaster T) :=
  match c.next.bind (Ring.emplace_back ChunkSize · val) with
  | some n => some { c with next := some n }
  | none =>
    let c := match c.next with
      | some n => pushChunk IsStack c n
      | none => c
    (Ring.emplace_back ChunkSize mkChunk val).map fun n => { c with next := some n }

def push (c : ChunkMaster T) (val : T) : Option (ChunkMaster T) := emplacei ChunkSize IsStack c val

/-- `pop()`: a LIFO takes the back of `next`, or else deletes `next` and takes the back of the
chunk `popChunk` gives; a FIFO takes the front of `cur`, or else deletes `cur` and takes the
front of the chunk `popChunk` gives, or of `next` when `Q` is empty. -/
def pop (c : ChunkMaster T) : ChunkMaster T × Option T :=
  if IsStack then
    match c.next.map (Ring.extract_back ChunkSize) with
    | some (n, some x) => ({ c with next := some n }, some x)
    | _ =>
      match popChunk c with
      | (c, some C) =>
        let r := Ring.extract_back ChunkSize C
        ({ c with next := some r.1 }, r.2)
      | (c, none) => ({ c with next := none }, none)
  else
    match c.cur.map (Ring.extract_front ChunkSize) with
    | some (n, some x) => ({ c with cur := some n }, some x)
    | _ =>
      match popChunk c with
      | (c, some C) =>
        let r := Ring.extract_front ChunkSize C
        ({ c with cur := some r.1 }, r.2)
      | (c, none) =>
        match c.next with
        | some C =>
          let r := Ring.extract_front ChunkSize C
          ({ c with cur := some r.1, next := none }, r.2)
        | none => ({ c with cur := none }, none)

end Model

/-! ## 2. The items and the invariant -/

section Spec

variable {ChunkSize : ℕ} {IsStack : Bool}

variable (ChunkSize) in
/-- The elements of a chunk. -/
def ringItems (r : Ring T) : Multiset T := ↑(Ring.toList ChunkSize r)

variable (ChunkSize) in
/-- The items of all chunks. -/
def items (c : ChunkMaster T) : Multiset T :=
  ((c.cur.toList ++ c.Q ++ c.next.toList).map (ringItems ChunkSize)).sum

variable (ChunkSize IsStack) in
/-- Every chunk holds its elements; the chunks in `Q` are not empty; a LIFO has no `cur`; a
FIFO's `next` is not empty, as a FIFO never pops from it. -/
structure Inv (c : ChunkMaster T) : Prop where
  cur : ∀ r ∈ c.cur, Ring.Holds ChunkSize r (Ring.toList ChunkSize r)
  queued : ∀ r ∈ c.Q, Ring.Holds ChunkSize r (Ring.toList ChunkSize r) ∧ r.count ≠ 0
  next : ∀ r ∈ c.next, Ring.Holds ChunkSize r (Ring.toList ChunkSize r) ∧
    (IsStack = false → r.count ≠ 0)
  cur_none : IsStack = true → c.cur = none

theorem items_mk (cur next : Option (Ring T)) (Q : List (Ring T)) :
    items ChunkSize ⟨cur, next, Q⟩ = (cur.toList.map (ringItems ChunkSize)).sum +
      (Q.map (ringItems ChunkSize)).sum + (next.toList.map (ringItems ChunkSize)).sum := by
  simp only [items, List.map_append, List.sum_append]

theorem items_empty : items ChunkSize (empty : ChunkMaster T) = 0 := rfl

theorem inv_empty : Inv ChunkSize IsStack (empty : ChunkMaster T) :=
  ⟨fun _ h => (nomatch h), fun _ h => (nomatch h), fun _ h => (nomatch h), fun _ => rfl⟩

theorem mem_pushChunk_Q {c : ChunkMaster T} {r r' : Ring T} :
    r' ∈ (pushChunk IsStack c r).Q ↔ r' = r ∨ r' ∈ c.Q := by
  cases IsStack <;> simp [pushChunk, or_comm]

theorem sum_pushChunk_Q (c : ChunkMaster T) (r : Ring T) :
    ((pushChunk IsStack c r).Q.map (ringItems ChunkSize)).sum =
      ringItems ChunkSize r + (c.Q.map (ringItems ChunkSize)).sum := by
  cases IsStack <;> simp [pushChunk, add_comm]

/-- A ring that holds its elements is empty exactly when it has none. -/
theorem ringItems_eq_zero {r : Ring T} (h : Ring.Holds ChunkSize r (Ring.toList ChunkSize r)) :
    ringItems ChunkSize r = 0 ↔ r.count = 0 := by
  rw [ringItems, Multiset.coe_eq_zero, ← List.length_eq_zero_iff, ← h.count_eq]

/-- `extract_front()` on a ring that holds its elements takes out what it returns, and returns
nothing only from an empty ring. -/
theorem extract_front_spec {r : Ring T} (h : Ring.Holds ChunkSize r (Ring.toList ChunkSize r)) :
    Ring.Holds ChunkSize (Ring.extract_front ChunkSize r).1
        (Ring.toList ChunkSize (Ring.extract_front ChunkSize r).1) ∧
      ringItems ChunkSize r = ↑(Ring.extract_front ChunkSize r).2.toList +
        ringItems ChunkSize (Ring.extract_front ChunkSize r).1 ∧
      ((Ring.extract_front ChunkSize r).2 = none → r.count = 0) := by
  cases hl : Ring.toList ChunkSize r with
  | nil =>
    have hn : Ring.Holds ChunkSize r [] := hl ▸ h
    rw [hn.extract_front_nil]
    exact ⟨h, by simp, fun _ => hn.count_eq⟩
  | cons y t =>
    have hn : Ring.Holds ChunkSize r (y :: t) := hl ▸ h
    have h' := hn.pop_front
    rw [hn.extract_front_cons]
    refine ⟨by rw [h'.toList_eq]; exact h', ?_, fun h => by cases h⟩
    rw [ringItems, ringItems, hl, h'.toList_eq]
    simp

theorem extract_back_spec {r : Ring T} (h : Ring.Holds ChunkSize r (Ring.toList ChunkSize r)) :
    Ring.Holds ChunkSize (Ring.extract_back ChunkSize r).1
        (Ring.toList ChunkSize (Ring.extract_back ChunkSize r).1) ∧
      ringItems ChunkSize r = ↑(Ring.extract_back ChunkSize r).2.toList +
        ringItems ChunkSize (Ring.extract_back ChunkSize r).1 ∧
      ((Ring.extract_back ChunkSize r).2 = none → r.count = 0) := by
  by_cases hl : Ring.toList ChunkSize r = []
  · have hn : Ring.Holds ChunkSize r [] := hl ▸ h
    rw [hn.extract_back_nil]
    exact ⟨h, by simp, fun _ => hn.count_eq⟩
  · have h' := h.pop_back hl
    rw [h.extract_back hl]
    refine ⟨by rw [h'.toList_eq]; exact h', ?_, fun h => by cases h⟩
    rw [ringItems, ringItems, h'.toList_eq]
    conv_lhs => rw [← List.dropLast_append_getLast hl]
    simp only [Option.toList_some, Multiset.coe_add]
    exact Multiset.coe_eq_coe.2 List.perm_append_comm

/-! ## 3. `push` and `pop` -/

theorem holds_toList {r : Ring T} {l : List T} (h : Ring.Holds ChunkSize r l) :
    Ring.Holds ChunkSize r (Ring.toList ChunkSize r) := by
  rw [h.toList_eq]
  exact h

/-- A new chunk takes one item. -/
theorem mkChunk_emplace_back (hpos : 0 < ChunkSize) (x : T) :
    ∃ n, Ring.emplace_back ChunkSize mkChunk x = some n ∧ Ring.toList ChunkSize n = [x] ∧
      Ring.Holds ChunkSize n (Ring.toList ChunkSize n) := by
  obtain ⟨n, hn, hh⟩ := (Ring.holds_empty hpos).push_back (by exact hpos) x
  exact ⟨n, hn, hh.toList_eq, holds_toList hh⟩

variable (ChunkSize IsStack) in
/-- **`push` adds its item**, into `next` or into a new chunk. -/
theorem push_spec (hpos : 0 < ChunkSize) {c : ChunkMaster T} (h : Inv ChunkSize IsStack c)
    (x : T) :
    ∃ c', push ChunkSize IsStack c x = some c' ∧ Inv ChunkSize IsStack c' ∧
      items ChunkSize c' = x ::ₘ items ChunkSize c := by
  obtain ⟨cur, next, Q⟩ := c
  obtain ⟨n, hn, hl, hh⟩ := mkChunk_emplace_back hpos x
  have hn1 : n.count ≠ 0 := by rw [hh.count_eq, hl]; exact Nat.one_ne_zero
  cases next with
  | none =>
    -- the first item goes into a new chunk `next`
    refine ⟨⟨cur, some n, Q⟩, by simp [push, emplacei, hn], ⟨h.cur, h.queued, ?_, h.cur_none⟩, ?_⟩
    · rintro r ⟨⟩
      exact ⟨hh, fun _ => hn1⟩
    · simp only [items_mk, ringItems, hl, Option.toList_some, Option.toList_none, List.map_cons,
        List.map_nil, List.sum_cons, List.sum_nil, add_zero, Multiset.coe_singleton]
      rw [← Multiset.singleton_add]
      abel
  | some r =>
    obtain ⟨hr, -⟩ := h.next r rfl
    by_cases hfull : r.count = ChunkSize
    · -- `next` is full: it goes to `Q`, and a new chunk takes the item
      have hnone : Ring.emplace_back ChunkSize r x = none := if_pos hfull
      refine ⟨⟨cur, some n, (pushChunk IsStack ⟨cur, some r, Q⟩ r).Q⟩, ?_,
        ⟨h.cur, ?_, ?_, h.cur_none⟩, ?_⟩
      · cases IsStack <;> simp [push, emplacei, hnone, hn, pushChunk]
      · intro r' hr'
        rcases mem_pushChunk_Q.mp hr' with rfl | hr'
        · exact ⟨hr, by omega⟩
        · exact h.queued r' hr'
      · rintro r' ⟨⟩
        exact ⟨hh, fun _ => hn1⟩
      · simp only [items_mk, sum_pushChunk_Q, ringItems, hl, Option.toList_some, List.map_cons,
          List.map_nil, List.sum_cons, List.sum_nil, add_zero, Multiset.coe_singleton]
        rw [← Multiset.singleton_add]
        abel
    · -- room in `next`
      obtain ⟨r', hr', hh'⟩ := hr.push_back (by have := hr.le; have := hr.count_eq; omega) x
      refine ⟨⟨cur, some r', Q⟩, by simp [push, emplacei, hr'], ⟨h.cur, h.queued, ?_, h.cur_none⟩, ?_⟩
      · rintro r'' ⟨⟩
        exact ⟨holds_toList hh', fun _ => by rw [hh'.count_eq]; simp⟩
      · simp only [items_mk, ringItems, hh'.toList_eq, Option.toList_some, List.map_cons,
          List.map_nil, List.sum_cons, List.sum_nil, add_zero, ← Multiset.coe_add,
          Multiset.coe_singleton]
        rw [← Multiset.singleton_add]
        abel

section PopCases

variable (cur next : Option (Ring T)) (Q : List (Ring T))

theorem pop_stack_of_next {n n' : Ring T} {x : T} (he : Ring.extract_back ChunkSize n = (n', some x)) :
    pop ChunkSize true ⟨cur, some n, Q⟩ = (⟨cur, some n', Q⟩, some x) := by
  simp only [pop, if_true, Option.map_some, he]

/-- When `next` gives nothing, a LIFO's `pop` takes from the chunk at the head of `Q`. -/
theorem pop_stack_of_queue (hnext : ∀ n ∈ next, (Ring.extract_back ChunkSize n).2 = none)
    (C : Ring T) :
    pop ChunkSize true ⟨cur, next, C :: Q⟩ =
      (⟨cur, some (Ring.extract_back ChunkSize C).1, Q⟩, (Ring.extract_back ChunkSize C).2) := by
  cases next with
  | none => simp only [pop, if_true, Option.map_none, popChunk]
  | some n =>
    obtain ⟨n', he⟩ : ∃ n', Ring.extract_back ChunkSize n = (n', none) :=
      ⟨_, Prod.ext rfl (hnext n rfl)⟩
    simp only [pop, if_true, Option.map_some, he, popChunk]

theorem pop_stack_of_empty (hnext : ∀ n ∈ next, (Ring.extract_back ChunkSize n).2 = none) :
    pop ChunkSize true ⟨cur, next, []⟩ = (⟨cur, none, []⟩, none) := by
  cases next with
  | none => simp only [pop, if_true, Option.map_none, popChunk]
  | some n =>
    obtain ⟨n', he⟩ : ∃ n', Ring.extract_back ChunkSize n = (n', none) :=
      ⟨_, Prod.ext rfl (hnext n rfl)⟩
    simp only [pop, if_true, Option.map_some, he, popChunk]

theorem pop_queue_of_cur {n n' : Ring T} {x : T} (he : Ring.extract_front ChunkSize n = (n', some x)) :
    pop ChunkSize false ⟨some n, next, Q⟩ = (⟨some n', next, Q⟩, some x) := by
  simp only [pop, Bool.false_eq_true, if_false, Option.map_some, he]

/-- When `cur` gives nothing, a FIFO's `pop` takes from the chunk at the head of `Q`. -/
theorem pop_queue_of_queue (hcur : ∀ n ∈ cur, (Ring.extract_front ChunkSize n).2 = none)
    (C : Ring T) :
    pop ChunkSize false ⟨cur, next, C :: Q⟩ =
      (⟨some (Ring.extract_front ChunkSize C).1, next, Q⟩, (Ring.extract_front ChunkSize C).2) := by
  cases cur with
  | none => simp only [pop, Bool.false_eq_true, if_false, Option.map_none, popChunk]
  | some n =>
    obtain ⟨n', he⟩ : ∃ n', Ring.extract_front ChunkSize n = (n', none) :=
      ⟨_, Prod.ext rfl (hcur n rfl)⟩
    simp only [pop, Bool.false_eq_true, if_false, Option.map_some, he, popChunk]

/-- With `Q` empty too, from `next`. -/
theorem pop_queue_of_next (hcur : ∀ n ∈ cur, (Ring.extract_front ChunkSize n).2 = none)
    (C : Ring T) :
    pop ChunkSize false ⟨cur, some C, []⟩ =
      (⟨some (Ring.extract_front ChunkSize C).1, none, []⟩, (Ring.extract_front ChunkSize C).2) := by
  cases cur with
  | none => simp only [pop, Bool.false_eq_true, if_false, Option.map_none, popChunk]
  | some n =>
    obtain ⟨n', he⟩ : ∃ n', Ring.extract_front ChunkSize n = (n', none) :=
      ⟨_, Prod.ext rfl (hcur n rfl)⟩
    simp only [pop, Bool.false_eq_true, if_false, Option.map_some, he, popChunk]

theorem pop_queue_of_empty (hcur : ∀ n ∈ cur, (Ring.extract_front ChunkSize n).2 = none) :
    pop ChunkSize false ⟨cur, none, []⟩ = (⟨none, none, []⟩, none) := by
  cases cur with
  | none => simp only [pop, Bool.false_eq_true, if_false, Option.map_none, popChunk]
  | some n =>
    obtain ⟨n', he⟩ : ∃ n', Ring.extract_front ChunkSize n = (n', none) :=
      ⟨_, Prod.ext rfl (hcur n rfl)⟩
    simp only [pop, Bool.false_eq_true, if_false, Option.map_some, he, popChunk]

end PopCases

theorem sum_toList_eq_zero {o : Option (Ring T)} (h : ∀ n ∈ o, ringItems ChunkSize n = 0) :
    (o.toList.map (ringItems ChunkSize)).sum = 0 := by
  cases o with
  | none => rfl
  | some n => simpa using h n rfl

/-- **`pop` takes out the item it returns, and returns nothing only when there is no item.** A
LIFO pops from `next`, else from the head of `Q`; a FIFO pops from `cur`, else from the head of
`Q`, else from `next`. -/
theorem pop_spec {c : ChunkMaster T} (h : Inv ChunkSize IsStack c) :
    Inv ChunkSize IsStack (pop ChunkSize IsStack c).1 ∧
      items ChunkSize c = ↑(pop ChunkSize IsStack c).2.toList +
        items ChunkSize (pop ChunkSize IsStack c).1 ∧
      ((pop ChunkSize IsStack c).2 = none → items ChunkSize c = 0) := by
  obtain ⟨cur, next, Q⟩ := c
  cases IsStack with
  | true =>
    obtain rfl : cur = none := h.cur_none rfl
    by_cases hnext : ∀ n ∈ next, (Ring.extract_back ChunkSize n).2 = none
    · have h0 : (next.toList.map (ringItems ChunkSize)).sum = 0 := sum_toList_eq_zero
        fun n hn => (ringItems_eq_zero (h.next n hn).1).2
          ((extract_back_spec (h.next n hn).1).2.2 (hnext n hn))
      cases Q with
      | nil =>
        rw [pop_stack_of_empty _ _ hnext]
        refine ⟨⟨fun _ h => (nomatch h), fun _ h => (nomatch h), fun _ h => (nomatch h),
          fun _ => rfl⟩, ?_, fun _ => ?_⟩ <;> simp [items_mk, h0]
      | cons C Q =>
        -- the head of `Q` is not empty
        obtain ⟨hC, hC0⟩ := h.queued C (List.mem_cons_self ..)
        obtain ⟨hC', hitems, hnone⟩ := extract_back_spec hC
        rw [pop_stack_of_queue _ _ _ hnext]
        refine ⟨⟨fun _ h => (nomatch h), fun r hr => h.queued r (List.mem_cons_of_mem _ hr),
          fun r hr => ?_, fun _ => rfl⟩, ?_, fun he => absurd (hnone he) hC0⟩
        · cases hr
          exact ⟨hC', fun h => nomatch h⟩
        · simp only [items_mk, Option.toList_none, Option.toList_some, List.map_nil,
            List.map_cons, List.sum_nil, List.sum_cons, h0, add_zero, zero_add, hitems]
          abel
    · obtain ⟨n, rfl, hx⟩ : ∃ n, next = some n ∧ (Ring.extract_back ChunkSize n).2 ≠ none := by
        simpa using hnext
      obtain ⟨hn, -⟩ := h.next n rfl
      obtain ⟨hn', hitems, -⟩ := extract_back_spec hn
      obtain ⟨x, hx⟩ := Option.ne_none_iff_exists'.mp hx
      obtain ⟨n', he⟩ : ∃ n', Ring.extract_back ChunkSize n = (n', some x) := ⟨_, Prod.ext rfl hx⟩
      rw [he] at hn' hitems
      rw [pop_stack_of_next _ _ he]
      refine ⟨⟨fun _ h => (nomatch h), h.queued, fun r hr => ?_, fun _ => rfl⟩, ?_,
        fun h => nomatch h⟩
      · cases hr
        exact ⟨hn', fun h => nomatch h⟩
      · simp only [items_mk, Option.toList_none, Option.toList_some, List.map_nil, List.map_cons,
          List.sum_nil, List.sum_cons, add_zero, zero_add, hitems]
        abel
  | false =>
    by_cases hcur : ∀ n ∈ cur, (Ring.extract_front ChunkSize n).2 = none
    · have h0 : (cur.toList.map (ringItems ChunkSize)).sum = 0 := sum_toList_eq_zero
        fun n hn => (ringItems_eq_zero (h.cur n hn)).2
          ((extract_front_spec (h.cur n hn)).2.2 (hcur n hn))
      cases Q with
      | cons C Q =>
        obtain ⟨hC, hC0⟩ := h.queued C (List.mem_cons_self ..)
        obtain ⟨hC', hitems, hnone⟩ := extract_front_spec hC
        rw [pop_queue_of_queue _ _ _ hcur]
        refine ⟨⟨fun r hr => ?_, fun r hr => h.queued r (List.mem_cons_of_mem _ hr), h.next,
          fun h => nomatch h⟩, ?_, fun he => absurd (hnone he) hC0⟩
        · cases hr
          exact hC'
        · simp only [items_mk, Option.toList_some, List.map_cons, List.map_nil, List.sum_cons,
            List.sum_nil, h0, add_zero, zero_add, hitems]
          abel
      | nil =>
        cases next with
        | some C =>
          -- `Q` is empty: `cur` becomes `next`, which a FIFO never leaves empty
          obtain ⟨hC, hC0⟩ := h.next C rfl
          obtain ⟨hC', hitems, hnone⟩ := extract_front_spec hC
          rw [pop_queue_of_next _ hcur]
          refine ⟨⟨fun r hr => ?_, fun _ h => (nomatch h), fun _ h => (nomatch h),
            fun h => nomatch h⟩, ?_, fun he => absurd (hnone he) (hC0 rfl)⟩
          · cases hr
            exact hC'
          · simp only [items_mk, Option.toList_some, Option.toList_none, List.map_cons,
              List.map_nil, List.sum_cons, List.sum_nil, h0, add_zero, zero_add, hitems]
        | none =>
          rw [pop_queue_of_empty _ hcur]
          refine ⟨⟨fun _ h => (nomatch h), fun _ h => (nomatch h), fun _ h => (nomatch h),
            fun h => nomatch h⟩, ?_, fun _ => ?_⟩ <;> simp [items_mk, h0]
    · obtain ⟨n, rfl, hx⟩ : ∃ n, cur = some n ∧ (Ring.extract_front ChunkSize n).2 ≠ none := by
        simpa using hcur
      obtain ⟨hn', hitems, -⟩ := extract_front_spec (h.cur n rfl)
      obtain ⟨x, hx⟩ := Option.ne_none_iff_exists'.mp hx
      obtain ⟨n', he⟩ : ∃ n', Ring.extract_front ChunkSize n = (n', some x) := ⟨_, Prod.ext rfl hx⟩
      rw [he] at hn' hitems
      rw [pop_queue_of_cur _ _ he]
      refine ⟨⟨fun r hr => ?_, h.queued, h.next, fun h => nomatch h⟩, ?_, fun h => nomatch h⟩
      · cases hr
        exact hn'
      · simp only [items_mk, Option.toList_some, List.map_cons, List.map_nil, List.sum_cons,
          List.sum_nil, add_zero, hitems]
        abel

end Spec

end ChunkMaster

end Galois.Worklists
