import Mathlib

/-!
# FixedSizeRing.h: `FixedSizeBagBase` and `FixedSizeRing`

Both containers keep their elements in a `LazyArray<T, ChunkSize>`, raw storage in which
`emplace(i, ...)` constructs an object at slot `i` and `destroy(i)` destroys it. A slot is
`some x` while it holds a live object and `none` otherwise, so the set of constructed slots is
part of the state.

* `Bag`, `Bag.step` -- `FixedSizeBagBase` with its `count`: `push_front` constructs at slot
  `count` and `pop_front` destroys one slot, in the sequential variant slot `count - 1`, in the
  concurrent one (its compare-and-swap loop run by one thread) slot `count` after the swap;
* `Bag.Holds`, **`Bag.run_refines_stack`** -- the sequential bag is a stack of at most `ChunkSize`
  elements whose live slots are exactly `0 .. count - 1`, with the newest element on top;
* **`Bag.concurrent_pop_keeps_slot`** -- the concurrent `pop_front` destroys the slot above the
  top and leaves the popped element constructed;
* `Ring` -- `FixedSizeRing`, its `Iterator`, and `emplace` at an iterator, which shifts the
  back of the ring with `std::move_backward` over ring iterators;
* `Ring.Holds`, **`Ring.run_holds`** -- under every sequence of operations applied when they are
  allowed, `getAt(0 .. size - 1)` is the reference list, the live slots are exactly
  `(start + i) % ChunkSize` for `i < count`, and iterating from `begin()` to `end()` visits the
  list in order.
-/

namespace Galois

open Function

variable {T : Type*}

/-! ## 1. `LazyArray` -/

/-- `LazyArray::emplace(i, x)`: construct `x` in slot `i`. -/
def emplaceAt (datac : ℕ → Option T) (i : ℕ) (x : T) : ℕ → Option T := update datac i (some x)

/-- `LazyArray::destroy(i)`: destroy the object in slot `i`. -/
def destroyAt (datac : ℕ → Option T) (i : ℕ) : ℕ → Option T := update datac i none

theorem emplaceAt_apply (datac : ℕ → Option T) (i : ℕ) (x : T) (j : ℕ) :
    emplaceAt datac i x j = if j = i then some x else datac j := by
  unfold emplaceAt
  by_cases h : j = i
  · rw [h, update_self, if_pos rfl]
  · rw [update_of_ne h, if_neg h]

theorem destroyAt_apply (datac : ℕ → Option T) (i : ℕ) (j : ℕ) :
    destroyAt datac i j = if j = i then none else datac j := by
  unfold destroyAt
  by_cases h : j = i
  · rw [h, update_self, if_pos rfl]
  · rw [update_of_ne h, if_neg h]

/-! ## 2. `FixedSizeBagBase` -/

/-- `FixedSizeBagBase<T, ChunkSize, Concurrent>`: the slots and `count`. -/
structure Bag (T : Type*) where
  datac : ℕ → Option T
  count : ℕ

/-- The operations a client calls on a bag. -/
inductive FixedBagOp (T : Type*) where
  | push_front (x : T)
  | pop_front

namespace Bag

variable (ChunkSize : ℕ)

/-- The empty bag of the default constructor. -/
def empty : Bag T := ⟨fun _ => none, 0⟩

/-- `push_front`: the sequential `emplace_front` fails on a full bag and otherwise constructs
at slot `count++`; the concurrent one reads `top = count`, fails if `top >= ChunkSize`, swaps
`count` to `top + 1` (one thread: the swap succeeds) and constructs at slot `top`. The flag says
whether a pointer (not null) was returned. -/
def push_front (concurrent : Bool) (b : Bag T) (x : T) : Bag T × Bool :=
  if concurrent then
    if b.count ≥ ChunkSize then (b, false)
    else (⟨emplaceAt b.datac b.count x, b.count + 1⟩, true)
  else
    if b.count = ChunkSize then (b, false)
    else (⟨emplaceAt b.datac b.count x, b.count + 1⟩, true)

/-- `pop_front`: `false` on an empty bag. The sequential one runs `datac.destroy(--count)`; the
concurrent one swaps `count` from `top` to `top - 1` and then runs `datac.destroy(top)`. -/
def pop_front (concurrent : Bool) (b : Bag T) : Bag T × Bool :=
  if b.count = 0 then (b, false)
  else if concurrent then (⟨destroyAt b.datac b.count, b.count - 1⟩, true)
  else (⟨destroyAt b.datac (b.count - 1), b.count - 1⟩, true)

def step (concurrent : Bool) (b : Bag T) : FixedBagOp T → Bag T × Bool
  | .push_front x => push_front ChunkSize concurrent b x
  | .pop_front => pop_front concurrent b

/-- The bag after a sequence of operations by one thread. -/
def run (concurrent : Bool) (b : Bag T) (ops : List (FixedBagOp T)) : Bag T :=
  ops.foldl (fun b op => (step ChunkSize concurrent b op).1) b

/-- The reference: a stack of at most `ChunkSize` elements, newest first. -/
def refStep (s : List T) : FixedBagOp T → List T × Bool
  | .push_front x => if s.length = ChunkSize then (s, false) else (x :: s, true)
  | .pop_front => match s with
    | [] => ([], false)
    | _ :: t => (t, true)

/-- The reference stack after a sequence of operations. -/
def refRun (s : List T) (ops : List (FixedBagOp T)) : List T :=
  ops.foldl (fun s op => (refStep ChunkSize s op).1) s

/-- The bag holds the stack `s`: the live slots are exactly `0 .. count - 1`, and slot `i` holds
the `i`-th element from the bottom. -/
structure Holds (b : Bag T) (s : List T) : Prop where
  count_eq : b.count = s.length
  le : s.length ≤ ChunkSize
  live : ∀ i, (b.datac i).isSome ↔ i < b.count
  slots : (List.range b.count).map b.datac = s.reverse.map some

theorem holds_empty : Holds ChunkSize (empty : Bag T) [] :=
  ⟨rfl, Nat.zero_le _, fun i => by simp [empty], rfl⟩

variable {ChunkSize}

/-- The top slot holds the newest element. -/
theorem Holds.top {b : Bag T} {x : T} {t : List T} (h : Holds ChunkSize b (x :: t)) :
    b.datac (b.count - 1) = some x := by
  have hc : b.count = t.length + 1 := h.count_eq
  have hs := h.slots
  rw [hc, List.range_succ, List.map_append, List.reverse_cons, List.map_append] at hs
  have hlast := (List.append_inj' hs (by simp)).2
  rw [hc, Nat.add_sub_cancel]
  simpa using hlast

theorem Holds.push {b : Bag T} {s : List T} (h : Holds ChunkSize b s) (hfull : s.length ≠ ChunkSize)
    (x : T) : Holds ChunkSize ⟨emplaceAt b.datac b.count x, b.count + 1⟩ (x :: s) := by
  refine ⟨by simp [h.count_eq], ?_, fun i => ?_, ?_⟩
  · have := h.le
    simp only [List.length_cons]
    omega
  · dsimp only
    rw [emplaceAt_apply]
    by_cases hi : i = b.count
    · simp [hi]
    · rw [if_neg hi, h.live]
      omega
  · -- the old slots are untouched and slot `count` holds `x`
    rw [List.range_succ, List.map_append, List.reverse_cons, List.map_append, ← h.slots]
    congr 1
    · refine List.map_congr_left fun i hi => ?_
      dsimp only
      rw [emplaceAt_apply, if_neg (Nat.ne_of_lt (List.mem_range.mp hi))]
    · simp [emplaceAt_apply]

theorem Holds.pop {b : Bag T} {x : T} {t : List T} (h : Holds ChunkSize b (x :: t)) :
    Holds ChunkSize ⟨destroyAt b.datac (b.count - 1), b.count - 1⟩ t := by
  have hc : b.count = t.length + 1 := h.count_eq
  refine ⟨by simp [hc], Nat.le_of_succ_le h.le, fun i => ?_, ?_⟩
  · dsimp only
    rw [destroyAt_apply]
    by_cases hi : i = b.count - 1
    · simp [hi]
    · rw [if_neg hi, h.live]
      omega
  · -- the slots below the top keep the older elements
    have hs := h.slots
    rw [hc, List.range_succ, List.map_append, List.reverse_cons, List.map_append] at hs
    rw [hc, Nat.add_sub_cancel, ← (List.append_inj' hs (by simp)).1]
    refine List.map_congr_left fun i hi => ?_
    dsimp only
    rw [destroyAt_apply, if_neg (Nat.ne_of_lt (List.mem_range.mp hi))]

/-- **One operation of the sequential bag** keeps `Holds` against the reference stack and
returns what the reference returns. -/
theorem Holds.step {b : Bag T} {s : List T} (h : Holds ChunkSize b s) (op : FixedBagOp T) :
    Holds ChunkSize (step ChunkSize false b op).1 (refStep ChunkSize s op).1 ∧
      (step ChunkSize false b op).2 = (refStep ChunkSize s op).2 := by
  cases op with
  | push_front x =>
    by_cases hfull : s.length = ChunkSize
    · have hb : b.count = ChunkSize := h.count_eq.trans hfull
      have e : Bag.step ChunkSize false b (.push_front x) = (b, false) := by
        simp [Bag.step, push_front, hb]
      rw [e, refStep, if_pos hfull]
      exact ⟨h, rfl⟩
    · have hb : b.count ≠ ChunkSize := by rw [h.count_eq]; exact hfull
      have e : Bag.step ChunkSize false b (.push_front x) =
          (⟨emplaceAt b.datac b.count x, b.count + 1⟩, true) := by
        simp [Bag.step, push_front, hb]
      rw [e, refStep, if_neg hfull]
      exact ⟨h.push hfull x, rfl⟩
  | pop_front =>
    cases s with
    | nil =>
      have e : Bag.step ChunkSize false b .pop_front = (b, false) := if_pos h.count_eq
      rw [e]
      exact ⟨h, rfl⟩
    | cons x t =>
      have hb : b.count ≠ 0 := by rw [h.count_eq]; exact Nat.succ_ne_zero _
      have e : Bag.step ChunkSize false b .pop_front =
          (⟨destroyAt b.datac (b.count - 1), b.count - 1⟩, true) := by
        simp [Bag.step, pop_front, hb]
      rw [e]
      exact ⟨h.pop, rfl⟩

/-- **The sequential bag is a bounded stack**: from the empty bag, after every sequence of
`push_front` and `pop_front`, the live slots are exactly `0 .. count - 1` and hold the reference
stack, newest on top, and `pop_front` destroys the top slot, which holds the newest element. -/
theorem run_refines_stack (ops : List (FixedBagOp T)) :
    Holds ChunkSize (run ChunkSize false empty ops) (refRun ChunkSize [] ops) ∧
      ∀ op, (step ChunkSize false (run ChunkSize false empty ops) op).2 =
        (refStep ChunkSize (refRun ChunkSize [] ops) op).2 := by
  -- induction over the operations, from any bag that holds its stack
  have hrun : ∀ (b : Bag T) s, Holds ChunkSize b s →
      Holds ChunkSize (run ChunkSize false b ops) (refRun ChunkSize s ops) := by
    induction ops with
    | nil => exact fun _ _ h => h
    | cons op ops ih => exact fun b s h => ih _ _ (h.step op).1
  have h := hrun _ _ (holds_empty ChunkSize)
  exact ⟨h, fun op => (h.step op).2⟩

/-- **The concurrent `pop_front` destroys the slot above the top**: one thread pushes `x` into
an empty `ConcurrentFixedSizeBag<T>` (`ChunkSize = 64`) and pops it. `count` is back to `0`,
but slot `0` still holds `x`: the swap took `count` from `1` to `0` and `datac.destroy(1)` hit
the slot above it, which holds nothing. -/
theorem concurrent_pop_keeps_slot (x : T) :
    (run 64 true empty [.push_front x, .pop_front]).count = 0 ∧
      (run 64 true empty [.push_front x, .pop_front]).datac 0 = some x ∧
      (step 64 true (run 64 true empty [.push_front x]) .pop_front).2 = true := by
  refine ⟨rfl, ?_, rfl⟩
  simp [run, Bag.step, push_front, pop_front, empty, emplaceAt_apply, destroyAt_apply]

end Bag

/-! ## 3. `FixedSizeRing` -/

/-- `FixedSizeRing<T, ChunkSize>`: the slots, `start` and `count`. -/
structure Ring (T : Type*) where
  datac : ℕ → Option T
  start : ℕ
  count : ℕ

/-- `FixedSizeRing::Iterator`, less its `base`: the slot `cur` it points at and the number
`count` of elements from it to the end. Two iterators are equal when both agree. -/
structure RingIter where
  cur : ℕ
  count : ℕ
  deriving DecidableEq, Repr

namespace RingIter

variable (ChunkSize : ℕ)

def increment (it : RingIter) : RingIter := ⟨(it.cur + 1) % ChunkSize, it.count - 1⟩

def decrement (it : RingIter) : RingIter := ⟨(it.cur + ChunkSize - 1) % ChunkSize, it.count + 1⟩

/-- `advance(x)` for `x ≥ 0` (`it + x`): `count -= x` and
`cur = (cur + ChunkSize + x) % ChunkSize`. -/
def advance (it : RingIter) (x : ℕ) : RingIter :=
  ⟨(it.cur + ChunkSize + x) % ChunkSize, it.count - x⟩

/-- `advance(-x)` for `0 ≤ x ≤ ChunkSize` (`it - x`): `count += x` and
`cur = (cur + ChunkSize - x) % ChunkSize`. -/
def retreat (it : RingIter) (x : ℕ) : RingIter :=
  ⟨(it.cur + ChunkSize - x) % ChunkSize, it.count + x⟩

/-- `distance_to(o)`: `count - o.count`, as a `ptrdiff_t`. -/
def distance_to (it o : RingIter) : ℤ := (it.count : ℤ) - o.count

end RingIter

/-- The operations a client calls on a ring; `emplace d x` is `emplace(begin() + d, x)`. -/
inductive RingOp (T : Type*) where
  | push_front (x : T)
  | push_back (x : T)
  | pop_front
  | pop_back
  | emplace (d : ℕ) (x : T)

namespace Ring

variable (ChunkSize : ℕ)

/-- The empty ring of the default constructor. -/
def empty : Ring T := ⟨fun _ => none, 0, 0⟩

def begin (r : Ring T) : RingIter := ⟨r.start, r.count⟩

def «end» (r : Ring T) : RingIter := ⟨(r.start + r.count) % ChunkSize, 0⟩

/-- `getAt(x)`: the slot `(start + x) % ChunkSize`. -/
def getAt (r : Ring T) (x : ℕ) : Option T := r.datac ((r.start + x) % ChunkSize)

def emplace_front (r : Ring T) (x : T) : Option (Ring T) :=
  if r.count = ChunkSize then none
  else
    let start := (r.start + ChunkSize - 1) % ChunkSize
    some ⟨emplaceAt r.datac start x, start, r.count + 1⟩

def emplace_back (r : Ring T) (x : T) : Option (Ring T) :=
  if r.count = ChunkSize then none
  else some ⟨emplaceAt r.datac ((r.start + r.count) % ChunkSize) x, r.start, r.count + 1⟩

def pop_front (r : Ring T) : Ring T :=
  ⟨destroyAt r.datac r.start, (r.start + 1) % ChunkSize, r.count - 1⟩

def pop_back (r : Ring T) : Ring T :=
  ⟨destroyAt r.datac ((r.start + r.count - 1) % ChunkSize), r.start, r.count - 1⟩

def front (r : Ring T) : Option T := r.datac r.start

def back (r : Ring T) : Option T := r.datac ((r.start + r.count - 1) % ChunkSize)

/-- `extract_front()`: the front element, popped, and nothing from an empty ring. -/
def extract_front (r : Ring T) : Ring T × Option T :=
  if r.count = 0 then (r, none) else (pop_front ChunkSize r, front r)

/-- `extract_back()`: the back element, popped, and nothing from an empty ring. -/
def extract_back (r : Ring T) : Ring T × Option T :=
  if r.count = 0 then (r, none) else (pop_back ChunkSize r, back ChunkSize r)

/-- The elements `getAt(0 .. size - 1)`. -/
def toList (r : Ring T) : List T := (List.range r.count).filterMap (getAt ChunkSize r)

/-- `std::move_backward(first, last, d_last)` over ring iterators, at most `fuel` moves: while
`first != last`, `*(--d_last) = std::move(*(--last))`. A moved-from object stays constructed; it
keeps its value here. -/
def moveBackward (first : RingIter) : ℕ → (ℕ → Option T) → RingIter → RingIter → ℕ → Option T
  | 0, datac, _, _ => datac
  | fuel + 1, datac, last, dLast =>
    if first = last then datac
    else
      moveBackward first fuel
        (update datac (dLast.decrement ChunkSize).cur (datac (last.decrement ChunkSize).cur))
        (last.decrement ChunkSize) (dLast.decrement ChunkSize)

/-- `emplace(pos, x)`: at `begin()` and at `end()` as `emplace_front` and `emplace_back` do;
elsewhere, at `d = std::distance(begin(), pos)`, `emplace_back()` default-constructs at the end,
`std::move_backward(begin() + d, end() - 1, end())` shifts the back by one slot, and slot
`i = (start + d) % ChunkSize` is destroyed and constructed again. -/
def emplace [Inhabited T] (r : Ring T) (pos : RingIter) (x : T) : Option (Ring T) :=
  if r.count = ChunkSize then none
  else if pos = begin r then
    let i := (r.start + ChunkSize - 1) % ChunkSize
    some ⟨emplaceAt r.datac i x, i, r.count + 1⟩
  else if pos = «end» ChunkSize r then
    some ⟨emplaceAt r.datac ((r.start + r.count) % ChunkSize) x, r.start, r.count + 1⟩
  else
    let d := ((begin r).distance_to pos).toNat
    let i := (r.start + d) % ChunkSize
    match emplace_back ChunkSize r default with
    | none => none
    | some r₁ =>
      let datac := moveBackward ChunkSize ((begin r₁).advance ChunkSize d) r₁.count r₁.datac
        ((«end» ChunkSize r₁).retreat ChunkSize 1) («end» ChunkSize r₁)
      some ⟨emplaceAt (destroyAt datac i) i x, r₁.start, r₁.count⟩

/-- One operation; `push_front` and `push_back` are `emplace_front` and `emplace_back`. -/
def step [Inhabited T] (r : Ring T) : RingOp T → Option (Ring T)
  | .push_front x => emplace_front ChunkSize r x
  | .push_back x => emplace_back ChunkSize r x
  | .pop_front => some (pop_front ChunkSize r)
  | .pop_back => some (pop_back ChunkSize r)
  | .emplace d x => emplace ChunkSize r ((begin r).advance ChunkSize d) x

/-- The visit from `it` to `end()`, at most `fuel` elements: what `*it` reads at each step. -/
def walk (r : Ring T) : ℕ → RingIter → List (Option T)
  | 0, _ => []
  | fuel + 1, it => if it = «end» ChunkSize r then [] else r.datac it.cur :: walk r fuel (it.increment ChunkSize)

/-- The reference: a list of at most `ChunkSize` elements. -/
def refStep (l : List T) : RingOp T → List T
  | .push_front x => x :: l
  | .push_back x => l ++ [x]
  | .pop_front => l.tail
  | .pop_back => l.dropLast
  | .emplace d x => l.insertIdx d x

/-- An operation is applied only when it is allowed: no insertion into a full ring, no pop from
an empty one, and `emplace` at an iterator of the ring. -/
def Allowed (l : List T) : RingOp T → Prop
  | .push_front _ => l.length < ChunkSize
  | .push_back _ => l.length < ChunkSize
  | .pop_front => 0 < l.length
  | .pop_back => 0 < l.length
  | .emplace d _ => l.length < ChunkSize ∧ d ≤ l.length

/-- The ring holds the list `l`: `getAt(i)` is its `i`-th element, and the live slots are
exactly `(start + i) % ChunkSize` for `i < count`. -/
structure Holds (r : Ring T) (l : List T) : Prop where
  start_lt : r.start < ChunkSize
  count_eq : r.count = l.length
  le : l.length ≤ ChunkSize
  view : ∀ i < r.count, getAt ChunkSize r i = l[i]?
  live : ∀ j, (r.datac j).isSome ↔ ∃ i < r.count, j = (r.start + i) % ChunkSize

/-- The ring after a sequence of operations; `none` once one of them returns null. -/
def run [Inhabited T] (r : Ring T) : List (RingOp T) → Option (Ring T)
  | [] => some r
  | op :: ops => (step ChunkSize r op).bind fun r' => run r' ops

/-- The reference list after a sequence of operations. -/
def refRun (l : List T) (ops : List (RingOp T)) : List T := ops.foldl refStep l

/-- Each operation of the sequence is allowed where it is applied. -/
def AllAllowed (l : List T) : List (RingOp T) → Prop
  | [] => True
  | op :: ops => Allowed ChunkSize l op ∧ AllAllowed (refStep l op) ops

/-! ### Slot arithmetic -/

section Index

variable {ChunkSize : ℕ}

/-- Offsets below `ChunkSize` from one start are different slots. -/
theorem index_inj {s i j : ℕ} (hi : i < ChunkSize) (hj : j < ChunkSize)
    (h : (s + i) % ChunkSize = (s + j) % ChunkSize) : i = j := by
  have hmod : i % ChunkSize = j % ChunkSize := Nat.ModEq.add_left_cancel' s h
  rwa [Nat.mod_eq_of_lt hi, Nat.mod_eq_of_lt hj] at hmod

theorem index_zero {s : ℕ} (hs : s < ChunkSize) : (s + 0) % ChunkSize = s :=
  Nat.mod_eq_of_lt hs

/-- From the slot before `start`, every offset moves up by one. -/
theorem index_front (hpos : 0 < ChunkSize) (s i : ℕ) :
    ((s + ChunkSize - 1) % ChunkSize + (i + 1)) % ChunkSize = (s + i) % ChunkSize := by
  rw [Nat.mod_add_mod, show s + ChunkSize - 1 + (i + 1) = s + i + ChunkSize by omega,
    Nat.add_mod_right]

/-- The slot before `start` is offset `ChunkSize - 1` from it. -/
theorem index_before (hpos : 0 < ChunkSize) (s : ℕ) :
    (s + ChunkSize - 1) % ChunkSize = (s + (ChunkSize - 1)) % ChunkSize := by
  rw [Nat.add_sub_assoc (Nat.one_le_iff_ne_zero.mpr (Nat.pos_iff_ne_zero.mp hpos))]

/-- From the slot after `start`, every offset moves down by one. -/
theorem index_succ (s i : ℕ) :
    ((s + 1) % ChunkSize + i) % ChunkSize = (s + (i + 1)) % ChunkSize := by
  rw [Nat.mod_add_mod, Nat.add_assoc, Nat.add_comm 1 i]

end Index

/-! ### One operation -/

variable {ChunkSize} {r : Ring T} {l : List T}

theorem Holds.pos (h : Holds ChunkSize r l) : 0 < ChunkSize :=
  Nat.lt_of_le_of_lt (Nat.zero_le _) h.start_lt

theorem Holds.push_front (h : Holds ChunkSize r l) (hl : l.length < ChunkSize) (x : T) :
    ∃ r', emplace_front ChunkSize r x = some r' ∧ Holds ChunkSize r' (x :: l) := by
  have hpos := h.pos
  have hc := h.count_eq
  have hn : r.count ≠ ChunkSize := by omega
  refine ⟨_, if_neg hn, Nat.mod_lt _ hpos, by simp [hc], Nat.succ_le_of_lt hl, ?_, ?_⟩
  · -- offset `0` is the new slot; offset `i + 1` is the old offset `i`, never the new slot
    intro i hi
    dsimp only [getAt] at hi ⊢
    rw [emplaceAt_apply]
    cases i with
    | zero => rw [if_pos (index_zero (Nat.mod_lt _ hpos))]; rfl
    | succ k =>
      have hk : k < r.count := by omega
      rw [index_front hpos, index_before hpos,
        if_neg fun he => absurd (index_inj (by omega) (by omega) he) (by omega),
        List.getElem?_cons_succ, ← h.view k hk]
      rfl
  · intro j
    dsimp only
    rw [emplaceAt_apply]
    constructor
    · intro hj
      by_cases hjs : j = (r.start + ChunkSize - 1) % ChunkSize
      · exact ⟨0, Nat.succ_pos _, by rw [hjs, index_zero (Nat.mod_lt _ hpos)]⟩
      · rw [if_neg hjs, h.live] at hj
        obtain ⟨i, hi, rfl⟩ := hj
        exact ⟨i + 1, by omega, (index_front hpos _ _).symm⟩
    · rintro ⟨i, hi, rfl⟩
      cases i with
      | zero => rw [if_pos (index_zero (Nat.mod_lt _ hpos))]; rfl
      | succ k =>
        rw [index_front hpos]
        split_ifs
        · rfl
        · exact (h.live _).mpr ⟨k, by omega, rfl⟩

theorem Holds.push_back (h : Holds ChunkSize r l) (hl : l.length < ChunkSize) (x : T) :
    ∃ r', emplace_back ChunkSize r x = some r' ∧ Holds ChunkSize r' (l ++ [x]) := by
  have hpos := h.pos
  have hc := h.count_eq
  have hn : r.count ≠ ChunkSize := by omega
  refine ⟨_, if_neg hn, h.start_lt, by simp [hc], by simp; omega, ?_, ?_⟩
  · -- the new slot is offset `count`, after every old one
    intro i hi
    dsimp only [getAt] at hi ⊢
    rw [emplaceAt_apply]
    by_cases hic : i = r.count
    · rw [if_pos (by rw [hic]), hic, h.count_eq, List.getElem?_concat_length]
    · rw [if_neg fun he => hic (index_inj (by omega) (by omega) he),
        List.getElem?_append_left (by omega), ← h.view i (by omega)]
      rfl
  · intro j
    dsimp only
    rw [emplaceAt_apply]
    constructor
    · intro hj
      by_cases hjs : j = (r.start + r.count) % ChunkSize
      · exact ⟨r.count, Nat.lt_succ_self _, hjs⟩
      · rw [if_neg hjs, h.live] at hj
        obtain ⟨i, hi, rfl⟩ := hj
        exact ⟨i, by omega, rfl⟩
    · rintro ⟨i, hi, rfl⟩
      split_ifs
      · rfl
      · exact (h.live _).mpr ⟨i, by
          rcases Nat.lt_succ_iff_lt_or_eq.mp hi with hlt | heq
          · exact hlt
          · subst heq; contradiction, rfl⟩

theorem Holds.pop_front {y : T} {t : List T} (h : Holds ChunkSize r (y :: t)) :
    Holds ChunkSize (pop_front ChunkSize r) t := by
  have hpos := h.pos
  have hc : r.count = t.length + 1 := h.count_eq
  have hle : t.length + 1 ≤ ChunkSize := h.le
  refine ⟨Nat.mod_lt _ hpos, by simp [Ring.pop_front, hc], Nat.le_of_succ_le h.le, ?_, ?_⟩
  · -- offset `i` is the old offset `i + 1`, never the destroyed slot `start`
    intro i hi
    simp only [Ring.pop_front, getAt] at hi ⊢
    rw [destroyAt_apply, index_succ, if_neg fun he => ?_]
    · have := h.view (i + 1) (by omega)
      rw [getAt, List.getElem?_cons_succ] at this
      exact this
    · have := index_inj (s := r.start) (i := i + 1) (j := 0) (by omega) h.pos (by
        rw [he, index_zero h.start_lt])
      omega
  · intro j
    simp only [Ring.pop_front]
    rw [destroyAt_apply]
    constructor
    · intro hj
      split_ifs at hj with hjs
      · exact absurd hj (by simp)
      · obtain ⟨i, hi, rfl⟩ := (h.live _).mp hj
        cases i with
        | zero => exact absurd (index_zero h.start_lt) hjs
        | succ k => exact ⟨k, by omega, (index_succ _ _).symm⟩
    · rintro ⟨i, hi, rfl⟩
      rw [index_succ, if_neg fun he => by
        have := index_inj (s := r.start) (i := i + 1) (j := 0) (by omega) h.pos (by
          rw [he, index_zero h.start_lt])
        omega]
      exact (h.live _).mpr ⟨i + 1, by omega, rfl⟩

theorem Holds.pop_back (h : Holds ChunkSize r l) (hl : l ≠ []) :
    Holds ChunkSize (pop_back ChunkSize r) l.dropLast := by
  have hpos := h.pos
  have hc := h.count_eq
  have hle := h.le
  have hn : 0 < r.count := by rw [hc]; exact List.length_pos_of_ne_nil hl
  have hlast : r.start + r.count - 1 = r.start + (r.count - 1) := by omega
  refine ⟨h.start_lt, by simp [Ring.pop_back, hc], by simp; omega, ?_, ?_⟩
  · -- the destroyed slot is offset `count - 1`, after every remaining one
    intro i hi
    simp only [Ring.pop_back, getAt] at hi ⊢
    rw [destroyAt_apply, hlast,
      if_neg fun he => absurd (index_inj (by omega) (by omega) he) (by omega),
      List.getElem?_dropLast, if_pos (by omega), ← h.view i (by omega)]
    rfl
  · intro j
    simp only [Ring.pop_back]
    rw [destroyAt_apply, hlast]
    constructor
    · intro hj
      split_ifs at hj with hjs
      · exact absurd hj (by simp)
      · obtain ⟨i, hi, rfl⟩ := (h.live _).mp hj
        refine ⟨i, ?_, rfl⟩
        by_contra hge
        exact hjs (by rw [show i = r.count - 1 by omega])
    · rintro ⟨i, hi, rfl⟩
      rw [if_neg fun he => absurd (index_inj (by omega) (by omega) he) (by omega)]
      exact (h.live _).mpr ⟨i, by omega, rfl⟩

/-! ### Iterators -/

/-- `begin() + d` is the iterator at offset `d`. -/
theorem advance_begin (r : Ring T) (d : ℕ) :
    (begin r).advance ChunkSize d = ⟨(r.start + d) % ChunkSize, r.count - d⟩ := by
  simp only [begin, RingIter.advance, RingIter.mk.injEq, and_true]
  rw [show r.start + ChunkSize + d = r.start + d + ChunkSize by omega, Nat.add_mod_right]

/-- `--it` on the iterator at offset `k + 1` is the one at offset `k`. -/
theorem decrement_index (hpos : 0 < ChunkSize) (s k c : ℕ) :
    RingIter.decrement ChunkSize ⟨(s + (k + 1)) % ChunkSize, c⟩ = ⟨(s + k) % ChunkSize, c + 1⟩ := by
  simp only [RingIter.decrement, RingIter.mk.injEq, and_true]
  rw [Nat.add_sub_assoc (Nat.succ_le_of_lt hpos), Nat.mod_add_mod,
    show s + (k + 1) + (ChunkSize - 1) = s + k + ChunkSize by omega, Nat.add_mod_right]

/-- `++it` on the iterator at offset `k` is the one at offset `k + 1`. -/
theorem increment_index (s k c : ℕ) :
    RingIter.increment ChunkSize ⟨(s + k) % ChunkSize, c + 1⟩ = ⟨(s + (k + 1)) % ChunkSize, c⟩ := by
  simp only [RingIter.increment, Nat.add_sub_cancel, Nat.mod_add_mod, Nat.add_assoc]

theorem Holds.begin_advance_eq (h : Holds ChunkSize r l) {d : ℕ} (hd : d ≤ r.count) :
    (begin r).advance ChunkSize d = begin r ↔ d = 0 := by
  rw [advance_begin]
  constructor
  · intro he
    have := congrArg RingIter.count he
    simp only [begin] at this
    omega
  · rintro rfl
    simp [begin, Nat.mod_eq_of_lt h.start_lt]

theorem end_advance_eq (r : Ring T) {d : ℕ} (hd : d ≤ r.count) :
    (begin r).advance ChunkSize d = «end» ChunkSize r ↔ d = r.count := by
  rw [advance_begin]
  constructor
  · intro he
    have := congrArg RingIter.count he
    simp only [«end»] at this
    omega
  · rintro rfl
    simp [«end»]

/-- **`std::move_backward` over ring iterators**: from the iterators at offsets `d + m` and
`d + m + 1`, it moves each of the `m` objects at offsets `d .. d + m - 1` up by one slot, highest
first, and writes nothing else. Induction on the number `m` of moves left. -/
theorem moveBackward_spec (hpos : 0 < ChunkSize) {s d c : ℕ} :
    ∀ (m fuel : ℕ) (datac : ℕ → Option T), m < fuel → m < c → d + m < ChunkSize →
      (∀ k < m, moveBackward ChunkSize ⟨(s + d) % ChunkSize, c⟩ fuel datac
          ⟨(s + (d + m)) % ChunkSize, c - m⟩ ⟨(s + (d + m + 1)) % ChunkSize, c - (m + 1)⟩
          ((s + (d + k + 1)) % ChunkSize) = datac ((s + (d + k)) % ChunkSize)) ∧
      (∀ j, (∀ k < m, j ≠ (s + (d + k + 1)) % ChunkSize) →
        moveBackward ChunkSize ⟨(s + d) % ChunkSize, c⟩ fuel datac
          ⟨(s + (d + m)) % ChunkSize, c - m⟩ ⟨(s + (d + m + 1)) % ChunkSize, c - (m + 1)⟩ j =
          datac j) := by
  intro m
  induction m with
  | zero =>
    -- `first == last`: nothing moves
    intro fuel datac hfuel _ _
    obtain ⟨f, rfl⟩ : ∃ f, fuel = f + 1 := ⟨fuel - 1, by omega⟩
    rw [moveBackward, if_pos (by simp)]
    exact ⟨fun k hk => absurd hk (Nat.not_lt_zero _), fun _ _ => rfl⟩
  | succ m ih =>
    intro fuel datac hfuel hc hd
    obtain ⟨f, rfl⟩ : ∃ f, fuel = f + 1 := ⟨fuel - 1, by omega⟩
    have hne : (⟨(s + d) % ChunkSize, c⟩ : RingIter) ≠
        ⟨(s + (d + (m + 1))) % ChunkSize, c - (m + 1)⟩ :=
      fun he => by
        have := congrArg RingIter.count he
        simp only at this
        omega
    rw [moveBackward, if_neg hne, show d + (m + 1) = d + m + 1 by omega, decrement_index hpos,
      decrement_index hpos, show c - (m + 1) + 1 = c - m by omega,
      show c - (m + 1 + 1) + 1 = c - (m + 1) by omega]
    -- one move, from offset `d + m` to `d + m + 1`; the rest by induction
    obtain ⟨ihk, ihj⟩ := ih f (update datac ((s + (d + m + 1)) % ChunkSize)
      (datac ((s + (d + m)) % ChunkSize))) (by omega) (by omega) (by omega)
    have hfar : ∀ k < m, (s + (d + m + 1)) % ChunkSize ≠ (s + (d + k + 1)) % ChunkSize :=
      fun k hk he => absurd (index_inj (by omega) (by omega) he) (by omega)
    refine ⟨fun k hk => ?_, fun j hj => ?_⟩
    · rcases Nat.lt_succ_iff_lt_or_eq.mp hk with hk | rfl
      · rw [ihk k hk, update_of_ne fun he => absurd (index_inj (by omega) (by omega) he) (by omega)]
      · rw [ihj _ hfar, update_self]
    · rw [ihj j fun k hk => hj k (Nat.lt_succ_of_lt hk), update_of_ne (hj m (Nat.lt_succ_self m))]

theorem retreat_one (it : RingIter) : it.retreat ChunkSize 1 = it.decrement ChunkSize := rfl

/-- **`emplace` in the middle** (at offset `0 < d < count`): `emplace_back()` adds a default
object at offset `count`, `std::move_backward` shifts offsets `d .. count - 1` up by one, and
`x` is constructed at offset `d`. -/
theorem Holds.emplace_middle [Inhabited T] (h : Holds ChunkSize r l) (hl : l.length < ChunkSize)
    {d : ℕ} (hd0 : 0 < d) (hdn : d < r.count) (x : T) :
    ∃ r', emplace ChunkSize r ((begin r).advance ChunkSize d) x = some r' ∧
      Holds ChunkSize r' (l.insertIdx d x) := by
  have hpos := h.pos
  have hc := h.count_eq
  have hle := h.le
  have hn : r.count ≠ ChunkSize := by omega
  obtain ⟨r₁, he₁, h₁⟩ := h.push_back hl default
  have hr₁ : r₁ = ⟨emplaceAt r.datac ((r.start + r.count) % ChunkSize) default, r.start,
      r.count + 1⟩ := by
    rw [emplace_back, if_neg hn] at he₁
    exact (Option.some_inj.mp he₁).symm
  have hstart : r₁.start = r.start := by rw [hr₁]
  have hcount : r₁.count = r.count + 1 := by rw [hr₁]
  have hdist : ((begin r).distance_to ((begin r).advance ChunkSize d)).toNat = d := by
    rw [advance_begin]
    simp only [RingIter.distance_to, begin]
    omega
  -- the iterators `begin() + d`, `end() - 1` and `end()` of the grown ring
  have hfirst : (begin r₁).advance ChunkSize d = ⟨(r.start + d) % ChunkSize, r.count + 1 - d⟩ := by
    rw [advance_begin, hstart, hcount]
  have hdlast : «end» ChunkSize r₁ = ⟨(r.start + (r.count + 1)) % ChunkSize, 0⟩ := by
    rw [«end», hstart, hcount]
  have hlast : («end» ChunkSize r₁).retreat ChunkSize 1 = ⟨(r.start + r.count) % ChunkSize, 1⟩ := by
    rw [retreat_one, hdlast, decrement_index hpos]
  obtain ⟨hmoved, hkept⟩ := moveBackward_spec hpos (s := r.start) (d := d) (c := r.count + 1 - d)
    (r.count - d) r₁.count r₁.datac (by omega) (by omega) (by omega)
  rw [Nat.add_sub_cancel' hdn.le, show r.count + 1 - d - (r.count - d) = 1 by omega,
    show r.count + 1 - d - (r.count - d + 1) = 0 by omega] at hmoved hkept
  obtain ⟨D, hD⟩ : ∃ D, moveBackward ChunkSize ⟨(r.start + d) % ChunkSize, r.count + 1 - d⟩
      r₁.count r₁.datac ⟨(r.start + r.count) % ChunkSize, 1⟩
      ⟨(r.start + (r.count + 1)) % ChunkSize, 0⟩ = D := ⟨_, rfl⟩
  rw [hD] at hmoved hkept
  -- what the grown ring held: `l` and then the default object
  have hview₁ : ∀ i < r.count, r₁.datac ((r.start + i) % ChunkSize) = l[i]? := fun i hi => by
    have := h₁.view i (by omega)
    rw [List.getElem?_append_left (by omega)] at this
    rw [← hstart]
    exact this
  refine ⟨⟨emplaceAt (destroyAt D ((r.start + d) % ChunkSize)) ((r.start + d) % ChunkSize) x,
    r.start, r.count + 1⟩, ?_, h.start_lt, ?_, ?_, ?_, ?_⟩
  · rw [Ring.emplace, if_neg hn, if_neg fun he => by
      have := (h.begin_advance_eq hdn.le).mp he
      omega, if_neg fun he => by
      have := (end_advance_eq r hdn.le).mp he
      omega, hdist, he₁]
    dsimp only
    rw [hfirst, hlast, hdlast, hD, hstart, hcount]
  · rw [List.length_insertIdx_of_le_length (by omega), hc]
  · rw [List.length_insertIdx_of_le_length (by omega)]
    omega
  · -- offsets below `d` are untouched, `d` holds `x`, and each one above holds its lower
    -- neighbour's object
    intro i hi
    simp only [getAt] at hi ⊢
    rw [emplaceAt_apply, destroyAt_apply]
    rcases lt_trichotomy i d with hid | rfl | hid
    · have hne : (r.start + i) % ChunkSize ≠ (r.start + d) % ChunkSize :=
        fun he => absurd (index_inj (by omega) (by omega) he) (by omega)
      rw [if_neg hne, if_neg hne, hkept _ fun k _ he => absurd (index_inj (by omega) (by omega) he)
        (by omega), List.getElem?_insertIdx_of_lt hid, hview₁ i (by omega)]
    · rw [if_pos rfl, List.getElem?_insertIdx_self, if_pos (by omega)]
    · obtain ⟨k, rfl⟩ : ∃ k, i = d + k + 1 := ⟨i - d - 1, by omega⟩
      have hne : (r.start + (d + k + 1)) % ChunkSize ≠ (r.start + d) % ChunkSize :=
        fun he => absurd (index_inj (by omega) (by omega) he) (by omega)
      rw [if_neg hne, if_neg hne, hmoved k (by omega), List.getElem?_insertIdx_of_gt hid,
        show d + k + 1 - 1 = d + k by omega, hview₁ (d + k) (by omega)]
  · -- the live slots are offsets `0 .. count`: `d` is constructed again, and every slot moved
    -- to holds a live object
    have hlive₁ : ∀ j, (r₁.datac j).isSome ↔ ∃ i < r.count + 1, j = (r.start + i) % ChunkSize := by
      intro j
      rw [h₁.live, hstart, hcount]
    intro j
    simp only
    rw [emplaceAt_apply, destroyAt_apply]
    constructor
    · intro hj
      split_ifs at hj with hjd
      · exact ⟨d, by omega, hjd⟩
      · by_cases htarget : ∃ k < r.count - d, j = (r.start + (d + k + 1)) % ChunkSize
        · obtain ⟨k, hk, rfl⟩ := htarget
          exact ⟨d + k + 1, by omega, rfl⟩
        · rw [hkept j fun k hk he => htarget ⟨k, hk, he⟩] at hj
          exact (hlive₁ j).mp hj
    · rintro ⟨i, hi, rfl⟩
      split_ifs with hjd
      · rfl
      · by_cases htarget : ∃ k < r.count - d, (r.start + i) % ChunkSize =
            (r.start + (d + k + 1)) % ChunkSize
        · obtain ⟨k, hk, he⟩ := htarget
          rw [he, hmoved k hk]
          exact (hlive₁ _).mpr ⟨d + k, by omega, rfl⟩
        · rw [hkept _ fun k hk he => htarget ⟨k, hk, he⟩]
          exact (hlive₁ _).mpr ⟨i, hi, rfl⟩

/-- **`emplace(begin() + d, x)`** inserts `x` at index `d`, at `begin()`, at `end()` and in
between. -/
theorem Holds.emplace [Inhabited T] (h : Holds ChunkSize r l) (hl : l.length < ChunkSize) {d : ℕ}
    (hd : d ≤ l.length) (x : T) :
    ∃ r', emplace ChunkSize r ((begin r).advance ChunkSize d) x = some r' ∧
      Holds ChunkSize r' (l.insertIdx d x) := by
  have hc := h.count_eq
  have hn : r.count ≠ ChunkSize := by omega
  by_cases hd0 : d = 0
  · -- at `begin()`, as `emplace_front`
    subst hd0
    obtain ⟨r', he, hr'⟩ := h.push_front hl x
    refine ⟨r', ?_, by rw [List.insertIdx_zero]; exact hr'⟩
    rw [Ring.emplace, if_neg hn, if_pos ((h.begin_advance_eq (Nat.zero_le _)).mpr rfl)]
    rw [emplace_front, if_neg hn] at he
    exact he
  by_cases hdn : d = r.count
  · -- at `end()`, as `emplace_back`
    obtain ⟨r', he, hr'⟩ := h.push_back hl x
    refine ⟨r', ?_, by rw [hdn, hc, List.insertIdx_length_self]; exact hr'⟩
    rw [Ring.emplace, if_neg hn, if_neg fun he => hd0 ((h.begin_advance_eq (by omega)).mp he),
      if_pos ((end_advance_eq r (by omega)).mpr hdn)]
    rw [emplace_back, if_neg hn] at he
    exact he
  · exact h.emplace_middle hl (Nat.pos_of_ne_zero hd0) (by omega) x

/-- **One allowed operation** keeps `Holds` against the reference list. -/
theorem Holds.step [Inhabited T] (h : Holds ChunkSize r l) {op : RingOp T}
    (hop : Allowed ChunkSize l op) :
    ∃ r', step ChunkSize r op = some r' ∧ Holds ChunkSize r' (refStep l op) := by
  cases op with
  | push_front x => exact h.push_front hop x
  | push_back x => exact h.push_back hop x
  | pop_front =>
    obtain ⟨y, t, rfl⟩ := List.exists_cons_of_length_pos hop
    exact ⟨_, rfl, h.pop_front⟩
  | pop_back => exact ⟨_, rfl, h.pop_back (List.ne_nil_of_length_pos hop)⟩
  | emplace d x => exact h.emplace hop.1 hop.2 x

/-- From the iterator at offset `k`, the visit reads offsets `k .. count - 1` and stops at
`end()`; induction on the number `m` of elements left. -/
theorem walk_from (r : Ring T) :
    ∀ (m k fuel : ℕ), k + m = r.count → m < fuel →
      walk ChunkSize r fuel ⟨(r.start + k) % ChunkSize, m⟩ =
        (List.range' k m).map (getAt ChunkSize r) := by
  intro m
  induction m with
  | zero =>
    intro k fuel hk hfuel
    obtain ⟨f, rfl⟩ : ∃ f, fuel = f + 1 := ⟨fuel - 1, by omega⟩
    rw [walk, if_pos (by rw [«end», ← hk, Nat.add_zero])]
    rfl
  | succ m ih =>
    intro k fuel hk hfuel
    obtain ⟨f, rfl⟩ : ∃ f, fuel = f + 1 := ⟨fuel - 1, by omega⟩
    have hne : (⟨(r.start + k) % ChunkSize, m + 1⟩ : RingIter) ≠ «end» ChunkSize r := fun he => by
      have := congrArg RingIter.count he
      simp [«end»] at this
    rw [walk, if_neg hne, increment_index, ih (k + 1) f (by omega) (by omega), List.range'_succ,
      List.map_cons]
    rfl

/-- **Iterating from `begin()` to `end()`** visits the list in order, and
`std::distance(begin(), end()) = size()`. -/
theorem Holds.walk_begin (h : Holds ChunkSize r l) {fuel : ℕ} (hfuel : r.count < fuel) :
    walk ChunkSize r fuel (begin r) = l.map some ∧
      (begin r).distance_to («end» ChunkSize r) = r.count := by
  refine ⟨?_, by simp [RingIter.distance_to, begin, «end»]⟩
  have hbegin : begin r = ⟨(r.start + 0) % ChunkSize, r.count⟩ := by
    rw [index_zero h.start_lt]
    rfl
  rw [hbegin, walk_from r r.count 0 fuel (Nat.zero_add _) hfuel]
  refine List.ext_getElem (by simp [h.count_eq]) fun i hi₁ hi₂ => ?_
  simp only [List.getElem_map, List.getElem_range', Nat.zero_add, Nat.one_mul]
  have hv := h.view i (by simpa using hi₁)
  rw [List.getElem?_eq_getElem (by simpa using hi₂)] at hv
  exact hv

theorem holds_empty (hpos : 0 < ChunkSize) : Holds ChunkSize (empty : Ring T) [] :=
  ⟨hpos, rfl, Nat.zero_le _, fun _ hi => absurd hi (Nat.not_lt_zero _),
    fun j => by simp [empty]⟩

/-! ### The elements and `extract_front`, `extract_back` -/

theorem filterMap_getElem?_range (l : List T) :
    (List.range l.length).filterMap (fun i => l[i]?) = l := by
  induction l with
  | nil => rfl
  | cons a l ih =>
    rw [List.length_cons, List.range_succ_eq_map, List.filterMap_cons, List.filterMap_map]
    exact congrArg (a :: ·) ih

/-- A ring's elements are the list it holds. -/
theorem Holds.toList_eq (h : Holds ChunkSize r l) : toList ChunkSize r = l := by
  rw [toList, h.count_eq]
  conv_rhs => rw [← filterMap_getElem?_range l]
  refine List.filterMap_congr fun i hi => ?_
  exact h.view i (h.count_eq ▸ List.mem_range.mp hi)

theorem Holds.extract_front_cons {y : T} {t : List T} (h : Holds ChunkSize r (y :: t)) :
    Ring.extract_front ChunkSize r = (Ring.pop_front ChunkSize r, some y) := by
  have hc : r.count = t.length + 1 := h.count_eq
  have hfront : front r = getAt ChunkSize r 0 := by
    rw [getAt, index_zero h.start_lt]
    rfl
  rw [Ring.extract_front, if_neg (by omega), hfront, h.view 0 (by omega)]
  rfl

theorem Holds.extract_front_nil (h : Holds ChunkSize r []) :
    Ring.extract_front ChunkSize r = (r, none) :=
  if_pos h.count_eq

/-- `extract_back()` on a non-empty ring returns the last element of its list. -/
theorem Holds.extract_back (h : Holds ChunkSize r l) (hl : l ≠ []) :
    Ring.extract_back ChunkSize r = (Ring.pop_back ChunkSize r, some (l.getLast hl)) := by
  have hc := h.count_eq
  have hn : r.count ≠ 0 := by rw [hc]; exact (List.length_pos_of_ne_nil hl).ne'
  have hback : back ChunkSize r = getAt ChunkSize r (r.count - 1) := by
    rw [getAt, back, show r.start + r.count - 1 = r.start + (r.count - 1) by omega]
  rw [Ring.extract_back, if_neg hn, hback, h.view _ (by omega), hc, List.getLast_eq_getElem,
    List.getElem?_eq_getElem]

theorem Holds.extract_back_nil (h : Holds ChunkSize r []) :
    Ring.extract_back ChunkSize r = (r, none) :=
  if_pos h.count_eq

/-- **The ring in exact arithmetic against the bounded list**: for every `ChunkSize ≥ 1` and
every sequence of `push_front`, `push_back`, `pop_front`, `pop_back` and `emplace(begin() + d, x)`
each applied when allowed, starting from the empty ring, no operation fails; `getAt(0 .. size -
1)` is the reference list; the live slots are exactly `(start + i) % ChunkSize` for `i < count`;
and iterating from `begin()` to `end()` visits the list in order, with
`std::distance(begin(), end()) = size()`. -/
theorem run_holds [Inhabited T] (hpos : 0 < ChunkSize) (ops : List (RingOp T))
    (hops : AllAllowed ChunkSize [] ops) :
    ∃ r, run ChunkSize empty ops = some r ∧ Holds ChunkSize r (refRun [] ops) ∧
      walk ChunkSize r (r.count + 1) (begin r) = (refRun [] ops).map some ∧
      (begin r).distance_to («end» ChunkSize r) = r.count := by
  -- induction over the operations, from any ring that holds its list
  have hrun : ∀ (ops : List (RingOp T)) (r : Ring T) l, Holds ChunkSize r l →
      AllAllowed ChunkSize l ops →
      ∃ r', run ChunkSize r ops = some r' ∧ Holds ChunkSize r' (ops.foldl refStep l) := by
    intro ops
    induction ops with
    | nil => exact fun r l h _ => ⟨r, rfl, h⟩
    | cons op ops ih =>
      intro r l h hall
      obtain ⟨r', hstep, h'⟩ := h.step hall.1
      obtain ⟨r'', hr'', h''⟩ := ih r' _ h' hall.2
      exact ⟨r'', by rw [run, hstep, Option.bind_some, hr''], h''⟩
  obtain ⟨r, hr, h⟩ := hrun ops empty [] (holds_empty hpos) hops
  exact ⟨r, hr, h, h.walk_begin (Nat.lt_succ_self _)⟩

end Ring

/-! ## 4. `FixedSizeRing` in `unsigned` words

`ChunkSize` is an `unsigned` template argument, and `start`, `count` and an iterator's `cur` and
`count` are `unsigned`s: every sum and difference the source takes of them wraps at `2 ^ 32`, and
`Iterator::advance` computes in `ptrdiff_t`. Section 3 is the ring in exact arithmetic. Here every
wrap is written out; while `ChunkSize ≤ 2 ^ 31` nothing wraps on a ring that keeps `Holds`, and
each operation is the exact one (`step_eq`, `run_eq`). The chunks of `Chunk.h` take an
`int ChunkSize`, below `2 ^ 31`. -/

namespace FixedSizeRing

open Galois.Ring

variable (ChunkSize : ℕ)

/-- `Iterator::increment()`: `count -= 1` and `cur = (cur + 1) % ChunkSize`. -/
def increment (it : RingIter) : RingIter :=
  ⟨(it.cur + 1) % 2 ^ 32 % ChunkSize, (it.count + 2 ^ 32 - 1) % 2 ^ 32⟩

/-- `Iterator::decrement()`: `count += 1` and `cur = (cur + ChunkSize - 1) % ChunkSize`. -/
def decrement (it : RingIter) : RingIter :=
  ⟨(it.cur + ChunkSize + 2 ^ 32 - 1) % 2 ^ 32 % ChunkSize, (it.count + 1) % 2 ^ 32⟩

/-- `Iterator::advance(x)` for a `ptrdiff_t x`: `count -= x` and
`cur = (cur + ChunkSize + x) % ChunkSize`, where `cur + ChunkSize` is an `unsigned`, adding `x`
gives a `ptrdiff_t`, `%` truncates, and each result is stored back into an `unsigned`. -/
def advance (it : RingIter) (x : ℤ) : RingIter :=
  ⟨(((((it.cur + ChunkSize) % 2 ^ 32 : ℕ) : ℤ) + x).tmod ChunkSize % 2 ^ 32).toNat,
    (((it.count : ℤ) - x) % 2 ^ 32).toNat⟩

def «end» (r : Ring T) : RingIter := ⟨(r.start + r.count) % 2 ^ 32 % ChunkSize, 0⟩

/-- `getAt(x)`: the slot `(start + x) % ChunkSize`, with `start + x` an `unsigned`. -/
def getAt (r : Ring T) (x : ℕ) : Option T := r.datac ((r.start + x) % 2 ^ 32 % ChunkSize)

def emplace_front (r : Ring T) (x : T) : Option (Ring T) :=
  if r.count = ChunkSize then none
  else
    let start := (r.start + ChunkSize + 2 ^ 32 - 1) % 2 ^ 32 % ChunkSize
    some ⟨emplaceAt r.datac start x, start, (r.count + 1) % 2 ^ 32⟩

def emplace_back (r : Ring T) (x : T) : Option (Ring T) :=
  if r.count = ChunkSize then none
  else some ⟨emplaceAt r.datac ((r.start + r.count) % 2 ^ 32 % ChunkSize) x, r.start,
    (r.count + 1) % 2 ^ 32⟩

def pop_front (r : Ring T) : Ring T :=
  ⟨destroyAt r.datac r.start, (r.start + 1) % 2 ^ 32 % ChunkSize, (r.count + 2 ^ 32 - 1) % 2 ^ 32⟩

def pop_back (r : Ring T) : Ring T :=
  ⟨destroyAt r.datac ((r.start + r.count + 2 ^ 32 - 1) % 2 ^ 32 % ChunkSize), r.start,
    (r.count + 2 ^ 32 - 1) % 2 ^ 32⟩

/-- `std::move_backward(first, last, d_last)` over ring iterators, at most `fuel` moves. -/
def moveBackward (first : RingIter) : ℕ → (ℕ → Option T) → RingIter → RingIter → ℕ → Option T
  | 0, datac, _, _ => datac
  | fuel + 1, datac, last, dLast =>
    if first = last then datac
    else
      moveBackward first fuel
        (update datac (decrement ChunkSize dLast).cur (datac (decrement ChunkSize last).cur))
        (decrement ChunkSize last) (decrement ChunkSize dLast)

/-- `emplace(pos, x)`: at `begin()` and at `end()` as `emplace_front` and `emplace_back` do;
elsewhere at the `ptrdiff_t d = std::distance(begin(), pos)`, with the slot
`i = (start + d) % ChunkSize` computed in `ptrdiff_t` and stored in an `unsigned`. -/
def emplace [Inhabited T] (r : Ring T) (pos : RingIter) (x : T) : Option (Ring T) :=
  if r.count = ChunkSize then none
  else if pos = begin r then
    let i := (r.start + ChunkSize + 2 ^ 32 - 1) % 2 ^ 32 % ChunkSize
    some ⟨emplaceAt r.datac i x, i, (r.count + 1) % 2 ^ 32⟩
  else if pos = «end» ChunkSize r then
    some ⟨emplaceAt r.datac ((r.start + r.count) % 2 ^ 32 % ChunkSize) x, r.start,
      (r.count + 1) % 2 ^ 32⟩
  else
    let d := (begin r).distance_to pos
    let i := (((r.start : ℤ) + d).tmod ChunkSize % 2 ^ 32).toNat
    match emplace_back ChunkSize r default with
    | none => none
    | some r₁ =>
      let datac := moveBackward ChunkSize (advance ChunkSize (begin r₁) d) r₁.count r₁.datac
        (advance ChunkSize («end» ChunkSize r₁) (-1)) («end» ChunkSize r₁)
      some ⟨emplaceAt (destroyAt datac i) i x, r₁.start, r₁.count⟩

/-- One operation; `emplace d x` is `emplace(begin() + d, x)`. -/
def step [Inhabited T] (r : Ring T) : RingOp T → Option (Ring T)
  | .push_front x => emplace_front ChunkSize r x
  | .push_back x => emplace_back ChunkSize r x
  | .pop_front => some (pop_front ChunkSize r)
  | .pop_back => some (pop_back ChunkSize r)
  | .emplace d x => emplace ChunkSize r (advance ChunkSize (begin r) d) x

/-- The ring after a sequence of operations; `none` once one of them returns null. -/
def run [Inhabited T] (r : Ring T) : List (RingOp T) → Option (Ring T)
  | [] => some r
  | op :: ops => (step ChunkSize r op).bind fun r' => run r' ops

/-- The visit from `it` to `end()`, at most `fuel` elements. -/
def walk (r : Ring T) : ℕ → RingIter → List (Option T)
  | 0, _ => []
  | fuel + 1, it =>
    if it = «end» ChunkSize r then [] else r.datac it.cur :: walk r fuel (increment ChunkSize it)

/-- `a - 1` in an `unsigned`, for `0 < a ≤ 2 ^ 32`, does not wrap. -/
theorem u32_pred {a : ℕ} (h₁ : 0 < a) (h₂ : a ≤ 2 ^ 32) : (a + 2 ^ 32 - 1) % 2 ^ 32 = a - 1 := by
  rw [show a + 2 ^ 32 - 1 = a - 1 + 2 ^ 32 by omega, Nat.add_mod_right, Nat.mod_eq_of_lt (by omega)]

section Words

variable {ChunkSize} (hC : ChunkSize ≤ 2 ^ 31) (hpos : 0 < ChunkSize)
include hC hpos

/-! ### Below `2 ^ 31` nothing wraps -/

theorem increment_eq {it : RingIter} (hcur : it.cur < ChunkSize) (hcount : 0 < it.count)
    (hc : it.count ≤ 2 ^ 32) : increment ChunkSize it = it.increment ChunkSize := by
  rw [increment, RingIter.increment, Nat.mod_eq_of_lt (a := it.cur + 1) (by omega),
    u32_pred hcount hc]

theorem decrement_eq {it : RingIter} (hcur : it.cur < ChunkSize)
    (hcount : it.count + 1 < 2 ^ 32) : decrement ChunkSize it = it.decrement ChunkSize := by
  rw [decrement, RingIter.decrement, u32_pred (by omega) (by omega),
    Nat.mod_eq_of_lt (a := it.count + 1) hcount]

/-- A `ptrdiff_t` that is a natural number, taken `% ChunkSize` and stored in an `unsigned`. -/
theorem toNat_tmod (n : ℕ) : (((n : ℤ).tmod ChunkSize % 2 ^ 32).toNat) = n % ChunkSize := by
  rw [← Int.ofNat_tmod, show ((2 : ℤ) ^ 32) = ((2 ^ 32 : ℕ) : ℤ) by norm_num, ← Int.natCast_mod,
    Int.toNat_natCast, Nat.mod_eq_of_lt (lt_of_lt_of_le (Nat.mod_lt _ hpos) (by omega))]

/-- `it + d` for `0 ≤ d ≤ count`. -/
theorem advance_eq {it : RingIter} {d : ℕ} (hcur : it.cur < ChunkSize) (hd : d ≤ it.count)
    (hcount : it.count < 2 ^ 32) : advance ChunkSize it d = it.advance ChunkSize d := by
  rw [advance, RingIter.advance, Nat.mod_eq_of_lt (a := it.cur + ChunkSize) (by omega),
    ← Nat.cast_add, toNat_tmod hC hpos]
  congr 1
  omega

/-- `it - 1`. -/
theorem advance_neg_one_eq {it : RingIter} (hcur : it.cur < ChunkSize)
    (hcount : it.count + 1 < 2 ^ 32) : advance ChunkSize it (-1) = it.retreat ChunkSize 1 := by
  have hcast : ((it.cur + ChunkSize : ℕ) : ℤ) + -1 = ((it.cur + ChunkSize - 1 : ℕ) : ℤ) := by
    omega
  rw [advance, RingIter.retreat, Nat.mod_eq_of_lt (a := it.cur + ChunkSize) (by omega), hcast,
    toNat_tmod hC hpos]
  congr 1
  omega

theorem end_eq {r : Ring T} (hs : r.start < ChunkSize) (hc : r.count ≤ ChunkSize) :
    «end» ChunkSize r = Ring.«end» ChunkSize r := by
  rw [«end», Ring.«end», Nat.mod_eq_of_lt (a := r.start + r.count) (by omega)]

theorem getAt_eq {r : Ring T} {x : ℕ} (hs : r.start < ChunkSize) (hx : x ≤ ChunkSize) :
    getAt ChunkSize r x = Ring.getAt ChunkSize r x := by
  rw [getAt, Ring.getAt, Nat.mod_eq_of_lt (a := r.start + x) (by omega)]

theorem emplace_front_eq {r : Ring T} (hs : r.start < ChunkSize) (hc : r.count ≤ ChunkSize)
    (x : T) : emplace_front ChunkSize r x = Ring.emplace_front ChunkSize r x := by
  unfold emplace_front Ring.emplace_front
  split_ifs with h
  · rfl
  · rw [u32_pred (by omega) (by omega), Nat.mod_eq_of_lt (a := r.count + 1) (by omega)]

theorem emplace_back_eq {r : Ring T} (hs : r.start < ChunkSize) (hc : r.count ≤ ChunkSize)
    (x : T) : emplace_back ChunkSize r x = Ring.emplace_back ChunkSize r x := by
  unfold emplace_back Ring.emplace_back
  split_ifs with h
  · rfl
  · rw [Nat.mod_eq_of_lt (a := r.start + r.count) (by omega),
      Nat.mod_eq_of_lt (a := r.count + 1) (by omega)]

theorem pop_front_eq {r : Ring T} (hs : r.start < ChunkSize) (hn : 0 < r.count)
    (hc : r.count ≤ ChunkSize) : pop_front ChunkSize r = Ring.pop_front ChunkSize r := by
  rw [pop_front, Ring.pop_front, Nat.mod_eq_of_lt (a := r.start + 1) (by omega),
    u32_pred hn (by omega)]

theorem pop_back_eq {r : Ring T} (hs : r.start < ChunkSize) (hn : 0 < r.count)
    (hc : r.count ≤ ChunkSize) : pop_back ChunkSize r = Ring.pop_back ChunkSize r := by
  rw [pop_back, Ring.pop_back, u32_pred (a := r.start + r.count) (by omega) (by omega),
    u32_pred hn (by omega)]

/-- `std::move_backward` moves the same objects while the iterators' counts stay below `2 ^ 32`;
induction on the fuel. -/
theorem moveBackward_eq (first : RingIter) (fuel : ℕ) :
    ∀ (datac : ℕ → Option T) (last dLast : RingIter), last.cur < ChunkSize →
      dLast.cur < ChunkSize → last.count + fuel < 2 ^ 32 → dLast.count + fuel < 2 ^ 32 →
      moveBackward ChunkSize first fuel datac last dLast =
        Ring.moveBackward ChunkSize first fuel datac last dLast := by
  induction fuel with
  | zero => exact fun _ _ _ _ _ _ _ => rfl
  | succ fuel ih =>
    intro datac last dLast h₁ h₂ h₃ h₄
    rw [moveBackward, Ring.moveBackward, decrement_eq hC hpos h₁ (by omega),
      decrement_eq hC hpos h₂ (by omega)]
    split_ifs
    · rfl
    · exact ih _ _ _ (Nat.mod_lt _ hpos) (Nat.mod_lt _ hpos)
        (by simp only [RingIter.decrement]; omega)
        (by simp only [RingIter.decrement]; omega)

/-- `emplace` at `begin() + d`, on a ring that holds a list shorter than `ChunkSize`. -/
theorem emplace_eq [Inhabited T] {r : Ring T} {l : List T} (h : Holds ChunkSize r l)
    (hl : l.length < ChunkSize) {d : ℕ} (hd : d ≤ l.length) (x : T) :
    emplace ChunkSize r (advance ChunkSize (begin r) d) x =
      Ring.emplace ChunkSize r ((begin r).advance ChunkSize d) x := by
  have hs := h.start_lt
  have hc := h.count_eq
  have hn : r.count ≠ ChunkSize := by omega
  rw [advance_eq hC hpos hs (by simp only [begin]; omega) (by simp only [begin]; omega)]
  have hdist : (begin r).distance_to ((begin r).advance ChunkSize d) = d := by
    rw [advance_begin]
    simp only [RingIter.distance_to, begin]
    omega
  obtain ⟨r₁, hr₁, hs₁, hc₁⟩ : ∃ r₁, Ring.emplace_back ChunkSize r default = some r₁ ∧
      r₁.start = r.start ∧ r₁.count = r.count + 1 :=
    ⟨⟨emplaceAt r.datac ((r.start + r.count) % ChunkSize) default, r.start, r.count + 1⟩,
      by rw [Ring.emplace_back, if_neg hn], rfl, rfl⟩
  unfold emplace Ring.emplace
  rw [if_neg hn, if_neg hn, end_eq hC hpos hs (by omega), emplace_back_eq hC hpos hs (by omega),
    hr₁]
  split_ifs with hb he
  · -- at `begin()`: `emplace_front`
    rw [u32_pred (by omega) (by omega), Nat.mod_eq_of_lt (a := r.count + 1) (by omega)]
  · -- at `end()`: `emplace_back`
    rw [Nat.mod_eq_of_lt (a := r.start + r.count) (by omega),
      Nat.mod_eq_of_lt (a := r.count + 1) (by omega)]
  · dsimp only
    rw [hdist, Int.toNat_natCast, ← Nat.cast_add, toNat_tmod hC hpos,
      advance_eq hC hpos (by simp only [begin]; omega) (by simp only [begin]; omega)
        (by simp only [begin]; omega),
      end_eq hC hpos (by omega) (by omega),
      advance_neg_one_eq hC hpos (Nat.mod_lt _ hpos) (by simp only [Ring.«end»]; omega),
      moveBackward_eq hC hpos _ _ _ _ _ ?_ ?_ ?_ ?_]
    · exact Nat.mod_lt _ hpos
    · exact Nat.mod_lt _ hpos
    · simp only [RingIter.retreat, Ring.«end»]
      omega
    · simp only [Ring.«end»]
      omega

/-- The visit from the iterator at offset `k` reads the same slots as in exact arithmetic;
induction on the number `m` of elements left. -/
theorem walk_eq {r : Ring T} (hs : r.start < ChunkSize) (hc : r.count ≤ ChunkSize) (m : ℕ) :
    ∀ k fuel, k + m = r.count →
      walk ChunkSize r fuel ⟨(r.start + k) % ChunkSize, m⟩ =
        Ring.walk ChunkSize r fuel ⟨(r.start + k) % ChunkSize, m⟩ := by
  induction m with
  | zero =>
    rintro k (_ | f) hk
    · rfl
    · have he : (⟨(r.start + k) % ChunkSize, 0⟩ : RingIter) = Ring.«end» ChunkSize r := by
        rw [Ring.«end», ← hk, Nat.add_zero]
      rw [walk, Ring.walk, end_eq hC hpos hs hc, if_pos he, if_pos he]
  | succ m ih =>
    rintro k (_ | f) hk
    · rfl
    · rw [walk, Ring.walk, end_eq hC hpos hs hc,
        increment_eq hC hpos (Nat.mod_lt _ hpos) (Nat.succ_pos m) (by show m + 1 ≤ 2 ^ 32; omega),
        increment_index,
        ih (k + 1) f (by omega)]

/-- One allowed operation on a ring that holds its list is the exact one. -/
theorem step_eq [Inhabited T] {r : Ring T} {l : List T} (h : Holds ChunkSize r l)
    {op : RingOp T} (hop : Allowed ChunkSize l op) :
    step ChunkSize r op = Ring.step ChunkSize r op := by
  have hs := h.start_lt
  have hc : r.count ≤ ChunkSize := h.count_eq ▸ h.le
  cases op with
  | push_front x => exact emplace_front_eq hC hpos hs hc x
  | push_back x => exact emplace_back_eq hC hpos hs hc x
  | pop_front => exact congrArg some (pop_front_eq hC hpos hs (h.count_eq ▸ hop) hc)
  | pop_back => exact congrArg some (pop_back_eq hC hpos hs (h.count_eq ▸ hop) hc)
  | emplace d x => exact emplace_eq hC hpos h hop.1 hop.2 x

/-- A run of allowed operations is the exact run; induction over the operations, carried by
`Ring.Holds.step`. -/
theorem run_eq [Inhabited T] (ops : List (RingOp T)) :
    ∀ {r : Ring T} {l : List T}, Holds ChunkSize r l → AllAllowed ChunkSize l ops →
      run ChunkSize r ops = Ring.run ChunkSize r ops := by
  induction ops with
  | nil => exact fun _ _ => rfl
  | cons op ops ih =>
    intro r l h hall
    obtain ⟨r', hstep, h'⟩ := h.step hall.1
    rw [run, Ring.run, step_eq hC hpos h hall.1, hstep, Option.bind_some, Option.bind_some,
      ih h' hall.2]

end Words

/-- **`FixedSizeRing` against the bounded list**, with its `unsigned` words: for every
`1 ≤ ChunkSize ≤ 2 ^ 31` and every sequence of `push_front`, `push_back`, `pop_front`, `pop_back`
and `emplace(begin() + d, x)` each applied when allowed, starting from the empty ring, no
operation fails; `getAt(0 .. size - 1)` is the reference list; the live slots are exactly
`(start + i) % ChunkSize` for `i < count`; and iterating from `begin()` to `end()` visits the
list in order, with `std::distance(begin(), end()) = size()`. -/
theorem run_refines_list [Inhabited T] (hpos : 0 < ChunkSize) (hC : ChunkSize ≤ 2 ^ 31)
    (ops : List (RingOp T)) (hops : AllAllowed ChunkSize [] ops) :
    ∃ r, run ChunkSize empty ops = some r ∧ Holds ChunkSize r (refRun [] ops) ∧
      (∀ i < r.count, getAt ChunkSize r i = (refRun [] ops)[i]?) ∧
      walk ChunkSize r (r.count + 1) (begin r) = (refRun [] ops).map some ∧
      (begin r).distance_to («end» ChunkSize r) = r.count := by
  obtain ⟨r, hr, h, hwalk, hdist⟩ := run_holds hpos ops hops
  have hs := h.start_lt
  have hc : r.count ≤ ChunkSize := h.count_eq ▸ h.le
  have hbegin : begin r = ⟨(r.start + 0) % ChunkSize, r.count⟩ := by
    rw [index_zero hs]
    rfl
  refine ⟨r, (run_eq hC hpos ops (holds_empty hpos) hops).trans hr, h, fun i hi => ?_, ?_, ?_⟩
  · rw [getAt_eq hC hpos hs (by omega), h.view i hi]
  · rw [hbegin, walk_eq hC hpos hs hc r.count 0 _ (Nat.zero_add _), ← hbegin, hwalk]
  · rw [end_eq hC hpos hs hc, hdist]

theorem run_refines_list_four :
    0 < 4 ∧ 4 ≤ 2 ^ 31 ∧
      AllAllowed 4 [] [.push_back 1, .push_front 0, .emplace 1 5, .push_back 2, .pop_front] ∧
      ∃ r, run 4 empty [.push_back 1, .push_front 0, .emplace 1 5, .push_back 2, .pop_front] =
          some r ∧ Holds 4 r [5, 1, 2] ∧ (∀ i < r.count, getAt 4 r i = [5, 1, 2][i]?) ∧
        walk 4 r (r.count + 1) (begin r) = [5, 1, 2].map some ∧
        (begin r).distance_to («end» 4 r) = r.count := by
  have hops : AllAllowed 4 [] [RingOp.push_back 1, .push_front 0, .emplace 1 5, .push_back 2,
      .pop_front] := by
    simp [AllAllowed, Allowed, refStep]
  exact ⟨by decide, by decide, hops, run_refines_list 4 (by decide) (by decide) _ hops⟩

/-- At `ChunkSize = 2 ^ 32 - 1` the ring wraps: two `push_front`s on the empty ring move `start`
to `2 ^ 32 - 2` and then, as `start + ChunkSize - 1` wraps, to `2 ^ 32 - 4`, so `getAt(1)` reads
the slot `2 ^ 32 - 3`, which holds no object. -/
theorem run_wraps :
    AllAllowed (2 ^ 32 - 1) [] [RingOp.push_front 0, .push_front 1] ∧
      refRun [] [RingOp.push_front 0, .push_front 1] = [1, 0] ∧
      (run (2 ^ 32 - 1) (empty : Ring ℕ) [.push_front 0, .push_front 1]).map
          (fun r => (r.start, getAt (2 ^ 32 - 1) r 1)) = some (2 ^ 32 - 4, none) :=
  ⟨by simp [AllAllowed, Allowed, refStep], rfl, by decide⟩

end FixedSizeRing

end Galois
