import Galois.Concat

/-!
# TwoLevelIteratorA (TwoLevelIteratorA.h)

`TwoLevelIteratorA` walks the elements of a range of inner ranges as one sequence. Its state is
an outer iterator `m_outer` and an inner iterator (`base_reference()`) into `*m_outer`. Here the
inner ranges are the list `data`, with `m_outer_begin` at position 0 and `m_outer_end` at
`data.length`, and the inner iterator is an offset into its range. The tag
`CategoryOrTraversal` only chooses which operations the iterator offers, so one model serves
every tag; `advance` and `distance_to` dispatch on the category of the inner iterators, and the
model follows the random-access dispatch, with the step-by-step one as `advance_dispatch_input`.

* `seek_forward`, `seek_backward`, `increment`, `decrement`, `jump_forward`, `jump_backward`,
  `advance`, `distance_to`, `equal`, `make_two_level_iterator` -- the operations. A result of
  `none` is undefined behaviour or a failed assertion, and the loops that have no bound in the
  source take fuel;
* `Valid`, `idx` -- the iterators that point at an element or at `m_outer_end`, and their
  position in `data.flatten`.

`make_two_level_iterator_spec` and `walk_make_two_level_iterator` say that the pair of
iterators enumerates `data.flatten`; `increment_spec`, `decrement_spec`, `jump_forward_spec`,
`advance_spec` and `advance_dispatch_input_spec` that the moves change the position by one or
by `n`, and `decrement_increment`, `increment_decrement` that the two steps undo each other;
`distance_to_spec` that `distance_to` is the difference of the positions;
**`two_level_iterator_follows_positions`** collects them. `jump_backward` is
wrong as soon as it has to leave an inner range that is longer than one element:
`advance_back_across_ranges_stays` is a jump of three back that does not move.
-/

namespace Galois

/-- A `TwoLevelIteratorA` over the inner ranges `data`: the position `m_outer` of the outer
iterator and the offset `base` of the inner iterator into the inner range at `m_outer`. -/
structure TwoLevelIteratorA where
  m_outer : ℕ
  base : ℕ
  deriving DecidableEq, Repr

namespace TwoLevelIteratorA

open Concat

variable {α : Type}

/-! ## 1. The model -/

/-- `m_inner_end_fn(*m_outer)` as an offset: the length of the inner range at `o`, with no value
at `m_outer_end`, which must not be dereferenced. -/
def innerEnd (data : List (List α)) (o : ℕ) : Option ℕ := data[o]?.map List.length

/-- `safe_decrement(it, begin)` under `assert(!too_far)`: one step back, failing at `begin`. -/
def safeDecrement (x : ℕ) : Option ℕ := if x = 0 then none else some (x - 1)

/-- The loop of `seek_forward` over the inner ranges `rest` from outer position `o`: stop at the
beginning of the first non-empty one, or at `m_outer_end` with the inner iterator as it is. -/
def seekLoop : List (List α) → ℕ → ℕ → TwoLevelIteratorA
  | [], o, b => ⟨o, b⟩
  | r :: rest, o, _ => if r.length ≠ 0 then ⟨o, 0⟩ else seekLoop rest (o + 1) 0

/-- `seek_forward`: at the end of an inner range, go on to the first non-empty one after it. -/
def seek_forward (data : List (List α)) (it : TwoLevelIteratorA) : TwoLevelIteratorA :=
  if it.base ≠ lenAt data it.m_outer then it
  else seekLoop (data.drop (it.m_outer + 1)) (it.m_outer + 1) it.base

/-- `seek_backward` from outer position `o`: step the outer iterator back over empty inner
ranges and put the inner iterator at the end of the first non-empty one. -/
def seek_backward (data : List (List α)) : ℕ → Option TwoLevelIteratorA
  | 0 => do
    let e ← innerEnd data 0
    -- stepping back from `m_outer_begin` fails `assert(!too_far)`
    if e = 0 then none else some ⟨0, e⟩
  | o + 1 => do
    let e ← innerEnd data (o + 1)
    if e = 0 then seek_backward data o else some ⟨o + 1, e⟩

/-- `increment`: one step of the inner iterator, then `seek_forward`. Stepping past the end of
an inner range, or from `m_outer_end`, is undefined. -/
def increment (data : List (List α)) (it : TwoLevelIteratorA) : Option TwoLevelIteratorA := do
  let e ← innerEnd data it.m_outer
  if it.base < e then some (seek_forward data ⟨it.m_outer, it.base + 1⟩) else none

/-- `decrement`. Inside an inner range it is one step back. At `m_outer_end` or at the beginning
of an inner range (the source's first and third branches, which do the same) the outer iterator
steps back, `seek_backward` finds the end of the last non-empty range before, and the inner
iterator steps back from there. -/
def decrement (data : List (List α)) (it : TwoLevelIteratorA) : Option TwoLevelIteratorA :=
  if it.m_outer ≠ data.length ∧ it.base ≠ 0 then some ⟨it.m_outer, it.base - 1⟩
  else do
    let o ← safeDecrement it.m_outer
    let it' ← seek_backward data o
    let b ← safeDecrement it'.base
    return ⟨it'.m_outer, b⟩

/-- `jump_forward(n)`: take what is left of the inner range, up to `n`, and `seek_forward` when
that was all of it. -/
def jump_forward (data : List (List α)) : ℕ → ℕ → TwoLevelIteratorA → Option TwoLevelIteratorA
  | _, 0, it => some it
  | 0, _ + 1, _ => none
  | fuel + 1, n + 1, it => do
    let e ← innerEnd data it.m_outer
    let k := e - it.base
    let m := min k (n + 1)
    let it' : TwoLevelIteratorA := ⟨it.m_outer, it.base + m⟩
    jump_forward data fuel (n + 1 - m) (if m = k then seek_forward data it' else it')

/-- The loop of `jump_backward`, with `k` the offset of the inner iterator plus one. -/
def jumpBackwardLoop (data : List (List α)) :
    ℕ → ℕ → TwoLevelIteratorA → Option TwoLevelIteratorA
  | _, 0, it => some it
  | 0, _ + 1, _ => none
  | fuel + 1, n + 1, it =>
    let k := it.base + 1
    if k = 1 then do
      let it' ← decrement data it
      jumpBackwardLoop data fuel n it'
    else if k < n + 1 then do
      -- `seek_backward` from `m_outer` itself, whose inner range is not empty
      let it' ← seek_backward data it.m_outer
      jumpBackwardLoop data fuel (n + 1 - k) it'
    -- `std::advance(base, -n)` before the beginning of the inner range is undefined
    else if n + 1 ≤ it.base then some ⟨it.m_outer, it.base - (n + 1)⟩
    else none

/-- `jump_backward(n)`: one `decrement` first from `m_outer_end`, then the loop. -/
def jump_backward (data : List (List α)) (fuel n : ℕ) (it : TwoLevelIteratorA) :
    Option TwoLevelIteratorA :=
  if n ≠ 0 ∧ it.m_outer = data.length then do
    let it' ← decrement data it
    jumpBackwardLoop data fuel (n - 1) it'
  else jumpBackwardLoop data fuel n it

/-- `advance(n)` by `advance_dispatch` for random-access inner iterators. -/
def advance (data : List (List α)) (fuel : ℕ) (n : ℤ) (it : TwoLevelIteratorA) :
    Option TwoLevelIteratorA :=
  if n = 1 then increment data it
  else if n = -1 then decrement data it
  else if n < 0 then jump_backward data fuel n.natAbs it
  else if 0 < n then jump_forward data fuel n.toNat it
  else some it

/-- `n` applications of a move, stopping at the first that fails. -/
def repeatMove (move : TwoLevelIteratorA → Option TwoLevelIteratorA) :
    ℕ → TwoLevelIteratorA → Option TwoLevelIteratorA
  | 0, it => some it
  | n + 1, it => (move it).bind (repeatMove move n)

/-- `advance_dispatch` for input, forward and bidirectional inner iterators: `n` decrements or
`n` increments. -/
def advance_dispatch_input (data : List (List α)) (n : ℤ) (it : TwoLevelIteratorA) :
    Option TwoLevelIteratorA :=
  if n < 0 then repeatMove (decrement data) n.natAbs it
  else if 0 < n then repeatMove (increment data) n.toNat it
  else some it

/-- `equal`: two iterators at `m_outer_end` are equal whatever their inner iterators. -/
def equal (data : List (List α)) (it x : TwoLevelIteratorA) : Bool :=
  (it.m_outer = data.length && it.m_outer = x.m_outer) ||
    (it.m_outer = x.m_outer && it.base = x.base)

/-- The loop of `distance_to_dispatch` for random-access inner iterators: `me` walks to `x` by
the rest of each inner range, then by the offset of `x` in its own. -/
def distanceLoop (data : List (List α)) (x : TwoLevelIteratorA) :
    ℕ → ℤ → TwoLevelIteratorA → Option ℤ
  | 0, _, _ => none
  | fuel + 1, count, me =>
    -- `GALOIS_DIE("invalid iterator ...")`
    if me.m_outer = data.length then none
    else do
      let e ← innerEnd data me.m_outer
      let d : ℤ := if me.m_outer ≠ x.m_outer then (e : ℤ) - me.base else (x.base : ℤ) - me.base
      let me' ← advance data fuel d me
      if equal data me' x then some (count + d) else distanceLoop data x fuel (count + d) me'

/-- `distance_to(x)` for random-access inner iterators: the distance from `it` to `x`. -/
def distance_to (data : List (List α)) : ℕ → TwoLevelIteratorA → TwoLevelIteratorA → Option ℤ
  | 0, _, _ => none
  | fuel + 1, it, x =>
    if equal data it x then some 0
    else if it.m_outer = x.m_outer then some ((x.base : ℤ) - it.base)
    else if (x.m_outer : ℤ) - it.m_outer < 0 then (distance_to data fuel x it).map Neg.neg
    else distanceLoop data x fuel 0 it

/-- The constructor from an outer position: at the first element from `outer` on, or at
`m_outer_end`, whose inner iterator is never read. -/
def ofOuter (data : List (List α)) (outer : ℕ) : TwoLevelIteratorA :=
  if outer ≠ data.length then seek_forward data ⟨outer, 0⟩ else ⟨outer, 0⟩

/-- `make_two_level_iterator(outer_begin, outer_end)`: the iterators at the two ends. -/
def make_two_level_iterator (data : List (List α)) : TwoLevelIteratorA × TwoLevelIteratorA :=
  (ofOuter data 0, ofOuter data data.length)

/-- `operator*`: the element under the inner iterator; none at `m_outer_end`. -/
def deref (data : List (List α)) (it : TwoLevelIteratorA) : Option α :=
  (data.getD it.m_outer [])[it.base]?

/-- The elements that `for (it = first; it != last; ++it)` visits (the loop of `std::equal` in
the repository's test), within `fuel` steps. -/
def walk (data : List (List α)) : ℕ → TwoLevelIteratorA → TwoLevelIteratorA → Option (List α)
  | 0, _, _ => none
  | fuel + 1, it, last =>
    if equal data it last then some []
    else do
      let v ← deref data it
      let it' ← increment data it
      (walk data fuel it' last).map (v :: ·)

/-! ## 2. Positions in the concatenation -/

/-- An iterator that points at an element of its inner range, or is at `m_outer_end`. -/
def Valid (data : List (List α)) (it : TwoLevelIteratorA) : Prop :=
  Names data it.m_outer it.base

instance (data : List (List α)) (it : TwoLevelIteratorA) : Decidable (it.Valid data) :=
  inferInstanceAs (Decidable (Names _ _ _))

/-- The position of an iterator in `data.flatten`: the elements of the inner ranges before its
own plus its offset, and the length of `data.flatten` at `m_outer_end`. -/
def idx (data : List (List α)) (it : TwoLevelIteratorA) : ℕ :=
  pos data it.m_outer it.base

section Positions

variable {data : List (List α)} {it : TwoLevelIteratorA}

theorem innerEnd_of_lt {o : ℕ} (h : o < data.length) : innerEnd data o = some (lenAt data o) := by
  simp [innerEnd, lenAt, List.getElem?_eq_getElem h, List.getD_eq_getElem?_getD]

@[simp] theorem safeDecrement_zero : safeDecrement 0 = none := rfl

theorem safeDecrement_of_pos {x : ℕ} (h : 0 < x) : safeDecrement x = some (x - 1) :=
  if_neg (Nat.pos_iff_ne_zero.mp h)

/-! The iterator-level names of the facts about pairs in `Concat`. -/

theorem Valid.le (hv : it.Valid data) : it.m_outer ≤ data.length := Names.le hv

theorem Valid.lt (hv : it.Valid data) (hne : it.m_outer ≠ data.length) :
    it.base < lenAt data it.m_outer :=
  Names.lt hv hne

theorem Valid.lt_length (hv : it.Valid data) (hne : it.m_outer ≠ data.length) :
    it.m_outer < data.length :=
  Names.lt_length hv hne

theorem idx_mk_of_lt {o b : ℕ} (h : o < data.length) : idx data ⟨o, b⟩ = before data o + b :=
  pos_of_lt h

theorem idx_of_lt (h : it.m_outer < data.length) : idx data it = before data it.m_outer + it.base :=
  pos_of_lt h

theorem idx_of_end (h : it.m_outer = data.length) : idx data it = data.flatten.length :=
  pos_of_end h

theorem idx_lt_of_ne (hv : it.Valid data) (hne : it.m_outer ≠ data.length) :
    idx data it < data.flatten.length :=
  pos_lt_of_ne hv hne

theorem idx_le (hv : it.Valid data) : idx data it ≤ data.flatten.length := pos_le hv

theorem before_le_idx (hv : it.Valid data) : before data it.m_outer ≤ idx data it :=
  before_le_pos hv

theorem m_outer_le_of_idx_le {a b : TwoLevelIteratorA} (ha : a.Valid data) (hb : b.Valid data)
    (h : idx data a ≤ idx data b) : a.m_outer ≤ b.m_outer :=
  le_of_pos_le ha hb h

theorem idx_lt_of_m_outer_lt {a b : TwoLevelIteratorA} (ha : a.Valid data) (hb : b.Valid data)
    (h : a.m_outer < b.m_outer) : idx data a < idx data b :=
  pos_lt_pos_of_lt ha hb h

/-- **`equal` is equality of positions** on valid iterators. -/
theorem equal_iff {a b : TwoLevelIteratorA} (ha : a.Valid data) (hb : b.Valid data) :
    equal data a b = true ↔ idx data a = idx data b := by
  rw [idx, idx, pos_eq_iff ha hb]
  simp [equal]

end Positions

/-! ## 3. The moves keep to the positions -/

section Moves

variable {data : List (List α)} {it : TwoLevelIteratorA}

/-- The loop of `seek_forward` from outer position `o` stops at the first element from the
beginning of inner range `o` on, or at `m_outer_end`. -/
theorem seekLoop_spec {rest : List (List α)} {o : ℕ} (b : ℕ) (ho : o ≤ data.length)
    (hrest : data.drop o = rest) :
    (seekLoop rest o b).Valid data ∧ idx data (seekLoop rest o b) = before data o ∧
      o ≤ (seekLoop rest o b).m_outer := by
  induction rest generalizing o b with
  | nil =>
    -- no inner range is left: `m_outer_end`
    have hend : o = data.length := Nat.le_antisymm ho (List.drop_eq_nil_iff.mp hrest)
    refine ⟨Or.inl hend, ?_, Nat.le_refl _⟩
    rw [seekLoop, idx_of_end hend, before_of_length_le (Nat.le_of_eq hend.symm)]
  | cons r rest ih =>
    have hlt : o < data.length := by
      refine Nat.lt_of_not_le fun hge => ?_
      rw [List.drop_eq_nil_of_le hge] at hrest
      cases hrest
    rw [List.drop_eq_getElem_cons hlt, List.cons.injEq] at hrest
    obtain ⟨rfl, hrest⟩ := hrest
    have hlen : lenAt data o = data[o].length := by
      simp [lenAt, List.getD_eq_getElem?_getD, List.getElem?_eq_getElem hlt]
    by_cases hr : data[o].length ≠ 0
    · -- the inner range at `o` is not empty: its beginning
      rw [seekLoop, if_pos hr]
      exact ⟨Or.inr (by rw [hlen]; exact Nat.pos_of_ne_zero hr), idx_mk_of_lt hlt, Nat.le_refl _⟩
    · -- an empty inner range adds nothing before the next
      rw [seekLoop, if_neg hr]
      obtain ⟨hv, hidx, hle⟩ := ih 0 (Nat.succ_le_of_lt hlt) hrest
      refine ⟨hv, ?_, Nat.le_of_succ_le hle⟩
      rw [hidx, before_succ, hlen, Nat.eq_zero_of_not_pos (mt Nat.pos_iff_ne_zero.mp hr),
        Nat.add_zero]

/-- At the end of inner range `o`, `seek_forward` is the loop from `o + 1`. -/
theorem seek_forward_of_end (o : ℕ) :
    seek_forward data ⟨o, lenAt data o⟩ = seekLoop (data.drop (o + 1)) (o + 1) (lenAt data o) :=
  if_neg (not_not.mpr rfl)

/-- **`seek_forward` keeps the position** and makes the iterator valid. -/
theorem seek_forward_spec {o b : ℕ} (ho : o < data.length) (hb : b ≤ lenAt data o) :
    (seek_forward data ⟨o, b⟩).Valid data ∧
      idx data (seek_forward data ⟨o, b⟩) = before data o + b := by
  by_cases hend : b = lenAt data o
  · subst hend
    obtain ⟨hv, hidx, -⟩ := seekLoop_spec (lenAt data o) (Nat.succ_le_of_lt ho) rfl
    rw [seek_forward_of_end, before_succ] at *
    exact ⟨hv, hidx⟩
  · rw [seek_forward, if_pos hend]
    exact ⟨Or.inr (Nat.lt_of_le_of_ne hb hend), idx_mk_of_lt ho⟩

/-- **`increment` moves a valid iterator before `m_outer_end` one position on.** -/
theorem increment_spec (hv : it.Valid data) (hne : it.m_outer ≠ data.length) :
    ∃ it', increment data it = some it' ∧ it'.Valid data ∧ idx data it' = idx data it + 1 := by
  have hb := hv.lt hne
  have ho := hv.lt_length hne
  obtain ⟨hv', hidx⟩ := seek_forward_spec ho (Nat.succ_le_of_lt hb)
  refine ⟨_, ?_, hv', ?_⟩
  · simp [increment, innerEnd_of_lt ho, hb]
  · rw [hidx, idx_of_lt ho, Nat.add_assoc]

/-- `seek_backward` from `o` finds the last non-empty inner range up to `o`, at its end, when
there is an element before the end of range `o`. -/
theorem seek_backward_spec : ∀ {o : ℕ}, o < data.length → 0 < before data (o + 1) →
    ∃ o', o' ≤ o ∧ 0 < lenAt data o' ∧ before data o' + lenAt data o' = before data (o + 1) ∧
      seek_backward data o = some ⟨o', lenAt data o'⟩
  | 0, ho, hpos => by
    rw [before_succ, before_zero, Nat.zero_add] at hpos
    refine ⟨0, Nat.le_refl _, hpos, (before_succ 0).symm, ?_⟩
    simp [seek_backward, innerEnd_of_lt ho, Nat.pos_iff_ne_zero.mp hpos]
  | o + 1, ho, hpos => by
    by_cases he : lenAt data (o + 1) = 0
    · -- an empty inner range: go on back
      rw [before_succ, he, Nat.add_zero] at hpos
      obtain ⟨o', hle, hlen, hsum, hseek⟩ := seek_backward_spec (o := o) (by omega) hpos
      refine ⟨o', Nat.le_succ_of_le hle, hlen, ?_, ?_⟩
      · rw [hsum, before_succ (o + 1), he]
        omega
      · simp [seek_backward, innerEnd_of_lt ho, he, hseek]
    · refine ⟨o + 1, Nat.le_refl _, Nat.pos_of_ne_zero he, (before_succ _).symm, ?_⟩
      simp [seek_backward, innerEnd_of_lt ho, he]

/-- **`decrement` moves a valid iterator after the first element one position back.** -/
theorem decrement_spec (hv : it.Valid data) (hpos : 0 < idx data it) :
    ∃ it', decrement data it = some it' ∧ it'.Valid data ∧ idx data it' + 1 = idx data it := by
  by_cases hin : it.m_outer ≠ data.length ∧ it.base ≠ 0
  · -- the common case: one step back inside the inner range
    have ho := hv.lt_length hin.1
    refine ⟨⟨it.m_outer, it.base - 1⟩, if_pos hin, Or.inr ?_, ?_⟩
    · exact Nat.lt_of_le_of_lt (Nat.sub_le _ _) (hv.lt hin.1)
    · rw [idx_mk_of_lt ho, idx_of_lt ho]
      omega
  · -- at `m_outer_end` or at the beginning of an inner range, the position is `before`
    have hat : idx data it = before data it.m_outer := by
      by_cases hend : it.m_outer = data.length
      · rw [idx_of_end hend, before_of_length_le (Nat.le_of_eq hend.symm)]
      · have hb0 : it.base = 0 := by
          by_contra hb
          exact hin ⟨hend, hb⟩
        rw [idx_of_lt (hv.lt_length hend), hb0, Nat.add_zero]
    have hout : 0 < it.m_outer := Nat.pos_of_ne_zero fun h0 => by
      rw [hat, h0, before_zero] at hpos
      exact Nat.lt_irrefl 0 hpos
    have hsucc : it.m_outer - 1 + 1 = it.m_outer := Nat.sub_add_cancel hout
    obtain ⟨o', hle, hlen, hsum, hseek⟩ := @seek_backward_spec α data (it.m_outer - 1)
      (by have := hv.le; omega) (by rw [hsucc, ← hat]; exact hpos)
    refine ⟨⟨o', lenAt data o' - 1⟩, ?_, Or.inr (Nat.sub_lt hlen Nat.one_pos), ?_⟩
    · simp [decrement, hin, safeDecrement_of_pos hout, hseek, safeDecrement_of_pos hlen]
    · rw [idx_mk_of_lt (by have := hv.le; omega), hat, ← hsucc, ← hsum]
      omega

theorem jump_forward_zero (fuel : ℕ) (it : TwoLevelIteratorA) :
    jump_forward data fuel 0 it = some it := by
  cases fuel <;> rfl

/-- **`jump_forward(n)` moves a valid iterator `n` positions on**, given one round of fuel for
each inner range it may cross. -/
theorem jump_forward_spec (fuel : ℕ) : ∀ (n : ℕ) (it : TwoLevelIteratorA), it.Valid data →
    idx data it + n ≤ data.flatten.length → data.length < fuel + it.m_outer →
    ∃ it', jump_forward data fuel n it = some it' ∧ it'.Valid data ∧
      idx data it' = idx data it + n := by
  -- induction on the fuel: each round ends the jump or crosses into a later inner range
  induction fuel with
  | zero =>
    intro n it hv _ hfuel
    have := hv.le
    exact absurd hfuel (by omega)
  | succ fuel ih =>
    intro n it hv hn hfuel
    cases n with
    | zero => exact ⟨it, jump_forward_zero _ _, hv, rfl⟩
    | succ n =>
      have hne : it.m_outer ≠ data.length := fun h => by
        rw [idx_of_end h] at hn
        omega
      have ho := hv.lt_length hne
      have hb := hv.lt hne
      by_cases hk : n + 1 < lenAt data it.m_outer - it.base
      · -- the jump ends inside the inner range
        refine ⟨⟨it.m_outer, it.base + (n + 1)⟩, ?_, Or.inr (by dsimp only; omega), ?_⟩
        · simp only [jump_forward, innerEnd_of_lt ho, Option.bind_eq_bind, Option.bind_some,
            Nat.min_eq_right (Nat.le_of_lt hk), Nat.sub_self, if_neg (Nat.ne_of_lt hk)]
        · rw [idx_mk_of_lt ho, idx_of_lt ho, Nat.add_assoc]
      · -- the rest of the inner range, then on from the next non-empty one
        have hk' : lenAt data it.m_outer - it.base ≤ n + 1 := Nat.le_of_not_lt hk
        have hend : it.base + (lenAt data it.m_outer - it.base) = lenAt data it.m_outer := by
          omega
        obtain ⟨hv', hidx', hle'⟩ :=
          seekLoop_spec (lenAt data it.m_outer) (Nat.succ_le_of_lt ho) rfl
        obtain ⟨it'', hjump, hv'', hidx''⟩ := ih (n + 1 - (lenAt data it.m_outer - it.base))
          _ hv' (by rw [hidx', before_succ, idx_of_lt ho] at *; omega) (by omega)
        refine ⟨it'', ?_, hv'', ?_⟩
        · simp only [jump_forward, innerEnd_of_lt ho, Option.bind_eq_bind, Option.bind_some,
            Nat.min_eq_left hk', hend, seek_forward_of_end]
          exact hjump
        · rw [hidx'', hidx', before_succ, idx_of_lt ho]
          omega

/-- **`advance(n)` for `n ≥ 0` moves a valid iterator `n` positions on.** -/
theorem advance_spec (hv : it.Valid data) {n : ℕ} (fuel : ℕ)
    (hn : idx data it + n ≤ data.flatten.length)
    (hfuel : data.length < fuel + it.m_outer) :
    ∃ it', advance data fuel n it = some it' ∧ it'.Valid data ∧ idx data it' = idx data it + n := by
  rcases Nat.lt_trichotomy n 1 with h0 | rfl | h2
  · -- no move at all
    obtain rfl : n = 0 := Nat.lt_one_iff.mp h0
    exact ⟨it, by simp [advance], hv, rfl⟩
  · -- one step: `increment`
    have hne : it.m_outer ≠ data.length := fun h => by
      rw [idx_of_end h] at hn
      omega
    obtain ⟨it', hinc, hv', hidx⟩ := increment_spec hv hne
    exact ⟨it', by simp [advance, hinc], hv', hidx⟩
  · -- more steps: `jump_forward`
    obtain ⟨it', hjump, hv', hidx⟩ := jump_forward_spec fuel n it hv hn hfuel
    refine ⟨it', ?_, hv', hidx⟩
    have h1 : (n : ℤ) ≠ 1 := by omega
    have h2 : (n : ℤ) ≠ -1 := by omega
    have h3 : ¬(n : ℤ) < 0 := by omega
    have h4 : (0 : ℤ) < n := by omega
    simp only [advance, if_neg h1, if_neg h2, if_neg h3, if_pos h4, Int.toNat_natCast]
    exact hjump

theorem advance_neg_one (fuel : ℕ) (it : TwoLevelIteratorA) :
    advance data fuel (-1) it = decrement data it := by
  simp [advance]

/-- `k` moves that each lower a measure `g` of valid iterators by one, from where it is at least
`k`, lower it by `k`. -/
theorem repeatMove_spec (move : TwoLevelIteratorA → Option TwoLevelIteratorA)
    (g : TwoLevelIteratorA → ℕ)
    (hmove : ∀ it : TwoLevelIteratorA, it.Valid data → 0 < g it →
      ∃ it', move it = some it' ∧ it'.Valid data ∧ g it' + 1 = g it) :
    ∀ (k : ℕ) (it : TwoLevelIteratorA), it.Valid data → k ≤ g it →
      ∃ it', repeatMove move k it = some it' ∧ it'.Valid data ∧ g it' + k = g it := by
  intro k
  induction k with
  | zero => exact fun it hv _ => ⟨it, rfl, hv, rfl⟩
  | succ k ih =>
    intro it hv hk
    obtain ⟨it', hstep, hv', hg⟩ := hmove it hv (by omega)
    obtain ⟨it'', hrest, hv'', hg'⟩ := ih it' hv' (by omega)
    exact ⟨it'', by rw [repeatMove, hstep, Option.bind_some, hrest], hv'', by omega⟩

/-- **`advance` for input, forward and bidirectional inner iterators moves a valid iterator `n`
positions**, back or on, whenever that stays within the concatenation. -/
theorem advance_dispatch_input_spec (hv : it.Valid data) {n : ℤ}
    (hlo : 0 ≤ (idx data it : ℤ) + n) (hhi : (idx data it : ℤ) + n ≤ data.flatten.length) :
    ∃ it', advance_dispatch_input data n it = some it' ∧ it'.Valid data ∧
      (idx data it' : ℤ) = idx data it + n := by
  -- the distances to the two ends are the measures that `decrement` and `increment` lower
  have hdec := repeatMove_spec (decrement data) (idx data) fun it hv hpos => decrement_spec hv hpos
  have hinc := repeatMove_spec (increment data) (fun it => data.flatten.length - idx data it)
    fun it hv hpos => by
      have hne : it.m_outer ≠ data.length := fun h => by
        rw [idx_of_end h] at hpos
        omega
      obtain ⟨it', h, hv', hidx⟩ := increment_spec hv hne
      have := idx_lt_of_ne hv hne
      exact ⟨it', h, hv', by omega⟩
  rcases Int.lt_trichotomy n 0 with hneg | rfl | hpos
  · obtain ⟨it', h, hv', hg⟩ := hdec n.natAbs it hv (by omega)
    exact ⟨it', by rw [advance_dispatch_input, if_pos hneg, h], hv', by omega⟩
  · exact ⟨it, by simp [advance_dispatch_input], hv, by omega⟩
  · obtain ⟨it', h, hv', hg⟩ := hinc n.toNat it hv (by omega)
    have := idx_le hv'
    exact ⟨it', by rw [advance_dispatch_input, if_neg (by omega), if_pos hpos, h], hv', by omega⟩

end Moves

/-! ## 4. Distances and the enumeration -/

section Distance

variable {data : List (List α)} {it x : TwoLevelIteratorA}

/-- The loop of `distance_to` from a valid `me` before a valid `x` counts the positions between
them, given one round of fuel for each inner range it crosses. -/
theorem distanceLoop_spec (hx : x.Valid data) (fuel : ℕ) :
    ∀ (count : ℤ) (me : TwoLevelIteratorA), me.Valid data → idx data me < idx data x →
      data.length + 2 ≤ fuel + me.m_outer →
      distanceLoop data x fuel count me = some (count + ((idx data x : ℤ) - idx data me)) := by
  -- induction on the fuel: each round reaches `x` or crosses into a later inner range
  induction fuel with
  | zero =>
    intro count me hme _ hfuel
    have := hme.le
    exact absurd hfuel (by omega)
  | succ fuel ih =>
    intro count me hme hlt hfuel
    -- `me` is before `x`: it points at an element, in an inner range not after `x`'s
    have hne : me.m_outer ≠ data.length := fun h => by
      rw [idx_of_end h] at hlt
      have := idx_le hx
      omega
    have ho := hme.lt_length hne
    have hb := hme.lt hne
    have hle : me.m_outer ≤ x.m_outer := m_outer_le_of_idx_le hme hx (Nat.le_of_lt hlt)
    rcases Nat.lt_or_eq_of_le hle with hout | hout
    · -- another inner range: `me` takes the rest of its own
      obtain ⟨me', hstep, hv', hidx⟩ := advance_spec hme
        (n := lenAt data me.m_outer - me.base) fuel
        (by have := before_le_length_flatten (l := data) (me.m_outer + 1)
            rw [before_succ, idx_of_lt ho] at *; omega) (by omega)
      have hidx' : idx data me' = before data (me.m_outer + 1) := by
        rw [hidx, idx_of_lt ho, before_succ]
        omega
      have hround : distanceLoop data x (fuel + 1) count me =
          if equal data me' x then some (count + (lenAt data me.m_outer - me.base : ℕ))
          else distanceLoop data x fuel (count + (lenAt data me.m_outer - me.base : ℕ)) me' := by
        have hd : ((lenAt data me.m_outer : ℤ) - me.base) =
            ((lenAt data me.m_outer - me.base : ℕ) : ℤ) := by omega
        simp only [distanceLoop, if_neg hne, innerEnd_of_lt ho, Option.bind_eq_bind,
          Option.bind_some, if_pos (Nat.ne_of_lt hout), hd, hstep]
      rw [hround]
      by_cases heq : equal data me' x = true
      · -- `x` was the beginning of the next non-empty inner range
        have hreach := (equal_iff hv' hx).mp heq
        rw [if_pos heq]
        congr 1
        omega
      · rw [if_neg heq]
        have hlt' : idx data me' < idx data x := by
          refine Nat.lt_of_le_of_ne ?_ fun h => heq ((equal_iff hv' hx).mpr h)
          rw [hidx']
          exact Nat.le_trans (before_mono hout) (before_le_idx hx)
        have hprog : me.m_outer < me'.m_outer :=
          lt_of_before_succ_le hv' ho (Nat.le_of_eq hidx'.symm)
        rw [ih _ me' hv' hlt' (by omega), hidx]
        congr 1
        omega
    · -- the inner range of `x`: `me` moves by the difference of the offsets
      have hxne : x.m_outer ≠ data.length := hout ▸ hne
      have hbx : me.base < x.base := by
        rw [idx_of_lt ho, idx_of_lt (hx.lt_length hxne), hout] at hlt
        omega
      obtain ⟨me', hstep, hv', hidx⟩ := advance_spec hme (n := x.base - me.base) fuel
        (by rw [idx_of_lt ho]; have := idx_le hx; rw [idx_of_lt (hx.lt_length hxne), ← hout] at this; omega)
        (by omega)
      have heq : equal data me' x = true := by
        rw [equal_iff hv' hx, hidx, idx_of_lt ho, idx_of_lt (hx.lt_length hxne), hout]
        omega
      have hd : ((x.base : ℤ) - me.base) = ((x.base - me.base : ℕ) : ℤ) := by omega
      simp only [distanceLoop, if_neg hne, innerEnd_of_lt ho, Option.bind_eq_bind,
        Option.bind_some, if_neg (not_not.mpr hout), hd, hstep, heq, if_true]
      have hreach := (equal_iff hv' hx).mp heq
      congr 1
      omega

/-- **`distance_to` is the difference of the positions** of two valid iterators. -/
theorem distance_to_spec (hit : it.Valid data) (hx : x.Valid data) {fuel : ℕ}
    (hfuel : data.length + 3 < fuel) :
    distance_to data fuel it x = some ((idx data x : ℤ) - idx data it) := by
  obtain ⟨fuel, rfl⟩ : ∃ f, fuel = f + 1 + 1 := ⟨fuel - 2, by omega⟩
  rw [distance_to]
  by_cases heq : equal data it x = true
  · rw [if_pos heq, (equal_iff hit hx).mp heq, Int.sub_self]
  · rw [if_neg heq]
    by_cases hsame : it.m_outer = x.m_outer
    · -- one inner range, which is not `m_outer_end` since the two are not equal
      have hne : it.m_outer ≠ data.length := fun h => heq (by simp [equal, ← hsame, h])
      rw [if_pos hsame, idx_of_lt (hit.lt_length hne),
        idx_of_lt (hx.lt_length (hsame ▸ hne)), hsame]
      congr 1
      omega
    · rw [if_neg hsame]
      rcases Nat.lt_or_gt_of_ne hsame with hlt | hgt
      · -- `x` is after `it`: the loop from `it`
        rw [if_neg (by omega), distanceLoop_spec hx _ 0 it hit (idx_lt_of_m_outer_lt hit hx hlt)
          (by omega), Int.zero_add]
      · -- `x` is before `it`: minus the distance from `x`, which is the loop from `x`
        have hne' : ¬equal data x it = true := fun h => by
          simp [equal, Nat.ne_of_lt hgt] at h
        rw [if_pos (by omega), distance_to, if_neg hne', if_neg (Nat.ne_of_lt hgt),
          if_neg (by omega), distanceLoop_spec hit _ 0 x hx (idx_lt_of_m_outer_lt hx hit hgt)
          (by omega), Option.map_some]
        congr 1
        omega

/-- `decrement` undoes `increment` on every position before the end. -/
theorem decrement_increment (hv : it.Valid data) (hne : it.m_outer ≠ data.length) :
    ∃ it' it'', increment data it = some it' ∧ decrement data it' = some it'' ∧
      equal data it'' it = true := by
  obtain ⟨it', hinc, hv', hidx⟩ := increment_spec hv hne
  obtain ⟨it'', hdec, hv'', hidx'⟩ := decrement_spec hv' (by omega)
  exact ⟨it', it'', hinc, hdec, (equal_iff hv'' hv).mpr (by omega)⟩

/-- `increment` undoes `decrement` on every position after the first. -/
theorem increment_decrement (hv : it.Valid data) (hpos : 0 < idx data it) :
    ∃ it' it'', decrement data it = some it' ∧ increment data it' = some it'' ∧
      equal data it'' it = true := by
  obtain ⟨it', hdec, hv', hidx⟩ := decrement_spec hv hpos
  have hne : it'.m_outer ≠ data.length := fun h => by
    have := idx_le hv
    rw [idx_of_end h] at hidx
    omega
  obtain ⟨it'', hinc, hv'', hidx'⟩ := increment_spec hv' hne
  exact ⟨it', it'', hdec, hinc, (equal_iff hv'' hv).mpr (by omega)⟩

/-- A valid iterator before `m_outer_end` reads the element at its position. -/
theorem deref_eq (hv : it.Valid data) (hne : it.m_outer ≠ data.length) :
    deref data it = data.flatten[idx data it]? := by
  rw [idx_of_lt (hv.lt_length hne), getElem?_flatten_before (hv.lt hne)]
  rfl

/-- Walking from a valid iterator to one at `m_outer_end` reads the rest of the concatenation,
given a round of fuel for each element. -/
theorem walk_spec {last : TwoLevelIteratorA} (hlast : last.Valid data)
    (hend : idx data last = data.flatten.length) (fuel : ℕ) :
    ∀ it : TwoLevelIteratorA, it.Valid data → data.flatten.length - idx data it < fuel →
      walk data fuel it last = some (data.flatten.drop (idx data it)) := by
  induction fuel with
  | zero =>
    intro it _ hfuel
    exact absurd hfuel (Nat.not_lt_zero _)
  | succ fuel ih =>
    intro it hv hfuel
    by_cases heq : equal data it last = true
    · -- at the end nothing is left
      rw [walk, if_pos heq, (equal_iff hv hlast).mp heq, hend, List.drop_length]
    · -- an element, then the walk from the next position
      have hlt : idx data it < data.flatten.length := Nat.lt_of_le_of_ne (idx_le hv) fun h =>
        heq ((equal_iff hv hlast).mpr (h.trans hend.symm))
      have hne : it.m_outer ≠ data.length := fun h => by
        rw [idx_of_end h] at hlt
        exact Nat.lt_irrefl _ hlt
      obtain ⟨it', hinc, hv', hidx⟩ := increment_spec hv hne
      rw [walk, if_neg heq, deref_eq hv hne, List.getElem?_eq_getElem hlt]
      simp only [Option.bind_eq_bind, Option.bind_some, hinc, ih it' hv' (by omega), hidx,
        Option.map_some]
      rw [List.drop_eq_getElem_cons hlt]

end Distance

/-- **`make_two_level_iterator` gives the first position and `m_outer_end`.** -/
theorem make_two_level_iterator_spec (data : List (List α)) :
    (make_two_level_iterator data).1.Valid data ∧ idx data (make_two_level_iterator data).1 = 0 ∧
      (make_two_level_iterator data).2.Valid data ∧
      idx data (make_two_level_iterator data).2 = data.flatten.length := by
  have hend : (make_two_level_iterator data).2 = ⟨data.length, 0⟩ := if_neg (not_not.mpr rfl)
  have hfirst : (make_two_level_iterator data).1.Valid data ∧
      idx data (make_two_level_iterator data).1 = 0 := by
    by_cases h0 : data.length = 0
    · -- no inner range: the beginning is `m_outer_end` too
      have hbeg : (make_two_level_iterator data).1 = ⟨0, 0⟩ := if_neg (not_not.mpr h0.symm)
      rw [hbeg]
      refine ⟨Or.inl h0.symm, ?_⟩
      rw [idx_of_end h0.symm, List.length_eq_zero_iff.mp h0, List.flatten_nil, List.length_nil]
    · -- the first element from inner range 0 on
      have hbeg : (make_two_level_iterator data).1 = seek_forward data ⟨0, 0⟩ :=
        if_pos (Ne.symm h0)
      obtain ⟨hv, hidx⟩ := seek_forward_spec (Nat.pos_of_ne_zero h0) (Nat.zero_le (lenAt data 0))
      rw [hbeg, hidx, before_zero]
      exact ⟨hv, rfl⟩
  rw [hend]
  exact ⟨hfirst.1, hfirst.2, Or.inl rfl, idx_of_end rfl⟩

/-- **The pair from `make_two_level_iterator` enumerates the concatenation of the inner
ranges**, for every `data`. -/
theorem walk_make_two_level_iterator (data : List (List α)) {fuel : ℕ}
    (hfuel : data.flatten.length < fuel) :
    walk data fuel (make_two_level_iterator data).1 (make_two_level_iterator data).2 =
      some data.flatten := by
  obtain ⟨hv1, hidx1, hv2, hidx2⟩ := make_two_level_iterator_spec data
  rw [walk_spec hv2 hidx2 fuel _ hv1 (by omega), hidx1, List.drop_zero]

/-- **What `TwoLevelIteratorA` gets right**, on every list of inner ranges: the pair from
`make_two_level_iterator` enumerates the concatenation; `++` and `--` move by one position, past
the empty inner ranges, and undo each other; a forward `advance` by `n` and the step-by-step
dispatch by any `n` move by `n`; and `distance_to` is the difference of the positions. -/
theorem two_level_iterator_follows_positions (data : List (List α)) :
    (∀ fuel, data.flatten.length < fuel →
      walk data fuel (make_two_level_iterator data).1 (make_two_level_iterator data).2 =
        some data.flatten) ∧
    (∀ it : TwoLevelIteratorA, it.Valid data → it.m_outer ≠ data.length →
      ∃ it', increment data it = some it' ∧ it'.Valid data ∧ idx data it' = idx data it + 1) ∧
    (∀ it : TwoLevelIteratorA, it.Valid data → 0 < idx data it →
      ∃ it', decrement data it = some it' ∧ it'.Valid data ∧ idx data it' + 1 = idx data it) ∧
    (∀ it : TwoLevelIteratorA, it.Valid data → it.m_outer ≠ data.length →
      ∃ it' it'', increment data it = some it' ∧ decrement data it' = some it'' ∧
        equal data it'' it = true) ∧
    (∀ it : TwoLevelIteratorA, it.Valid data → 0 < idx data it →
      ∃ it' it'', decrement data it = some it' ∧ increment data it' = some it'' ∧
        equal data it'' it = true) ∧
    (∀ (it : TwoLevelIteratorA) (n fuel : ℕ), it.Valid data →
      idx data it + n ≤ data.flatten.length → data.length < fuel + it.m_outer →
      ∃ it', advance data fuel n it = some it' ∧ it'.Valid data ∧
        idx data it' = idx data it + n) ∧
    (∀ (it : TwoLevelIteratorA) (n : ℤ), it.Valid data → 0 ≤ (idx data it : ℤ) + n →
      (idx data it : ℤ) + n ≤ data.flatten.length →
      ∃ it', advance_dispatch_input data n it = some it' ∧ it'.Valid data ∧
        (idx data it' : ℤ) = idx data it + n) ∧
    (∀ (it x : TwoLevelIteratorA) (fuel : ℕ), it.Valid data → x.Valid data →
      data.length + 3 < fuel → distance_to data fuel it x = some ((idx data x : ℤ) - idx data it)) :=
  ⟨fun _ hfuel => walk_make_two_level_iterator data hfuel,
    fun _ hv hne => increment_spec hv hne,
    fun _ hv hpos => decrement_spec hv hpos,
    fun _ hv hne => decrement_increment hv hne,
    fun _ hv hpos => increment_decrement hv hpos,
    fun _ _ fuel hv hn hfuel => advance_spec hv fuel hn hfuel,
    fun _ _ hv hlo hhi => advance_dispatch_input_spec hv hlo hhi,
    fun _ _ _ hit hx hfuel => distance_to_spec hit hx hfuel⟩

/-- **A random-access jump back across inner ranges does not move**: on the inner ranges
`[0, 1]` and `[2, 3]`, the iterator three positions from the beginning (at `3`), advanced by
`-3`, is still at `3`. `jump_backward` puts the inner iterator at the end of its own range where
it means the end of the range before. -/
theorem advance_back_across_ranges_stays (fuel : ℕ) :
    advance [[0, 1], [2, 3]] (fuel + 2) 3 (make_two_level_iterator [[0, 1], [2, 3]]).1 =
        some ⟨1, 1⟩ ∧
      idx [[0, 1], [2, 3]] ⟨1, 1⟩ = 3 ∧
      advance [[0, 1], [2, 3]] (fuel + 2) (-3) ⟨1, 1⟩ = some ⟨1, 1⟩ := by
  refine ⟨?_, by decide, ?_⟩
  · -- three on: to the end of `[0, 1]`, then one into `[2, 3]`
    simp [advance, make_two_level_iterator, ofOuter, jump_forward, innerEnd, seek_forward,
      lenAt, seekLoop]
  · -- three back: `seek_backward` stays on `[2, 3]` at its end, and the last step goes to `3`
    simp [advance, jump_backward, jumpBackwardLoop, seek_backward, innerEnd]

end TwoLevelIteratorA

end Galois
