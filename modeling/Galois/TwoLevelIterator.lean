import Galois.Concat

/-!
# TwoLevelIterator.h: the iterator behind `PerThreadContainer`'s global iterators

`ChooseTwoLevelIterator` picks the two-level iterator by the category of the inner iterators;
for random-access inner containers, as the per-thread vectors of a `PerThreadContainer`, it is
`TwoLevelRandIter`, which adds jumps, distances and `<` to `TwoLevelBiDirIter` and
`TwoLevelFwdIter`. Its state is the outer iterator `m_outer` and the inner iterator `m_inner`,
with the ends `m_beg_inner` and `m_end_inner` of `*m_outer` cached beside them. Here the inner
containers are the list `data`, the outer iterator a position in it (`m_end_outer` at
`data.length`) and the inner iterator an offset:

* `nextOuter`, `seekValidBegin`, `step_forward` (`++`), `prevOuter`, `step_backward` (`--`),
  `jump_forward` (`+=`), `jump_backward` (`-=`), `compute_dist` (`-`), `is_equal` (`==`), `lt`
  (`<`) and the constructor `ofOuter` behind `begin_all` and `end_all` -- the operations, with
  `none` for a failed assertion or undefined behaviour. The cached `m_beg_inner` and
  `m_end_inner` are the ends of `*m_outer` whenever they are read (`innerAtBegin` and
  `innerAtEnd` assert it), so the model reads those ends;
* `Valid`, `idx` -- the iterators at an element or at `m_end_outer`, and their position in
  `data.flatten` (`Concat.pos`).

`step_forward_spec`, `step_backward_spec`, `jump_forward_spec`, `jump_backward_spec`,
`compute_dist_spec` and `lt_spec` say that the moves, the distance and `<` follow the positions.
`<` does so unless both iterators are at `m_end_outer`, where it compares the inner iterators:
`end_all()` has a default-constructed one, so comparing it with an iterator moved to the end is
undefined (`end_all_lt_undefined`).
-/

namespace Galois

/-- A `TwoLevelRandIter` over the inner containers `data`: the position `m_outer` of the outer
iterator and the offset `m_inner` of the inner iterator, `none` while that is default-constructed
(`Inner()`). Before `m_end_outer` the inner iterator is into `*m_outer`; at `m_end_outer` it is
into the last container, where `nextOuter` leaves it. -/
structure TwoLevelRandIter where
  m_outer : ℕ
  m_inner : Option ℕ
  deriving DecidableEq, Repr

namespace TwoLevelRandIter

open Concat

variable {α : Type}

/-! ## 1. The model -/

/-- `innerAtEnd()`: the inner iterator is at the end of `*m_outer`. -/
def innerAtEnd (data : List (List α)) (it : TwoLevelRandIter) : Bool :=
  it.m_inner = some (lenAt data it.m_outer)

/-- `innerAtBegin()`. -/
def innerAtBegin (it : TwoLevelRandIter) : Bool := it.m_inner = some 0

/-- `nextOuter`: the outer iterator steps on, and the inner iterator goes to the beginning of
the next container unless that is `m_end_outer`. It asserts that the outer iterator is not at
`m_end_outer`, which also excludes an empty outer range. -/
def nextOuter (data : List (List α)) (it : TwoLevelRandIter) : Option TwoLevelRandIter :=
  if it.m_outer < data.length then
    some (if it.m_outer + 1 = data.length then ⟨it.m_outer + 1, it.m_inner⟩
      else ⟨it.m_outer + 1, some 0⟩)
  else none

theorem nextOuter_eq_some {data : List (List α)} {it it' : TwoLevelRandIter}
    (h : nextOuter data it = some it') : it.m_outer < data.length ∧ it'.m_outer = it.m_outer + 1 := by
  unfold nextOuter at h
  by_cases ho : it.m_outer < data.length
  · rw [if_pos ho, Option.some.injEq] at h
    subst h
    refine ⟨ho, ?_⟩
    split <;> rfl
  · rw [if_neg ho] at h
    cases h

/-- `seekValidBegin`: on past the containers whose inner iterator is at their end. -/
def seekValidBegin (data : List (List α)) (it : TwoLevelRandIter) : Option TwoLevelRandIter :=
  if it.m_outer ≠ data.length ∧ innerAtEnd data it then
    match h : nextOuter data it with
    | some it' => seekValidBegin data it'
    | none => none
  else some it
termination_by data.length - it.m_outer
decreasing_by
  have := nextOuter_eq_some h
  omega

/-- `step_forward` (`operator++`): asserting that the inner iterator is not at the end of
`*m_outer`, one step of it, and `seekValidBegin` at the end of the container. -/
def step_forward (data : List (List α)) (it : TwoLevelRandIter) : Option TwoLevelRandIter :=
  match it.m_inner with
  | some off =>
    -- `innerAtEnd()` reads `*m_outer`
    if it.m_outer < data.length ∧ off ≠ lenAt data it.m_outer then
      if innerAtEnd data ⟨it.m_outer, some (off + 1)⟩ then
        seekValidBegin data ⟨it.m_outer, some (off + 1)⟩
      else some ⟨it.m_outer, some (off + 1)⟩
    else none
  | none => none

/-- `prevOuter`: the outer iterator steps back and the inner iterator goes to the end of that
container. It asserts that the outer iterator is not at `m_beg_outer` and the outer range is
not empty. -/
def prevOuter (data : List (List α)) (it : TwoLevelRandIter) : Option TwoLevelRandIter :=
  if it.m_outer = 0 ∨ data.length = 0 then none
  else some ⟨it.m_outer - 1, some (lenAt data (it.m_outer - 1))⟩

theorem prevOuter_eq_some {data : List (List α)} {it it' : TwoLevelRandIter}
    (h : prevOuter data it = some it') :
    0 < it.m_outer ∧ it' = ⟨it.m_outer - 1, some (lenAt data (it.m_outer - 1))⟩ := by
  unfold prevOuter at h
  by_cases h0 : it.m_outer = 0 ∨ data.length = 0
  · rw [if_pos h0] at h
    cases h
  · rw [if_neg h0, Option.some.injEq] at h
    exact ⟨by omega, h.symm⟩

/-- The loop of `step_backward`: back over the containers whose inner iterator is at their
beginning. -/
def stepBackLoop (data : List (List α)) (it : TwoLevelRandIter) : Option TwoLevelRandIter :=
  if innerAtBegin it then
    match h : prevOuter data it with
    | some it' => stepBackLoop data it'
    | none => none
  else some it
termination_by it.m_outer
decreasing_by
  obtain ⟨hpos, rfl⟩ := prevOuter_eq_some h
  show it.m_outer - 1 < it.m_outer
  omega

/-- `step_backward` (`operator--`): from `m_end_outer` first `prevOuter`, then back over the
containers where the inner iterator is at the beginning, then one step of it. -/
def step_backward (data : List (List α)) (it : TwoLevelRandIter) : Option TwoLevelRandIter :=
  -- `assert(!outerEmpty())`
  if data.length = 0 then none
  else
    (if it.m_outer = data.length then prevOuter data it else some it).bind fun it => do
    let it ← stepBackLoop data it
    let off ← it.m_inner
    -- `--m_inner` at the beginning of the container is undefined
    if off = 0 then none else some ⟨it.m_outer, some (off - 1)⟩

theorem le_of_seekValidBegin {data : List (List α)} {it it' : TwoLevelRandIter}
    (h : seekValidBegin data it = some it') : it.m_outer ≤ it'.m_outer := by
  fun_induction seekValidBegin data it with
  | case1 x _ y hnext ih =>
    have := nextOuter_eq_some hnext
    have := ih h
    omega
  | case2 => cases h
  | case3 x _ =>
    cases h
    exact Nat.le_refl _

/-- The loop of `jump_forward` for `rem ≥ 0`: the rest of the container when `rem` is more
than that, else `rem` steps inside it; `seekValidBegin` after each round. -/
def jumpForwardLoop (data : List (List α)) (rem : ℕ) (it : TwoLevelRandIter) :
    Option TwoLevelRandIter :=
  if rem = 0 then some it
  -- `assert(!outerAtEnd())`
  else if it.m_outer < data.length then
    match it.m_inner with
    | none => none
    | some off =>
      -- `avail`, the distance to the end of the container
      if lenAt data it.m_outer - off < rem then
        match h : nextOuter data it with
        | none => none
        | some it' =>
          match h' : seekValidBegin data it' with
          | none => none
          | some it'' => jumpForwardLoop data (rem - (lenAt data it.m_outer - off)) it''
      else seekValidBegin data ⟨it.m_outer, some (off + rem)⟩
  else none
termination_by data.length - it.m_outer
decreasing_by
  have := nextOuter_eq_some h
  have := le_of_seekValidBegin h'
  omega

/-- The loop of `jump_backward` for `rem ≥ 0`: back to the end of the previous container when
`rem` is more than the offset, else `rem` steps back inside the container. -/
def jumpBackwardLoop (data : List (List α)) (rem : ℕ) (it : TwoLevelRandIter) :
    Option TwoLevelRandIter :=
  if rem = 0 then some it
  else
    match it.m_inner with
    | none => none
    | some off =>
      -- `avail`, the distance from the beginning of the container
      if off < rem then
        match h : prevOuter data it with
        | none => none
        | some it' => jumpBackwardLoop data (rem - off) it'
      else some ⟨it.m_outer, some (off - rem)⟩
termination_by it.m_outer
decreasing_by
  obtain ⟨hpos, rfl⟩ := prevOuter_eq_some h
  show it.m_outer - 1 < it.m_outer
  omega

/-- `jump_backward(d)` for `d ≥ 0`: from `m_end_outer` first `prevOuter`, then the loop. -/
def jumpBackwardBy (data : List (List α)) (rem : ℕ) (it : TwoLevelRandIter) :
    Option TwoLevelRandIter :=
  if 0 < rem ∧ it.m_outer = data.length then (prevOuter data it).bind (jumpBackwardLoop data rem)
  else jumpBackwardLoop data rem it

/-- `jump_forward(d)` (`operator+=`), which asserts a non-empty outer range and is
`jump_backward(-d)` for a negative `d`. -/
def jump_forward (data : List (List α)) (d : ℤ) (it : TwoLevelRandIter) :
    Option TwoLevelRandIter :=
  if data.length = 0 then none
  else if d < 0 then jumpBackwardBy data d.natAbs it
  else jumpForwardLoop data d.toNat it

/-- `jump_backward(d)` (`operator-=`), which asserts a non-empty outer range and is
`jump_forward(-d)` for a negative `d`. -/
def jump_backward (data : List (List α)) (d : ℤ) (it : TwoLevelRandIter) :
    Option TwoLevelRandIter :=
  if data.length = 0 then none
  else if d < 0 then jumpForwardLoop data d.natAbs it
  else jumpBackwardBy data d.toNat it

/-- The loop of `compute_dist`: `tmp` adds the rest of each container up to outer position
`o`. -/
def distLoop (data : List (List α)) (o : ℕ) (tmp : TwoLevelRandIter) (d : ℤ) :
    Option (TwoLevelRandIter × ℤ) :=
  if tmp.m_outer ≠ o then
    match tmp.m_inner with
    | none => none
    | some off =>
      match h : nextOuter data tmp with
      | none => none
      | some tmp' => distLoop data o tmp' (d + ((lenAt data tmp.m_outer : ℤ) - off))
  else some (tmp, d)
termination_by data.length - tmp.m_outer
decreasing_by
  have := nextOuter_eq_some h
  omega

/-- `compute_dist(that)` when `that` is not before `it`: the difference of the inner iterators
in one container, `0` at `m_end_outer`, and otherwise the loop and the offset of `that`. -/
def computeDistFwd (data : List (List α)) (it that : TwoLevelRandIter) : Option ℤ :=
  if it.m_outer = that.m_outer then
    if it.m_outer ≠ data.length then do
      let a ← it.m_inner
      let b ← that.m_inner
      return (b : ℤ) - a
    else some 0
  -- `assert(!outerAtEnd())`
  else if it.m_outer = data.length then none
  else do
    let (tmp, d) ← distLoop data that.m_outer it 0
    if tmp.m_outer ≠ data.length then do
      let a ← tmp.m_inner
      let b ← that.m_inner
      return d + ((b : ℤ) - a)
    else some d

/-- `compute_dist(that)`: when `that` is before `it`, minus `that.compute_dist(*this)`. -/
def compute_dist (data : List (List α)) (it that : TwoLevelRandIter) : Option ℤ :=
  if (that.m_outer : ℤ) - it.m_outer < 0 then (computeDistFwd data that it).map Neg.neg
  else computeDistFwd data it that

/-- `left - right`, which is `right.compute_dist(left)`. -/
def sub (data : List (List α)) (left right : TwoLevelRandIter) : Option ℤ :=
  compute_dist data right left

/-- `is_equal` (`operator==`): at `m_end_outer` the inner iterators are not compared. -/
def is_equal (data : List (List α)) (it that : TwoLevelRandIter) : Bool :=
  it.m_outer = that.m_outer && (it.m_outer = data.length || it.m_inner = that.m_inner)

/-- `<` on inner iterators: two into one container compare their offsets and two
default-constructed ones are equal; a default-constructed one against one into a container is
undefined. -/
def innerLt : Option ℕ → Option ℕ → Option Bool
  | some a, some b => some (decide (a < b))
  | none, none => some false
  | _, _ => none

/-- `operator<`: the inner iterators on one outer position, else the outer iterators. -/
def lt (left right : TwoLevelRandIter) : Option Bool :=
  if left.m_outer = right.m_outer then innerLt left.m_inner right.m_inner
  else some (decide (left.m_outer < right.m_outer))

/-- The constructor at outer position `outer`: `setInnerAtBegin` and `seekValidBegin` unless
`outer` is `m_end_outer`, where the inner iterator stays default-constructed. -/
def ofOuter (data : List (List α)) (outer : ℕ) : Option TwoLevelRandIter :=
  if outer ≠ data.length then seekValidBegin data ⟨outer, some 0⟩ else some ⟨outer, none⟩

/-- `PerThreadContainer::begin_all()`, by `stl_two_level_begin`. -/
def begin_all (data : List (List α)) : Option TwoLevelRandIter := ofOuter data 0

/-- `PerThreadContainer::end_all()`, by `stl_two_level_end`. -/
def end_all (data : List (List α)) : Option TwoLevelRandIter := ofOuter data data.length

/-! ## 2. Positions in the concatenation -/

/-- An iterator at an element of `*m_outer`, its inner iterator set, or at `m_end_outer`. -/
def Valid (data : List (List α)) (it : TwoLevelRandIter) : Prop :=
  it.m_outer = data.length ∨ it.m_inner.any (fun off => decide (off < lenAt data it.m_outer))

instance (data : List (List α)) (it : TwoLevelRandIter) : Decidable (it.Valid data) :=
  inferInstanceAs (Decidable (_ ∨ _))

/-- The position of an iterator in `data.flatten`. -/
def idx (data : List (List α)) (it : TwoLevelRandIter) : ℕ :=
  pos data it.m_outer (it.m_inner.getD 0)

/-- An iterator into a container, where the inner iterator may also be at the end of it. -/
def Inside (data : List (List α)) (it : TwoLevelRandIter) : Prop :=
  it.m_outer < data.length ∧ ∃ off, it.m_inner = some off ∧ off ≤ lenAt data it.m_outer

/-- An iterator inside a container or at `m_end_outer`, as between a move and its
`seekValidBegin`. -/
def Seekable (data : List (List α)) (it : TwoLevelRandIter) : Prop :=
  it.m_outer = data.length ∨ Inside data it

section Specs

variable {data : List (List α)} {it it' : TwoLevelRandIter}

theorem valid_iff :
    Valid data it ↔
      it.m_outer = data.length ∨ ∃ off, it.m_inner = some off ∧ off < lenAt data it.m_outer := by
  rcases it with ⟨o, _ | off⟩ <;> simp [Valid]

theorem valid_end (i : Option ℕ) : Valid data ⟨data.length, i⟩ := Or.inl rfl

theorem valid_of_lt {o off : ℕ} (h : off < lenAt data o) : Valid data ⟨o, some off⟩ :=
  valid_iff.2 (Or.inr ⟨off, rfl, h⟩)

/-- Before `m_outer_end` a valid iterator's inner iterator is at an element. -/
theorem Valid.inner (h : Valid data it) (hne : it.m_outer ≠ data.length) :
    ∃ off, it.m_inner = some off ∧ off < lenAt data it.m_outer :=
  (valid_iff.1 h).resolve_left hne

theorem Valid.names (h : Valid data it) : Names data it.m_outer (it.m_inner.getD 0) := by
  rcases valid_iff.1 h with h | ⟨off, hin, hlt⟩
  · exact Or.inl h
  · rw [hin]
    exact Or.inr hlt

theorem Valid.inside (h : Valid data it) (hne : it.m_outer ≠ data.length) : Inside data it := by
  obtain ⟨off, hin, hlt⟩ := h.inner hne
  exact ⟨h.names.lt_length hne, off, hin, Nat.le_of_lt hlt⟩

theorem Valid.seekable (h : Valid data it) : Seekable data it := by
  by_cases hne : it.m_outer = data.length
  · exact Or.inl hne
  · exact Or.inr (h.inside hne)

theorem idx_of_inner {off : ℕ} (ho : it.m_outer < data.length) (hin : it.m_inner = some off) :
    idx data it = before data it.m_outer + off := by
  rw [idx, hin]
  exact pos_of_lt ho

theorem idx_mk_some {o off : ℕ} (ho : o < data.length) :
    idx data ⟨o, some off⟩ = before data o + off :=
  idx_of_inner ho rfl

theorem Valid.lt_of_inner {off : ℕ} (h : Valid data it) (hne : it.m_outer ≠ data.length)
    (hin : it.m_inner = some off) : off < lenAt data it.m_outer := by
  obtain ⟨off', hin', hlt⟩ := h.inner hne
  rw [hin, Option.some.injEq] at hin'
  exact hin' ▸ hlt

theorem idx_of_end (h : it.m_outer = data.length) : idx data it = data.flatten.length :=
  pos_of_end h

theorem ne_length_of_idx_lt (h : idx data it < data.flatten.length) : it.m_outer ≠ data.length :=
  fun he => Nat.lt_irrefl _ (idx_of_end he ▸ h)

theorem idx_le (h : Valid data it) : idx data it ≤ data.flatten.length := pos_le h.names

/-- Only a non-empty outer range has a position after `0`. -/
theorem length_ne_zero_of_idx_pos (h : Valid data it) (hpos : 0 < idx data it) :
    data.length ≠ 0 := fun hlen => by
  have htotal : data.flatten.length = 0 := by
    rw [List.length_eq_zero_iff.1 hlen, List.flatten_nil]
    rfl
  have := idx_le h
  omega

theorem Inside.le_of_inner {off : ℕ} (h : Inside data it) (hin : it.m_inner = some off) :
    off ≤ lenAt data it.m_outer := by
  obtain ⟨-, off', hin', hle⟩ := h
  rw [hin, Option.some.injEq] at hin'
  exact hin' ▸ hle

/-! ## 3. `nextOuter` and `seekValidBegin` -/

/-- The two results of `nextOuter`: at `m_end_outer` the inner iterator stays, before it the
inner iterator is at the beginning of the next container. -/
theorem nextOuter_cases (h : nextOuter data it = some it') :
    it.m_outer < data.length ∧
      (it.m_outer + 1 = data.length ∧ it' = ⟨it.m_outer + 1, it.m_inner⟩ ∨
        it.m_outer + 1 ≠ data.length ∧ it' = ⟨it.m_outer + 1, some 0⟩) := by
  obtain ⟨ho, -⟩ := nextOuter_eq_some h
  unfold nextOuter at h
  rw [if_pos ho, Option.some.injEq] at h
  subst h
  refine ⟨ho, ?_⟩
  split
  · next hend => exact Or.inl ⟨hend, rfl⟩
  · next hend => exact Or.inr ⟨hend, rfl⟩

/-- `nextOuter` lands at the beginning of the next container, or at the end. -/
theorem idx_nextOuter (h : nextOuter data it = some it') :
    idx data it' = before data (it.m_outer + 1) := by
  obtain ⟨ho, ⟨hend, rfl⟩ | ⟨hend, rfl⟩⟩ := nextOuter_cases h
  · rw [idx_of_end hend, before_of_length_le (Nat.le_of_eq hend.symm)]
  · rw [idx_mk_some (by omega), Nat.add_zero]

theorem seekable_of_nextOuter (h : nextOuter data it = some it') : Seekable data it' := by
  obtain ⟨ho, ⟨hend, rfl⟩ | ⟨hend, rfl⟩⟩ := nextOuter_cases h
  · exact Or.inl hend
  · exact Or.inr ⟨show it.m_outer + 1 < data.length by omega, 0, rfl, Nat.zero_le _⟩

theorem isSome_of_nextOuter (h : nextOuter data it = some it') (hs : it.m_inner.isSome) :
    it'.m_inner.isSome := by
  obtain ⟨-, ⟨-, rfl⟩ | ⟨-, rfl⟩⟩ := nextOuter_cases h
  · exact hs
  · rfl

theorem nextOuter_ne_none (ho : it.m_outer < data.length) : nextOuter data it ≠ none := by
  simp [nextOuter, ho]

/-- An inner iterator at the end of its container is at the beginning of the next one. -/
theorem idx_of_innerAtEnd (ho : it.m_outer < data.length) (hend : innerAtEnd data it = true) :
    idx data it = before data (it.m_outer + 1) := by
  rcases it with ⟨o, i⟩
  simp only [innerAtEnd, decide_eq_true_eq] at hend
  subst hend
  rw [idx_mk_some ho, before_succ]

theorem seekValidBegin_of_not (h : ¬(it.m_outer ≠ data.length ∧ innerAtEnd data it = true)) :
    seekValidBegin data it = some it := by
  rw [seekValidBegin, if_neg h]

theorem seekValidBegin_step (hc : it.m_outer ≠ data.length ∧ innerAtEnd data it = true)
    (h : nextOuter data it = some it') : seekValidBegin data it = seekValidBegin data it' := by
  rw [seekValidBegin, if_pos hc]
  split
  · next y hy =>
    rw [h, Option.some.injEq] at hy
    rw [hy]
  · next hy =>
    rw [h] at hy
    cases hy

/-- **`seekValidBegin` keeps the position and ends at an element or at `m_end_outer`.** The
loop steps over containers whose inner iterator is at their end; each step keeps the position
by `idx_nextOuter` and `idx_of_innerAtEnd`. -/
theorem seekValidBegin_spec (hs : Seekable data it) :
    ∃ it', seekValidBegin data it = some it' ∧ Valid data it' ∧ idx data it' = idx data it := by
  fun_induction seekValidBegin data it with
  | case1 x hc y hnext ih =>
    obtain ⟨it', hseek, hv, hidx⟩ := ih (seekable_of_nextOuter hnext)
    have ho : x.m_outer < data.length := (nextOuter_eq_some hnext).1
    refine ⟨it', hseek, hv, ?_⟩
    rw [hidx, idx_nextOuter hnext, idx_of_innerAtEnd ho hc.2]
  | case2 x hc hnext =>
    have ho : x.m_outer < data.length := hs.resolve_left hc.1 |>.1
    exact absurd hnext (nextOuter_ne_none ho)
  | case3 x hc =>
    refine ⟨x, rfl, ?_, rfl⟩
    rcases hs with hend | ⟨ho, off, hin, hle⟩
    · exact Or.inl hend
    · have hne : off ≠ lenAt data x.m_outer := fun heq =>
        hc ⟨Nat.ne_of_lt ho, by simp [innerAtEnd, hin, heq]⟩
      exact valid_iff.2 (Or.inr ⟨off, hin, Nat.lt_of_le_of_ne hle hne⟩)

/-! ## 4. `++` and `--` -/

/-- `++` is one step of the inner iterator and `seekValidBegin`, which does nothing when the
step is not at the end of the container. -/
theorem step_forward_eq {o off : ℕ} (ho : o < data.length) (hoff : off < lenAt data o) :
    step_forward data ⟨o, some off⟩ = seekValidBegin data ⟨o, some (off + 1)⟩ := by
  simp only [step_forward, ho, Nat.ne_of_lt hoff, ne_eq, not_false_eq_true, and_self, if_true]
  split
  · rfl
  · next hend => rw [seekValidBegin_of_not fun h => hend h.2]

/-- **`++` moves one position on**, over the empty containers. -/
theorem step_forward_spec (hv : Valid data it) (hlt : idx data it < data.flatten.length) :
    ∃ it', step_forward data it = some it' ∧ Valid data it' ∧ idx data it' = idx data it + 1 := by
  have hne := ne_length_of_idx_lt hlt
  obtain ⟨off, hin, hoff⟩ := hv.inner hne
  have ho := hv.names.lt_length hne
  rcases it with ⟨o, i⟩
  subst hin
  have hs : Seekable data ⟨o, some (off + 1)⟩ := Or.inr ⟨ho, off + 1, rfl, hoff⟩
  obtain ⟨it', hseek, hv', hidx⟩ := seekValidBegin_spec hs
  refine ⟨it', by rw [step_forward_eq ho hoff, hseek], hv', ?_⟩
  rw [hidx, idx_mk_some ho, idx_mk_some ho, Nat.add_assoc]

/-- `prevOuter` lands at the end of the previous container, where the container begins. -/
theorem prevOuter_spec (hle : it.m_outer ≤ data.length) (h : prevOuter data it = some it') :
    Inside data it' ∧ idx data it' = before data it.m_outer := by
  obtain ⟨hpos, rfl⟩ := prevOuter_eq_some h
  refine ⟨⟨show it.m_outer - 1 < data.length by omega, _, rfl, Nat.le_refl _⟩, ?_⟩
  rw [idx_mk_some (by omega), ← before_succ, Nat.sub_add_cancel hpos]

theorem prevOuter_ne_none (hpos : 0 < it.m_outer) (hlen : data.length ≠ 0) :
    prevOuter data it ≠ none := by
  simp [prevOuter, Nat.pos_iff_ne_zero.1 hpos, hlen]

theorem idx_of_innerAtBegin (ho : it.m_outer < data.length) (hbeg : innerAtBegin it = true) :
    idx data it = before data it.m_outer := by
  rcases it with ⟨o, i⟩
  simp only [innerAtBegin, decide_eq_true_eq] at hbeg
  subst hbeg
  rw [idx_mk_some ho, Nat.add_zero]

/-- The loop of `--` ends inside a container, not at its beginning, at the same position: it
steps back over the containers where the inner iterator is at the beginning, each step keeping
the position by `prevOuter_spec`. It fails only at `m_beg_outer`, at position `0`. -/
theorem stepBackLoop_spec (hin : Inside data it) (hpos : 0 < idx data it) :
    ∃ it', stepBackLoop data it = some it' ∧ Inside data it' ∧ innerAtBegin it' = false ∧
      idx data it' = idx data it := by
  fun_induction stepBackLoop data it with
  | case1 x hbeg y hprev ih =>
    obtain ⟨hy, hidx⟩ := prevOuter_spec (Nat.le_of_lt hin.1) hprev
    rw [← idx_of_innerAtBegin hin.1 hbeg] at hidx
    obtain ⟨it', hloop, hin', hbeg', hidx'⟩ := ih hy (hidx ▸ hpos)
    exact ⟨it', hloop, hin', hbeg', hidx'.trans hidx⟩
  | case2 x hbeg hprev =>
    -- `prevOuter` fails only at `m_beg_outer`
    have h0 : x.m_outer = 0 := by
      by_contra h0
      exact prevOuter_ne_none (Nat.pos_of_ne_zero h0) (by have := hin.1; omega) hprev
    rw [idx_of_innerAtBegin hin.1 hbeg, h0, before_zero] at hpos
    exact absurd hpos (Nat.lt_irrefl 0)
  | case3 x hbeg => exact ⟨x, rfl, hin, Bool.eq_false_iff.2 hbeg, rfl⟩

/-- The last step of `--`: the inner iterator, not at the beginning, steps back onto an
element. -/
theorem pred_inner_spec (hin : Inside data it) (hbeg : innerAtBegin it = false) :
    ∃ off, it.m_inner = some off ∧ off ≠ 0 ∧ Valid data ⟨it.m_outer, some (off - 1)⟩ ∧
      idx data ⟨it.m_outer, some (off - 1)⟩ + 1 = idx data it := by
  obtain ⟨ho, off, hoff, hle⟩ := hin
  have hne : off ≠ 0 := fun h => by simp [innerAtBegin, hoff, h] at hbeg
  refine ⟨off, hoff, hne, valid_of_lt (by omega), ?_⟩
  rcases it with ⟨o, i⟩
  subst hoff
  rw [idx_mk_some ho, idx_mk_some ho]
  omega

/-- **`--` moves one position back**, over the empty containers. -/
theorem step_backward_spec (hv : Valid data it) (hpos : 0 < idx data it) :
    ∃ it', step_backward data it = some it' ∧ Valid data it' ∧ idx data it' + 1 = idx data it := by
  have hlen := length_ne_zero_of_idx_pos hv hpos
  -- from `m_end_outer` first `prevOuter`, to the end of the last container
  have hstart : ∃ y, (if it.m_outer = data.length then prevOuter data it else some it) = some y ∧
      Inside data y ∧ idx data y = idx data it := by
    by_cases he : it.m_outer = data.length
    · obtain ⟨y, hy⟩ := Option.ne_none_iff_exists'.1
        (prevOuter_ne_none (show 0 < it.m_outer by omega) hlen)
      obtain ⟨hin, hidx⟩ := prevOuter_spec (Nat.le_of_eq he) hy
      refine ⟨y, by rw [if_pos he, hy], hin, ?_⟩
      rw [hidx, idx_of_end he, he, before_of_length_le (Nat.le_refl _)]
    · exact ⟨it, if_neg he, hv.inside he, rfl⟩
  obtain ⟨y, hy, hin, hidx⟩ := hstart
  obtain ⟨z, hloop, hinz, hbeg, hidxz⟩ := stepBackLoop_spec hin (hidx ▸ hpos)
  obtain ⟨off, hoff, hne, hv', hidx'⟩ := pred_inner_spec hinz hbeg
  refine ⟨_, ?_, hv', by rw [hidx', hidxz, hidx]⟩
  rw [step_backward, if_neg hlen, hy]
  simp only [Option.bind_eq_bind, Option.bind_some, hloop, hoff, hne, if_false]

/-! ## 5. `+=` and `-=` -/

/-- **The loop of `+=` moves `rem` positions on.** Each round either moves inside the
container, or takes the rest of it and goes to the next one; `seekValidBegin` after it keeps
the position (`seekValidBegin_spec`). Past the end it would fail `assert(!outerAtEnd())`. -/
theorem jumpForwardLoop_spec (rem : ℕ) (hv : Valid data it)
    (hle : idx data it + rem ≤ data.flatten.length) :
    ∃ it', jumpForwardLoop data rem it = some it' ∧ Valid data it' ∧
      idx data it' = idx data it + rem := by
  fun_induction jumpForwardLoop data rem it with
  | case1 it => exact ⟨it, rfl, hv, rfl⟩
  | case2 rem it hrem ho hin =>
    obtain ⟨off, hin', -⟩ := hv.inner (Nat.ne_of_lt ho)
    cases hin.symm.trans hin'
  | case3 rem it hrem ho off hin hlt hnext => exact absurd hnext (nextOuter_ne_none ho)
  | case4 rem it hrem ho off hin hlt y hnext hseek =>
    obtain ⟨z, hz, -⟩ := seekValidBegin_spec (seekable_of_nextOuter hnext)
    cases hseek.symm.trans hz
  | case5 rem it hrem ho off hin hlt y hnext z hseek ih =>
    -- the rest of the container, then the next one
    obtain ⟨z', hz', hvz, hidxz⟩ := seekValidBegin_spec (seekable_of_nextOuter hnext)
    rw [hseek, Option.some.injEq] at hz'
    subst hz'
    have hoff := hv.lt_of_inner (Nat.ne_of_lt ho) hin
    have hz : idx data z = before data it.m_outer + lenAt data it.m_outer := by
      rw [hidxz, idx_nextOuter hnext, before_succ]
    have hit := idx_of_inner ho hin
    obtain ⟨it', hloop, hv', hidx'⟩ := ih hvz (by omega)
    exact ⟨it', hloop, hv', by omega⟩
  | case6 rem it hrem ho off hin hlt =>
    -- `m_inner += rem` inside the container
    have hs : Seekable data ⟨it.m_outer, some (off + rem)⟩ :=
      Or.inr ⟨ho, off + rem, rfl, show off + rem ≤ lenAt data it.m_outer by omega⟩
    obtain ⟨it', hseek, hv', hidx'⟩ := seekValidBegin_spec hs
    refine ⟨it', hseek, hv', ?_⟩
    rw [hidx', idx_mk_some ho, idx_of_inner ho hin, Nat.add_assoc]
  | case7 rem it hrem ho =>
    have he : it.m_outer = data.length := Nat.le_antisymm hv.names.le (Nat.le_of_not_lt ho)
    rw [idx_of_end he] at hle
    omega

/-- **The loop of `-=` moves `rem` positions back.** Each round either moves inside the
container, or takes the part before the inner iterator and goes to the end of the previous
container; it stops on an element. Before position `0` it would fail at `m_beg_outer`. -/
theorem jumpBackwardLoop_spec (rem : ℕ) (hin : Inside data it) (hrem : 0 < rem)
    (hle : rem ≤ idx data it) :
    ∃ it', jumpBackwardLoop data rem it = some it' ∧ Valid data it' ∧
      idx data it' + rem = idx data it := by
  fun_induction jumpBackwardLoop data rem it with
  | case1 it => exact absurd hrem (Nat.lt_irrefl 0)
  | case2 rem it hrem' hnone =>
    obtain ⟨-, off, hoff, -⟩ := hin
    cases hnone.symm.trans hoff
  | case3 rem it hrem' off hoff hlt hprev =>
    -- `prevOuter` fails only at `m_beg_outer`, where the position is the offset
    have h0 : it.m_outer = 0 := by
      by_contra h0
      exact prevOuter_ne_none (Nat.pos_of_ne_zero h0) (by have := hin.1; omega) hprev
    have hit := idx_of_inner hin.1 hoff
    rw [h0, before_zero] at hit
    omega
  | case4 rem it hrem' off hoff hlt y hprev ih =>
    obtain ⟨hy, hidxy⟩ := prevOuter_spec (Nat.le_of_lt hin.1) hprev
    have hit := idx_of_inner hin.1 hoff
    obtain ⟨it', hloop, hv', hidx'⟩ := ih hy (by omega) (by omega)
    exact ⟨it', hloop, hv', by omega⟩
  | case5 rem it hrem' off hoff hlt =>
    -- `m_inner -= rem` inside the container
    have hoffle := hin.le_of_inner hoff
    refine ⟨_, rfl, valid_of_lt (by omega), ?_⟩
    rw [idx_mk_some hin.1, idx_of_inner hin.1 hoff]
    omega

theorem jumpBackwardLoop_zero (it : TwoLevelRandIter) : jumpBackwardLoop data 0 it = some it := by
  rw [jumpBackwardLoop, if_pos rfl]

/-- `-=` by `rem ≥ 0`: from `m_end_outer` first `prevOuter`, then the loop. -/
theorem jumpBackwardBy_spec (rem : ℕ) (hv : Valid data it) (hle : rem ≤ idx data it) :
    ∃ it', jumpBackwardBy data rem it = some it' ∧ Valid data it' ∧
      idx data it' + rem = idx data it := by
  rcases Nat.eq_zero_or_pos rem with rfl | hrem
  · refine ⟨it, ?_, hv, rfl⟩
    rw [jumpBackwardBy, if_neg (fun h => Nat.lt_irrefl 0 h.1), jumpBackwardLoop_zero]
  by_cases he : it.m_outer = data.length
  · have hlen := length_ne_zero_of_idx_pos hv (by omega)
    obtain ⟨y, hy⟩ := Option.ne_none_iff_exists'.1
      (prevOuter_ne_none (show 0 < it.m_outer by omega) hlen)
    obtain ⟨hin, hidxy⟩ := prevOuter_spec (Nat.le_of_eq he) hy
    have hend : idx data y = idx data it := by
      rw [hidxy, idx_of_end he, he, before_of_length_le (Nat.le_refl _)]
    obtain ⟨it', hloop, hv', hidx'⟩ := jumpBackwardLoop_spec rem hin hrem (hend ▸ hle)
    refine ⟨it', ?_, hv', hidx'.trans hend⟩
    rw [jumpBackwardBy, if_pos ⟨hrem, he⟩, hy, Option.bind_some, hloop]
  · obtain ⟨it', hloop, hv', hidx'⟩ := jumpBackwardLoop_spec rem (hv.inside he) hrem hle
    refine ⟨it', ?_, hv', hidx'⟩
    rw [jumpBackwardBy, if_neg (fun h => he h.2), hloop]

/-- **`+=` moves `d` positions**, for every `d` that keeps the position in the range. -/
theorem jump_forward_spec (hne : data ≠ []) (hv : Valid data it) (d : ℤ)
    (h0 : 0 ≤ (idx data it : ℤ) + d) (h1 : (idx data it : ℤ) + d ≤ data.flatten.length) :
    ∃ it', jump_forward data d it = some it' ∧ Valid data it' ∧
      (idx data it' : ℤ) = idx data it + d := by
  have hlen : data.length ≠ 0 := fun h => hne (List.length_eq_zero_iff.1 h)
  rw [jump_forward, if_neg hlen]
  split
  · -- `jump_backward(-d)`
    next hd =>
    obtain ⟨it', hjump, hv', hidx'⟩ := jumpBackwardBy_spec d.natAbs hv (by omega)
    exact ⟨it', hjump, hv', by omega⟩
  · next hd =>
    obtain ⟨it', hjump, hv', hidx'⟩ := jumpForwardLoop_spec d.toNat hv (by omega)
    exact ⟨it', hjump, hv', by omega⟩

/-- **`-=` moves `d` positions back**, for every `d` that keeps the position in the range. -/
theorem jump_backward_spec (hne : data ≠ []) (hv : Valid data it) (d : ℤ)
    (h0 : 0 ≤ (idx data it : ℤ) - d) (h1 : (idx data it : ℤ) - d ≤ data.flatten.length) :
    ∃ it', jump_backward data d it = some it' ∧ Valid data it' ∧
      (idx data it' : ℤ) = idx data it - d := by
  have hlen : data.length ≠ 0 := fun h => hne (List.length_eq_zero_iff.1 h)
  rw [jump_backward, if_neg hlen]
  split
  · -- `jump_forward(-d)`
    next hd =>
    obtain ⟨it', hjump, hv', hidx'⟩ := jumpForwardLoop_spec d.natAbs hv (by omega)
    exact ⟨it', hjump, hv', by omega⟩
  · next hd =>
    obtain ⟨it', hjump, hv', hidx'⟩ := jumpBackwardBy_spec d.toNat hv (by omega)
    exact ⟨it', hjump, hv', by omega⟩

/-! ## 6. `-`, `==` and `<` -/

/-- **The loop of `compute_dist` keeps `d - idx tmp`**: each round adds the rest of the
container and `nextOuter` moves `tmp` by as much (`idx_nextOuter`). -/
theorem distLoop_spec (o : ℕ) (ho : o ≤ data.length) (tmp : TwoLevelRandIter) (d : ℤ)
    (hle : tmp.m_outer ≤ o) (hs : tmp.m_inner.isSome) :
    ∃ tmp' d', distLoop data o tmp d = some (tmp', d') ∧ tmp'.m_outer = o ∧
      tmp'.m_inner.isSome ∧ d' - idx data tmp' = d - idx data tmp := by
  fun_induction distLoop data o tmp d with
  | case1 tmp d hne hnone => simp [hnone] at hs
  | case2 tmp d hne off hin hnext => exact absurd hnext (nextOuter_ne_none (by omega))
  | case3 tmp d hne off hin y hnext ih =>
    have hlt := (nextOuter_eq_some hnext).1
    obtain ⟨tmp', d', hloop, ho', hs', hd⟩ :=
      ih (by have := (nextOuter_eq_some hnext).2; omega) (isSome_of_nextOuter hnext hs)
    refine ⟨tmp', d', hloop, ho', hs', ?_⟩
    have hy := idx_nextOuter hnext
    have hsucc := before_succ (l := data) tmp.m_outer
    have htmp := idx_of_inner hlt hin
    omega
  | case4 tmp d heq => exact ⟨tmp, d, rfl, not_not.1 heq, hs, rfl⟩

/-- `compute_dist` when `that` is not before `it`. -/
theorem computeDistFwd_spec {that : TwoLevelRandIter} (hv : Valid data it) (hw : Valid data that)
    (hle : it.m_outer ≤ that.m_outer) :
    computeDistFwd data it that = some ((idx data that : ℤ) - idx data it) := by
  unfold computeDistFwd
  by_cases heq : it.m_outer = that.m_outer
  · rw [if_pos heq]
    by_cases he : it.m_outer = data.length
    · rw [if_neg (not_not.2 he), idx_of_end he, idx_of_end (heq ▸ he), Int.sub_self]
    · -- both inner iterators are into `*m_outer`
      obtain ⟨a, ha, -⟩ := hv.inner he
      obtain ⟨b, hb, -⟩ := hw.inner (heq ▸ he)
      have ho := hv.names.lt_length he
      rw [if_pos he, idx_of_inner ho ha, idx_of_inner (heq ▸ ho) hb, heq]
      simp [ha, hb]
  · have hlt : it.m_outer < that.m_outer := Nat.lt_of_le_of_ne hle heq
    have hne : it.m_outer ≠ data.length := by have := hw.names.le; omega
    obtain ⟨a, ha, -⟩ := hv.inner hne
    obtain ⟨tmp, d, hloop, ho', hs', hd⟩ :=
      distLoop_spec that.m_outer hw.names.le it 0 hle (by simp [ha])
    rw [if_neg heq, if_neg hne]
    simp only [hloop, Option.bind_eq_bind, Option.bind_some]
    by_cases he : tmp.m_outer = data.length
    · -- the loop ran into `m_end_outer`, the position of `that`
      rw [if_neg (not_not.2 he)]
      rw [idx_of_end he, ← idx_of_end (ho' ▸ he : that.m_outer = data.length)] at hd
      rw [Option.some.injEq]
      omega
    · obtain ⟨c, hc⟩ := Option.isSome_iff_exists.1 hs'
      obtain ⟨b, hb, -⟩ := hw.inner (ho' ▸ he)
      have ho : tmp.m_outer < data.length := Nat.lt_of_le_of_ne (ho' ▸ hw.names.le) he
      rw [idx_of_inner ho hc, ho'] at hd
      rw [if_pos he, idx_of_inner (ho' ▸ ho) hb]
      simp only [hc, hb, Option.bind_some, Option.pure_def, Option.some.injEq]
      omega

/-- **`compute_dist` is the difference of the positions.** -/
theorem compute_dist_spec {that : TwoLevelRandIter} (hv : Valid data it) (hw : Valid data that) :
    compute_dist data it that = some ((idx data that : ℤ) - idx data it) := by
  unfold compute_dist
  split
  · -- `-(that.compute_dist(*this))`
    next hlt =>
    rw [computeDistFwd_spec hw hv (by omega), Option.map_some, Int.neg_sub]
  · next hle => exact computeDistFwd_spec hv hw (by omega)

/-- **`left - right` is the difference of the positions.** -/
theorem sub_spec {left right : TwoLevelRandIter} (hl : Valid data left) (hr : Valid data right) :
    sub data left right = some ((idx data left : ℤ) - idx data right) :=
  compute_dist_spec hr hl

theorem is_equal_eq_true {that : TwoLevelRandIter} :
    is_equal data it that = true ↔
      it.m_outer = that.m_outer ∧ (it.m_outer = data.length ∨ it.m_inner = that.m_inner) := by
  simp [is_equal]

/-- **`==` is equality of positions.** -/
theorem is_equal_iff {that : TwoLevelRandIter} (hv : Valid data it) (hw : Valid data that) :
    is_equal data it that = true ↔ idx data it = idx data that := by
  rw [is_equal_eq_true, idx, idx, pos_eq_iff hv.names hw.names]
  by_cases he : it.m_outer = data.length
  · constructor
    · rintro ⟨heq, -⟩
      exact Or.inl ⟨he, heq⟩
    · rintro (⟨-, heq⟩ | ⟨heq, -⟩) <;> exact ⟨heq, Or.inl he⟩
  · -- before `m_end_outer` both inner iterators are set
    obtain ⟨a, ha, -⟩ := hv.inner he
    constructor
    · rintro ⟨heq, hin⟩
      exact Or.inr ⟨heq, by rw [hin.resolve_left he]⟩
    · rintro (⟨he', -⟩ | ⟨heq, hin⟩)
      · exact absurd he' he
      · obtain ⟨b, hb, -⟩ := hw.inner (heq ▸ he)
        rw [ha, hb, Option.getD_some, Option.getD_some] at hin
        exact ⟨heq, Or.inr (by rw [ha, hb, hin])⟩

theorem innerLt_self (i : Option ℕ) : innerLt i i = some false := by
  cases i <;> simp [innerLt]

/-- **`<` is the order of positions**, unless both iterators are at `m_end_outer` with
different inner iterators (`end_all_lt_undefined`). -/
theorem lt_spec {left right : TwoLevelRandIter} (hl : Valid data left) (hr : Valid data right)
    (hend : left.m_outer = data.length → right.m_outer = data.length →
      left.m_inner = right.m_inner) :
    lt left right = some (decide (idx data left < idx data right)) := by
  unfold lt
  split
  · next heq =>
    by_cases he : left.m_outer = data.length
    · -- both at `m_end_outer`
      rw [hend he (heq ▸ he), innerLt_self, idx_of_end he, idx_of_end (heq ▸ he)]
      simp
    · obtain ⟨a, ha, -⟩ := hl.inner he
      obtain ⟨b, hb, -⟩ := hr.inner (heq ▸ he)
      have ho := hl.names.lt_length he
      rw [ha, hb, idx_of_inner ho ha, idx_of_inner (heq ▸ ho) hb, heq]
      simp [innerLt]
  · next hne =>
    rw [Option.some.injEq, decide_eq_decide]
    constructor
    · exact pos_lt_pos_of_lt hl.names hr.names
    · intro hlt
      exact Nat.lt_of_le_of_ne (le_of_pos_le hl.names hr.names (Nat.le_of_lt hlt)) hne

/-! ## 7. `begin_all`, `end_all` and `*` -/

/-- `*it`: the element the inner iterator is at. -/
def deref (data : List (List α)) (it : TwoLevelRandIter) : Option α :=
  it.m_inner.bind fun off => (data.getD it.m_outer [])[off]?

theorem begin_all_spec (data : List (List α)) :
    ∃ it, begin_all data = some it ∧ Valid data it ∧ idx data it = 0 := by
  by_cases h0 : 0 = data.length
  · refine ⟨⟨0, none⟩, by simp [begin_all, ofOuter, h0], Or.inl h0, ?_⟩
    rw [idx_of_end h0, ← before_of_length_le (o := 0) (Nat.le_of_eq h0.symm), before_zero]
  · have hs : Seekable data ⟨0, some 0⟩ :=
      Or.inr ⟨show 0 < data.length by omega, 0, rfl, Nat.zero_le _⟩
    obtain ⟨it, hseek, hv, hidx⟩ := seekValidBegin_spec hs
    refine ⟨it, by rw [begin_all, ofOuter, if_pos h0, hseek], hv, ?_⟩
    rw [hidx, idx_mk_some (by omega), before_zero]

theorem end_all_spec (data : List (List α)) :
    end_all data = some ⟨data.length, none⟩ ∧ Valid data ⟨data.length, none⟩ ∧
      idx data ⟨data.length, none⟩ = data.flatten.length :=
  ⟨by simp [end_all, ofOuter], valid_end none, idx_of_end rfl⟩

/-- `*it` is the element at the iterator's position in `data.flatten`. -/
theorem deref_spec (hv : Valid data it) (hlt : idx data it < data.flatten.length) :
    deref data it = data.flatten[idx data it]? := by
  have hne := ne_length_of_idx_lt hlt
  obtain ⟨off, hin, hoff⟩ := hv.inner hne
  rw [idx_of_inner (hv.names.lt_length hne) hin, getElem?_flatten_before hoff, deref, hin,
    Option.bind_some]

/-! ## 8. The iterator follows the positions in the concatenation -/

/-- **On a non-empty outer range, `begin_all` and `end_all` are at the first and the last
position, and the moves, `-` and `<` follow the positions**: `+=` and `-=` by every `d` that
keeps the position in the range, `++` and `--` by one position onto an element, so past the
empty containers; `<` unless both iterators are at `m_end_outer` with different inner
iterators. -/
theorem rand_iter_follows_positions (data : List (List α)) (hne : data ≠ []) :
    (∃ it, begin_all data = some it ∧ Valid data it ∧ idx data it = 0) ∧
    (∃ it, end_all data = some it ∧ Valid data it ∧ idx data it = data.flatten.length) ∧
    (∀ it (d : ℤ), Valid data it → 0 ≤ (idx data it : ℤ) + d →
      (idx data it : ℤ) + d ≤ data.flatten.length →
      ∃ it', jump_forward data d it = some it' ∧ Valid data it' ∧
        (idx data it' : ℤ) = idx data it + d) ∧
    (∀ it (d : ℤ), Valid data it → 0 ≤ (idx data it : ℤ) - d →
      (idx data it : ℤ) - d ≤ data.flatten.length →
      ∃ it', jump_backward data d it = some it' ∧ Valid data it' ∧
        (idx data it' : ℤ) = idx data it - d) ∧
    (∀ left right, Valid data left → Valid data right →
      sub data left right = some ((idx data left : ℤ) - idx data right)) ∧
    (∀ left right, Valid data left → Valid data right →
      (left.m_outer = data.length → right.m_outer = data.length → left.m_inner = right.m_inner) →
      lt left right = some (decide (idx data left < idx data right))) ∧
    (∀ it, Valid data it → idx data it < data.flatten.length →
      ∃ it', step_forward data it = some it' ∧ Valid data it' ∧ idx data it' = idx data it + 1) ∧
    (∀ it, Valid data it → 0 < idx data it →
      ∃ it', step_backward data it = some it' ∧ Valid data it' ∧ idx data it' + 1 = idx data it) :=
  ⟨begin_all_spec data,
    ⟨_, (end_all_spec data).1, (end_all_spec data).2⟩,
    fun _ d hv h0 h1 => jump_forward_spec hne hv d h0 h1,
    fun _ d hv h0 h1 => jump_backward_spec hne hv d h0 h1,
    fun _ _ hl hr => sub_spec hl hr,
    fun _ _ hl hr hend => lt_spec hl hr hend,
    fun _ hv hlt => step_forward_spec hv hlt,
    fun _ hv hpos => step_backward_spec hv hpos⟩

theorem rand_iter_follows_positions_empty_middle :
    ([[0], [], [1, 2]] : List (List ℕ)) ≠ [] ∧
    (∃ it, begin_all [[0], [], [1, 2]] = some it ∧ Valid [[0], [], [1, 2]] it ∧
      idx [[0], [], [1, 2]] it = 0) ∧
    (∃ it, end_all [[0], [], [1, 2]] = some it ∧ Valid [[0], [], [1, 2]] it ∧
      idx [[0], [], [1, 2]] it = ([[0], [], [1, 2]] : List (List ℕ)).flatten.length) ∧
    (∀ it (d : ℤ), Valid [[0], [], [1, 2]] it → 0 ≤ (idx [[0], [], [1, 2]] it : ℤ) + d →
      (idx [[0], [], [1, 2]] it : ℤ) + d ≤ ([[0], [], [1, 2]] : List (List ℕ)).flatten.length →
      ∃ it', jump_forward [[0], [], [1, 2]] d it = some it' ∧ Valid [[0], [], [1, 2]] it' ∧
        (idx [[0], [], [1, 2]] it' : ℤ) = idx [[0], [], [1, 2]] it + d) ∧
    (∀ it (d : ℤ), Valid [[0], [], [1, 2]] it → 0 ≤ (idx [[0], [], [1, 2]] it : ℤ) - d →
      (idx [[0], [], [1, 2]] it : ℤ) - d ≤ ([[0], [], [1, 2]] : List (List ℕ)).flatten.length →
      ∃ it', jump_backward [[0], [], [1, 2]] d it = some it' ∧ Valid [[0], [], [1, 2]] it' ∧
        (idx [[0], [], [1, 2]] it' : ℤ) = idx [[0], [], [1, 2]] it - d) ∧
    (∀ left right, Valid [[0], [], [1, 2]] left → Valid [[0], [], [1, 2]] right →
      sub [[0], [], [1, 2]] left right =
        some ((idx [[0], [], [1, 2]] left : ℤ) - idx [[0], [], [1, 2]] right)) ∧
    (∀ left right, Valid [[0], [], [1, 2]] left → Valid [[0], [], [1, 2]] right →
      (left.m_outer = ([[0], [], [1, 2]] : List (List ℕ)).length →
        right.m_outer = ([[0], [], [1, 2]] : List (List ℕ)).length →
        left.m_inner = right.m_inner) →
      lt left right = some (decide (idx [[0], [], [1, 2]] left < idx [[0], [], [1, 2]] right))) ∧
    (∀ it, Valid [[0], [], [1, 2]] it →
      idx [[0], [], [1, 2]] it < ([[0], [], [1, 2]] : List (List ℕ)).flatten.length →
      ∃ it', step_forward [[0], [], [1, 2]] it = some it' ∧ Valid [[0], [], [1, 2]] it' ∧
        idx [[0], [], [1, 2]] it' = idx [[0], [], [1, 2]] it + 1) ∧
    (∀ it, Valid [[0], [], [1, 2]] it → 0 < idx [[0], [], [1, 2]] it →
      ∃ it', step_backward [[0], [], [1, 2]] it = some it' ∧ Valid [[0], [], [1, 2]] it' ∧
        idx [[0], [], [1, 2]] it' + 1 = idx [[0], [], [1, 2]] it) :=
  ⟨by decide, rand_iter_follows_positions _ (by decide)⟩

/-- `end_all()` and an iterator moved to the end are equal under `==` and at one position,
but `<` compares a default-constructed inner iterator with one into the last container, which
is undefined. -/
theorem end_all_lt_undefined :
    end_all ([[0]] : List (List ℕ)) = some ⟨1, none⟩ ∧
      ((begin_all ([[0]] : List (List ℕ))).bind fun it => jump_forward [[0]] 1 it) =
        some ⟨1, some 1⟩ ∧
      Valid ([[0]] : List (List ℕ)) ⟨1, none⟩ ∧ Valid ([[0]] : List (List ℕ)) ⟨1, some 1⟩ ∧
      is_equal ([[0]] : List (List ℕ)) ⟨1, none⟩ ⟨1, some 1⟩ = true ∧
      lt ⟨1, none⟩ ⟨1, some 1⟩ ≠
        some (decide (idx ([[0]] : List (List ℕ)) ⟨1, none⟩ < idx [[0]] ⟨1, some 1⟩)) := by
  refine ⟨rfl, ?_, by decide, by decide, by decide, by decide⟩
  rw [begin_all, ofOuter, if_pos (by decide), seekValidBegin_of_not (by decide), Option.bind_some,
    jump_forward, if_neg (by decide), if_neg (by decide), jumpForwardLoop]
  rw [if_neg (by decide), if_pos (by decide)]
  dsimp only
  have hnext : nextOuter ([[0]] : List (List ℕ)) ⟨0, some (0 + Int.toNat 1)⟩ = some ⟨1, some 1⟩ :=
    by decide
  rw [if_neg (by decide), seekValidBegin_step (by decide) hnext, seekValidBegin_of_not (by decide)]

end Specs

end TwoLevelRandIter

end Galois
