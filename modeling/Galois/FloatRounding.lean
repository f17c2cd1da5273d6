import Mathlib

/-!
# Rounding to binary32

A float is a rational number, and a float operation is the exact rational result passed through
a rounding `fl : ℚ → ℚ`. `Binary32Rounding fl` collects the laws of rounding to nearest in IEEE
binary32 that the proofs use:

* `mono` -- a larger exact result never rounds lower;
* `idem` -- a result is a float, and a float rounds to itself;
* `exact` -- `n * 2 ^ k` with `n < 2 ^ 24` and `k ≤ 103` is a float;
* `rel` -- from the smallest normal number `2 ^ -126` up, the error is at most `2 ^ -24` of the
  value.

Rationals have no infinities: a result beyond the largest float is rounded as the others are, so
a statement about every `Binary32Rounding` speaks of computations that stay in range. Exact
arithmetic (`binary32Rounding_id`) is such a rounding, as is rounding to nearest in every format
with binary32's precision and range or more, so the statements cover `float` expressions
evaluated in `double` as well.

* `fadd`, `le_foldl_fadd` -- a fold of rounded additions of non-negative floats is at least
  each of them: the basis of every lower bound on a floating-point sum;
* `cRound` -- C's `round`, halfway cases away from zero, and its bounds.

Nothing here names a program.
-/

namespace Galois

/-- The laws of rounding to nearest in IEEE binary32, without overflow. -/
structure Binary32Rounding (fl : ℚ → ℚ) : Prop where
  mono : Monotone fl
  idem : ∀ x, fl (fl x) = fl x
  exact : ∀ n k : ℕ, n < 2 ^ 24 → k ≤ 103 → fl (n * 2 ^ k) = n * 2 ^ k
  rel : ∀ x, 1 / 2 ^ 126 ≤ |x| → |fl x - x| ≤ |x| / 2 ^ 24

/-- Exact arithmetic rounds nothing. -/
theorem binary32Rounding_id : Binary32Rounding id where
  mono := monotone_id
  idem _ := rfl
  exact _ _ _ _ := rfl
  rel x _ := by
    rw [id, sub_self, abs_zero]
    positivity

/-- A float addition. -/
def fadd (fl : ℚ → ℚ) (a b : ℚ) : ℚ := fl (a + b)

/-- The non-negative floats. -/
def NonnegFloat (fl : ℚ → ℚ) (x : ℚ) : Prop := 0 ≤ x ∧ fl x = x

namespace Binary32Rounding

section Laws

variable {fl : ℚ → ℚ} (h : Binary32Rounding fl)
include h

theorem natCast {n : ℕ} (hn : n < 2 ^ 24) : fl n = n := by
  simpa using h.exact n 0 hn (Nat.zero_le _)

theorem zero : fl 0 = 0 := by
  simpa using h.natCast (n := 0) (by norm_num)

theorem one : fl 1 = 1 := by
  simpa using h.natCast (n := 1) (by norm_num)

theorem two_pow {k : ℕ} (hk : k ≤ 103) : fl (2 ^ k) = 2 ^ k := by
  simpa using h.exact 1 k (by norm_num) hk

theorem nonneg {x : ℚ} (hx : 0 ≤ x) : 0 ≤ fl x := by
  simpa [h.zero] using h.mono hx

/-- Below a float, the rounding stays below it. -/
theorem le_of_le {x y : ℚ} (hxy : x ≤ y) (hy : fl y = y) : fl x ≤ y :=
  hy ▸ h.mono hxy

/-- Above a float, the rounding stays above it. -/
theorem le_of_ge {x y : ℚ} (hyx : y ≤ x) (hy : fl y = y) : y ≤ fl x :=
  hy ▸ h.mono hyx

/-- A normal positive value rounds to at most `2 ^ -24` above itself. -/
theorem le_mul {x : ℚ} (hx : 1 / 2 ^ 126 ≤ x) : fl x ≤ x * (1 + 1 / 2 ^ 24) := by
  have hpos : 0 ≤ x := le_trans (by positivity) hx
  have he := h.rel x (by rwa [abs_of_nonneg hpos])
  rw [abs_of_nonneg hpos] at he
  have := (abs_le.mp he).2
  linarith

/-- A normal positive value rounds to at least `2 ^ -24` below itself. -/
theorem mul_le {x : ℚ} (hx : 1 / 2 ^ 126 ≤ x) : x * (1 - 1 / 2 ^ 24) ≤ fl x := by
  have hpos : 0 ≤ x := le_trans (by positivity) hx
  have he := h.rel x (by rwa [abs_of_nonneg hpos])
  rw [abs_of_nonneg hpos] at he
  have := (abs_le.mp he).1
  linarith

end Laws

/-! ## Rounded sums -/

section Sums

variable {fl : ℚ → ℚ} (h : Binary32Rounding fl)
include h

theorem nonnegFloat_fl {x : ℚ} (hx : 0 ≤ x) : NonnegFloat fl (fl x) :=
  ⟨h.nonneg hx, h.idem x⟩

theorem nonnegFloat_fadd {a b : ℚ} (ha : NonnegFloat fl a) (hb : NonnegFloat fl b) :
    NonnegFloat fl (fadd fl a b) :=
  h.nonnegFloat_fl (add_nonneg ha.1 hb.1)

theorem le_fadd_left {a b : ℚ} (ha : NonnegFloat fl a) (hb : NonnegFloat fl b) :
    a ≤ fadd fl a b :=
  h.le_of_ge (le_add_of_nonneg_right hb.1) ha.2

theorem le_fadd_right {a b : ℚ} (ha : NonnegFloat fl a) (hb : NonnegFloat fl b) :
    b ≤ fadd fl a b :=
  h.le_of_ge (le_add_of_nonneg_left ha.1) hb.2

/-- **A fold of rounded additions of non-negative floats is at least each of them**; induction on
the values left to add, each partial sum a non-negative float. -/
theorem le_foldl_fadd (xs : List ℚ) :
    ∀ x, (∀ y ∈ x :: xs, NonnegFloat fl y) → ∀ y ∈ x :: xs, y ≤ xs.foldl (fadd fl) x := by
  induction xs with
  | nil =>
    intro x _ y hy
    rw [List.mem_singleton.mp hy]
    rfl
  | cons z zs ih =>
    intro x hall y hy
    have hx := hall x List.mem_cons_self
    have hz := hall z (List.mem_cons_of_mem _ List.mem_cons_self)
    -- the first partial sum takes the place of `x` and `z`
    have hrest : ∀ w ∈ fadd fl x z :: zs, NonnegFloat fl w := by
      intro w hw
      rcases List.mem_cons.mp hw with rfl | hw
      · exact h.nonnegFloat_fadd hx hz
      · exact hall w (List.mem_cons_of_mem _ (List.mem_cons_of_mem _ hw))
    have hge := ih (fadd fl x z) hrest
    rw [List.foldl_cons]
    rcases List.mem_cons.mp hy with rfl | hy
    · exact (h.le_fadd_left hx hz).trans (hge _ List.mem_cons_self)
    rcases List.mem_cons.mp hy with rfl | hy
    · exact (h.le_fadd_right hx hz).trans (hge _ List.mem_cons_self)
    · exact hge y (List.mem_cons_of_mem _ hy)

end Sums

end Binary32Rounding

/-! ## C's `round` -/

/-- `round(q)`: the nearest integer, halfway cases away from zero. -/
def cRound (q : ℚ) : ℤ := if 0 ≤ q then ⌊q + 1 / 2⌋ else -⌊-q + 1 / 2⌋

theorem cRound_nonneg {q : ℚ} (hq : 0 ≤ q) : 0 ≤ cRound q := by
  rw [cRound, if_pos hq]
  exact Int.floor_nonneg.mpr (by linarith)

theorem cRound_le {q : ℚ} {n : ℤ} (hq : 0 ≤ q) (hn : q < n + 1 / 2) : cRound q ≤ n := by
  rw [cRound, if_pos hq, Int.floor_le_iff]
  linarith

end Galois
