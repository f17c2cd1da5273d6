import Mathlib

/-!
# One phase of racing threads

Threads run one phase (a parallel loop between two barriers) over a shared memory `L → V`, and
their word-sized reads and writes interleave in some order. A proof about the phase needs only
what the order lets a read return and what the memory holds afterwards:

* `applyWrites` -- the memory after the writes of a trace, in trace order;
* `Sees m ws x r` -- a read of `x` returns the value before the phase or one of the phase's
  writes to `x`, wherever it falls in the trace (`sees_applyWrites`);
* `Lands m ws m'` -- after the phase a location that nobody wrote is unchanged, and a written
  one holds one of the values written to it (`lands_applyWrites`);
* `RMWChain` -- the values written, in trace order, by threads that each read one location and
  write back a function of what they read: a read precedes its own write, so it returns the
  value before the phase or an earlier write. Where the function is idempotent, every write is
  the function of the first value (`RMWChain.eq_of_idem`);
* `foldl_owned` -- tasks that each write only locations they own, no location owned twice,
  leave the same memory in every order they run in.

`Sees` and `Lands` use the writes only through membership, so the trace may list them in any
order, for instance thread by thread (`Sees.of_perm`, `Lands.of_perm`). Nothing here names a
program.
-/

namespace Galois.RacyPhase

open Function

variable {L V : Type*}

/-- A read of `x` during a phase with writes `ws`: the value before the phase, or a value the
phase writes to `x`. -/
def Sees (m : L → V) (ws : List (L × V)) (x : L) (r : V) : Prop := r = m x ∨ (x, r) ∈ ws

/-- The memory `m'` after a phase with writes `ws`: each location holds a value written to it,
or it was not written and holds its value before the phase. -/
def Lands (m : L → V) (ws : List (L × V)) (m' : L → V) : Prop :=
  ∀ x, (x, m' x) ∈ ws ∨ (m' x = m x ∧ ∀ v, (x, v) ∉ ws)

/-! ## Traces -/

section Trace

variable [DecidableEq L]

/-- The memory after the writes `ws`, made in the order of the list. -/
def applyWrites (m : L → V) : List (L × V) → L → V
  | [] => m
  | (x, v) :: ws => applyWrites (update m x v) ws

/-- After a trace, a location holds its last write, or its first value if no write hit it. -/
theorem applyWrites_cases (m : L → V) (ws : List (L × V)) (x : L) :
    (x, applyWrites m ws x) ∈ ws ∨ (applyWrites m ws x = m x ∧ ∀ v, (x, v) ∉ ws) := by
  induction ws generalizing m with
  | nil => exact .inr ⟨rfl, fun _ h => List.not_mem_nil h⟩
  | cons w ws ih =>
    obtain ⟨y, v⟩ := w
    rcases ih (update m y v) with hmem | ⟨heq, hnone⟩
    · exact .inl (List.mem_cons_of_mem _ hmem)
    · by_cases hxy : x = y
      · subst hxy
        rw [applyWrites, heq, update_self]
        exact .inl List.mem_cons_self
      · rw [applyWrites, heq, update_of_ne hxy]
        refine .inr ⟨rfl, fun v' hv' => ?_⟩
        rcases List.mem_cons.mp hv' with hhd | htl
        · exact hxy (Prod.mk.inj hhd).1
        · exact hnone v' htl

/-- **What a read returns**: made after the writes `p` of the trace `ws`, it sees `Sees`. -/
theorem sees_applyWrites {m : L → V} {p ws : List (L × V)} (hp : p <+: ws) (x : L) :
    Sees m ws x (applyWrites m p x) := by
  rcases applyWrites_cases m p x with hmem | ⟨heq, -⟩
  · exact .inr (hp.subset hmem)
  · exact .inl heq

/-- **What the phase leaves**: the memory after the whole trace lands. -/
theorem lands_applyWrites (m : L → V) (ws : List (L × V)) : Lands m ws (applyWrites m ws) :=
  applyWrites_cases m ws

end Trace

/-! ## Using the two relations -/

variable {m m' : L → V} {ws ws' : List (L × V)} {x : L}

theorem Sees.of_perm (hp : ws.Perm ws') {r : V} (h : Sees m ws x r) : Sees m ws' x r :=
  h.imp_right fun hmem => hp.subset hmem

theorem Lands.of_perm (hp : ws.Perm ws') (h : Lands m ws m') : Lands m ws' m' := fun x =>
  (h x).imp (fun hmem => hp.subset hmem) fun ⟨heq, hnone⟩ =>
    ⟨heq, fun v hv => hnone v (hp.symm.subset hv)⟩

/-- A read of a location whose first value and every write have a property has it. -/
theorem Sees.of_forall {P : V → Prop} {r : V} (h : Sees m ws x r) (hm : P (m x))
    (hw : ∀ v, (x, v) ∈ ws → P v) : P r := by
  rcases h with rfl | hmem
  · exact hm
  · exact hw r hmem

/-- A location whose first value and every write have a property has it after the phase. -/
theorem Lands.of_forall {P : V → Prop} (h : Lands m ws m') (hm : P (m x))
    (hw : ∀ v, (x, v) ∈ ws → P v) : P (m' x) := by
  rcases h x with hmem | ⟨heq, -⟩
  · exact hw _ hmem
  · rw [heq]
    exact hm

theorem Lands.eq_of_not_mem (h : Lands m ws m') (hx : ∀ v, (x, v) ∉ ws) : m' x = m x := by
  rcases h x with hmem | ⟨heq, -⟩
  · exact absurd hmem (hx _)
  · exact heq

/-- A location with one value written to it holds that value after the phase. -/
theorem Lands.eq_of_mem_iff {w : V} (h : Lands m ws m') (hx : ∀ v, (x, v) ∈ ws ↔ v = w) :
    m' x = w := by
  rcases h x with hmem | ⟨-, hnone⟩
  · exact (hx _).mp hmem
  · exact absurd ((hx w).mpr rfl) (hnone w)

/-! ## Read-modify-write threads on one location -/

/-- The values written to one location, in trace order, by threads that each read it and write
back `f` of what they read: the read sees the first value `v₀` or an earlier write. -/
inductive RMWChain (f : V → V) (v₀ : V) : List V → Prop
  | nil : RMWChain f v₀ []
  | snoc {ws : List V} {r : V} : RMWChain f v₀ ws → (r = v₀ ∨ r ∈ ws) →
      RMWChain f v₀ (ws ++ [f r])

/-- **Idempotent updates do not race**: every write of the chain is `f v₀`. -/
theorem RMWChain.eq_of_idem {f : V → V} {v₀ : V} (hf : ∀ v, f (f v) = f v) {ws : List V}
    (h : RMWChain f v₀ ws) : ∀ w ∈ ws, w = f v₀ := by
  induction h with
  | nil => exact fun _ hw => absurd hw List.not_mem_nil
  | @snoc ws r _ hr ih =>
    intro w hw
    rcases List.mem_append.mp hw with hold | hnew
    · exact ih w hold
    · rw [List.mem_singleton.mp hnew]
      rcases hr with rfl | hmem
      · rfl
      · rw [ih r hmem, hf]

/-- Threads that all read before any of them writes: each writes `f v₀`. -/
theorem RMWChain.replicate (f : V → V) (v₀ : V) (k : ℕ) :
    RMWChain f v₀ (List.replicate k (f v₀)) := by
  induction k with
  | zero => exact .nil
  | succ k ih =>
    rw [List.replicate_succ']
    exact .snoc ih (.inl rfl)

/-- The value after the chain: its last write, or `v₀` if nothing was written. -/
theorem RMWChain.getLastD_eq {f : V → V} {v₀ : V} (hf : ∀ v, f (f v) = f v) {ws : List V}
    (h : RMWChain f v₀ ws) : ws.getLastD v₀ = if ws = [] then v₀ else f v₀ := by
  split_ifs with hnil
  · rw [hnil, List.getLastD_nil]
  · rw [List.getLastD_eq_getLast?, List.getLast?_eq_some_getLast hnil, Option.getD_some]
    exact h.eq_of_idem hf _ (List.getLast_mem hnil)

/-! ## Tasks that own their locations -/

section Owned

variable {ι : Type*} {Owns : ι → L → Prop} [∀ b x, Decidable (Owns b x)] {g : L → V → V}
  {task : ι → (L → V) → L → V}

/-- **Tasks over owned locations run in any order**: when task `b` maps each location it owns
through `g` and keeps the others, and no location has two owners, the tasks of a list without
repeats, run one after another, map exactly the locations one of them owns. -/
theorem foldl_owned (htask : ∀ b m x, task b m x = if Owns b x then g x (m x) else m x)
    (huniq : ∀ b b' x, Owns b x → Owns b' x → b = b') {order : List ι} (hnd : order.Nodup)
    (m : L → V) (x : L) :
    order.foldl (fun m b => task b m) m x = if ∃ b ∈ order, Owns b x then g x (m x) else m x := by
  induction order generalizing m with
  | nil => simp
  | cons b order ih =>
    obtain ⟨hb, hnd⟩ := List.nodup_cons.mp hnd
    rw [List.foldl_cons, ih hnd, htask]
    by_cases hown : Owns b x
    · -- `b` is the one owner of `x`, and it is not in the rest of the list
      have hrest : ¬∃ b' ∈ order, Owns b' x := fun ⟨b', hb', h'⟩ =>
        hb (huniq b' b x h' hown ▸ hb')
      rw [if_neg hrest, if_pos hown, if_pos ⟨b, List.mem_cons_self, hown⟩]
    · have hiff : (∃ b' ∈ b :: order, Owns b' x) ↔ ∃ b' ∈ order, Owns b' x := by
        simp only [List.mem_cons, exists_eq_or_imp, hown, false_or]
      rw [if_neg hown, if_congr hiff rfl rfl]

end Owned

end Galois.RacyPhase
