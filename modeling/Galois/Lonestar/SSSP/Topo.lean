import Galois.Lonestar.SSSP.DeltaStep

/-!
# `topoAlgo` and `topoTileAlgo` (SSSP.cpp) under every interleaving

Both run rounds of a `do_all` until a round changes nothing. `topoAlgo`'s `do_all` is over the
nodes, each with its edges and its entry `oldDist[n]`; `topoTileAlgo`'s is over the tiles
`MakeTiles` cut, each with its edges and its own `t.dist`. Call either a unit, and its entry
`old`. A unit loads `sdata` and, when `old > sdata`, loads it again into `old`, sets `changed`
and relaxes its edges with `atomicMin(ddata, sdata + weight)`, loading `sdata` for each edge.
The units of a round run interleaved, every load and every `atomicMin` an atomic action; the
`GReduceLogicalOr` `changed` is read only when the round is over.

* `TopoUnit`, `TopoPhase`, `TopoState`, `TopoStep` -- the rounds over any list of units;
* `topoAlgo`, `topoTileAlgo` -- the rounds over the nodes, and over the tiles of `MakeTiles`;
* `TopoInv` -- a unit's entry is at least its node's label; the edges of a unit whose entry is
  below `DIST_INFINITY` are relaxed from that entry, or still owed by the unit at work; in a
  round where `changed` is still false no unit has got past its check, and every unit done
  found its entry at most its node's label;
* **`topoRounds_settled`** -- so after a round that changed nothing, every entry is its node's
  label, every edge is relaxed, and the distances are settled: **`topoAlgo_settled`**,
  **`topoTileAlgo_settled`**.
-/

namespace Galois.Lonestar.SSSP

open Cusp BFS_SSSP ShortestPaths

/-! ## 1. The rounds -/

/-- A unit of the rounds: a node with its edges (`topoAlgo`), or a tile with its node and edges
(`topoTileAlgo`). -/
structure TopoUnit where
  src : ℕ
  edges : List ℕ
  deriving DecidableEq, Repr

/-- Where a unit at work is. -/
inductive TopoPhase where
  /-- before `if (old > sdata)` -/
  | check
  /-- before `old = sdata; changed.update(true);` -/
  | assign
  /-- before `newDist = sdata + weight` loads `sdata` for the first of `es` -/
  | load (es : List ℕ)
  /-- before `atomicMin(ddata, newDist)` on the destination of `e` -/
  | relax (newDist e : ℕ) (es : List ℕ)
  deriving DecidableEq

/-- The distances, every unit's entry, the units the round has not started, the units at work,
`changed`, and whether the `do ... while (changed.reduce())` loop still runs. -/
structure TopoState where
  dist : ℕ → ℕ
  old : ℕ → ℕ
  todo : List ℕ
  active : Multiset (ℕ × TopoPhase)
  changed : Bool
  running : Bool

/-- Unit `k` of the list. -/
def unitAt (units : List TopoUnit) (k : ℕ) : TopoUnit := units.getD k ⟨0, []⟩

/-- Unit `k` moves on to phase `p`. -/
def TopoState.advance (st : TopoState) (a : ℕ × TopoPhase) (p : TopoPhase) : TopoState :=
  { st with active := (a.1, p) ::ₘ st.active.erase a }

/-- Unit `k` is done. -/
def TopoState.retire (st : TopoState) (a : ℕ × TopoPhase) : TopoState :=
  { st with active := st.active.erase a }

/-- One atomic action of the rounds over `units`. -/
inductive TopoStep (units : List TopoUnit) (g : Graph) : TopoState → TopoState → Prop where
  /-- the `do_all` starts a unit of the round -/
  | start (st : TopoState) (k : ℕ) (hrun : st.running = true) (hk : k ∈ st.todo) :
      TopoStep units g st { st with todo := st.todo.erase k, active := (k, .check) ::ₘ st.active }
  /-- `old > sdata`: the unit has work -/
  | pass (st : TopoState) (k : ℕ) (ha : (k, .check) ∈ st.active)
      (hgt : st.dist (unitAt units k).src < st.old k) :
      TopoStep units g st (st.advance (k, .check) .assign)
  /-- ... or is done -/
  | fail (st : TopoState) (k : ℕ) (ha : (k, .check) ∈ st.active)
      (hle : st.old k ≤ st.dist (unitAt units k).src) :
      TopoStep units g st (st.retire (k, .check))
  /-- `old = sdata; changed.update(true);` -/
  | assign (st : TopoState) (k : ℕ) (ha : (k, .assign) ∈ st.active) :
      TopoStep units g st ⟨st.dist, Function.update st.old k (st.dist (unitAt units k).src),
        st.todo, (k, .load (unitAt units k).edges) ::ₘ st.active.erase (k, .assign), true,
        st.running⟩
  /-- `newDist = sdata + weight`, a `uint32_t` sum -/
  | load (st : TopoState) (k e : ℕ) (es : List ℕ) (ha : (k, .load (e :: es)) ∈ st.active) :
      TopoStep units g st (st.advance (k, .load (e :: es))
        (.relax ((st.dist (unitAt units k).src + getEdgeData g e) % 2 ^ 32) e es))
  /-- `atomicMin(ddata, newDist)` -/
  | relax (st : TopoState) (k nd e : ℕ) (es : List ℕ) (ha : (k, .relax nd e es) ∈ st.active) :
      TopoStep units g st ⟨Function.update st.dist (getEdgeDst g e) (min (st.dist (getEdgeDst g e)) nd),
        st.old, st.todo, (k, .load es) ::ₘ st.active.erase (k, .relax nd e es), st.changed,
        st.running⟩
  /-- the unit's edges are done -/
  | finish (st : TopoState) (k : ℕ) (ha : (k, .load []) ∈ st.active) :
      TopoStep units g st (st.retire (k, .load []))
  /-- the round is over and changed something: `changed.reset()` and the next round -/
  | next (st : TopoState) (hrun : st.running = true) (htodo : st.todo = [])
      (hact : st.active = 0) (hc : st.changed = true) :
      TopoStep units g st { st with todo := List.range units.length, changed := false }
  /-- the round is over and changed nothing: the loop ends -/
  | stop (st : TopoState) (hrun : st.running = true) (htodo : st.todo = [])
      (hact : st.active = 0) (hc : st.changed = false) :
      TopoStep units g st { st with running := false }

/-- The rounds start with `main`'s distances, every entry `DIST_INFINITY`, every unit to do. -/
def topoInit (units : List TopoUnit) (source : ℕ) : TopoState :=
  ⟨initDist source, fun _ => DIST_INFINITY, List.range units.length, 0, false, true⟩

/-- The rounds over `units` can end leaving the distances `d`. -/
def topoRounds (units : List TopoUnit) (g : Graph) (source : ℕ) (d : ℕ → ℕ) : Prop :=
  ∃ st, Relation.ReflTransGen (TopoStep units g) (topoInit units source) st ∧
    st.running = false ∧ st.dist = d

/-- The units of `topoAlgo`: every node with its edges, its entry `oldDist[n]`. -/
def topoUnits (g : Graph) : List TopoUnit :=
  (List.range g.edgeIndData.length).map fun n => ⟨n, edgeIds g n⟩

/-- The units of `topoTileAlgo`: the tiles `MakeTiles` pushes, `pushEdgeTiles` over each node
with `SrcEdgeTileMaker{n, DIST_INFINITY}`, each tile's `dist` its entry. -/
def topoTileUnits (g : Graph) : List TopoUnit :=
  (List.range g.edgeIndData.length).flatMap fun n =>
    (pushEdgeTiles 512 (g.edge_begin n) (g.edge_end n)).map fun r => ⟨n, tileRange r⟩

/-- `topoAlgo(graph, source)` can return leaving the distances `d`. -/
def topoAlgo (g : Graph) (source : ℕ) (d : ℕ → ℕ) : Prop := topoRounds (topoUnits g) g source d

/-- `topoTileAlgo(graph, source)` can return leaving the distances `d`. -/
def topoTileAlgo (g : Graph) (source : ℕ) (d : ℕ → ℕ) : Prop :=
  topoRounds (topoTileUnits g) g source d

/-! ## 2. The invariant -/

section Invariant

variable (units : List TopoUnit) (g : Graph) (source : ℕ)

/-- Unit `k` at work in phase `p` still owes the relaxation of edge `e` from its entry. -/
def Owes (old : ℕ → ℕ) (k e : ℕ) : TopoPhase → Prop
  | .check | .assign => False
  | .load es => e ∈ es
  | .relax nd e' es => (e = e' ∧ nd ≤ old k + getEdgeData g e) ∨ e ∈ es

/-- What a unit's phase holds: the edges left are its node's, and a `newDist` below
`DIST_INFINITY` is a walk's cost. -/
def TopoPhaseOk (k : ℕ) : TopoPhase → Prop
  | .check | .assign => True
  | .load es => ∀ e ∈ es, e ∈ edgeIds g (unitAt units k).src
  | .relax nd e es => e ∈ edgeIds g (unitAt units k).src ∧
      (∀ e' ∈ es, e' ∈ edgeIds g (unitAt units k).src) ∧
      (nd < DIST_INFINITY → Walk (Adj g) source (getEdgeDst g e) nd)

/-- **The invariant of the rounds.** -/
structure TopoInv (st : TopoState) : Prop where
  source_eq : st.dist source = 0
  le_inf : ∀ v, st.dist v ≤ DIST_INFINITY
  walk : ∀ v, st.dist v < DIST_INFINITY → Walk (Adj g) source v (st.dist v)
  le_old : ∀ k, st.dist (unitAt units k).src ≤ st.old k
  phase : ∀ a ∈ st.active, TopoPhaseOk units g source a.1 a.2
  owed : ∀ k, st.old k < DIST_INFINITY → ∀ e ∈ (unitAt units k).edges,
    st.dist (getEdgeDst g e) ≤ st.old k + getEdgeData g e ∨
      ∃ p, (k, p) ∈ st.active ∧ Owes g st.old k e p
  quiet : st.changed = false → ∀ a ∈ st.active, a.2 = .check ∨ a.2 = .assign
  done : st.changed = false → ∀ k < units.length, k ∉ st.todo → (∀ p, (k, p) ∉ st.active) →
    st.old k ≤ st.dist (unitAt units k).src
  stopped : st.running = false → st.todo = [] ∧ st.active = 0 ∧ st.changed = false

end Invariant

/-! ## 3. Every atomic action keeps the invariant -/

section Steps

variable {units : List TopoUnit} {g : Graph} {source : ℕ}
  (hunits : ∀ k, ∀ e ∈ (unitAt units k).edges, e ∈ edgeIds g (unitAt units k).src)

theorem TopoInv.running {st : TopoState} (h : TopoInv units g source st) {a : ℕ × TopoPhase}
    (ha : a ∈ st.active) : st.running = true := by
  by_contra hr
  rw [(h.stopped (by simpa using hr)).2.1] at ha
  exact Multiset.notMem_zero a ha

theorem mem_topo_advance {st : TopoState} {a b : ℕ × TopoPhase} {p : TopoPhase} :
    b ∈ (st.advance a p).active ↔ b = (a.1, p) ∨ b ∈ st.active.erase a :=
  Multiset.mem_cons

/-- What is owed by the units other than `a` stays owed when `a` moves. -/
theorem owes_advance {st : TopoState} {a : ℕ × TopoPhase} {p : TopoPhase} {old : ℕ → ℕ}
    {k e : ℕ} (h : ∃ q, (k, q) ∈ st.active ∧ Owes g old k e q)
    (hself : a.1 = k → Owes g old k e a.2 → Owes g old k e p ∨ ∃ q, (k, q) ∈ st.active.erase a ∧
      Owes g old k e q) :
    ∃ q, (k, q) ∈ (st.advance a p).active ∧ Owes g old k e q := by
  obtain ⟨q, hq, ho⟩ := h
  by_cases hqa : (k, q) = a
  · subst hqa
    rcases hself rfl ho with hp | ⟨q', hq', ho'⟩
    · exact ⟨p, Multiset.mem_cons_self _ _, hp⟩
    · exact ⟨q', Multiset.mem_cons_of_mem hq', ho'⟩
  · exact ⟨q, Multiset.mem_cons_of_mem ((Multiset.mem_erase_of_ne hqa).mpr hq), ho⟩

theorem TopoInv.start {st : TopoState} (h : TopoInv units g source st) {k : ℕ}
    (hk : k ∈ st.todo) :
    TopoInv units g source
      { st with todo := st.todo.erase k, active := (k, .check) ::ₘ st.active } := by
  refine ⟨h.source_eq, h.le_inf, h.walk, h.le_old, ?_, ?_, ?_, ?_, ?_⟩
  · intro a ha
    rcases Multiset.mem_cons.mp ha with rfl | ha
    · trivial
    · exact h.phase a ha
  · intro k' hk' e he
    rcases h.owed k' hk' e he with hr | ⟨q, hq, ho⟩
    · exact .inl hr
    · exact .inr ⟨q, Multiset.mem_cons_of_mem hq, ho⟩
  · intro hc a ha
    rcases Multiset.mem_cons.mp ha with rfl | ha
    · exact .inl rfl
    · exact h.quiet hc a ha
  · intro hc k' hlt hk' hact
    by_cases hkk : k' = k
    · exact absurd (Multiset.mem_cons_self _ _) (hkk ▸ hact .check)
    · exact h.done hc k' hlt (fun hm => hk' ((List.mem_erase_of_ne hkk).mpr hm))
        fun p hp => hact p (Multiset.mem_cons_of_mem hp)
  · intro hr
    exact absurd ((h.stopped hr).1 ▸ hk) List.not_mem_nil

theorem TopoInv.pass {st : TopoState} (h : TopoInv units g source st) {k : ℕ}
    (ha : (k, .check) ∈ st.active) :
    TopoInv units g source (st.advance (k, .check) .assign) := by
  refine ⟨h.source_eq, h.le_inf, h.walk, h.le_old, ?_, ?_, ?_, ?_, ?_⟩
  · intro a ha'
    rcases mem_topo_advance.mp ha' with rfl | ha'
    · trivial
    · exact h.phase a (Multiset.mem_of_mem_erase ha')
  · intro k' hk' e he
    rcases h.owed k' hk' e he with hr | hown
    · exact .inl hr
    · exact .inr (owes_advance hown fun _ ho => absurd ho id)
  · intro hc a ha'
    rcases mem_topo_advance.mp ha' with rfl | ha'
    · exact .inr rfl
    · exact h.quiet hc a (Multiset.mem_of_mem_erase ha')
  · intro hc k' hlt hk' hact
    refine h.done hc k' hlt hk' fun p hp => ?_
    by_cases hpa : (k', p) = (k, .check)
    · exact hact .assign (by rw [Prod.mk.injEq] at hpa; rw [hpa.1]; exact Multiset.mem_cons_self _ _)
    · exact hact p (Multiset.mem_cons_of_mem ((Multiset.mem_erase_of_ne hpa).mpr hp))
  · intro hr
    exact absurd (h.running ha) (by change st.running = false at hr; simp [hr])

/-- A unit that owed nothing owes nothing once done. -/
theorem owes_retire {st : TopoState} {a : ℕ × TopoPhase} {old : ℕ → ℕ} {k e : ℕ}
    (h : ∃ q, (k, q) ∈ st.active ∧ Owes g old k e q) (hself : a.1 = k → ¬ Owes g old k e a.2) :
    ∃ q, (k, q) ∈ (st.retire a).active ∧ Owes g old k e q := by
  obtain ⟨q, hq, ho⟩ := h
  have hqa : (k, q) ≠ a := fun hqa => hself (by rw [← hqa]) (by rw [← hqa]; exact ho)
  exact ⟨q, (Multiset.mem_erase_of_ne hqa).mpr hq, ho⟩

/-- No unit is past its check while `changed` is false. -/
theorem TopoInv.changed_of_mem {st : TopoState} (h : TopoInv units g source st)
    {a : ℕ × TopoPhase} (ha : a ∈ st.active) (hp : a.2 ≠ .check ∧ a.2 ≠ .assign) :
    st.changed = true := by
  by_contra hc
  rcases h.quiet (by simpa using hc) a ha with h1 | h1
  · exact hp.1 h1
  · exact hp.2 h1

theorem TopoInv.fail {st : TopoState} (h : TopoInv units g source st) {k : ℕ}
    (ha : (k, .check) ∈ st.active) (hle : st.old k ≤ st.dist (unitAt units k).src) :
    TopoInv units g source (st.retire (k, .check)) := by
  refine ⟨h.source_eq, h.le_inf, h.walk, h.le_old,
    fun a ha' => h.phase a (Multiset.mem_of_mem_erase ha'), ?_,
    fun hc a ha' => h.quiet hc a (Multiset.mem_of_mem_erase ha'), ?_, ?_⟩
  · intro k' hk' e he
    rcases h.owed k' hk' e he with hr | hown
    · exact .inl hr
    · exact .inr (owes_retire hown fun _ ho => ho)
  · -- a unit done at its check found its entry at most its node's label
    intro hc k' hlt hk' hact
    by_cases hkk : k' = k
    · rw [hkk]
      exact hle
    · refine h.done hc k' hlt hk' fun p hp => hact p ?_
      exact (Multiset.mem_erase_of_ne fun he => hkk (Prod.mk.inj he).1).mpr hp
  · intro hr
    exact absurd (h.running ha) (by change st.running = false at hr; simp [hr])

theorem Owes.update {old : ℕ → ℕ} {k k' e x : ℕ} {p : TopoPhase} (hk : k' ≠ k)
    (h : Owes g old k' e p) : Owes g (Function.update old k x) k' e p := by
  cases p with
  | check | assign | load es => exact h
  | relax nd e' es =>
    rw [Owes, Function.update_of_ne hk]
    exact h

include hunits in
theorem TopoInv.assign {st : TopoState} (h : TopoInv units g source st) {k : ℕ}
    (ha : (k, .assign) ∈ st.active) :
    TopoInv units g source ⟨st.dist, Function.update st.old k (st.dist (unitAt units k).src),
      st.todo, (k, .load (unitAt units k).edges) ::ₘ st.active.erase (k, .assign), true,
      st.running⟩ := by
  refine ⟨h.source_eq, h.le_inf, h.walk, ?_, ?_, ?_, (fun hc => by simp at hc),
    (fun hc => by simp at hc), ?_⟩
  · intro k'
    by_cases hkk : k' = k
    · rw [hkk]
      exact (Function.update_self k (st.dist (unitAt units k).src) st.old).ge
    · exact (h.le_old k').trans (Function.update_of_ne hkk (st.dist (unitAt units k).src) st.old).ge
  · intro a ha'
    rcases Multiset.mem_cons.mp ha' with rfl | ha'
    · exact hunits k
    · exact h.phase a (Multiset.mem_of_mem_erase ha')
  · intro k' hk' e he
    by_cases hkk : k' = k
    · -- the unit now owes all its edges
      subst hkk
      exact .inr ⟨_, Multiset.mem_cons_self _ _, he⟩
    · have hold : Function.update st.old k (st.dist (unitAt units k).src) k' = st.old k' :=
        Function.update_of_ne hkk _ _
      dsimp only at hk' ⊢
      rw [hold] at hk' ⊢
      rcases h.owed k' hk' e he with hr | hown
      · exact .inl hr
      · obtain ⟨q, hq, ho⟩ := owes_advance (a := (k, .assign)) (p := .load (unitAt units k).edges) hown
          fun hk => absurd hk.symm hkk
        exact .inr ⟨q, hq, ho.update hkk⟩
  · intro hr
    exact absurd (h.running ha) (by simp at hr; simp [hr])

theorem TopoInv.finish {st : TopoState} (h : TopoInv units g source st) {k : ℕ}
    (ha : (k, .load []) ∈ st.active) : TopoInv units g source (st.retire (k, .load [])) := by
  have hc := h.changed_of_mem ha ⟨by simp, by simp⟩
  refine ⟨h.source_eq, h.le_inf, h.walk, h.le_old,
    fun a ha' => h.phase a (Multiset.mem_of_mem_erase ha'), ?_,
    fun hc' => absurd hc (by simp [show st.changed = false from hc']),
    fun hc' => absurd hc (by simp [show st.changed = false from hc']), ?_⟩
  · intro k' hk' e he
    rcases h.owed k' hk' e he with hr | hown
    · exact .inl hr
    · exact .inr (owes_retire hown fun _ ho => List.not_mem_nil ho)
  · intro hr
    exact absurd (h.running ha) (by change st.running = false at hr; simp [hr])

variable (hw : ∀ w ∈ g.edgeData, w ≤ 2 ^ 31)

include hw in
theorem TopoInv.load {st : TopoState} (h : TopoInv units g source st) {k e : ℕ}
    {es : List ℕ} (ha : (k, .load (e :: es)) ∈ st.active) :
    TopoInv units g source (st.advance (k, .load (e :: es))
      (.relax ((st.dist (unitAt units k).src + getEdgeData g e) % 2 ^ 32) e es)) := by
  have hc := h.changed_of_mem ha ⟨by simp, by simp⟩
  have hphase : TopoPhaseOk units g source k (.load (e :: es)) := h.phase _ ha
  have he : e ∈ edgeIds g (unitAt units k).src := hphase e (List.mem_cons_self ..)
  -- no wrap: a label is at most `2 ^ 31 - 2` and a weight at most `2 ^ 31`
  have hsum : (st.dist (unitAt units k).src + getEdgeData g e) % 2 ^ 32 =
      st.dist (unitAt units k).src + getEdgeData g e := by
    have hu := h.le_inf (unitAt units k).src
    have hwe := getEdgeData_le hw e
    rw [DIST_INFINITY_eq] at hu
    exact Nat.mod_eq_of_lt (by omega)
  refine ⟨h.source_eq, h.le_inf, h.walk, h.le_old, ?_, ?_,
    fun hc' => absurd hc (by simp [show st.changed = false from hc']),
    fun hc' => absurd hc (by simp [show st.changed = false from hc']), ?_⟩
  · intro a ha'
    rcases mem_topo_advance.mp ha' with rfl | ha'
    · refine ⟨he, fun e' he' => hphase e' (List.mem_cons_of_mem _ he'), ?_⟩
      rw [hsum]
      intro hlt
      exact .snoc (h.walk _ (by omega)) (adj_of_mem he)
    · exact h.phase a (Multiset.mem_of_mem_erase ha')
  · intro k' hk' e' he'
    rcases h.owed k' hk' e' he' with hr | hown
    · exact .inl hr
    · refine .inr (owes_advance hown fun hk ho => .inl ?_)
      subst hk
      rcases List.mem_cons.mp ho with rfl | ho
      · -- the load: `newDist` is the node's label plus the weight, at most the entry's
        exact .inl ⟨rfl, by rw [hsum]; exact Nat.add_le_add_right (h.le_old _) _⟩
      · exact .inr ho
  · intro hr
    exact absurd (h.running ha) (by change st.running = false at hr; simp [hr])

theorem TopoInv.relax {st : TopoState} (h : TopoInv units g source st) {k nd e : ℕ}
    {es : List ℕ} (ha : (k, .relax nd e es) ∈ st.active) :
    TopoInv units g source
      ⟨Function.update st.dist (getEdgeDst g e) (min (st.dist (getEdgeDst g e)) nd),
        st.old, st.todo, (k, .load es) ::ₘ st.active.erase (k, .relax nd e es), st.changed,
        st.running⟩ := by
  have hc := h.changed_of_mem ha ⟨by simp, by simp⟩
  have hphase : TopoPhaseOk units g source k (.relax nd e es) := h.phase _ ha
  set v := getEdgeDst g e
  have hd : ∀ y, Function.update st.dist v (min (st.dist v) nd) y ≤ st.dist y :=
    update_le (min_le_left _ _)
  refine ⟨?_, fun y => (hd y).trans (h.le_inf y), ?_, fun k' => (hd _).trans (h.le_old k'), ?_,
    ?_, fun hc' => absurd hc (by simp [show st.changed = false from hc']),
    fun hc' => absurd hc (by simp [show st.changed = false from hc']), ?_⟩
  · show Function.update st.dist v (min (st.dist v) nd) source = 0
    exact Nat.le_zero.mp ((hd source).trans h.source_eq.le)
  · -- the new label is the old one or `newDist`, both walk costs
    intro y (hy : Function.update st.dist v (min (st.dist v) nd) y < DIST_INFINITY)
    show Walk (Adj g) source y (Function.update st.dist v (min (st.dist v) nd) y)
    by_cases hyv : y = v
    · rw [hyv, Function.update_self] at hy ⊢
      rcases le_total (st.dist v) nd with hle | hle
      · rw [min_eq_left hle] at hy ⊢
        exact h.walk v hy
      · rw [min_eq_right hle] at hy ⊢
        exact hphase.2.2 hy
    · rw [Function.update_of_ne hyv] at hy ⊢
      exact h.walk y hy
  · intro a ha'
    rcases Multiset.mem_cons.mp ha' with rfl | ha'
    · exact hphase.2.1
    · exact h.phase a (Multiset.mem_of_mem_erase ha')
  · intro k' hk' e' he'
    rcases h.owed k' hk' e' he' with hr | ⟨q, hq, ho⟩
    · exact .inl ((hd _).trans hr)
    · by_cases hqa : (k', q) = (k, .relax nd e es)
      · obtain ⟨rfl, rfl⟩ := Prod.mk.inj hqa
        rcases ho with ⟨rfl, hle⟩ | ho
        · -- the edge just relaxed: its destination is now at most `newDist`
          refine .inl ?_
          show Function.update st.dist v (min (st.dist v) nd) v ≤ st.old k' + getEdgeData g e'
          rw [Function.update_self]
          exact (min_le_right _ _).trans hle
        · exact .inr ⟨.load es, Multiset.mem_cons_self _ _, ho⟩
      · exact .inr ⟨q, Multiset.mem_cons_of_mem ((Multiset.mem_erase_of_ne hqa).mpr hq), ho⟩
  · intro hr
    exact absurd (h.running ha) (by change st.running = false at hr; simp [hr])

include hunits hw in
/-- **Every atomic action keeps the invariant.** -/
theorem TopoInv.step {st st' : TopoState} (h : TopoInv units g source st)
    (hs : TopoStep units g st st') : TopoInv units g source st' := by
  cases hs with
  | start k hrun hk => exact h.start hk
  | pass k ha hgt => exact h.pass ha
  | fail k ha hle => exact h.fail ha hle
  | assign k ha => exact h.assign hunits ha
  | load k e es ha => exact h.load hw ha
  | relax k nd e es ha => exact h.relax ha
  | finish k ha => exact h.finish ha
  | next hrun htodo hact hc =>
    refine ⟨h.source_eq, h.le_inf, h.walk, h.le_old, fun a ha => ?_, ?_, fun _ a ha => ?_,
      fun _ k hk hnot => absurd (List.mem_range.mpr hk) hnot, fun hr => by simp at hr; simp [hrun] at hr⟩
    · rw [hact] at ha
      exact absurd ha (Multiset.notMem_zero a)
    · -- with no unit at work, nothing is owed: every edge is relaxed
      intro k' hk' e he
      rcases h.owed k' hk' e he with hr | ⟨q, hq, -⟩
      · exact .inl hr
      · rw [hact] at hq
        exact absurd hq (Multiset.notMem_zero _)
    · rw [hact] at ha
      exact absurd ha (Multiset.notMem_zero a)
  | stop hrun htodo hact hc =>
    exact ⟨h.source_eq, h.le_inf, h.walk, h.le_old, h.phase, h.owed, h.quiet, h.done,
      fun _ => ⟨htodo, hact, hc⟩⟩

include hunits hw in
/-- **So does every interleaving of every round.** -/
theorem TopoInv.run {st st' : TopoState} (h : TopoInv units g source st)
    (hr : Relation.ReflTransGen (TopoStep units g) st st') : TopoInv units g source st' := by
  induction hr with
  | refl => exact h
  | tail _ hs ih => exact ih.step hunits hw hs

end Steps

/-! ## 4. The start and the end -/

section Run

variable {units : List TopoUnit} {g : Graph} {source : ℕ}

theorem topoInv_init : TopoInv units g source (topoInit units source) := by
  have hsrc : initDist source source = 0 := if_pos rfl
  have hle : ∀ v, initDist source v ≤ DIST_INFINITY := by
    intro v
    unfold initDist
    split_ifs <;> omega
  refine ⟨hsrc, hle, ?_, fun k => hle _, fun a ha => absurd ha (Multiset.notMem_zero a),
    fun k hk => absurd hk (lt_irrefl _), fun _ a ha => absurd ha (Multiset.notMem_zero a),
    fun _ k hk hnot => absurd (List.mem_range.mpr hk) hnot, fun hr => by cases hr⟩
  intro v hv
  by_cases hvs : v = source
  · subst hvs
    show Walk (Adj g) v v (initDist v v)
    rw [hsrc]
    exact .nil
  · exact absurd hv (by simp [topoInit, initDist, hvs])

/-- **After a round that changed nothing, the distances are settled**: every unit found its
entry at most its node's label, so the two agree, and every edge of a unit is relaxed from
it. -/
theorem topoRounds_settled
    (hunits : ∀ k, ∀ e ∈ (unitAt units k).edges, e ∈ edgeIds g (unitAt units k).src)
    (hcover : ∀ u, ∀ e ∈ edgeIds g u, ∃ k < units.length,
      (unitAt units k).src = u ∧ e ∈ (unitAt units k).edges)
    (hw : ∀ w ∈ g.edgeData, w ≤ 2 ^ 31) {d : ℕ → ℕ} (h : topoRounds units g source d) :
    Settled (Adj g) source DIST_INFINITY d := by
  obtain ⟨st, hr, hstop, rfl⟩ := h
  have hinv := topoInv_init.run hunits hw hr
  obtain ⟨htodo, hact, hc⟩ := hinv.stopped hstop
  refine ⟨hinv.source_eq, hinv.le_inf, hinv.walk, ?_⟩
  rintro u v w ⟨e, he, rfl, rfl⟩ hu
  obtain ⟨k, hk, hsrc, hek⟩ := hcover u e he
  -- the unit's entry is its node's label
  have hold : st.old k = st.dist u := by
    rw [← hsrc]
    refine le_antisymm (hinv.done hc k hk (by simp [htodo]) fun p hp => ?_) (hinv.le_old k)
    rw [hact] at hp
    exact Multiset.notMem_zero _ hp
  rcases hinv.owed k (hold ▸ hu) e hek with hrel | ⟨q, hq, -⟩
  · rw [hold] at hrel
    exact hrel
  · rw [hact] at hq
    exact absurd hq (Multiset.notMem_zero _)

end Run

/-! ## 5. The nodes and the tiles -/

/-- Units given as a list: what holds of each holds of every index. -/
theorem unitAt_of_mem {units : List TopoUnit} {P : TopoUnit → Prop} (hnil : P ⟨0, []⟩)
    (h : ∀ x ∈ units, P x) (k : ℕ) : P (unitAt units k) := by
  rw [unitAt, List.getD_eq_getElem?_getD]
  cases hk : units[k]? with
  | none => exact hnil
  | some x => exact h x (List.mem_of_getElem? hk)

/-- A unit of the list is a unit at some index. -/
theorem exists_unitAt {units : List TopoUnit} {x : TopoUnit} (hx : x ∈ units) :
    ∃ k < units.length, unitAt units k = x := by
  obtain ⟨k, hk, rfl⟩ := List.mem_iff_getElem.mp hx
  exact ⟨k, hk, by rw [unitAt, List.getD_eq_getElem?_getD, List.getElem?_eq_getElem hk,
    Option.getD_some]⟩

/-- **When `topoAlgo` returns, under any interleaving, the distances are settled.** -/
theorem topoAlgo_settled {g : Graph} {source : ℕ} (hw : ∀ w ∈ g.edgeData, w ≤ 2 ^ 31)
    {d : ℕ → ℕ} (h : topoAlgo g source d) : Settled (Adj g) source DIST_INFINITY d := by
  refine topoRounds_settled (unitAt_of_mem (P := fun x => ∀ e ∈ x.edges, e ∈ edgeIds g x.src)
    (fun e he => absurd he List.not_mem_nil) ?_) ?_ hw h
  · intro x hx
    obtain ⟨n, -, rfl⟩ := List.mem_map.mp hx
    exact fun e he => he
  · intro u e he
    have hmem : (⟨u, edgeIds g u⟩ : TopoUnit) ∈ topoUnits g :=
      List.mem_map.mpr ⟨u, List.mem_range.mpr (lt_of_mem_edgeIds he), rfl⟩
    obtain ⟨k, hk, hx⟩ := exists_unitAt hmem
    exact ⟨k, hk, by rw [hx], by rw [hx]; exact he⟩

/-- **When `topoTileAlgo` returns, under any interleaving, the distances are settled**: the tiles
of `MakeTiles` cover every node's edges. -/
theorem topoTileAlgo_settled {g : Graph} {source : ℕ} (hw : ∀ w ∈ g.edgeData, w ≤ 2 ^ 31)
    {d : ℕ → ℕ} (h : topoTileAlgo g source d) : Settled (Adj g) source DIST_INFINITY d := by
  refine topoRounds_settled (unitAt_of_mem (P := fun x => ∀ e ∈ x.edges, e ∈ edgeIds g x.src)
    (fun e he => absurd he List.not_mem_nil) ?_) ?_ hw h
  · intro x hx e he
    obtain ⟨n, -, hx⟩ := List.mem_flatMap.mp hx
    obtain ⟨r, hr, rfl⟩ := List.mem_map.mp hx
    rw [edgeIds, ← flatMap_pushEdgeTiles 512, List.mem_flatMap]
    exact ⟨r, hr, he⟩
  · intro u e he
    have hu := lt_of_mem_edgeIds he
    rw [edgeIds, ← flatMap_pushEdgeTiles 512, List.mem_flatMap] at he
    obtain ⟨r, hr, her⟩ := he
    have hmem : (⟨u, tileRange r⟩ : TopoUnit) ∈ topoTileUnits g :=
      List.mem_flatMap.mpr ⟨u, List.mem_range.mpr hu, List.mem_map.mpr ⟨r, hr, rfl⟩⟩
    obtain ⟨k, hk, hx⟩ := exists_unitAt hmem
    exact ⟨k, hk, by rw [hx], by rw [hx]; exact her⟩

end Galois.Lonestar.SSSP
