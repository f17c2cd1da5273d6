import Galois.Lonestar.BfsSssp
import Galois.ShortestPaths
import Mathlib.Logic.Relation

/-!
# `deltaStepAlgo` (SSSP.cpp) under every interleaving

The `for_each` of `deltaStepAlgo` runs its operator on every item of the worklist, on any number
of threads. An operator checks `sdata < item.dist` and returns on a stale item; otherwise, for
each edge of `edgeRange(item)`, it loads `sdata`, takes `newDist = sdata + ew` in `uint32_t`, does
`atomicMin(ddist, newDist)` and, when that lowered `ddist`, pushes `pushWrap(ctx, dst, newDist)`.
Each of these is one atomic action of `Step`; the worklist hands out its items in any order
(`OBIM` and `OBIM_Barrier` only order them), and any number of operators are at work at once.

* `Adj`, `initDist` -- the weighted graph and the distances `main` sets before the algorithm;
* `Phase`, `Activity`, `State`, `Step` -- the operators at work and one atomic action;
* `deltaStepAlgo S g source d` -- some interleaving from the first push
  `pushWrap(initBag, source, 0, "parallel")` ends with an empty worklist, no operator at work
  and distances `d`;
* `Inv` -- the invariant: labels are walk costs below `DIST_INFINITY`, queued items are such
  costs, and every edge out of a labelled node is relaxed or `Pending` (some queued item or
  operator at work will relax it from the node's current label);
* `Inv.step`, `Inv.run` -- every atomic action keeps it, so every interleaving does; the sum
  `sdata + ew` never wraps, as labels stay at most `2 ^ 31 - 2` and weights at most `2 ^ 31`;
* **`deltaStepAlgo_settled`** -- so when the algorithm returns, the distances are settled
  (`ShortestPaths.Settled`): each is `min (dist, DIST_INFINITY)`.
-/

namespace Galois.Lonestar.SSSP

open Cusp BFS_SSSP ShortestPaths

/-! ## 1. The graph and the machine -/

/-- `Graph`: an `LC_CSR_Graph` whose edge data are the `uint32_t` weights. -/
abbrev Graph := CSRGraph ℕ

/-- An edge `u → v` of weight `w`: an edge of `u` whose destination is `v` and whose data is
`w`. -/
def Adj (g : Graph) (u v w : ℕ) : Prop :=
  ∃ e ∈ edgeIds g u, getEdgeDst g e = v ∧ getEdgeData g e = w

theorem adj_of_mem {g : Graph} {u e : ℕ} (he : e ∈ edgeIds g u) :
    Adj g u (getEdgeDst g e) (getEdgeData g e) :=
  ⟨e, he, rfl, rfl⟩

/-- The distances `main` sets before it runs an algorithm: `DIST_INFINITY` on every node, then
`0` on the source. -/
def initDist (source : ℕ) (v : ℕ) : ℕ := if v = source then 0 else DIST_INFINITY

variable {T : Type} [DecidableEq T]

/-- Where an operator of `deltaStepAlgo` is on its item. -/
inductive Phase (T : Type) where
  /-- before `if (sdata < item.dist) return;` -/
  | check
  /-- in the edge loop, before `newDist = sdata + ew` loads `sdata` for the first of `es` -/
  | load (es : List ℕ)
  /-- before `atomicMin(ddist, newDist)` on the destination of `e`, with `es` left -/
  | relax (newDist e : ℕ) (es : List ℕ)
  /-- pushing the items `pushWrap(ctx, dst, newDist)` made, with `es` left -/
  | push (items : List T) (es : List ℕ)
  deriving DecidableEq

/-- An operator at work: its item and where it is. -/
structure Activity (T : Type) where
  item : T
  phase : Phase T
  deriving DecidableEq

/-- The distances (the `std::atomic<uint32_t>` node data), the worklist and the operators at
work. -/
structure State (T : Type) where
  dist : ℕ → ℕ
  pool : Multiset T
  active : Multiset (Activity T)

/-- Operator `a` moves on to phase `p`. -/
def State.advance (st : State T) (a : Activity T) (p : Phase T) : State T :=
  { st with active := ⟨a.item, p⟩ ::ₘ st.active.erase a }

/-- Operator `a` returns. -/
def State.retire (st : State T) (a : Activity T) : State T :=
  { st with active := st.active.erase a }

/-- One atomic action of the `for_each` of `deltaStepAlgo` over the template arguments `S`. -/
inductive Step (S : PushScheme T) (g : Graph) : State T → State T → Prop where
  /-- a thread takes an item off the worklist -/
  | pop (st : State T) (t : T) (ht : t ∈ st.pool) :
      Step S g st { st with pool := st.pool.erase t, active := ⟨t, .check⟩ ::ₘ st.active }
  /-- `if (sdata < item.dist) return;` returns -/
  | skip (st : State T) (a : Activity T) (ha : a ∈ st.active) (hp : a.phase = .check)
      (hlt : st.dist (S.src a.item) < S.dist a.item) : Step S g st (st.retire a)
  /-- ... or goes on to the edges -/
  | enter (st : State T) (a : Activity T) (ha : a ∈ st.active) (hp : a.phase = .check)
      (hge : S.dist a.item ≤ st.dist (S.src a.item)) :
      Step S g st (st.advance a (.load (S.edgeRange a.item)))
  /-- `newDist = sdata + ew`, a `uint32_t` sum -/
  | load (st : State T) (a : Activity T) (e : ℕ) (es : List ℕ) (ha : a ∈ st.active)
      (hp : a.phase = .load (e :: es)) :
      Step S g st
        (st.advance a (.relax ((st.dist (S.src a.item) + getEdgeData g e) % 2 ^ 32) e es))
  /-- `atomicMin(ddist, newDist)` lowers `ddist` -/
  | lower (st : State T) (a : Activity T) (nd e : ℕ) (es : List ℕ) (ha : a ∈ st.active)
      (hp : a.phase = .relax nd e es) (hlt : nd < st.dist (getEdgeDst g e)) :
      Step S g st ⟨Function.update st.dist (getEdgeDst g e) nd, st.pool,
        ⟨a.item, .push (S.pushWrap (getEdgeDst g e) nd) es⟩ ::ₘ st.active.erase a⟩
  /-- ... or leaves it -/
  | keep (st : State T) (a : Activity T) (nd e : ℕ) (es : List ℕ) (ha : a ∈ st.active)
      (hp : a.phase = .relax nd e es) (hge : st.dist (getEdgeDst g e) ≤ nd) :
      Step S g st (st.advance a (.load es))
  /-- one `push` of `pushWrap(ctx, dst, newDist)` -/
  | push (st : State T) (a : Activity T) (t : T) (ts : List T) (es : List ℕ)
      (ha : a ∈ st.active) (hp : a.phase = .push (t :: ts) es) :
      Step S g st ⟨st.dist, t ::ₘ st.pool, ⟨a.item, .push ts es⟩ ::ₘ st.active.erase a⟩
  /-- `pushWrap` is done: the next edge -/
  | pushed (st : State T) (a : Activity T) (es : List ℕ) (ha : a ∈ st.active)
      (hp : a.phase = .push [] es) : Step S g st (st.advance a (.load es))
  /-- the edges are done: the operator returns -/
  | finish (st : State T) (a : Activity T) (ha : a ∈ st.active) (hp : a.phase = .load []) :
      Step S g st (st.retire a)

/-- The state the algorithm starts from: `main`'s distances and the first items. -/
def init (source : ℕ) (items : List T) : State T := ⟨initDist source, items, 0⟩

/-- `deltaStepAlgo(graph, source, pushWrap, edgeRange)` can return leaving the distances `d`:
some interleaving from the first push `pushWrap(initBag, source, 0, "parallel")` empties the
worklist with no operator at work. -/
def deltaStepAlgo (S : PushScheme T) (g : Graph) (source : ℕ) (d : ℕ → ℕ) : Prop :=
  ∃ st, Relation.ReflTransGen (Step S g) (init source (S.pushWrapParallel source 0)) st ∧
    st.pool = 0 ∧ st.active = 0 ∧ st.dist = d

theorem mem_advance {st : State T} {a b : Activity T} {p : Phase T} :
    b ∈ (st.advance a p).active ↔ b = ⟨a.item, p⟩ ∨ b ∈ st.active.erase a :=
  Multiset.mem_cons

/-- An operator other than `a` is still at work after `a` moves. -/
theorem mem_erase_of_mem {st : State T} {a b : Activity T} (hb : b ∈ st.active) (hba : b ≠ a) :
    b ∈ st.active.erase a :=
  (Multiset.mem_erase_of_ne hba).mpr hb

/-! ## 2. The invariant -/

section Invariant

variable (S : PushScheme T) (g : Graph) (source : ℕ)

/-- A queued item: its node's label is at most its distance, a walk's cost below
`DIST_INFINITY`, and its edges are its node's. -/
def ItemOk (d : ℕ → ℕ) (t : T) : Prop :=
  d (S.src t) ≤ S.dist t ∧ S.dist t < DIST_INFINITY ∧
    Walk (Adj g) source (S.src t) (S.dist t) ∧ ∀ e ∈ S.edgeRange t, e ∈ edgeIds g (S.src t)

/-- What an operator's phase holds: the edges left are its node's, a `newDist` below
`DIST_INFINITY` is a walk's cost to the edge's destination, and the items still to push are
fine. -/
def PhaseOk (d : ℕ → ℕ) (item : T) : Phase T → Prop
  | .check => True
  | .load es => ∀ e ∈ es, e ∈ edgeIds g (S.src item)
  | .relax nd e es => e ∈ edgeIds g (S.src item) ∧ (∀ e' ∈ es, e' ∈ edgeIds g (S.src item)) ∧
      (nd < DIST_INFINITY → Walk (Adj g) source (getEdgeDst g e) nd)
  | .push ts es => (∀ e' ∈ es, e' ∈ edgeIds g (S.src item)) ∧ ∀ t ∈ ts, ItemOk S g source d t

/-- Item `t` will relax edge `e` of `u` from `u`'s current label. -/
def Queued (d : ℕ → ℕ) (u e : ℕ) (t : T) : Prop :=
  S.src t = u ∧ S.dist t = d u ∧ e ∈ S.edgeRange t

/-- The operator on `item` in this phase will relax edge `e` of `u` from `u`'s current label:
before the check when the item is current, before the loads for the edges left, after the load
when `newDist` is `u`'s label plus the weight, and through the items it still has to push. -/
def PhasePending (d : ℕ → ℕ) (u e : ℕ) (item : T) : Phase T → Prop
  | .check => Queued S d u e item
  | .load es => S.src item = u ∧ e ∈ es
  | .relax nd e' es => S.src item = u ∧ ((e = e' ∧ nd ≤ d u + getEdgeData g e) ∨ e ∈ es)
  | .push ts es => (S.src item = u ∧ e ∈ es) ∨ ∃ t ∈ ts, Queued S d u e t

/-- Some queued item or operator at work will relax edge `e` of `u`. -/
def Pending (st : State T) (u e : ℕ) : Prop :=
  (∃ t ∈ st.pool, Queued S st.dist u e t) ∨
    ∃ a ∈ st.active, PhasePending S g st.dist u e a.item a.phase

/-- Edge `e` of `u` cannot lower its destination's label. -/
def Relaxed (d : ℕ → ℕ) (u e : ℕ) : Prop :=
  d (getEdgeDst g e) ≤ d u + getEdgeData g e

/-- **The invariant of `deltaStepAlgo`.** -/
structure Inv (st : State T) : Prop where
  source_eq : st.dist source = 0
  le_inf : ∀ v, st.dist v ≤ DIST_INFINITY
  walk : ∀ v, st.dist v < DIST_INFINITY → Walk (Adj g) source v (st.dist v)
  pool : ∀ t ∈ st.pool, ItemOk S g source st.dist t
  active : ∀ a ∈ st.active, ItemOk S g source st.dist a.item ∧
    PhaseOk S g source st.dist a.item a.phase
  covered : ∀ u, st.dist u < DIST_INFINITY → ∀ e ∈ edgeIds g u,
    Relaxed g st.dist u e ∨ Pending S g st u e

end Invariant

/-! ## 3. What a lower label keeps -/

section Lower

variable {S : PushScheme T} {g : Graph} {source : ℕ} {d : ℕ → ℕ} {v x : ℕ}

theorem update_le (hx : x ≤ d v) (y : ℕ) : Function.update d v x y ≤ d y := by
  by_cases hy : y = v
  · subst hy
    simpa using hx
  · rw [Function.update_of_ne hy]

omit [DecidableEq T] in
theorem ItemOk.mono {d' : ℕ → ℕ} (hd : ∀ y, d' y ≤ d y) {t : T} (h : ItemOk S g source d t) :
    ItemOk S g source d' t :=
  ⟨(hd _).trans h.1, h.2⟩

omit [DecidableEq T] in
theorem PhaseOk.mono {d' : ℕ → ℕ} (hd : ∀ y, d' y ≤ d y) {item : T} {p : Phase T}
    (h : PhaseOk S g source d item p) : PhaseOk S g source d' item p := by
  cases p with
  | check | load es | relax nd e es => exact h
  | push ts es => exact ⟨h.1, fun t ht => (h.2 t ht).mono hd⟩

omit [DecidableEq T] in
theorem Queued.update {u e : ℕ} {t : T} (huv : u ≠ v) (h : Queued S d u e t) :
    Queued S (Function.update d v x) u e t := by
  rw [Queued, Function.update_of_ne huv]
  exact h

omit [DecidableEq T] in
/-- What an operator will relax for a node keeps when another node's label changes. -/
theorem PhasePending.update {u e : ℕ} {item : T} {p : Phase T} (huv : u ≠ v)
    (h : PhasePending S g d u e item p) : PhasePending S g (Function.update d v x) u e item p := by
  cases p with
  | check => exact Queued.update huv h
  | load es => exact h
  | relax nd e' es =>
    rw [PhasePending, Function.update_of_ne huv]
    exact h
  | push ts es =>
    rcases h with h | ⟨t, ht, hq⟩
    · exact .inl h
    · exact .inr ⟨t, ht, hq.update huv⟩

end Lower

/-! ## 4. Every atomic action keeps the invariant -/

section Steps

variable {S : PushScheme T} {g : Graph} {source : ℕ}

omit [DecidableEq T] in
/-- An action that leaves the distances alone keeps the invariant when the items and operators
it leaves are fine and every pending edge stays pending or is relaxed. -/
theorem Inv.of_dist_eq {st st' : State T} (h : Inv S g source st) (hd : st'.dist = st.dist)
    (hpool : ∀ t ∈ st'.pool, ItemOk S g source st.dist t)
    (hact : ∀ a ∈ st'.active, ItemOk S g source st.dist a.item ∧
      PhaseOk S g source st.dist a.item a.phase)
    (hpend : ∀ u e, Pending S g st u e → Relaxed g st.dist u e ∨ Pending S g st' u e) :
    Inv S g source st' := by
  refine ⟨?_, ?_, ?_, ?_, ?_, ?_⟩ <;> rw [hd]
  · exact h.source_eq
  · exact h.le_inf
  · exact h.walk
  · exact hpool
  · exact hact
  · intro u hu e he
    rcases h.covered u hu e he with hr | hp
    · exact .inl hr
    · exact hpend u e hp

/-- Moving operator `a` to phase `p` keeps what is pending when `p` carries on what `a`'s phase
had pending. -/
theorem pending_advance {st : State T} {a : Activity T} {p : Phase T} {u e : ℕ}
    (hp : PhasePending S g st.dist u e a.item a.phase →
      Relaxed g st.dist u e ∨ PhasePending S g st.dist u e a.item p)
    (h : Pending S g st u e) : Relaxed g st.dist u e ∨ Pending S g (st.advance a p) u e := by
  rcases h with ⟨t, ht, hq⟩ | ⟨b, hb, hpb⟩
  · exact .inr (.inl ⟨t, ht, hq⟩)
  · by_cases hba : b = a
    · subst hba
      rcases hp hpb with hr | hpa
      · exact .inl hr
      · exact .inr (.inr ⟨⟨b.item, p⟩, Multiset.mem_cons_self _ _, hpa⟩)
    · exact .inr (.inr ⟨b, Multiset.mem_cons_of_mem (mem_erase_of_mem hb hba), hpb⟩)

/-- Retiring operator `a` keeps what is pending when `a` had nothing pending. -/
theorem pending_retire {st : State T} {a : Activity T} {u e : ℕ}
    (hp : ¬ PhasePending S g st.dist u e a.item a.phase) (h : Pending S g st u e) :
    Pending S g (st.retire a) u e := by
  rcases h with ⟨t, ht, hq⟩ | ⟨b, hb, hpb⟩
  · exact .inl ⟨t, ht, hq⟩
  · have hba : b ≠ a := fun hba => hp (hba ▸ hpb)
    exact .inr ⟨b, mem_erase_of_mem hb hba, hpb⟩

/-- The operators other than `a` keep what holds of them. -/
theorem active_advance {st : State T} {a : Activity T} {p : Phase T}
    {P : Activity T → Prop} (hall : ∀ b ∈ st.active, P b) (hnew : P ⟨a.item, p⟩) :
    ∀ b ∈ (st.advance a p).active, P b := by
  intro b hb
  rcases mem_advance.mp hb with rfl | hb
  · exact hnew
  · exact hall b (Multiset.mem_of_mem_erase hb)

theorem Inv.pop {st : State T} (h : Inv S g source st) {t : T} (ht : t ∈ st.pool) :
    Inv S g source { st with pool := st.pool.erase t, active := ⟨t, .check⟩ ::ₘ st.active } := by
  refine h.of_dist_eq rfl (fun t' ht' => h.pool t' (Multiset.mem_of_mem_erase ht')) ?_ ?_
  · intro a ha
    rcases Multiset.mem_cons.mp ha with rfl | ha
    · exact ⟨h.pool t ht, trivial⟩
    · exact h.active a ha
  · rintro u e (⟨t', ht', hq⟩ | ⟨b, hb, hpb⟩)
    · by_cases htt : t' = t
      · subst htt
        exact .inr (.inr ⟨⟨t', .check⟩, Multiset.mem_cons_self _ _, hq⟩)
      · exact .inr (.inl ⟨t', (Multiset.mem_erase_of_ne htt).mpr ht', hq⟩)
    · exact .inr (.inr ⟨b, Multiset.mem_cons_of_mem hb, hpb⟩)

theorem Inv.skip {st : State T} (h : Inv S g source st) {a : Activity T} (hp : a.phase = .check)
    (hlt : st.dist (S.src a.item) < S.dist a.item) : Inv S g source (st.retire a) := by
  refine h.of_dist_eq rfl h.pool (fun b hb => h.active b (Multiset.mem_of_mem_erase hb)) ?_
  intro u e hpend
  refine .inr (pending_retire ?_ hpend)
  -- a stale item has nothing pending: its distance is not its node's label
  rw [hp]
  rintro ⟨hsrc, hdist, -⟩
  subst hsrc
  omega

theorem Inv.enter {st : State T} (h : Inv S g source st) {a : Activity T} (ha : a ∈ st.active)
    (hp : a.phase = .check) :
    Inv S g source (st.advance a (.load (S.edgeRange a.item))) := by
  refine h.of_dist_eq rfl h.pool (active_advance h.active ⟨(h.active a ha).1, ?_⟩) ?_
  · exact (h.active a ha).1.2.2.2
  · intro u e hpend
    refine pending_advance (fun hpa => ?_) hpend
    rw [hp] at hpa
    exact .inr ⟨hpa.1, hpa.2.2⟩

variable (hw : ∀ w ∈ g.edgeData, w ≤ 2 ^ 31)
include hw

omit [DecidableEq T] in
/-- **The sum `sdata + ew` does not wrap**: a label is at most `2 ^ 31 - 2`, a weight at most
`2 ^ 31`. -/
theorem sum_mod_eq {st : State T} (h : Inv S g source st) (u e : ℕ) :
    (st.dist u + getEdgeData g e) % 2 ^ 32 = st.dist u + getEdgeData g e := by
  have hu := h.le_inf u
  have he := getEdgeData_le hw e
  rw [DIST_INFINITY_eq] at hu
  exact Nat.mod_eq_of_lt (by omega)

theorem Inv.load {st : State T} (h : Inv S g source st) {a : Activity T} {e : ℕ} {es : List ℕ}
    (ha : a ∈ st.active) (hp : a.phase = .load (e :: es)) :
    Inv S g source (st.advance a
      (.relax ((st.dist (S.src a.item) + getEdgeData g e) % 2 ^ 32) e es)) := by
  obtain ⟨hitem, hphase⟩ := h.active a ha
  rw [hp] at hphase
  have hsum := sum_mod_eq hw h (S.src a.item) e
  have he : e ∈ edgeIds g (S.src a.item) := hphase e (List.mem_cons_self ..)
  refine h.of_dist_eq rfl h.pool (active_advance h.active ⟨hitem, he, ?_, ?_⟩) ?_
  · exact fun e' he' => hphase e' (List.mem_cons_of_mem _ he')
  · -- the new label is a walk to the source's label, one edge longer
    rw [hsum]
    intro hlt
    exact .snoc (h.walk _ (by omega)) (adj_of_mem he)
  · intro u e' hpend
    refine pending_advance (fun hpa => ?_) hpend
    rw [hp] at hpa
    obtain ⟨rfl, he'⟩ := hpa
    rcases List.mem_cons.mp he' with rfl | he'
    · exact .inr ⟨rfl, .inl ⟨rfl, hsum.le⟩⟩
    · exact .inr ⟨rfl, .inr he'⟩

omit hw in
theorem Inv.keep {st : State T} (h : Inv S g source st) {a : Activity T} {nd e : ℕ}
    {es : List ℕ} (ha : a ∈ st.active) (hp : a.phase = .relax nd e es)
    (hge : st.dist (getEdgeDst g e) ≤ nd) : Inv S g source (st.advance a (.load es)) := by
  obtain ⟨hitem, hphase⟩ := h.active a ha
  rw [hp] at hphase
  refine h.of_dist_eq rfl h.pool (active_advance h.active ⟨hitem, hphase.2.1⟩) ?_
  intro u e' hpend
  refine pending_advance (fun hpa => ?_) hpend
  rw [hp] at hpa
  obtain ⟨rfl, ⟨rfl, hle⟩ | he'⟩ := hpa
  · exact .inl (hge.trans hle)
  · exact .inr ⟨rfl, he'⟩

omit hw in
theorem Inv.push {st : State T} (h : Inv S g source st) {a : Activity T} {t : T} {ts : List T}
    {es : List ℕ} (ha : a ∈ st.active) (hp : a.phase = .push (t :: ts) es) :
    Inv S g source ⟨st.dist, t ::ₘ st.pool, ⟨a.item, .push ts es⟩ ::ₘ st.active.erase a⟩ := by
  obtain ⟨hitem, hphase⟩ := h.active a ha
  rw [hp] at hphase
  refine h.of_dist_eq rfl ?_ ?_ ?_
  · intro t' ht'
    rcases Multiset.mem_cons.mp ht' with rfl | ht'
    · exact hphase.2 t' (List.mem_cons_self ..)
    · exact h.pool t' ht'
  · exact active_advance h.active
      ⟨hitem, hphase.1, fun t' ht' => hphase.2 t' (List.mem_cons_of_mem _ ht')⟩
  · rintro u e (⟨t', ht', hq⟩ | ⟨b, hb, hpb⟩)
    · exact .inr (.inl ⟨t', Multiset.mem_cons_of_mem ht', hq⟩)
    · by_cases hba : b = a
      · subst hba
        rw [hp] at hpb
        rcases hpb with hpb | ⟨t', ht', hq⟩
        · exact .inr (.inr ⟨_, Multiset.mem_cons_self _ _, .inl hpb⟩)
        · rcases List.mem_cons.mp ht' with rfl | ht'
          · exact .inr (.inl ⟨t', Multiset.mem_cons_self _ _, hq⟩)
          · exact .inr (.inr ⟨_, Multiset.mem_cons_self _ _, .inr ⟨t', ht', hq⟩⟩)
      · exact .inr (.inr ⟨b, Multiset.mem_cons_of_mem (mem_erase_of_mem hb hba), hpb⟩)

omit hw in
theorem Inv.pushed {st : State T} (h : Inv S g source st) {a : Activity T} {es : List ℕ}
    (ha : a ∈ st.active) (hp : a.phase = .push [] es) :
    Inv S g source (st.advance a (.load es)) := by
  obtain ⟨hitem, hphase⟩ := h.active a ha
  rw [hp] at hphase
  refine h.of_dist_eq rfl h.pool (active_advance h.active ⟨hitem, hphase.1⟩) ?_
  intro u e hpend
  refine pending_advance (fun hpa => ?_) hpend
  rw [hp] at hpa
  rcases hpa with hpa | ⟨t, ht, -⟩
  · exact .inr hpa
  · exact absurd ht List.not_mem_nil

omit hw in
theorem Inv.finish {st : State T} (h : Inv S g source st) {a : Activity T}
    (hp : a.phase = .load []) : Inv S g source (st.retire a) := by
  refine h.of_dist_eq rfl h.pool (fun b hb => h.active b (Multiset.mem_of_mem_erase hb)) ?_
  intro u e hpend
  refine .inr (pending_retire ?_ hpend)
  rw [hp]
  exact fun hpa => List.not_mem_nil hpa.2

variable (hS : PushLaw S g S.pushWrap)
include hS

omit hw in
/-- **A lowered label is pushed**: the items `pushWrap(ctx, dst, newDist)` makes cover every edge
of the destination, from its new label. -/
theorem Inv.lower {st : State T} (h : Inv S g source st) {a : Activity T} {nd e : ℕ}
    {es : List ℕ} (ha : a ∈ st.active) (hp : a.phase = .relax nd e es)
    (hlt : nd < st.dist (getEdgeDst g e)) :
    Inv S g source ⟨Function.update st.dist (getEdgeDst g e) nd, st.pool,
      ⟨a.item, .push (S.pushWrap (getEdgeDst g e) nd) es⟩ ::ₘ st.active.erase a⟩ := by
  obtain ⟨hitem, hphase⟩ := h.active a ha
  rw [hp] at hphase
  have hd : ∀ y, Function.update st.dist (getEdgeDst g e) nd y ≤ st.dist y := update_le hlt.le
  have hv : Function.update st.dist (getEdgeDst g e) nd (getEdgeDst g e) = nd :=
    Function.update_self _ nd st.dist
  have hinf : nd < DIST_INFINITY := lt_of_lt_of_le hlt (h.le_inf _)
  have hwalk : Walk (Adj g) source (getEdgeDst g e) nd := hphase.2.2 hinf
  -- the items pushed for the destination are fine
  have hnew : ∀ t ∈ S.pushWrap (getEdgeDst g e) nd,
      ItemOk S g source (Function.update st.dist (getEdgeDst g e) nd) t := by
    intro t ht
    rw [ItemOk, hS.src_eq _ nd t ht, hS.dist_eq _ nd t ht, hv]
    exact ⟨le_rfl, hinf, hwalk, hS.range_sub _ nd t ht⟩
  refine ⟨?_, fun y => (hd y).trans (h.le_inf y), ?_, ?_, ?_, ?_⟩
  · -- the source's label is `0`, which nothing lowers
    show Function.update st.dist (getEdgeDst g e) nd source = 0
    by_cases hsv : source = getEdgeDst g e
    · have := h.source_eq
      rw [hsv] at this
      omega
    · exact (Function.update_of_ne hsv _ _).trans h.source_eq
  · intro y hy
    show Walk (Adj g) source y (Function.update st.dist (getEdgeDst g e) nd y)
    by_cases hyv : y = getEdgeDst g e
    · rw [hyv, hv]
      exact hwalk
    · have hy' : Function.update st.dist (getEdgeDst g e) nd y = st.dist y :=
        Function.update_of_ne hyv _ _
      rw [hy']
      exact h.walk y (hy' ▸ hy)
  · exact fun t ht => (h.pool t ht).mono hd
  · exact active_advance (fun b (hb : b ∈ st.active) => ⟨(h.active b hb).1.mono hd,
      (h.active b hb).2.mono hd⟩) ⟨hitem.mono hd, hphase.2.1, hnew⟩
  · intro u hu e' he'
    dsimp only at hu ⊢
    by_cases huv : u = getEdgeDst g e
    · -- every edge of the destination is in an item about to be pushed
      rw [huv] at he' ⊢
      obtain ⟨t, ht, het⟩ := hS.cover _ nd e' he'
      refine .inr (.inr ⟨_, Multiset.mem_cons_self _ _, .inr ⟨t, ht, ?_⟩⟩)
      exact ⟨hS.src_eq _ nd t ht, (hS.dist_eq _ nd t ht).trans hv.symm, het⟩
    · have hdu : Function.update st.dist (getEdgeDst g e) nd u = st.dist u :=
        Function.update_of_ne huv _ _
      rcases h.covered u (hdu ▸ hu) e' he' with hr | ⟨t, ht, hq⟩ | ⟨b, hb, hpb⟩
      · exact .inl (by rw [Relaxed, hdu]; exact (hd _).trans hr)
      · exact .inr (.inl ⟨t, ht, hq.update huv⟩)
      · by_cases hba : b = a
        · subst hba
          rw [hp] at hpb
          obtain ⟨hsrc, ⟨rfl, hle⟩ | hes⟩ := hpb
          · -- the edge just relaxed: its destination now has `newDist`
            exact .inl (by rw [Relaxed, hdu, hv]; exact hle)
          · exact .inr (.inr ⟨_, Multiset.mem_cons_self _ _, .inl ⟨hsrc, hes⟩⟩)
        · exact .inr (.inr ⟨b, Multiset.mem_cons_of_mem (mem_erase_of_mem hb hba),
            hpb.update huv⟩)

/-- **Every atomic action keeps the invariant.** -/
theorem Inv.step {st st' : State T} (h : Inv S g source st) (hs : Step S g st st') :
    Inv S g source st' := by
  cases hs with
  | pop t ht => exact h.pop ht
  | skip a ha hp hlt => exact h.skip hp hlt
  | enter a ha hp hge => exact h.enter ha hp
  | load a e es ha hp => exact h.load hw ha hp
  | lower a nd e es ha hp hlt => exact h.lower hS ha hp hlt
  | keep a nd e es ha hp hge => exact h.keep ha hp hge
  | push a t ts es ha hp => exact h.push ha hp
  | pushed a es ha hp => exact h.pushed ha hp
  | finish a ha hp => exact h.finish hp

/-- **So does every interleaving.** -/
theorem Inv.run {st st' : State T} (h : Inv S g source st)
    (hr : Relation.ReflTransGen (Step S g) st st') : Inv S g source st' := by
  induction hr with
  | refl => exact h
  | tail _ hs ih => exact ih.step hw hS hs

end Steps

/-! ## 5. The start and the end -/

section Run

variable {S : PushScheme T} {g : Graph} {source : ℕ}

omit [DecidableEq T] in
/-- The first push makes the invariant hold. -/
theorem inv_init {push : ℕ → ℕ → List T} (hpush : PushLaw S g push) :
    Inv S g source (init source (push source 0)) := by
  have hsrc : initDist source source = 0 := if_pos rfl
  refine ⟨hsrc, ?_, ?_, ?_, ?_, ?_⟩
  · intro v
    show initDist source v ≤ DIST_INFINITY
    unfold initDist
    split_ifs <;> omega
  · intro v hv
    by_cases hvs : v = source
    · subst hvs
      rw [show (init v (push v 0)).dist v = 0 from hsrc]
      exact .nil
    · exact absurd hv (by simp [init, initDist, hvs])
  · intro t ht
    have ht : t ∈ push source 0 := Multiset.mem_coe.mp ht
    rw [ItemOk, hpush.src_eq source 0 t ht, hpush.dist_eq source 0 t ht]
    exact ⟨(le_of_eq hsrc), by decide, .nil, hpush.range_sub source 0 t ht⟩
  · intro a ha
    exact absurd ha (Multiset.notMem_zero a)
  · -- only the source is labelled, and the first items cover its edges
    intro u hu e he
    by_cases hus : u = source
    · subst hus
      obtain ⟨t, ht, het⟩ := hpush.cover u 0 e he
      refine .inr (.inl ⟨t, Multiset.mem_coe.mpr ht, hpush.src_eq u 0 t ht, ?_, het⟩)
      rw [hpush.dist_eq u 0 t ht]
      exact hsrc.symm
    · exact absurd hu (by simp [init, initDist, hus])

omit [DecidableEq T] in
/-- With nothing queued and no operator at work, every edge out of a labelled node is relaxed:
the distances are settled. -/
theorem Inv.settled {st : State T} (h : Inv S g source st) (hpool : st.pool = 0)
    (hact : st.active = 0) : Settled (Adj g) source DIST_INFINITY st.dist := by
  refine ⟨h.source_eq, h.le_inf, h.walk, ?_⟩
  rintro u v w ⟨e, he, rfl, rfl⟩ hu
  rcases h.covered u hu e he with hr | ⟨t, ht, -⟩ | ⟨a, ha, -⟩
  · exact hr
  · rw [hpool] at ht
    exact absurd ht (Multiset.notMem_zero t)
  · rw [hact] at ha
    exact absurd ha (Multiset.notMem_zero a)

/-- **When `deltaStepAlgo` returns, under any interleaving, the distances are settled**: each is
the shortest-path distance from the source, or `DIST_INFINITY` (`Settled.eq_min`). -/
theorem deltaStepAlgo_settled (hS : S.Lawful g) (hw : ∀ w ∈ g.edgeData, w ≤ 2 ^ 31)
    {d : ℕ → ℕ} (h : deltaStepAlgo S g source d) :
    Settled (Adj g) source DIST_INFINITY d := by
  obtain ⟨st, hr, hpool, hact, rfl⟩ := h
  exact ((inv_init hS.parallel).run hw hS.serial hr).settled hpool hact

/-- **No sum wraps**: in every state an interleaving of `deltaStepAlgo` reaches, the `uint32_t`
sum `sdata + ew` that a load computes is the sum of the naturals. -/
theorem deltaStepAlgo_no_wrap (hS : S.Lawful g) (hw : ∀ w ∈ g.edgeData, w ≤ 2 ^ 31)
    {st : State T}
    (hr : Relation.ReflTransGen (Step S g) (init source (S.pushWrapParallel source 0)) st)
    (u e : ℕ) : (st.dist u + getEdgeData g e) % 2 ^ 32 = st.dist u + getEdgeData g e :=
  sum_mod_eq hw ((inv_init hS.parallel).run hw hS.serial hr) u e

end Run

/-- After one relaxation: from the source `0` of `0 → 1` (weight `5`) and `1 → 0` (weight `7`), an
operator pops the source's item, passes its check, loads `0 + 5` and lowers node `1` to `5`; the
next load from node `1`, `5 + 7`, does not wrap. -/
theorem deltaStepAlgo_no_wrap_relaxed :
    let g : Graph := ⟨[1, 2], [1, 0], [5, 7]⟩
    ∃ st : State UpdateRequest,
      Relation.ReflTransGen (Step (reqScheme g) g) (init 0 ((reqScheme g).pushWrapParallel 0 0))
        st ∧ st.dist 1 = 5 ∧
        (st.dist 1 + getEdgeData g 1) % 2 ^ 32 = st.dist 1 + getEdgeData g 1 := by
  intro g
  let r : UpdateRequest := ⟨0, 0⟩
  let s₀ : State UpdateRequest := init 0 [r]
  let s₁ : State UpdateRequest := ⟨initDist 0, 0, {⟨r, .check⟩}⟩
  let s₂ : State UpdateRequest := ⟨initDist 0, 0, {⟨r, .load [0]⟩}⟩
  let s₃ : State UpdateRequest := ⟨initDist 0, 0, {⟨r, .relax 5 0 []⟩}⟩
  let s₄ : State UpdateRequest := ⟨Function.update (initDist 0) 1 5, 0, {⟨r, .push [⟨1, 5⟩] []⟩}⟩
  have h₁ : Step (reqScheme g) g s₀ s₁ := by
    have := Step.pop (S := reqScheme g) (g := g) s₀ r (by simp [s₀, init])
    simpa [s₀, s₁, init] using this
  have h₂ : Step (reqScheme g) g s₁ s₂ := by
    have := Step.enter (S := reqScheme g) (g := g) s₁ ⟨r, .check⟩ (by simp [s₁]) rfl
      (by simp [s₁, r, reqScheme, initDist])
    rw [show (reqScheme g).edgeRange r = [0] from rfl] at this
    simpa [s₁, s₂, State.advance] using this
  have h₃ : Step (reqScheme g) g s₂ s₃ := by
    have := Step.load (S := reqScheme g) (g := g) s₂ ⟨r, .load [0]⟩ 0 [] (by simp [s₂]) rfl
    rw [show (s₂.dist ((reqScheme g).src r) + getEdgeData g 0) % 2 ^ 32 = 5 from rfl] at this
    simpa [s₂, s₃, State.advance] using this
  -- `atomicMin` lowers node `1` from `DIST_INFINITY` and the operator goes on to push
  have h₄ : Step (reqScheme g) g s₃ s₄ := by
    have := Step.lower (S := reqScheme g) (g := g) s₃ ⟨r, .relax 5 0 []⟩ 5 0 [] (by simp [s₃]) rfl
      (by simp [s₃, initDist, getEdgeDst, g, DIST_INFINITY])
    rw [show getEdgeDst g 0 = 1 from rfl] at this
    simpa [s₃, s₄, reqScheme] using this
  have hr := (((Relation.ReflTransGen.single h₁).tail h₂).tail h₃).tail h₄
  exact ⟨s₄, hr, rfl, deltaStepAlgo_no_wrap (reqScheme_lawful g) (by decide) hr 1 1⟩

end Galois.Lonestar.SSSP
