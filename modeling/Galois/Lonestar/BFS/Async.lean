import Galois.Lonestar.BfsSssp
import Galois.ShortestPaths
import Mathlib.Logic.Relation

/-!
# `asyncAlgo` of bfs.cpp under every interleaving

An operator takes an item `{src, dist}` and, for each edge in its range, tries to lower the
destination's label to `newDist = item.dist` by a compare-and-swap loop: it reads
`oldDist = ddata`, stops when `oldDist <= newDist`, and otherwise swaps `newDist` in when `ddata`
is still `oldDist` and pushes `pushWrap(ctx, dst, newDist + 1)`, or reads again. The machine has
one rule per atomic action: a pop, a read, a compare-and-swap that succeeds or fails, one push
of an item, and the ends of the loops. The serial instantiation (`WhileQ<SerFIFO>`, no
compare-and-swap) is a run of the machine with one operator at a time.

* `Step` -- the atomic actions of the `for_each`;
* `Inv` -- every label below `DIST_INFINITY` is a walk's length, every queued item's distance
  one more than a walk's length to its node, and every edge out of a labelled node is relaxed or
  queued from the node's current label;
* **`Inv.run`** -- every interleaving keeps it;
* **`asyncAlgo_settled`**, **`asyncSerial_settled`** -- when the loop returns, the labels are
  settled for the graph with unit weights.
-/

namespace Galois.Lonestar.BFS

open Cusp BFS_SSSP ShortestPaths

/-- `LC_CSR_Graph<unsigned, void>`: the edges carry no data. -/
abbrev Graph := CSRGraph Unit

/-- An edge `u → v` is one hop. -/
def Hop (g : Graph) (u v w : ℕ) : Prop :=
  (∃ e ∈ edgeIds g u, getEdgeDst g e = v) ∧ w = 1

theorem hop_of_mem {g : Graph} {u e : ℕ} (he : e ∈ edgeIds g u) : Hop g u (getEdgeDst g e) 1 :=
  ⟨⟨e, he, rfl⟩, rfl⟩

theorem hop_unit {g : Graph} {u v w : ℕ} (h : Hop g u v w) : w = 1 := h.2

/-- The labels `main` sets before it runs an algorithm: `DIST_INFINITY` on every node, then `0`
on the source. -/
def initDist (source v : ℕ) : ℕ := if v = source then 0 else DIST_INFINITY

theorem initDist_le (source v : ℕ) : initDist source v ≤ DIST_INFINITY := by
  unfold initDist
  split_ifs <;> omega

variable {T : Type} [DecidableEq T]

/-! ## 1. The machine -/

/-- Where an operator of `asyncAlgo` is on its item. -/
inductive Phase (T : Type) where
  /-- in the edge loop, before `oldDist = ddata` for the first of `es` -/
  | next (es : List ℕ)
  /-- `oldDist = ddata` read `old`, above `newDist`: before the compare-and-swap on `e` -/
  | cas (old e : ℕ) (es : List ℕ)
  /-- pushing the items `pushWrap(ctx, dst, newDist + 1)` made, with `es` left -/
  | push (items : List T) (es : List ℕ)
  deriving DecidableEq

/-- An operator at work: its item and where it is. -/
structure Activity (T : Type) where
  item : T
  phase : Phase T
  deriving DecidableEq

/-- The labels, the worklist and the operators at work. -/
structure State (T : Type) where
  dist : ℕ → ℕ
  pool : Multiset T
  active : Multiset (Activity T)

/-- Operator `a` moves on to phase `p`. -/
def State.advance (st : State T) (a : Activity T) (p : Phase T) : State T :=
  ⟨st.dist, st.pool, ⟨a.item, p⟩ ::ₘ st.active.erase a⟩

/-- Operator `a` returns. -/
def State.retire (st : State T) (a : Activity T) : State T :=
  ⟨st.dist, st.pool, st.active.erase a⟩

/-- One atomic action of the `for_each` of `asyncAlgo` over the template arguments `S`. -/
inductive Step (S : PushScheme T) (g : Graph) : State T → State T → Prop where
  /-- a thread takes an item off the worklist; `newDist = item.dist` -/
  | pop (st : State T) (t : T) (ht : t ∈ st.pool) :
      Step S g st ⟨st.dist, st.pool.erase t, ⟨t, .next (S.edgeRange t)⟩ ::ₘ st.active⟩
  /-- `oldDist = ddata` and `oldDist <= newDist`: `break` to the next edge -/
  | stay (st : State T) (a : Activity T) (e : ℕ) (es : List ℕ) (ha : a ∈ st.active)
      (hp : a.phase = .next (e :: es)) (hle : st.dist (getEdgeDst g e) ≤ S.dist a.item) :
      Step S g st (st.advance a (.next es))
  /-- ... or `oldDist` above `newDist` -/
  | read (st : State T) (a : Activity T) (e : ℕ) (es : List ℕ) (ha : a ∈ st.active)
      (hp : a.phase = .next (e :: es)) (hgt : S.dist a.item < st.dist (getEdgeDst g e)) :
      Step S g st (st.advance a (.cas (st.dist (getEdgeDst g e)) e es))
  /-- `__sync_bool_compare_and_swap(&ddata, oldDist, newDist)` succeeds -/
  | swap (st : State T) (a : Activity T) (old e : ℕ) (es : List ℕ) (ha : a ∈ st.active)
      (hp : a.phase = .cas old e es) (heq : st.dist (getEdgeDst g e) = old) :
      Step S g st ⟨Function.update st.dist (getEdgeDst g e) (S.dist a.item), st.pool,
        ⟨a.item, .push (S.pushWrap (getEdgeDst g e) ((S.dist a.item + 1) % 2 ^ 32)) es⟩ ::ₘ
          st.active.erase a⟩
  /-- ... or fails, and the loop reads `ddata` again -/
  | retry (st : State T) (a : Activity T) (old e : ℕ) (es : List ℕ) (ha : a ∈ st.active)
      (hp : a.phase = .cas old e es) (hne : st.dist (getEdgeDst g e) ≠ old) :
      Step S g st (st.advance a (.next (e :: es)))
  /-- one `push` of `pushWrap(ctx, dst, newDist + 1)` -/
  | push (st : State T) (a : Activity T) (t : T) (ts : List T) (es : List ℕ)
      (ha : a ∈ st.active) (hp : a.phase = .push (t :: ts) es) :
      Step S g st ⟨st.dist, t ::ₘ st.pool, ⟨a.item, .push ts es⟩ ::ₘ st.active.erase a⟩
  /-- `pushWrap` is done: `break` to the next edge -/
  | pushed (st : State T) (a : Activity T) (es : List ℕ) (ha : a ∈ st.active)
      (hp : a.phase = .push [] es) : Step S g st (st.advance a (.next es))
  /-- the edges are done: the operator returns -/
  | finish (st : State T) (a : Activity T) (ha : a ∈ st.active) (hp : a.phase = .next []) :
      Step S g st (st.retire a)

/-- The state the loop starts from: `main`'s labels and the first items. -/
def init (source : ℕ) (items : List T) : State T := ⟨initDist source, items, 0⟩

/-- `asyncAlgo<true>(graph, source, pushWrap, edgeRange)` can return leaving the labels `d`:
some interleaving from `pushWrap(initBag, source, 1, "parallel")` empties the worklist with no
operator at work. -/
def asyncAlgo (S : PushScheme T) (g : Graph) (source : ℕ) (d : ℕ → ℕ) : Prop :=
  ∃ st, Relation.ReflTransGen (Step S g) (init source (S.pushWrapParallel source 1)) st ∧
    st.pool = 0 ∧ st.active = 0 ∧ st.dist = d

theorem mem_advance {st : State T} {a b : Activity T} {p : Phase T} :
    b ∈ (st.advance a p).active ↔ b = ⟨a.item, p⟩ ∨ b ∈ st.active.erase a :=
  Multiset.mem_cons

/-! ## 2. The invariant -/

section Invariant

variable (S : PushScheme T) (g : Graph) (source : ℕ)

/-- A queued item: its distance is one more than a walk's length to its node, and its edges are
its node's. -/
def ItemOk (t : T) : Prop :=
  1 ≤ S.dist t ∧ Walk (Hop g) source (S.src t) (S.dist t - 1) ∧
    ∀ e ∈ S.edgeRange t, e ∈ edgeIds g (S.src t)

/-- What an operator's phase holds: the edges left are its node's, a value read for the
compare-and-swap is above `newDist`, and the items still to push are fine. -/
def PhaseOk (item : T) : Phase T → Prop
  | .next es => ∀ e ∈ es, e ∈ edgeIds g (S.src item)
  | .cas old e es => e ∈ edgeIds g (S.src item) ∧ (∀ e' ∈ es, e' ∈ edgeIds g (S.src item)) ∧
      S.dist item < old
  | .push ts es => (∀ e' ∈ es, e' ∈ edgeIds g (S.src item)) ∧ ∀ t ∈ ts, ItemOk S g source t

/-- Item `t` will relax edge `e` of `u` from `u`'s current label. -/
def Queued (d : ℕ → ℕ) (u e : ℕ) (t : T) : Prop :=
  S.src t = u ∧ S.dist t = d u + 1 ∧ e ∈ S.edgeRange t

/-- The operator on `item` in this phase will relax edge `e` of `u` from `u`'s current label:
an edge still to read, the edge of the compare-and-swap, or through the items to push. -/
def PhasePending (d : ℕ → ℕ) (u e : ℕ) (item : T) : Phase T → Prop
  | .next es => S.src item = u ∧ S.dist item = d u + 1 ∧ e ∈ es
  | .cas _ e' es => S.src item = u ∧ S.dist item = d u + 1 ∧ (e = e' ∨ e ∈ es)
  | .push ts es => (S.src item = u ∧ S.dist item = d u + 1 ∧ e ∈ es) ∨
      ∃ t ∈ ts, Queued S d u e t

/-- Some queued item or operator at work will relax edge `e` of `u`. -/
def Pending (st : State T) (u e : ℕ) : Prop :=
  (∃ t ∈ st.pool, Queued S st.dist u e t) ∨
    ∃ a ∈ st.active, PhasePending S st.dist u e a.item a.phase

/-- Edge `e` of `u` cannot lower its destination's label. -/
def Relaxed (d : ℕ → ℕ) (u e : ℕ) : Prop :=
  d (getEdgeDst g e) ≤ d u + 1

/-- **The invariant of `asyncAlgo`.** -/
structure Inv (st : State T) : Prop where
  source_eq : st.dist source = 0
  le_inf : ∀ v, st.dist v ≤ DIST_INFINITY
  walk : ∀ v, st.dist v < DIST_INFINITY → Walk (Hop g) source v (st.dist v)
  pool : ∀ t ∈ st.pool, ItemOk S g source t
  active : ∀ a ∈ st.active, ItemOk S g source a.item ∧ PhaseOk S g source a.item a.phase
  covered : ∀ u, st.dist u < DIST_INFINITY → ∀ e ∈ edgeIds g u,
    Relaxed g st.dist u e ∨ Pending S st u e

end Invariant

/-! ## 3. What a lower label keeps -/

section Lower

variable {S : PushScheme T} {d : ℕ → ℕ} {v x : ℕ}

omit [DecidableEq T] in
theorem Queued.update {u e : ℕ} {t : T} (huv : u ≠ v) (h : Queued S d u e t) :
    Queued S (Function.update d v x) u e t := by
  rw [Queued, Function.update_of_ne huv]
  exact h

omit [DecidableEq T] in
/-- What an operator will relax for a node keeps when another node's label changes. -/
theorem PhasePending.update {u e : ℕ} {item : T} {p : Phase T} (huv : u ≠ v)
    (h : PhasePending S d u e item p) : PhasePending S (Function.update d v x) u e item p := by
  cases p with
  | next es | cas old e' es =>
    rw [PhasePending, Function.update_of_ne huv]
    exact h
  | push ts es =>
    rw [PhasePending, Function.update_of_ne huv]
    rcases h with h | ⟨t, ht, hq⟩
    · exact .inl h
    · exact .inr ⟨t, ht, hq.update huv⟩

end Lower

/-! ## 4. Every atomic action keeps the invariant -/

section Steps

variable {S : PushScheme T} {g : Graph} {source : ℕ}

omit [DecidableEq T] in
/-- An action that leaves the labels alone keeps the invariant when the items and operators it
leaves are fine and every pending edge stays pending or is relaxed. -/
theorem Inv.of_dist_eq {st st' : State T} (h : Inv S g source st) (hd : st'.dist = st.dist)
    (hpool : ∀ t ∈ st'.pool, ItemOk S g source t)
    (hact : ∀ a ∈ st'.active, ItemOk S g source a.item ∧ PhaseOk S g source a.item a.phase)
    (hpend : ∀ u e, Pending S st u e → Relaxed g st.dist u e ∨ Pending S st' u e) :
    Inv S g source st' := by
  refine ⟨?_, ?_, ?_, hpool, hact, ?_⟩ <;> rw [hd]
  · exact h.source_eq
  · exact h.le_inf
  · exact h.walk
  · intro u hu e he
    rcases h.covered u hu e he with hr | hp
    · exact .inl hr
    · exact hpend u e hp

/-- Moving operator `a` to phase `p` keeps what is pending when `p` carries on what `a`'s phase
had pending. -/
theorem pending_advance {st : State T} {a : Activity T} {p : Phase T} {u e : ℕ}
    (hp : PhasePending S st.dist u e a.item a.phase →
      Relaxed g st.dist u e ∨ PhasePending S st.dist u e a.item p)
    (h : Pending S st u e) : Relaxed g st.dist u e ∨ Pending S (st.advance a p) u e := by
  rcases h with ⟨t, ht, hq⟩ | ⟨b, hb, hpb⟩
  · exact .inr (.inl ⟨t, ht, hq⟩)
  · by_cases hba : b = a
    · subst hba
      rcases hp hpb with hr | hpa
      · exact .inl hr
      · exact .inr (.inr ⟨⟨b.item, p⟩, Multiset.mem_cons_self _ _, hpa⟩)
    · exact .inr (.inr ⟨b, Multiset.mem_cons_of_mem ((Multiset.mem_erase_of_ne hba).mpr hb),
        hpb⟩)

/-- The operators other than `a` keep what holds of them. -/
theorem active_advance {st : State T} {a : Activity T} {p : Phase T}
    {P : Activity T → Prop} (hall : ∀ b ∈ st.active, P b) (hnew : P ⟨a.item, p⟩) :
    ∀ b ∈ (st.advance a p).active, P b := by
  intro b hb
  rcases mem_advance.mp hb with rfl | hb
  · exact hnew
  · exact hall b (Multiset.mem_of_mem_erase hb)

theorem Inv.pop {st : State T} (h : Inv S g source st) {t : T} (ht : t ∈ st.pool) :
    Inv S g source ⟨st.dist, st.pool.erase t, ⟨t, .next (S.edgeRange t)⟩ ::ₘ st.active⟩ := by
  refine h.of_dist_eq rfl (fun t' ht' => h.pool t' (Multiset.mem_of_mem_erase ht')) ?_ ?_
  · intro a ha
    rcases Multiset.mem_cons.mp ha with rfl | ha
    · exact ⟨h.pool _ ht, (h.pool _ ht).2.2⟩
    · exact h.active a ha
  · rintro u e (⟨t', ht', hq⟩ | ⟨b, hb, hpb⟩)
    · by_cases htt : t' = t
      · -- the item taken goes on with its edges from its distance
        subst htt
        exact .inr (.inr ⟨⟨t', .next (S.edgeRange t')⟩, Multiset.mem_cons_self _ _, hq⟩)
      · exact .inr (.inl ⟨t', (Multiset.mem_erase_of_ne htt).mpr ht', hq⟩)
    · exact .inr (.inr ⟨b, Multiset.mem_cons_of_mem hb, hpb⟩)

theorem Inv.stay {st : State T} (h : Inv S g source st) {a : Activity T} {e : ℕ}
    {es : List ℕ} (ha : a ∈ st.active) (hp : a.phase = .next (e :: es))
    (hle : st.dist (getEdgeDst g e) ≤ S.dist a.item) : Inv S g source (st.advance a (.next es)) := by
  obtain ⟨hitem, hphase⟩ := h.active a ha
  rw [hp] at hphase
  refine h.of_dist_eq rfl h.pool
    (active_advance h.active ⟨hitem, fun e' he' => hphase e' (List.mem_cons_of_mem _ he')⟩) ?_
  intro u e' hpend
  refine pending_advance (fun hpa => ?_) hpend
  rw [hp] at hpa
  obtain ⟨hsrc, hdist, he'⟩ := hpa
  rcases List.mem_cons.mp he' with rfl | he'
  · -- the label read is at most `newDist`, one more than the node's label
    exact .inl (hle.trans hdist.le)
  · exact .inr ⟨hsrc, hdist, he'⟩

theorem Inv.read {st : State T} (h : Inv S g source st) {a : Activity T} {e : ℕ}
    {es : List ℕ} (ha : a ∈ st.active) (hp : a.phase = .next (e :: es))
    (hgt : S.dist a.item < st.dist (getEdgeDst g e)) :
    Inv S g source (st.advance a (.cas (st.dist (getEdgeDst g e)) e es)) := by
  obtain ⟨hitem, hphase⟩ := h.active a ha
  rw [hp] at hphase
  refine h.of_dist_eq rfl h.pool (active_advance h.active ⟨hitem,
    hphase e (List.mem_cons_self ..), fun e' he' => hphase e' (List.mem_cons_of_mem _ he'),
    hgt⟩) ?_
  intro u e' hpend
  refine pending_advance (fun hpa => ?_) hpend
  rw [hp] at hpa
  obtain ⟨hsrc, hdist, he'⟩ := hpa
  exact .inr ⟨hsrc, hdist, List.mem_cons.mp he'⟩

theorem Inv.retry {st : State T} (h : Inv S g source st) {a : Activity T} {old e : ℕ}
    {es : List ℕ} (ha : a ∈ st.active) (hp : a.phase = .cas old e es) :
    Inv S g source (st.advance a (.next (e :: es))) := by
  obtain ⟨hitem, hphase⟩ := h.active a ha
  rw [hp] at hphase
  obtain ⟨he, hes, -⟩ := hphase
  refine h.of_dist_eq rfl h.pool (active_advance h.active ⟨hitem, ?_⟩) ?_
  · intro e' he'
    rcases List.mem_cons.mp he' with rfl | he'
    · exact he
    · exact hes e' he'
  · intro u e' hpend
    refine pending_advance (fun hpa => ?_) hpend
    rw [hp] at hpa
    obtain ⟨hsrc, hdist, he'⟩ := hpa
    exact .inr ⟨hsrc, hdist, List.mem_cons.mpr he'⟩

theorem Inv.push {st : State T} (h : Inv S g source st) {a : Activity T} {t : T} {ts : List T}
    {es : List ℕ} (ha : a ∈ st.active) (hp : a.phase = .push (t :: ts) es) :
    Inv S g source ⟨st.dist, t ::ₘ st.pool, ⟨a.item, .push ts es⟩ ::ₘ st.active.erase a⟩ := by
  obtain ⟨hitem, hphase⟩ := h.active a ha
  rw [hp] at hphase
  refine h.of_dist_eq rfl ?_ ?_ ?_
  · intro t' ht'
    rcases Multiset.mem_cons.mp ht' with rfl | ht'
    · exact hphase.2 t' (List.mem_cons_self ..)
    · exact h.pool t' ht'
  · exact active_advance h.active
      ⟨hitem, hphase.1, fun t' ht' => hphase.2 t' (List.mem_cons_of_mem _ ht')⟩
  · rintro u e (⟨t', ht', hq⟩ | ⟨b, hb, hpb⟩)
    · exact .inr (.inl ⟨t', Multiset.mem_cons_of_mem ht', hq⟩)
    · by_cases hba : b = a
      · subst hba
        rw [hp] at hpb
        rcases hpb with hpb | ⟨t', ht', hq⟩
        · exact .inr (.inr ⟨_, Multiset.mem_cons_self _ _, .inl hpb⟩)
        · rcases List.mem_cons.mp ht' with rfl | ht'
          · exact .inr (.inl ⟨t', Multiset.mem_cons_self _ _, hq⟩)
          · exact .inr (.inr ⟨_, Multiset.mem_cons_self _ _, .inr ⟨t', ht', hq⟩⟩)
      · exact .inr (.inr ⟨b, Multiset.mem_cons_of_mem ((Multiset.mem_erase_of_ne hba).mpr hb),
          hpb⟩)

theorem Inv.pushed {st : State T} (h : Inv S g source st) {a : Activity T} {es : List ℕ}
    (ha : a ∈ st.active) (hp : a.phase = .push [] es) :
    Inv S g source (st.advance a (.next es)) := by
  obtain ⟨hitem, hphase⟩ := h.active a ha
  rw [hp] at hphase
  refine h.of_dist_eq rfl h.pool (active_advance h.active ⟨hitem, hphase.1⟩) ?_
  intro u e hpend
  refine pending_advance (fun hpa => ?_) hpend
  rw [hp] at hpa
  rcases hpa with hpa | ⟨t, ht, -⟩
  · exact .inr hpa
  · exact absurd ht List.not_mem_nil

theorem Inv.finish {st : State T} (h : Inv S g source st) {a : Activity T}
    (hp : a.phase = .next []) : Inv S g source (st.retire a) := by
  refine h.of_dist_eq rfl h.pool (fun b hb => h.active b (Multiset.mem_of_mem_erase hb)) ?_
  rintro u e (⟨t, ht, hq⟩ | ⟨b, hb, hpb⟩)
  · exact .inr (.inl ⟨t, ht, hq⟩)
  · -- the operator that returns has no edge left
    have hba : b ≠ a := by
      rintro rfl
      rw [hp] at hpb
      exact List.not_mem_nil hpb.2.2
    exact .inr (.inr ⟨b, (Multiset.mem_erase_of_ne hba).mpr hb, hpb⟩)

variable (hS : PushLaw S g S.pushWrap)
include hS

/-- **A swapped-in label is pushed**: the label `newDist` is a walk's length, and the items
`pushWrap(ctx, dst, newDist + 1)` makes cover every edge of the destination from it. -/
theorem Inv.swap {st : State T} (h : Inv S g source st) {a : Activity T} {old e : ℕ}
    {es : List ℕ} (ha : a ∈ st.active) (hp : a.phase = .cas old e es)
    (heq : st.dist (getEdgeDst g e) = old) :
    Inv S g source ⟨Function.update st.dist (getEdgeDst g e) (S.dist a.item), st.pool,
      ⟨a.item, .push (S.pushWrap (getEdgeDst g e) ((S.dist a.item + 1) % 2 ^ 32)) es⟩ ::ₘ
        st.active.erase a⟩ := by
  obtain ⟨hitem, hphase⟩ := h.active a ha
  rw [hp] at hphase
  obtain ⟨he, hes, hlt⟩ := hphase
  set v := getEdgeDst g e
  set nd := S.dist a.item
  have hlt : nd < st.dist v := heq ▸ hlt
  have hd : ∀ y, Function.update st.dist v nd y ≤ st.dist y := by
    intro y
    by_cases hy : y = v
    · rw [hy, Function.update_self]
      exact hlt.le
    · rw [Function.update_of_ne hy]
  have hv : Function.update st.dist v nd v = nd := Function.update_self _ nd st.dist
  have hinf : nd < DIST_INFINITY := lt_of_lt_of_le hlt (h.le_inf _)
  -- `newDist + 1` does not wrap: `newDist` is below `DIST_INFINITY = 2 ^ 31 - 2`
  have hmod : (nd + 1) % 2 ^ 32 = nd + 1 := by
    rw [DIST_INFINITY_eq] at hinf
    exact Nat.mod_eq_of_lt (by omega)
  have hwalk : Walk (Hop g) source v nd := by
    have hw := Walk.snoc hitem.2.1 (hop_of_mem he)
    rwa [Nat.sub_add_cancel hitem.1] at hw
  have hnew : ∀ t ∈ S.pushWrap v ((nd + 1) % 2 ^ 32), ItemOk S g source t := by
    intro t ht
    rw [ItemOk, hS.src_eq _ _ t ht, hS.dist_eq _ _ t ht, hmod, Nat.add_sub_cancel]
    exact ⟨Nat.le_add_left 1 nd, hwalk, hS.range_sub _ _ t ht⟩
  refine ⟨?_, fun y => (hd y).trans (h.le_inf y), ?_, h.pool, ?_, ?_⟩
  · exact Nat.le_zero.mp ((hd source).trans h.source_eq.le)
  · intro y (hy : Function.update st.dist v nd y < DIST_INFINITY)
    show Walk (Hop g) source y (Function.update st.dist v nd y)
    by_cases hyv : y = v
    · rw [hyv, hv]
      exact hwalk
    · rw [Function.update_of_ne hyv] at hy ⊢
      exact h.walk y hy
  · exact active_advance (fun b (hb : b ∈ st.active) => h.active b hb) ⟨hitem, hes, hnew⟩
  · intro u (hu : Function.update st.dist v nd u < DIST_INFINITY) e' he'
    show Relaxed g (Function.update st.dist v nd) u e' ∨ Pending S ⟨_, _, _⟩ u e'
    by_cases huv : u = v
    · -- every edge of the destination is in an item about to be pushed
      rw [huv] at he' ⊢
      obtain ⟨t, ht, het⟩ := hS.cover _ ((nd + 1) % 2 ^ 32) e' he'
      refine .inr (.inr ⟨_, Multiset.mem_cons_self _ _, .inr ⟨t, ht, ?_⟩⟩)
      exact ⟨hS.src_eq _ _ t ht, by rw [hS.dist_eq _ _ t ht, hmod]; exact (congrArg (· + 1) hv).symm,
        het⟩
    · have hdu : Function.update st.dist v nd u = st.dist u := Function.update_of_ne huv _ _
      rcases h.covered u (hdu ▸ hu) e' he' with hr | ⟨t, ht, hq⟩ | ⟨b, hb, hpb⟩
      · exact .inl (by rw [Relaxed, hdu]; exact (hd _).trans hr)
      · exact .inr (.inl ⟨t, ht, hq.update huv⟩)
      · by_cases hba : b = a
        · subst hba
          rw [hp] at hpb
          obtain ⟨hsrc, hdist, rfl | hes'⟩ := hpb
          · -- the edge of the swap: its destination now has `newDist`
            exact .inl (by rw [Relaxed, hdu, hv]; exact hdist.le)
          · exact .inr (.inr ⟨_, Multiset.mem_cons_self _ _, .inl ⟨hsrc,
              hdist.trans (congrArg (· + 1) hdu.symm), hes'⟩⟩)
        · exact .inr (.inr ⟨b, Multiset.mem_cons_of_mem ((Multiset.mem_erase_of_ne hba).mpr hb),
            hpb.update huv⟩)

/-- **Every atomic action keeps the invariant.** -/
theorem Inv.step {st st' : State T} (h : Inv S g source st) (hs : Step S g st st') :
    Inv S g source st' := by
  cases hs with
  | pop t ht => exact h.pop ht
  | stay a e es ha hp hle => exact h.stay ha hp hle
  | read a e es ha hp hgt => exact h.read ha hp hgt
  | swap a old e es ha hp heq => exact h.swap hS ha hp heq
  | retry a old e es ha hp hne => exact h.retry ha hp
  | push a t ts es ha hp => exact h.push ha hp
  | pushed a es ha hp => exact h.pushed ha hp
  | finish a ha hp => exact h.finish hp

/-- **So does every interleaving.** -/
theorem Inv.run {st st' : State T} (h : Inv S g source st)
    (hr : Relation.ReflTransGen (Step S g) st st') : Inv S g source st' := by
  induction hr with
  | refl => exact h
  | tail _ hs ih => exact ih.step hS hs

end Steps

/-! ## 5. The start and the end -/

section Run

variable {S : PushScheme T} {g : Graph} {source : ℕ}

omit [DecidableEq T] in
/-- The first push, with distance `1`, makes the invariant hold. -/
theorem inv_init {push : ℕ → ℕ → List T} (hpush : PushLaw S g push) :
    Inv S g source (init source (push source 1)) := by
  have hsrc : initDist source source = 0 := if_pos rfl
  refine ⟨hsrc, initDist_le source, ?_, ?_, fun a ha => absurd ha (Multiset.notMem_zero a), ?_⟩
  · intro v hv
    by_cases hvs : v = source
    · subst hvs
      rw [show (init v (push v 1)).dist v = 0 from hsrc]
      exact .nil
    · exact absurd hv (by simp [init, initDist, hvs])
  · intro t ht
    have ht : t ∈ push source 1 := Multiset.mem_coe.mp ht
    rw [ItemOk, hpush.src_eq source 1 t ht, hpush.dist_eq source 1 t ht]
    exact ⟨le_rfl, .nil, hpush.range_sub source 1 t ht⟩
  · -- only the source is labelled, and the first items cover its edges
    intro u hu e he
    by_cases hus : u = source
    · subst hus
      obtain ⟨t, ht, het⟩ := hpush.cover u 1 e he
      refine .inr (.inl ⟨t, Multiset.mem_coe.mpr ht, hpush.src_eq u 1 t ht, ?_, het⟩)
      rw [hpush.dist_eq u 1 t ht]
      exact congrArg (· + 1) hsrc.symm
    · exact absurd hu (by simp [init, initDist, hus])

omit [DecidableEq T] in
/-- With nothing queued and no operator at work, every edge out of a labelled node is relaxed:
the labels are settled. -/
theorem Inv.settled {st : State T} (h : Inv S g source st) (hpool : st.pool = 0)
    (hact : st.active = 0) : Settled (Hop g) source DIST_INFINITY st.dist := by
  refine ⟨h.source_eq, h.le_inf, h.walk, ?_⟩
  rintro u v w ⟨⟨e, he, rfl⟩, rfl⟩ hu
  rcases h.covered u hu e he with hr | ⟨t, ht, -⟩ | ⟨a, ha, -⟩
  · exact hr
  · rw [hpool] at ht
    exact absurd ht (Multiset.notMem_zero t)
  · rw [hact] at ha
    exact absurd ha (Multiset.notMem_zero a)

/-- **When the parallel `asyncAlgo` returns, under any interleaving, the labels are settled.** -/
theorem asyncAlgo_settled (hS : S.Lawful g) {d : ℕ → ℕ} (h : asyncAlgo S g source d) :
    Settled (Hop g) source DIST_INFINITY d := by
  obtain ⟨st, hr, hpool, hact, rfl⟩ := h
  exact ((inv_init hS.parallel).run hS.serial hr).settled hpool hact

end Run

/-! ## 6. The serial instantiation: one operator at a time -/

section Serial

variable (S : PushScheme T) (g : Graph)

/-- The edge loop of `asyncAlgo<false>` on one item: with no compare-and-swap, a label above
`newDist` gets `ddata = newDist`, and `pushWrap(ctx, dst, newDist + 1)` appends to the
`SerFIFO`. -/
def relaxEdges (item : T) : List ℕ → (ℕ → ℕ) × List T → (ℕ → ℕ) × List T
  | [], s => s
  | e :: es, (d, q) =>
    if d (getEdgeDst g e) ≤ S.dist item then relaxEdges item es (d, q)
    else relaxEdges item es (Function.update d (getEdgeDst g e) (S.dist item),
      q ++ S.pushWrap (getEdgeDst g e) ((S.dist item + 1) % 2 ^ 32))

/-- `WhileQ<SerFIFO<T>>`: the front item is popped and the operator runs on it, until the queue
is empty; `none` when `fuel` items were not enough. -/
def asyncLoop : ℕ → (ℕ → ℕ) × List T → Option (ℕ → ℕ)
  | 0, _ => none
  | _ + 1, (d, []) => some d
  | fuel + 1, (d, t :: q) => asyncLoop fuel (relaxEdges S g t (S.edgeRange t) (d, q))

/-- `asyncAlgo<false>(graph, source, pushWrap, edgeRange)`: `pushWrap(initBag, source, 1)` into
the queue, then the loop. -/
def asyncSerial (source fuel : ℕ) : Option (ℕ → ℕ) :=
  asyncLoop S g fuel (initDist source, S.pushWrap source 1)

end Serial

/-- The machine with one operator at work. -/
def solo (d : ℕ → ℕ) (pool : Multiset T) (item : T) (p : Phase T) : State T :=
  ⟨d, pool, ⟨item, p⟩ ::ₘ 0⟩

section Solo

variable {S : PushScheme T} {g : Graph} {d : ℕ → ℕ} {P : Multiset T} {t : T}

theorem solo_advance (p q : Phase T) : (solo d P t p).advance ⟨t, p⟩ q = solo d P t q := by
  simp [State.advance, solo]

theorem solo_retire (p : Phase T) : (solo d P t p).retire ⟨t, p⟩ = ⟨d, P, 0⟩ := by
  simp [State.retire, solo]

omit [DecidableEq T] in
theorem mem_solo (p : Phase T) : (⟨t, p⟩ : Activity T) ∈ (solo d P t p).active := by
  simp [solo]

/-- `pushWrap`'s items go to the worklist one after the other. -/
theorem run_push (es : List ℕ) :
    ∀ (ts : List T) (P : Multiset T), Relation.ReflTransGen (Step S g)
      (solo d P t (.push ts es)) (solo d (↑ts + P) t (.push [] es))
  | [], P => by simpa using Relation.ReflTransGen.refl
  | x :: ts, P => by
    have hs := Step.push (S := S) (g := g) (solo d P t (.push (x :: ts) es)) ⟨t, .push (x :: ts) es⟩
      x ts es (mem_solo _) rfl
    have hs : Step S g (solo d P t (.push (x :: ts) es)) (solo d (x ::ₘ P) t (.push ts es)) := by
      simpa [solo, Multiset.erase_cons_head] using hs
    have hrest := run_push es ts (x ::ₘ P)
    rw [Multiset.add_cons, ← Multiset.cons_add, Multiset.cons_coe] at hrest
    exact Relation.ReflTransGen.head hs hrest

/-- **The serial edge loop is a run of the machine**: each edge is a read, and a label above
`newDist` a compare-and-swap that nothing can make fail, then the pushes. -/
theorem relaxEdges_run : ∀ (es : List ℕ) (d : ℕ → ℕ) (q : List T),
    Relation.ReflTransGen (Step S g) (solo d q t (.next es))
      (solo (relaxEdges S g t es (d, q)).1 (relaxEdges S g t es (d, q)).2 t (.next []))
  | [], d, q => .refl
  | e :: es, d, q => by
    rw [relaxEdges]
    split_ifs with hle
    · have hstay := Step.stay (S := S) (g := g) (solo d q t (.next (e :: es)))
        ⟨t, .next (e :: es)⟩ e es (mem_solo _) rfl hle
      rw [solo_advance] at hstay
      exact .head hstay (relaxEdges_run es d q)
    · set v := getEdgeDst g e
      set ts := S.pushWrap v ((S.dist t + 1) % 2 ^ 32)
      have hread := Step.read (S := S) (g := g) (solo d q t (.next (e :: es)))
        ⟨t, .next (e :: es)⟩ e es (mem_solo _) rfl (not_le.mp hle)
      rw [solo_advance] at hread
      have hswap := Step.swap (S := S) (g := g) (solo d q t (.cas (d v) e es))
        ⟨t, .cas (d v) e es⟩ (d v) e es (mem_solo _) rfl rfl
      have hswap : Step S g (solo d q t (.cas (d v) e es))
          (solo (Function.update d v (S.dist t)) q t (.push ts es)) := by
        simp only [solo, Multiset.erase_cons_head] at hswap
        exact hswap
      have hpushes := run_push (S := S) (g := g) (d := Function.update d v (S.dist t)) (t := t)
        es ts q
      have hpushed := Step.pushed (S := S) (g := g)
        (solo (Function.update d v (S.dist t)) (↑ts + ↑q) t (.push [] es))
        ⟨t, .push [] es⟩ es (mem_solo _) rfl
      rw [solo_advance] at hpushed
      -- the queue with the pushes appended is the pool with the pushes added
      have hpool : (↑ts + ↑q : Multiset T) = ↑(q ++ ts) := by
        rw [add_comm, Multiset.coe_add]
      rw [hpool] at hpushes hpushed
      exact .head hread (.head hswap ((hpushes.tail hpushed).trans (relaxEdges_run es _ _)))

end Solo

/-- A serial state is one the machine reaches from `pushWrap(initBag, source, 1)` with no
operator at work, the same labels, and the queue's items as pool. -/
def AsyncSim (S : PushScheme T) (g : Graph) (source : ℕ) (s : (ℕ → ℕ) × List T) : Prop :=
  ∃ st, Relation.ReflTransGen (Step S g) (init source (S.pushWrap source 1)) st ∧
    st.active = 0 ∧ st.dist = s.1 ∧ st.pool = ↑s.2

section SerialRun

variable {S : PushScheme T} {g : Graph} {source : ℕ}

/-- One pass of `WhileQ`: the front item's operator runs alone. -/
theorem AsyncSim.process {d : ℕ → ℕ} {t : T} {q : List T} (h : AsyncSim S g source (d, t :: q)) :
    AsyncSim S g source (relaxEdges S g t (S.edgeRange t) (d, q)) := by
  obtain ⟨st, hr, hact, hd, hpool⟩ := h
  have hpop := Step.pop (S := S) (g := g) st t (by rw [hpool]; exact List.mem_cons_self ..)
  have hpop : Step S g st (solo d q t (.next (S.edgeRange t))) := by
    rw [hact, hpool, hd, ← Multiset.cons_coe, Multiset.erase_cons_head] at hpop
    exact hpop
  set s' := relaxEdges S g t (S.edgeRange t) (d, q)
  have hfinish := Step.finish (S := S) (g := g) (solo s'.1 s'.2 t (.next []))
    ⟨t, .next []⟩ (mem_solo _) rfl
  rw [solo_retire] at hfinish
  exact ⟨_, (hr.tail hpop).trans ((relaxEdges_run _ d q).tail hfinish), rfl, rfl, rfl⟩

/-- **When the serial loop returns, the labels are settled.** -/
theorem asyncLoop_settled (hS : PushLaw S g S.pushWrap) :
    ∀ (fuel : ℕ) (s : (ℕ → ℕ) × List T) (d : ℕ → ℕ), AsyncSim S g source s →
      asyncLoop S g fuel s = some d → Settled (Hop g) source DIST_INFINITY d
  | 0, _, _, _, h => by cases h
  | fuel + 1, (d', []), d, hsim, h => by
    obtain ⟨st, hr, hact, hd, hpool⟩ := hsim
    obtain rfl : d' = d := Option.some.inj h
    dsimp only at hd hpool
    rw [← hd]
    exact ((inv_init hS).run hS hr).settled hpool hact
  | fuel + 1, (d', t :: q), d, hsim, h => asyncLoop_settled hS fuel _ d hsim.process h

theorem asyncSim_init : AsyncSim S g source (initDist source, S.pushWrap source 1) :=
  ⟨_, .refl, rfl, rfl, rfl⟩

/-- **When the serial `asyncAlgo` returns, the labels are settled.** -/
theorem asyncSerial_settled (hS : PushLaw S g S.pushWrap) {fuel : ℕ} {d : ℕ → ℕ}
    (h : asyncSerial S g source fuel = some d) : Settled (Hop g) source DIST_INFINITY d :=
  asyncLoop_settled hS fuel _ d asyncSim_init h

end SerialRun

end Galois.Lonestar.BFS
