import Galois.Lonestar.BFS.Async

/-!
# `syncAlgo` of bfs.cpp under every interleaving

A round of `syncAlgo` swaps `next` into `curr`, clears `next`, raises `nextLevel`, and runs a
`do_all` over `curr`: for each edge of an item, a destination read as `DIST_INFINITY` is written
`nextLevel`, and `pushWrap(*next, dst)` pushes its items. The label reads and writes are plain
words, so two operators can both read `DIST_INFINITY` for one node, both write `nextLevel` and
both push it; what keeps that harmless is that a round writes only its own level. The loop stops
when a round pushed nothing.

* `SyncScheme` -- `pushWrap` and `edgeRange` of `NodePushWrap` with `OutEdgeRangeFn`, and of
  `EdgeTilePushWrap` with `TileRangeFn`;
* `SyncStep` -- the atomic actions: a round's start, an item handed to a thread, a read, a
  write, one push, the ends of the loops;
* `SyncInv` -- labels are walks' lengths and at most the level; the items of `curr` hold edges
  of nodes of the level before, those of `next` of nodes of the level; every edge out of a
  labelled node is relaxed, or handled in this round or the next;
* `SyncInv.level_le_card` -- a level that is written is at most the number of nodes, so on a
  graph with fewer than `DIST_INFINITY` nodes no write reaches `DIST_INFINITY`;
* **`syncAlgo_settled`**, **`syncSerial_settled`** -- when the loop returns on such a graph,
  the labels are settled for the graph with unit weights.
-/

namespace Galois.Lonestar.BFS

open Cusp BFS_SSSP ShortestPaths

variable {T : Type} [DecidableEq T]

/-! ## 1. The push wraps -/

/-- `EdgeTile`: a range `[beg, end)` of edges, with no node. -/
structure EdgeTile where
  beg : ℕ
  «end» : ℕ
  deriving DecidableEq

/-- The template arguments of `syncAlgo` over items `T`: `pushWrap(cont, n)`, its `"parallel"`
overload, and `edgeRange(item)`. -/
structure SyncScheme (T : Type) where
  pushWrap : ℕ → List T
  pushWrapParallel : ℕ → List T
  edgeRange : T → List ℕ

/-- A push for node `n` makes items of `n`'s edges that cover them all. -/
structure SyncPushLaw (S : SyncScheme T) (g : Graph) (push : ℕ → List T) : Prop where
  range_sub : ∀ n, ∀ t ∈ push n, ∀ e ∈ S.edgeRange t, e ∈ edgeIds g n
  cover : ∀ n, ∀ e ∈ edgeIds g n, ∃ t ∈ push n, e ∈ S.edgeRange t

/-- Both pushes of a scheme obey `SyncPushLaw`. -/
structure SyncScheme.Lawful (S : SyncScheme T) (g : Graph) : Prop where
  serial : SyncPushLaw S g S.pushWrap
  parallel : SyncPushLaw S g S.pushWrapParallel

/-- `NodePushWrap` and `OutEdgeRangeFn`: the node itself, with all its edges. -/
def nodeScheme (g : Graph) : SyncScheme ℕ where
  pushWrap n := [n]
  pushWrapParallel n := [n]
  edgeRange n := edgeIds g n

/-- `EdgeTilePushWrap` and `TileRangeFn`: the node's edges cut by `pushEdgeTiles` (by
`pushEdgeTilesParallel` over `numThreads` threads for the `"parallel"` overload), each tile made
by `EdgeTileMaker`. -/
def edgeTileScheme (g : Graph) (tileSize numThreads : ℕ) : SyncScheme EdgeTile where
  pushWrap n := (pushEdgeTiles tileSize (g.edge_begin n) (g.edge_end n)).map fun r => ⟨r.1, r.2⟩
  pushWrapParallel n :=
    (pushEdgeTilesParallel tileSize numThreads (g.edge_begin n) (g.edge_end n)).map fun r =>
      ⟨r.1, r.2⟩
  edgeRange t := tileRange (t.beg, t.end)

omit [DecidableEq T] in
theorem nodeScheme_lawful (g : Graph) : (nodeScheme g).Lawful g := by
  have h : SyncPushLaw (nodeScheme g) g (nodeScheme g).pushWrap := by
    refine ⟨fun n t ht => ?_, fun n e he => ⟨n, List.mem_singleton_self n, he⟩⟩
    rw [List.mem_singleton.mp ht]
    exact fun e he => he
  exact ⟨h, h⟩

/-- A push that cuts the node's edges into ranges covering them exactly obeys `SyncPushLaw`. -/
theorem syncPushLaw_tiles {g : Graph} {tileSize numThreads : ℕ} (ranges : ℕ → List (ℕ × ℕ))
    {push : ℕ → List EdgeTile} (hpush : ∀ n, push n = (ranges n).map fun r => ⟨r.1, r.2⟩)
    (hranges : ∀ n, (ranges n).flatMap tileRange = edgeIds g n) :
    SyncPushLaw (edgeTileScheme g tileSize numThreads) g push := by
  refine ⟨fun n t ht e he => ?_, fun n e he => ?_⟩
  · rw [hpush, List.mem_map] at ht
    obtain ⟨r, hr, rfl⟩ := ht
    rw [← hranges, List.mem_flatMap]
    exact ⟨r, hr, he⟩
  · rw [← hranges, List.mem_flatMap] at he
    obtain ⟨r, hr, he⟩ := he
    exact ⟨⟨r.1, r.2⟩, by rw [hpush]; exact List.mem_map_of_mem hr, he⟩

theorem edgeTileScheme_lawful (g : Graph) (tileSize : ℕ) {numThreads : ℕ} (hT : 0 < numThreads) :
    (edgeTileScheme g tileSize numThreads).Lawful g :=
  ⟨syncPushLaw_tiles _ (fun _ => rfl) fun _ => flatMap_pushEdgeTiles tileSize _ _,
    syncPushLaw_tiles _ (fun _ => rfl) fun _ => flatMap_pushEdgeTilesParallel tileSize hT _ _⟩

/-! ## 2. The machine -/

/-- Where an operator of `syncAlgo` is on its item. -/
inductive SyncPhase (T : Type) where
  /-- in the edge loop, before `dstData` of the first of `es` is read -/
  | next (es : List ℕ)
  /-- `dstData == DIST_INFINITY` held for `e`: before `dstData = nextLevel` -/
  | write (e : ℕ) (es : List ℕ)
  /-- pushing the items of `pushWrap(*next, dst)`, with `es` left -/
  | push (items : List T) (es : List ℕ)
  deriving DecidableEq

/-- The labels, `nextLevel`, the containers `curr` (the items not yet handed out) and `next`,
and the operators at work with their items. -/
structure SyncState (T : Type) where
  dist : ℕ → ℕ
  nextLevel : ℕ
  curr : Multiset T
  next : Multiset T
  active : Multiset (T × SyncPhase T)

/-- Operator `a` moves on to phase `p`. -/
def SyncState.advance (st : SyncState T) (a : T × SyncPhase T) (p : SyncPhase T) :
    SyncState T :=
  ⟨st.dist, st.nextLevel, st.curr, st.next, (a.1, p) ::ₘ st.active.erase a⟩

/-- Operator `a` returns. -/
def SyncState.retire (st : SyncState T) (a : T × SyncPhase T) : SyncState T :=
  ⟨st.dist, st.nextLevel, st.curr, st.next, st.active.erase a⟩

/-- One atomic action of `syncAlgo` over the template arguments `S`. -/
inductive SyncStep (S : SyncScheme T) (g : Graph) : SyncState T → SyncState T → Prop where
  /-- the last round is over and pushed something: `std::swap(curr, next); next->clear();
  ++nextLevel;` -/
  | round (st : SyncState T) (hcurr : st.curr = 0) (hact : st.active = 0) (hnext : st.next ≠ 0) :
      SyncStep S g st ⟨st.dist, (st.nextLevel + 1) % 2 ^ 32, st.next, 0, 0⟩
  /-- the `do_all` hands an item of `curr` to a thread -/
  | take (st : SyncState T) (t : T) (ht : t ∈ st.curr) :
      SyncStep S g st ⟨st.dist, st.nextLevel, st.curr.erase t, st.next,
        (t, .next (S.edgeRange t)) ::ₘ st.active⟩
  /-- `dstData == DIST_INFINITY` is false: the next edge -/
  | seen (st : SyncState T) (t : T) (e : ℕ) (es : List ℕ) (ha : (t, .next (e :: es)) ∈ st.active)
      (hne : st.dist (getEdgeDst g e) ≠ DIST_INFINITY) :
      SyncStep S g st (st.advance (t, .next (e :: es)) (.next es))
  /-- ... or true -/
  | unseen (st : SyncState T) (t : T) (e : ℕ) (es : List ℕ)
      (ha : (t, .next (e :: es)) ∈ st.active) (hinf : st.dist (getEdgeDst g e) = DIST_INFINITY) :
      SyncStep S g st (st.advance (t, .next (e :: es)) (.write e es))
  /-- `dstData = nextLevel` -/
  | write (st : SyncState T) (t : T) (e : ℕ) (es : List ℕ) (ha : (t, .write e es) ∈ st.active) :
      SyncStep S g st ⟨Function.update st.dist (getEdgeDst g e) st.nextLevel, st.nextLevel,
        st.curr, st.next,
        (t, .push (S.pushWrap (getEdgeDst g e)) es) ::ₘ st.active.erase (t, .write e es)⟩
  /-- one `push` of `pushWrap(*next, dst)` -/
  | push (st : SyncState T) (t x : T) (xs : List T) (es : List ℕ)
      (ha : (t, .push (x :: xs) es) ∈ st.active) :
      SyncStep S g st ⟨st.dist, st.nextLevel, st.curr, x ::ₘ st.next,
        (t, .push xs es) ::ₘ st.active.erase (t, .push (x :: xs) es)⟩
  /-- `pushWrap` is done: the next edge -/
  | pushed (st : SyncState T) (t : T) (es : List ℕ) (ha : (t, .push [] es) ∈ st.active) :
      SyncStep S g st (st.advance (t, .push [] es) (.next es))
  /-- the edges are done: the operator returns -/
  | finish (st : SyncState T) (t : T) (ha : (t, .next []) ∈ st.active) :
      SyncStep S g st (st.retire (t, .next []))

/-- The state the loop starts from: `main`'s labels, `nextLevel = 0`, and the first items in
`next`. -/
def syncInit (source : ℕ) (items : List T) : SyncState T := ⟨initDist source, 0, 0, items, 0⟩

/-- `syncAlgo<true>(graph, source, pushWrap, edgeRange)` can return leaving the labels `d`:
some interleaving from `pushWrap(*next, source, "parallel")` ends a round with nothing in
`next`. -/
def syncAlgo (S : SyncScheme T) (g : Graph) (source : ℕ) (d : ℕ → ℕ) : Prop :=
  ∃ st, Relation.ReflTransGen (SyncStep S g) (syncInit source (S.pushWrapParallel source)) st ∧
    st.curr = 0 ∧ st.active = 0 ∧ st.next = 0 ∧ st.dist = d

theorem mem_sync_advance {st : SyncState T} {a b : T × SyncPhase T} {p : SyncPhase T} :
    b ∈ (st.advance a p).active ↔ b = (a.1, p) ∨ b ∈ st.active.erase a :=
  Multiset.mem_cons

/-! ## 3. The invariant -/

section Invariant

variable (S : SyncScheme T) (g : Graph) (source : ℕ)

/-- Item `t` holds edges of a node labelled `level`. -/
def OfNode (d : ℕ → ℕ) (level : ℕ) (t : T) : Prop :=
  ∃ u, d u = level ∧ d u < DIST_INFINITY ∧ ∀ e ∈ S.edgeRange t, e ∈ edgeIds g u

/-- What an operator's phase holds, for the node `u` its item's edges belong to: the edges
left are `u`'s, a destination about to be written is unlabelled or of the level, and the items
to push hold edges of nodes of the level. -/
def SyncPhaseOk (d : ℕ → ℕ) (level u : ℕ) : SyncPhase T → Prop
  | .next es => ∀ e ∈ es, e ∈ edgeIds g u
  | .write e es => e ∈ edgeIds g u ∧ (∀ e' ∈ es, e' ∈ edgeIds g u) ∧
      (d (getEdgeDst g e) = DIST_INFINITY ∨ d (getEdgeDst g e) = level)
  | .push ts es => (∀ e' ∈ es, e' ∈ edgeIds g u) ∧ ∀ t ∈ ts, OfNode S g d level t

/-- Edge `e` is still to be handled in this phase. -/
def Handles (e : ℕ) : SyncPhase T → Prop
  | .next es => e ∈ es
  | .write e' es => e = e' ∨ e ∈ es
  | .push _ es => e ∈ es

/-- Edge `e` is in an item still to be pushed in this phase. -/
def Pushes (e : ℕ) : SyncPhase T → Prop
  | .push ts _ => ∃ t ∈ ts, e ∈ S.edgeRange t
  | _ => False

/-- Edge `e` of `u` will be handled: in this round when `u` is of the level before, from `curr`
or by an operator, or in the next round when `u` is of this level, from `next` or an
operator's pushes. -/
def SyncPending (st : SyncState T) (u e : ℕ) : Prop :=
  (st.dist u + 1 = st.nextLevel ∧
      ((∃ t ∈ st.curr, e ∈ S.edgeRange t) ∨ ∃ a ∈ st.active, Handles e a.2)) ∨
    (st.dist u = st.nextLevel ∧
      ((∃ t ∈ st.next, e ∈ S.edgeRange t) ∨ ∃ a ∈ st.active, Pushes S e a.2))

/-- **The invariant of `syncAlgo`.** -/
structure SyncInv (st : SyncState T) : Prop where
  source_eq : st.dist source = 0
  le_inf : ∀ v, st.dist v ≤ DIST_INFINITY
  walk : ∀ v, st.dist v < DIST_INFINITY → Walk (Hop g) source v (st.dist v)
  le_level : ∀ v, st.dist v < DIST_INFINITY → st.dist v ≤ st.nextLevel
  curr : ∀ t ∈ st.curr, ∃ u, st.dist u + 1 = st.nextLevel ∧ st.dist u < DIST_INFINITY ∧
    ∀ e ∈ S.edgeRange t, e ∈ edgeIds g u
  next : ∀ t ∈ st.next, OfNode S g st.dist st.nextLevel t
  active : ∀ a ∈ st.active, ∃ u, st.dist u + 1 = st.nextLevel ∧ st.dist u < DIST_INFINITY ∧
    SyncPhaseOk S g st.dist st.nextLevel u a.2
  covered : ∀ u, st.dist u < DIST_INFINITY → ∀ e ∈ edgeIds g u,
    Relaxed g st.dist u e ∨ SyncPending S st u e

end Invariant

/-! ## 4. The level stays below the number of nodes -/

section Level

variable {S : SyncScheme T} {g : Graph} {source : ℕ}

omit [DecidableEq T] in
/-- An edge out of a labelled node is relaxed, or its node is of the level before or of the
level. -/
theorem SyncInv.relaxed_or_late {st : SyncState T} (h : SyncInv S g source st) :
    ∀ u v w, Hop g u v w → st.dist u < DIST_INFINITY →
      st.dist v ≤ st.dist u + w ∨ st.nextLevel ≤ st.dist u + 1 := by
  rintro u v w ⟨⟨e, he, rfl⟩, rfl⟩ hu
  rcases h.covered u hu e he with hr | ⟨hlev, -⟩ | ⟨hlev, -⟩
  · exact .inl hr
  · exact .inr hlev.ge
  · exact .inr (by omega)

omit [DecidableEq T] in
/-- **A level that is written is at most the number of nodes**: the node `u` whose edge is
handled is labelled one less, no more than its distance from the source, and that distance is
below the number of nodes since `u` has an edge. -/
theorem SyncInv.level_le_card {st : SyncState T} (h : SyncInv S g source st) {u e : ℕ}
    (hu : st.dist u < DIST_INFINITY) (hlev : st.dist u + 1 = st.nextLevel)
    (he : e ∈ edgeIds g u) : st.nextLevel ≤ g.edgeIndData.length := by
  have hne : dist (Hop g) source u ≠ ⊤ :=
    ne_top_of_le_ne_top (ENat.natCast_ne_top _) (dist_le (h.walk u hu))
  obtain ⟨c, hc, hdc⟩ := exists_walk_dist hne
  -- `u`'s label is at most the length of a shortest walk to it
  have hle : st.dist u ≤ c := by
    rcases le_of_walk_or_blocked h.source_eq h.le_inf h.relaxed_or_late hc with hle | ⟨x, hx, hxc⟩
    · exact hle
    · omega
  have hnodes : ∀ x y w, Hop g x y w → x ∈ Finset.range g.edgeIndData.length := by
    rintro x y w ⟨⟨e', he', -⟩, -⟩
    exact Finset.mem_range.mpr (lt_of_mem_edgeIds he')
  have hlt := dist_lt_card (fun _ _ _ => hop_unit) hnodes
    (Finset.mem_range.mpr (lt_of_mem_edgeIds he)) hne
  rw [hdc, Finset.card_range] at hlt
  have hlt : c < g.edgeIndData.length := by exact_mod_cast hlt
  omega

end Level

/-! ## 5. Every atomic action keeps the invariant -/

section Steps

variable {S : SyncScheme T} {g : Graph} {source : ℕ}

omit [DecidableEq T] in
/-- An action that leaves the labels and the level alone keeps the invariant when the items and
operators it leaves are fine and every pending edge stays pending or is relaxed. -/
theorem SyncInv.of_dist_eq {st st' : SyncState T} (h : SyncInv S g source st)
    (hd : st'.dist = st.dist) (hL : st'.nextLevel = st.nextLevel)
    (hcurr : ∀ t ∈ st'.curr, ∃ u, st.dist u + 1 = st.nextLevel ∧ st.dist u < DIST_INFINITY ∧
      ∀ e ∈ S.edgeRange t, e ∈ edgeIds g u)
    (hnext : ∀ t ∈ st'.next, OfNode S g st.dist st.nextLevel t)
    (hact : ∀ a ∈ st'.active, ∃ u, st.dist u + 1 = st.nextLevel ∧ st.dist u < DIST_INFINITY ∧
      SyncPhaseOk S g st.dist st.nextLevel u a.2)
    (hpend : ∀ u e, SyncPending S st u e → Relaxed g st.dist u e ∨ SyncPending S st' u e) :
    SyncInv S g source st' := by
  refine ⟨?_, ?_, ?_, ?_, ?_, ?_, ?_, ?_⟩ <;> rw [hd]
  · exact h.source_eq
  · exact h.le_inf
  · exact h.walk
  · rw [hL]
    exact h.le_level
  · rw [hL]
    exact hcurr
  · rw [hL]
    exact hnext
  · rw [hL]
    exact hact
  · intro u hu e he
    rcases h.covered u hu e he with hr | hp
    · exact .inl hr
    · exact hpend u e hp

/-- Moving operator `a` to phase `p` keeps what is pending when `p` handles what `a`'s phase
handled and pushes what it pushed. -/
theorem sync_pending_advance {st : SyncState T} {a : T × SyncPhase T} {p : SyncPhase T}
    {u e : ℕ} (hh : st.dist u + 1 = st.nextLevel → Handles e a.2 →
      Relaxed g st.dist u e ∨ Handles e p)
    (hpu : ¬ Pushes S e a.2) (h : SyncPending S st u e) :
    Relaxed g st.dist u e ∨ SyncPending S (st.advance a p) u e := by
  rcases h with ⟨hlev, ⟨t, ht, het⟩ | ⟨b, hb, hhb⟩⟩ | ⟨hlev, ⟨t, ht, het⟩ | ⟨b, hb, hpb⟩⟩
  · exact .inr (.inl ⟨hlev, .inl ⟨t, ht, het⟩⟩)
  · by_cases hba : b = a
    · subst hba
      rcases hh hlev hhb with hr | hp
      · exact .inl hr
      · exact .inr (.inl ⟨hlev, .inr ⟨(b.1, p), Multiset.mem_cons_self _ _, hp⟩⟩)
    · exact .inr (.inl ⟨hlev, .inr ⟨b, Multiset.mem_cons_of_mem
        ((Multiset.mem_erase_of_ne hba).mpr hb), hhb⟩⟩)
  · exact .inr (.inr ⟨hlev, .inl ⟨t, ht, het⟩⟩)
  · have hba : b ≠ a := by
      rintro rfl
      exact hpu hpb
    exact .inr (.inr ⟨hlev, .inr ⟨b, Multiset.mem_cons_of_mem
      ((Multiset.mem_erase_of_ne hba).mpr hb), hpb⟩⟩)

/-- The operators other than `a` keep what holds of them. -/
theorem sync_active_advance {st : SyncState T} {a : T × SyncPhase T} {p : SyncPhase T}
    {P : T × SyncPhase T → Prop} (hall : ∀ b ∈ st.active, P b) (hnew : P (a.1, p)) :
    ∀ b ∈ (st.advance a p).active, P b := by
  intro b hb
  rcases mem_sync_advance.mp hb with rfl | hb
  · exact hnew
  · exact hall b (Multiset.mem_of_mem_erase hb)

theorem SyncInv.take {st : SyncState T} (h : SyncInv S g source st) {t : T} (ht : t ∈ st.curr) :
    SyncInv S g source ⟨st.dist, st.nextLevel, st.curr.erase t, st.next,
      (t, .next (S.edgeRange t)) ::ₘ st.active⟩ := by
  refine h.of_dist_eq rfl rfl (fun t' ht' => h.curr t' (Multiset.mem_of_mem_erase ht')) h.next
    ?_ ?_
  · intro a ha
    rcases Multiset.mem_cons.mp ha with rfl | ha
    · exact h.curr _ ht
    · exact h.active a ha
  · rintro u e (⟨hlev, ⟨t', ht', het⟩ | ⟨b, hb, hhb⟩⟩ | ⟨hlev, hnx | ⟨b, hb, hpb⟩⟩)
    · by_cases htt : t' = t
      · -- the item handed out goes on with its edges
        subst htt
        exact .inr (.inl ⟨hlev, .inr ⟨_, Multiset.mem_cons_self _ _, het⟩⟩)
      · exact .inr (.inl ⟨hlev, .inl ⟨t', (Multiset.mem_erase_of_ne htt).mpr ht', het⟩⟩)
    · exact .inr (.inl ⟨hlev, .inr ⟨b, Multiset.mem_cons_of_mem hb, hhb⟩⟩)
    · exact .inr (.inr ⟨hlev, .inl hnx⟩)
    · exact .inr (.inr ⟨hlev, .inr ⟨b, Multiset.mem_cons_of_mem hb, hpb⟩⟩)

theorem SyncInv.seen {st : SyncState T} (h : SyncInv S g source st) {t : T} {e : ℕ}
    {es : List ℕ} (ha : (t, .next (e :: es)) ∈ st.active)
    (hne : st.dist (getEdgeDst g e) ≠ DIST_INFINITY) :
    SyncInv S g source (st.advance (t, .next (e :: es)) (.next es)) := by
  obtain ⟨w, hw, hwi, hphase⟩ := h.active _ ha
  refine h.of_dist_eq rfl rfl h.curr h.next (sync_active_advance h.active
    ⟨w, hw, hwi, fun e' he' => hphase e' (List.mem_cons_of_mem _ he')⟩) ?_
  intro u e' hpend
  refine sync_pending_advance (fun hlev he' => ?_) (fun hpu => hpu) hpend
  rcases List.mem_cons.mp he' with rfl | he'
  · -- a labelled destination is at most the level, one more than `u`'s label
    have := h.le_level _ (lt_of_le_of_ne (h.le_inf _) hne)
    exact .inl (by rw [Relaxed]; omega)
  · exact .inr he'

theorem SyncInv.unseen {st : SyncState T} (h : SyncInv S g source st) {t : T} {e : ℕ}
    {es : List ℕ} (ha : (t, .next (e :: es)) ∈ st.active)
    (hinf : st.dist (getEdgeDst g e) = DIST_INFINITY) :
    SyncInv S g source (st.advance (t, .next (e :: es)) (.write e es)) := by
  obtain ⟨w, hw, hwi, hphase⟩ := h.active _ ha
  refine h.of_dist_eq rfl rfl h.curr h.next (sync_active_advance h.active
    ⟨w, hw, hwi, hphase e (List.mem_cons_self ..),
      fun e' he' => hphase e' (List.mem_cons_of_mem _ he'), .inl hinf⟩) ?_
  intro u e' hpend
  exact sync_pending_advance (fun _ he' => .inr (List.mem_cons.mp he')) (fun hpu => hpu) hpend

theorem SyncInv.push {st : SyncState T} (h : SyncInv S g source st) {t x : T} {xs : List T}
    {es : List ℕ} (ha : (t, .push (x :: xs) es) ∈ st.active) :
    SyncInv S g source ⟨st.dist, st.nextLevel, st.curr, x ::ₘ st.next,
      (t, .push xs es) ::ₘ st.active.erase (t, .push (x :: xs) es)⟩ := by
  obtain ⟨w, hw, hwi, hes, hts⟩ := h.active _ ha
  refine h.of_dist_eq rfl rfl h.curr ?_ ?_ ?_
  · intro t' ht'
    rcases Multiset.mem_cons.mp ht' with rfl | ht'
    · exact hts t' (List.mem_cons_self ..)
    · exact h.next t' ht'
  · exact sync_active_advance (a := (t, .push (x :: xs) es)) h.active
      ⟨w, hw, hwi, hes, fun t' ht' => hts t' (List.mem_cons_of_mem _ ht')⟩
  · rintro u e (⟨hlev, hcu | ⟨b, hb, hhb⟩⟩ | ⟨hlev, hnx | ⟨b, hb, hpb⟩⟩)
    · exact .inr (.inl ⟨hlev, .inl hcu⟩)
    · by_cases hba : b = (t, .push (x :: xs) es)
      · subst hba
        exact .inr (.inl ⟨hlev, .inr ⟨_, Multiset.mem_cons_self _ _, hhb⟩⟩)
      · exact .inr (.inl ⟨hlev, .inr ⟨b, Multiset.mem_cons_of_mem
          ((Multiset.mem_erase_of_ne hba).mpr hb), hhb⟩⟩)
    · obtain ⟨t', ht', het⟩ := hnx
      exact .inr (.inr ⟨hlev, .inl ⟨t', Multiset.mem_cons_of_mem ht', het⟩⟩)
    · by_cases hba : b = (t, .push (x :: xs) es)
      · -- the item pushed is now in `next`
        subst hba
        obtain ⟨t', ht', het⟩ := hpb
        rcases List.mem_cons.mp ht' with rfl | ht'
        · exact .inr (.inr ⟨hlev, .inl ⟨t', Multiset.mem_cons_self _ _, het⟩⟩)
        · exact .inr (.inr ⟨hlev, .inr ⟨_, Multiset.mem_cons_self _ _, ⟨t', ht', het⟩⟩⟩)
      · exact .inr (.inr ⟨hlev, .inr ⟨b, Multiset.mem_cons_of_mem
          ((Multiset.mem_erase_of_ne hba).mpr hb), hpb⟩⟩)

theorem SyncInv.pushed {st : SyncState T} (h : SyncInv S g source st) {t : T} {es : List ℕ}
    (ha : (t, .push [] es) ∈ st.active) :
    SyncInv S g source (st.advance (t, .push [] es) (.next es)) := by
  obtain ⟨w, hw, hwi, hes, -⟩ := h.active _ ha
  refine h.of_dist_eq rfl rfl h.curr h.next (sync_active_advance h.active ⟨w, hw, hwi, hes⟩) ?_
  intro u e hpend
  refine sync_pending_advance (fun _ he => .inr he) ?_ hpend
  rintro ⟨t', ht', -⟩
  exact List.not_mem_nil ht'

theorem SyncInv.finish {st : SyncState T} (h : SyncInv S g source st) {t : T} :
    SyncInv S g source (st.retire (t, .next [])) := by
  refine h.of_dist_eq rfl rfl h.curr h.next
    (fun b hb => h.active b (Multiset.mem_of_mem_erase hb)) ?_
  -- the operator that returns has no edge left, and nothing to push
  have hoth : ∀ b ∈ st.active, b ≠ (t, .next []) → b ∈ (st.retire (t, .next [])).active :=
    fun b hb hba => (Multiset.mem_erase_of_ne hba).mpr hb
  rintro u e (⟨hlev, hcu | ⟨b, hb, hhb⟩⟩ | ⟨hlev, hnx | ⟨b, hb, hpb⟩⟩)
  · exact .inr (.inl ⟨hlev, .inl hcu⟩)
  · have hba : b ≠ (t, .next []) := by
      rintro rfl
      exact List.not_mem_nil hhb
    exact .inr (.inl ⟨hlev, .inr ⟨b, hoth b hb hba, hhb⟩⟩)
  · exact .inr (.inr ⟨hlev, .inl hnx⟩)
  · have hba : b ≠ (t, .next []) := by
      rintro rfl
      exact hpb
    exact .inr (.inr ⟨hlev, .inr ⟨b, hoth b hb hba, hpb⟩⟩)

omit [DecidableEq T] in
/-- **A round starts from a round that pushed something**: the level goes up by one, with no
wrap since `next` holds edges of a node of the level, and the edges waiting in `next` are now
waiting in `curr`. -/
theorem SyncInv.round {st : SyncState T} (h : SyncInv S g source st) (hcurr : st.curr = 0)
    (hact : st.active = 0) (hnext : st.next ≠ 0) :
    SyncInv S g source ⟨st.dist, (st.nextLevel + 1) % 2 ^ 32, st.next, 0, 0⟩ := by
  obtain ⟨t, ht⟩ := Multiset.exists_mem_of_ne_zero hnext
  obtain ⟨u, hu, hui, -⟩ := h.next t ht
  have hL : (st.nextLevel + 1) % 2 ^ 32 = st.nextLevel + 1 := by
    rw [DIST_INFINITY_eq] at hui
    exact Nat.mod_eq_of_lt (by omega)
  refine ⟨h.source_eq, h.le_inf, h.walk, ?_, ?_, fun t ht => absurd ht (Multiset.notMem_zero t),
    fun a ha => absurd ha (Multiset.notMem_zero a), ?_⟩
  · intro v hv
    show st.dist v ≤ (st.nextLevel + 1) % 2 ^ 32
    rw [hL]
    exact (h.le_level v hv).trans (Nat.le_succ _)
  · intro t' ht'
    obtain ⟨w, hw, hwi, hwe⟩ := h.next t' ht'
    exact ⟨w, by rw [hL, hw], hwi, hwe⟩
  · intro v hv e he
    show Relaxed g st.dist v e ∨ SyncPending S ⟨st.dist, _, st.next, 0, 0⟩ v e
    rcases h.covered v hv e he with hr | ⟨-, ⟨t', ht', -⟩ | ⟨a, ha, -⟩⟩ | ⟨hlev, hnx | ⟨a, ha, -⟩⟩
    · exact .inl hr
    · rw [hcurr] at ht'
      exact absurd ht' (Multiset.notMem_zero t')
    · rw [hact] at ha
      exact absurd ha (Multiset.notMem_zero a)
    · exact .inr (.inl ⟨by rw [hL, hlev], .inl hnx⟩)
    · rw [hact] at ha
      exact absurd ha (Multiset.notMem_zero a)

variable (hsize : g.edgeIndData.length < DIST_INFINITY)
include hsize

/-- **A write keeps the invariant**: on a graph with fewer than `DIST_INFINITY` nodes the level is
below `DIST_INFINITY`, so the destination, unlabelled or already of the level, gets a walk's
length, every other label stays, and the items pushed for it cover its edges. -/
theorem SyncInv.write {st : SyncState T} (h : SyncInv S g source st) (hS : SyncPushLaw S g S.pushWrap)
    {t : T} {e : ℕ} {es : List ℕ} (ha : (t, .write e es) ∈ st.active) :
    SyncInv S g source ⟨Function.update st.dist (getEdgeDst g e) st.nextLevel, st.nextLevel,
      st.curr, st.next,
      (t, .push (S.pushWrap (getEdgeDst g e)) es) ::ₘ st.active.erase (t, .write e es)⟩ := by
  obtain ⟨w, hw, hwi, he, hes, hdst⟩ := h.active _ ha
  set v := getEdgeDst g e
  set L := st.nextLevel
  set d' := Function.update st.dist v L
  have hLinf : L < DIST_INFINITY := lt_of_le_of_lt (h.level_le_card hwi hw he) hsize
  have hv : d' v = L := Function.update_self _ _ _
  have hle : ∀ y, d' y ≤ st.dist y := by
    intro y
    by_cases hy : y = v
    · rw [hy, hv]
      rcases hdst with hinf | hlev
      · exact hinf ▸ hLinf.le
      · exact hlev.ge
    · exact (Function.update_of_ne hy _ _).le
  -- a label below `DIST_INFINITY` stays: the destination is unlabelled or already of the level
  have hstable : ∀ y, st.dist y < DIST_INFINITY → d' y = st.dist y := by
    intro y hy
    by_cases hyv : y = v
    · rw [hyv, hv]
      rw [hyv] at hy
      rcases hdst with hinf | hlev
      · omega
      · exact hlev.symm
    · exact Function.update_of_ne hyv _ _
  have hOf : ∀ t', OfNode S g st.dist L t' → OfNode S g d' L t' := by
    rintro t' ⟨x, hx, hxi, hxe⟩
    exact ⟨x, (hstable x hxi).trans hx, (hstable x hxi).trans_lt hxi, hxe⟩
  have hwalk : Walk (Hop g) source v L := by
    have hsnoc := Walk.snoc (h.walk w hwi) (hop_of_mem he)
    rwa [hw] at hsnoc
  refine ⟨?_, fun y => (hle y).trans (h.le_inf y), ?_, ?_, ?_, ?_, ?_, ?_⟩
  · have hsrc : st.dist source < DIST_INFINITY := by
      rw [h.source_eq]
      decide
    exact (hstable source hsrc).trans h.source_eq
  · intro y (hy : d' y < DIST_INFINITY)
    show Walk (Hop g) source y (d' y)
    by_cases hyv : y = v
    · rw [hyv, hv]
      exact hwalk
    · rw [show d' y = st.dist y from Function.update_of_ne hyv _ _] at hy ⊢
      exact h.walk y hy
  · intro y (hy : d' y < DIST_INFINITY)
    show d' y ≤ L
    by_cases hyv : y = v
    · rw [hyv, hv]
    · rw [show d' y = st.dist y from Function.update_of_ne hyv _ _] at hy ⊢
      exact h.le_level y hy
  · intro t' ht'
    show ∃ u, d' u + 1 = L ∧ d' u < DIST_INFINITY ∧ ∀ e ∈ S.edgeRange t', e ∈ edgeIds g u
    obtain ⟨x, hx, hxi, hxe⟩ := h.curr t' ht'
    exact ⟨x, by rw [hstable x hxi]; exact hx, (hstable x hxi).trans_lt hxi, hxe⟩
  · exact fun t' ht' => hOf t' (h.next t' ht')
  · intro a ha'
    show ∃ u, d' u + 1 = L ∧ d' u < DIST_INFINITY ∧ SyncPhaseOk S g d' L u a.2
    rcases Multiset.mem_cons.mp ha' with rfl | ha'
    · refine ⟨w, by rw [hstable w hwi]; exact hw, (hstable w hwi).trans_lt hwi, hes, ?_⟩
      -- the items pushed hold edges of the destination, now of the level
      intro t' ht'
      exact ⟨v, hv, hv.trans_lt hLinf, hS.range_sub v t' ht'⟩
    · obtain ⟨x, hx, hxi, hphase⟩ := h.active a (Multiset.mem_of_mem_erase ha')
      refine ⟨x, by rw [hstable x hxi]; exact hx, (hstable x hxi).trans_lt hxi, ?_⟩
      rcases a with ⟨t', _ | ⟨e', es'⟩ | ⟨ts, es'⟩⟩
      · exact hphase
      · obtain ⟨he', hes', hdst'⟩ := hphase
        refine ⟨he', hes', ?_⟩
        by_cases hdv : getEdgeDst g e' = v
        · exact .inr (by rw [hdv, hv])
        · rw [show d' (getEdgeDst g e') = st.dist (getEdgeDst g e') from
            Function.update_of_ne hdv _ _]
          exact hdst'
      · exact ⟨hphase.1, fun t'' ht'' => hOf t'' (hphase.2 t'' ht'')⟩
  · intro u (hu : d' u < DIST_INFINITY) e' he'
    show Relaxed g d' u e' ∨ SyncPending S ⟨d', L, st.curr, st.next, _⟩ u e'
    by_cases huv : u = v
    · -- every edge of the destination is in an item about to be pushed
      rw [huv] at he' ⊢
      obtain ⟨t', ht', het⟩ := hS.cover v e' he'
      exact .inr (.inr ⟨hv, .inr ⟨_, Multiset.mem_cons_self _ _, ⟨t', ht', het⟩⟩⟩)
    · have hdu : d' u = st.dist u := Function.update_of_ne huv _ _
      -- `u` keeps its label, so its edges keep their round
      have hlev1 : st.dist u + 1 = L → d' u + 1 = L := fun hl => by rw [hdu]; exact hl
      have hlev0 : st.dist u = L → d' u = L := fun hl => by rw [hdu]; exact hl
      rcases h.covered u (hdu ▸ hu) e' he' with hr | ⟨hlev, hcu | ⟨b, hb, hhb⟩⟩ |
          ⟨hlev, hnx | ⟨b, hb, hpb⟩⟩
      · exact .inl (by rw [Relaxed, hdu]; exact (hle _).trans hr)
      · exact .inr (.inl ⟨hlev1 hlev, .inl hcu⟩)
      · by_cases hba : b = (t, .write e es)
        · subst hba
          rcases hhb with rfl | hes'
          · -- the edge written: its destination now has the level
            exact .inl (by rw [Relaxed, hdu, hv]; exact hlev.ge)
          · exact .inr (.inl ⟨hlev1 hlev, .inr ⟨_, Multiset.mem_cons_self _ _, hes'⟩⟩)
        · exact .inr (.inl ⟨hlev1 hlev, .inr ⟨b, Multiset.mem_cons_of_mem
            ((Multiset.mem_erase_of_ne hba).mpr hb), hhb⟩⟩)
      · exact .inr (.inr ⟨hlev0 hlev, .inl hnx⟩)
      · have hba : b ≠ (t, .write e es) := by
          rintro rfl
          exact hpb
        exact .inr (.inr ⟨hlev0 hlev, .inr ⟨b, Multiset.mem_cons_of_mem
          ((Multiset.mem_erase_of_ne hba).mpr hb), hpb⟩⟩)

/-- **Every atomic action keeps the invariant.** -/
theorem SyncInv.step {st st' : SyncState T} (h : SyncInv S g source st)
    (hS : SyncPushLaw S g S.pushWrap) (hs : SyncStep S g st st') : SyncInv S g source st' := by
  cases hs with
  | round hcurr hact hnext => exact h.round hcurr hact hnext
  | take t ht => exact h.take ht
  | seen t e es ha hne => exact h.seen ha hne
  | unseen t e es ha hinf => exact h.unseen ha hinf
  | write t e es ha => exact h.write hsize hS ha
  | push t x xs es ha => exact h.push ha
  | pushed t es ha => exact h.pushed ha
  | finish t ha => exact h.finish

/-- **So does every interleaving of every round.** -/
theorem SyncInv.run {st st' : SyncState T} (h : SyncInv S g source st)
    (hS : SyncPushLaw S g S.pushWrap) (hr : Relation.ReflTransGen (SyncStep S g) st st') :
    SyncInv S g source st' := by
  induction hr with
  | refl => exact h
  | tail _ hs ih => exact ih.step hsize hS hs

end Steps

/-! ## 6. The start and the end -/

section Run

variable {S : SyncScheme T} {g : Graph} {source : ℕ}

omit [DecidableEq T] in
/-- The first push into `next` makes the invariant hold at level `0`. -/
theorem syncInv_init {push : ℕ → List T} (hpush : SyncPushLaw S g push) :
    SyncInv S g source (syncInit source (push source)) := by
  have hsrc : initDist source source = 0 := if_pos rfl
  -- only the source is labelled
  have hlab : ∀ v, initDist source v < DIST_INFINITY → v = source := by
    intro v hv
    by_contra hvs
    simp [initDist, hvs] at hv
  refine ⟨hsrc, initDist_le source, ?_, ?_, fun t ht => absurd ht (Multiset.notMem_zero t), ?_,
    fun a ha => absurd ha (Multiset.notMem_zero a), ?_⟩
  · intro v hv
    obtain rfl := hlab v hv
    show Walk (Hop g) v v (initDist v v)
    rw [hsrc]
    exact .nil
  · intro v hv
    obtain rfl := hlab v hv
    exact hsrc.le
  · have hsrc' : initDist source source < DIST_INFINITY := by
      rw [hsrc]
      decide
    intro t ht
    exact ⟨source, hsrc, hsrc', hpush.range_sub source t (Multiset.mem_coe.mp ht)⟩
  · intro u hu e he
    obtain rfl := hlab u hu
    obtain ⟨t, ht, het⟩ := hpush.cover u e he
    exact .inr (.inr ⟨hsrc, .inl ⟨t, Multiset.mem_coe.mpr ht, het⟩⟩)

omit [DecidableEq T] in
/-- With nothing in `curr` or `next` and no operator at work, every edge out of a labelled node
is relaxed: the labels are settled. -/
theorem SyncInv.settled {st : SyncState T} (h : SyncInv S g source st) (hcurr : st.curr = 0)
    (hact : st.active = 0) (hnext : st.next = 0) :
    Settled (Hop g) source DIST_INFINITY st.dist := by
  refine ⟨h.source_eq, h.le_inf, h.walk, ?_⟩
  rintro u v w ⟨⟨e, he, rfl⟩, rfl⟩ hu
  rcases h.covered u hu e he with hr | ⟨-, ⟨t, ht, -⟩ | ⟨a, ha, -⟩⟩ | ⟨-, ⟨t, ht, -⟩ | ⟨a, ha, -⟩⟩
  · exact hr
  · rw [hcurr] at ht
    exact absurd ht (Multiset.notMem_zero t)
  · rw [hact] at ha
    exact absurd ha (Multiset.notMem_zero a)
  · rw [hnext] at ht
    exact absurd ht (Multiset.notMem_zero t)
  · rw [hact] at ha
    exact absurd ha (Multiset.notMem_zero a)

/-- **When the parallel `syncAlgo` returns on a graph with fewer than `DIST_INFINITY` nodes,
under any interleaving, the labels are settled.** -/
theorem syncAlgo_settled (hS : S.Lawful g) (hsize : g.edgeIndData.length < DIST_INFINITY)
    {d : ℕ → ℕ} (h : syncAlgo S g source d) : Settled (Hop g) source DIST_INFINITY d := by
  obtain ⟨st, hr, hcurr, hact, hnext, rfl⟩ := h
  exact ((syncInv_init hS.parallel).run hsize hS.serial hr).settled hcurr hact hnext

end Run

/-! ## 7. The serial instantiation: one operator at a time -/

section Serial

variable (S : SyncScheme T) (g : Graph)

/-- The edge loop of `syncAlgo<false>` on one item: an unlabelled destination gets `nextLevel`,
and `pushWrap(*next, dst)` appends to the `SerStack`. -/
def syncEdges (level : ℕ) : List ℕ → (ℕ → ℕ) × List T → (ℕ → ℕ) × List T
  | [], s => s
  | e :: es, (d, next) =>
    if d (getEdgeDst g e) = DIST_INFINITY then
      syncEdges level es
        (Function.update d (getEdgeDst g e) level, next ++ S.pushWrap (getEdgeDst g e))
    else syncEdges level es (d, next)

/-- `std::for_each` over `curr`: each item's edges in turn. -/
def syncItems (level : ℕ) (curr : List T) (s : (ℕ → ℕ) × List T) : (ℕ → ℕ) × List T :=
  curr.foldl (fun s t => syncEdges S g level (S.edgeRange t) s) s

/-- `while (!next->empty())`: a round takes `next` as `curr`, clears `next`, raises
`nextLevel` and runs over `curr`; `none` when `fuel` rounds were not enough. -/
def syncLoop : ℕ → (ℕ → ℕ) × ℕ × List T → Option (ℕ → ℕ)
  | 0, _ => none
  | fuel + 1, (d, level, next) =>
    if next.isEmpty then some d
    else
      let level' := (level + 1) % 2 ^ 32
      let s := syncItems S g level' next (d, [])
      syncLoop fuel (s.1, level', s.2)

/-- `syncAlgo<false>(graph, source, pushWrap, edgeRange)`: `nextLevel = 0`,
`pushWrap(*next, source)`, then the loop. -/
def syncSerial (source fuel : ℕ) : Option (ℕ → ℕ) :=
  syncLoop S g fuel (initDist source, 0, S.pushWrap source)

end Serial

/-- The machine with one operator at work. -/
def syncSolo (d : ℕ → ℕ) (level : ℕ) (curr next : Multiset T) (item : T) (p : SyncPhase T) :
    SyncState T :=
  ⟨d, level, curr, next, (item, p) ::ₘ 0⟩

section Solo

variable {S : SyncScheme T} {g : Graph} {d : ℕ → ℕ} {L : ℕ} {C N : Multiset T} {t : T}

theorem syncSolo_advance (p q : SyncPhase T) :
    (syncSolo d L C N t p).advance (t, p) q = syncSolo d L C N t q := by
  simp [SyncState.advance, syncSolo]

omit [DecidableEq T] in
theorem mem_syncSolo (p : SyncPhase T) : (t, p) ∈ (syncSolo d L C N t p).active := by
  simp [syncSolo]

/-- `pushWrap`'s items go to `next` one after the other. -/
theorem sync_run_push (es : List ℕ) :
    ∀ (ts : List T) (N : Multiset T), Relation.ReflTransGen (SyncStep S g)
      (syncSolo d L C N t (.push ts es)) (syncSolo d L C (↑ts + N) t (.push [] es))
  | [], N => by simpa using Relation.ReflTransGen.refl
  | x :: ts, N => by
    have hs := SyncStep.push (S := S) (g := g) (syncSolo d L C N t (.push (x :: ts) es)) t x ts es
      (mem_syncSolo _)
    have hs : SyncStep S g (syncSolo d L C N t (.push (x :: ts) es))
        (syncSolo d L C (x ::ₘ N) t (.push ts es)) := by
      simpa [syncSolo, Multiset.erase_cons_head] using hs
    have hrest := sync_run_push es ts (x ::ₘ N)
    rw [Multiset.add_cons, ← Multiset.cons_add, Multiset.cons_coe] at hrest
    exact Relation.ReflTransGen.head hs hrest

/-- **The serial edge loop is a run of the machine**: each edge is a read, and an unlabelled
destination a write and the pushes. -/
theorem syncEdges_run : ∀ (es : List ℕ) (d : ℕ → ℕ) (nx : List T),
    Relation.ReflTransGen (SyncStep S g) (syncSolo d L C nx t (.next es))
      (syncSolo (syncEdges S g L es (d, nx)).1 L C (syncEdges S g L es (d, nx)).2 t (.next []))
  | [], d, nx => .refl
  | e :: es, d, nx => by
    rw [syncEdges]
    split_ifs with hinf
    · set v := getEdgeDst g e
      set ts := S.pushWrap v
      have hunseen := SyncStep.unseen (S := S) (g := g) (syncSolo d L C nx t (.next (e :: es)))
        t e es (mem_syncSolo _) hinf
      rw [syncSolo_advance] at hunseen
      have hwrite := SyncStep.write (S := S) (g := g) (syncSolo d L C nx t (.write e es)) t e es
        (mem_syncSolo _)
      have hwrite : SyncStep S g (syncSolo d L C nx t (.write e es))
          (syncSolo (Function.update d v L) L C nx t (.push ts es)) := by
        simp only [syncSolo, Multiset.erase_cons_head] at hwrite
        exact hwrite
      have hpushes := sync_run_push (S := S) (g := g) (d := Function.update d v L) (L := L)
        (C := C) (t := t) es ts nx
      have hpushed := SyncStep.pushed (S := S) (g := g)
        (syncSolo (Function.update d v L) L C (↑ts + ↑nx) t (.push [] es)) t es (mem_syncSolo _)
      rw [syncSolo_advance] at hpushed
      -- the stack with the pushes appended is `next` with the pushes added
      have hnext : (↑ts + ↑nx : Multiset T) = ↑(nx ++ ts) := by
        rw [add_comm, Multiset.coe_add]
      rw [hnext] at hpushes hpushed
      exact .head hunseen (.head hwrite ((hpushes.tail hpushed).trans (syncEdges_run es _ _)))
    · have hseen := SyncStep.seen (S := S) (g := g) (syncSolo d L C nx t (.next (e :: es)))
        t e es (mem_syncSolo _) hinf
      rw [syncSolo_advance] at hseen
      exact .head hseen (syncEdges_run es d nx)

/-- **A round's `std::for_each` is a run of the machine**: the items of `curr` handed out one
by one, each run alone to its end. -/
theorem syncItems_run : ∀ (curr : List T) (s : (ℕ → ℕ) × List T),
    Relation.ReflTransGen (SyncStep S g) ⟨s.1, L, ↑curr, ↑s.2, 0⟩
      ⟨(syncItems S g L curr s).1, L, 0, ↑(syncItems S g L curr s).2, 0⟩
  | [], s => .refl
  | t :: ts, s => by
    have htake := SyncStep.take (S := S) (g := g) ⟨s.1, L, ↑(t :: ts), ↑s.2, 0⟩ t
      (List.mem_cons_self ..)
    have htake : SyncStep S g ⟨s.1, L, ↑(t :: ts), ↑s.2, 0⟩
        (syncSolo s.1 L ↑ts ↑s.2 t (.next (S.edgeRange t))) := by
      simp only [← Multiset.cons_coe, Multiset.erase_cons_head] at htake
      exact htake
    set s' := syncEdges S g L (S.edgeRange t) s
    have hedges := syncEdges_run (S := S) (g := g) (L := L) (C := ↑ts) (t := t) (S.edgeRange t)
      s.1 s.2
    have hfinish := SyncStep.finish (S := S) (g := g) (syncSolo s'.1 L ↑ts ↑s'.2 t (.next [])) t
      (mem_syncSolo _)
    have hfinish : SyncStep S g (syncSolo s'.1 L ↑ts ↑s'.2 t (.next [])) ⟨s'.1, L, ↑ts, ↑s'.2, 0⟩ := by
      simpa [SyncState.retire, syncSolo] using hfinish
    have hrest := syncItems_run ts s'
    exact .head htake ((hedges.tail hfinish).trans hrest)

end Solo

/-- A serial state between rounds is one the machine reaches from `pushWrap(*next, source)`
with nothing in `curr`, no operator at work, the same labels and level, and the stack's items
in `next`. -/
def SyncSim (S : SyncScheme T) (g : Graph) (source : ℕ) (s : (ℕ → ℕ) × ℕ × List T) : Prop :=
  ∃ st, Relation.ReflTransGen (SyncStep S g) (syncInit source (S.pushWrap source)) st ∧
    st.curr = 0 ∧ st.active = 0 ∧ st.dist = s.1 ∧ st.nextLevel = s.2.1 ∧ st.next = ↑s.2.2

section SerialRun

variable {S : SyncScheme T} {g : Graph} {source : ℕ}

/-- One round of the serial loop is a run of the machine. -/
theorem SyncSim.round {d : ℕ → ℕ} {L : ℕ} {nx : List T} (h : SyncSim S g source (d, L, nx))
    (hne : nx ≠ []) :
    SyncSim S g source ((syncItems S g ((L + 1) % 2 ^ 32) nx (d, [])).1, (L + 1) % 2 ^ 32,
      (syncItems S g ((L + 1) % 2 ^ 32) nx (d, [])).2) := by
  obtain ⟨st, hr, hcurr, hact, hd, hL, hnx⟩ := h
  have hround := SyncStep.round (S := S) (g := g) st hcurr hact
    (by rw [hnx]; exact fun h0 => hne ((Multiset.coe_eq_zero nx).mp h0))
  rw [hd, hL, hnx] at hround
  have hitems := syncItems_run (S := S) (g := g) (L := (L + 1) % 2 ^ 32) nx (d, [])
  exact ⟨_, (hr.tail hround).trans hitems, rfl, rfl, rfl, rfl, rfl⟩

variable (hsize : g.edgeIndData.length < DIST_INFINITY)
include hsize

/-- **When the serial loop returns, the labels are settled.** -/
theorem syncLoop_settled (hS : SyncPushLaw S g S.pushWrap) :
    ∀ (fuel : ℕ) (s : (ℕ → ℕ) × ℕ × List T) (d : ℕ → ℕ), SyncSim S g source s →
      syncLoop S g fuel s = some d → Settled (Hop g) source DIST_INFINITY d
  | 0, _, _, _, h => by cases h
  | fuel + 1, (d', L, nx), d, hsim, h => by
    rw [syncLoop] at h
    split_ifs at h with hempty
    · obtain ⟨st, hr, hcurr, hact, hd, -, hnx⟩ := hsim
      obtain rfl : d' = d := Option.some.inj h
      rw [List.isEmpty_iff.mp hempty] at hnx
      dsimp only at hd
      rw [← hd]
      exact ((syncInv_init hS).run hsize hS hr).settled hcurr hact hnx
    · exact syncLoop_settled hS fuel _ d (hsim.round (fun h0 => hempty (by rw [h0]; rfl))) h

/-- **When the serial `syncAlgo` returns on a graph with fewer than `DIST_INFINITY` nodes, the
labels are settled.** -/
theorem syncSerial_settled (hS : SyncPushLaw S g S.pushWrap) {fuel : ℕ} {d : ℕ → ℕ}
    (h : syncSerial S g source fuel = some d) : Settled (Hop g) source DIST_INFINITY d :=
  syncLoop_settled hsize hS fuel _ d ⟨_, .refl, rfl, rfl, rfl, rfl, rfl⟩ h

end SerialRun

end Galois.Lonestar.BFS
