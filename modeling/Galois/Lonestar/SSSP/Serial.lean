import Galois.Lonestar.SSSP.DeltaStep

/-!
# `serDeltaAlgo` and `dijkstraAlgo` (SSSP.cpp): one thread of `deltaStepAlgo`

The serial algorithms pop an item, skip it when `graph.getData(item.src) < item.dist`, and relax
its edges with `newDist = item.dist + weight`. That is the operator of `deltaStepAlgo` run by one
thread with nothing in between: once the check passed, the item's distance is its node's label
and stays so while its edges are relaxed, so `item.dist + weight` is the `sdata + ew` the
parallel operator loads. `processItem_run` makes one item a run of `Step`; the worklist (the
buckets of `SerialBucketWL`, or the heap) is a worklist of the machine with its items as pool.

* `relaxEdges`, `processItem` -- the body of both loops, over any worklist with a `push`;
* `processItem_run` -- one item is a run of `Step` from a state with no operator at work;
* `serDeltaAlgo` -- the buckets of `SerialBucketWL` drained one after the other, with
  `UpdateRequestIndexer` as bucket function, and `std::abort()` when buckets are left behind;
* `dijkstraAlgo` -- a `MinHeap` popped until empty; `HeapPop` is any pop that hands out an item
  of the heap (`std::pop_heap` hands out a least one, which of equal ones depends on the heap);
* `MachineEnds` -- the machine run from a first push to its end;
* **`serDeltaAlgo_run`**, **`dijkstraAlgo_run`** -- when they return, their distances are those
  of such a run;
* **`serDeltaAlgo_settled`**, **`dijkstraAlgo_settled`** -- so they are settled, as those of
  `deltaStepAlgo`.
-/

namespace Galois.Lonestar.SSSP

open Cusp BFS_SSSP ShortestPaths

variable {T : Type} [DecidableEq T] {W : Type}

/-! ## 1. The serial body -/

section Body

variable (S : PushScheme T) (g : Graph) (push : W → T → W)

/-- The edge loop of `serDeltaAlgo` and `dijkstraAlgo` for an item that passed the check:
`newDist = item.dist + weight` in `uint32_t`; a lower one is stored and `pushWrap(wl, dst,
newDist)` pushes its items one by one. -/
def relaxEdges (item : T) : List ℕ → (ℕ → ℕ) × W → (ℕ → ℕ) × W
  | [], s => s
  | e :: es, (d, wl) =>
    let newDist := (S.dist item + getEdgeData g e) % 2 ^ 32
    if newDist < d (getEdgeDst g e) then
      relaxEdges item es (Function.update d (getEdgeDst g e) newDist,
        (S.pushWrap (getEdgeDst g e) newDist).foldl push wl)
    else relaxEdges item es (d, wl)

/-- One item of the loops of `serDeltaAlgo` and `dijkstraAlgo`:
`if (graph.getData(item.src) < item.dist) continue;`, then its edges. -/
def processItem (item : T) (s : (ℕ → ℕ) × W) : (ℕ → ℕ) × W :=
  if s.1 (S.src item) < S.dist item then s else relaxEdges S g push item (S.edgeRange item) s

end Body

/-! ## 2. One item is a run of the machine -/

/-- The machine with one operator at work. -/
def solo (d : ℕ → ℕ) (pool : Multiset T) (item : T) (p : Phase T) : State T :=
  ⟨d, pool, ⟨item, p⟩ ::ₘ 0⟩

section Solo

variable {S : PushScheme T} {g : Graph} {d : ℕ → ℕ} {P : Multiset T} {t : T}

theorem solo_advance (p q : Phase T) : (solo d P t p).advance ⟨t, p⟩ q = solo d P t q := by
  simp [State.advance, solo]

theorem solo_retire (p : Phase T) : (solo d P t p).retire ⟨t, p⟩ = ⟨d, P, 0⟩ := by
  simp [State.retire, solo]

omit [DecidableEq T] in
theorem mem_solo (p : Phase T) : (⟨t, p⟩ : Activity T) ∈ (solo d P t p).active := by
  simp [solo]

/-- `pushWrap`'s items go to the worklist one after the other. -/
theorem run_push (es : List ℕ) :
    ∀ (ts : List T) (P : Multiset T), Relation.ReflTransGen (Step S g)
      (solo d P t (.push ts es)) (solo d (↑ts + P) t (.push [] es))
  | [], P => by simpa using Relation.ReflTransGen.refl
  | x :: ts, P => by
    have hs := Step.push (S := S) (g := g) (solo d P t (.push (x :: ts) es)) ⟨t, .push (x :: ts) es⟩
      x ts es (mem_solo _) rfl
    have hs : Step S g (solo d P t (.push (x :: ts) es)) (solo d (x ::ₘ P) t (.push ts es)) := by
      simpa [solo, Multiset.erase_cons_head] using hs
    have hrest := run_push es ts (x ::ₘ P)
    rw [Multiset.add_cons, ← Multiset.cons_add, Multiset.cons_coe] at hrest
    exact Relation.ReflTransGen.head hs hrest

end Solo

section Run

variable {S : PushScheme T} {g : Graph} {source : ℕ} (push : W → T → W)
  (contents : W → Multiset T) (hpush : ∀ wl t, contents (push wl t) = t ::ₘ contents wl)

omit [DecidableEq T] in
include hpush in
theorem contents_foldl (ts : List T) (wl : W) :
    contents (ts.foldl push wl) = ↑ts + contents wl := by
  induction ts generalizing wl with
  | nil => simp
  | cons x ts ih =>
    rw [List.foldl_cons, ih, hpush, Multiset.add_cons, ← Multiset.cons_add, Multiset.cons_coe]

variable (hw : ∀ w ∈ g.edgeData, w ≤ 2 ^ 31) (hS : PushLaw S g S.pushWrap)
include hpush hw hS

/-- **The edge loop is a run of the machine**: each edge is a load, an `atomicMin` and the
pushes of `pushWrap`, with `sdata` the item's distance all along. -/
theorem relaxEdges_run {t : T} :
    ∀ (es : List ℕ) (d : ℕ → ℕ) (wl : W) (st : State T), Inv S g source st →
      st = solo d (contents wl) t (.load es) → d (S.src t) = S.dist t →
      ∃ st', Relation.ReflTransGen (Step S g) st st' ∧
        st' = solo (relaxEdges S g push t es (d, wl)).1
          (contents (relaxEdges S g push t es (d, wl)).2) t (.load [])
  | [], d, wl, st, _, hst, _ => ⟨st, .refl, hst⟩
  | e :: es, d, wl, st, hinv, hst, hsrc => by
    subst hst
    -- the load computes `item.dist + weight`, as the label is the item's distance
    have hload : Step S g (solo d (contents wl) t (.load (e :: es)))
        (solo d (contents wl) t (.relax ((d (S.src t) + getEdgeData g e) % 2 ^ 32) e es)) := by
      have h := Step.load (S := S) (g := g) (solo d (contents wl) t (.load (e :: es)))
        ⟨t, .load (e :: es)⟩ e es (mem_solo _) rfl
      rw [solo_advance] at h
      exact h
    rw [hsrc] at hload
    have hinv1 := hinv.step hw hS hload
    have hsum := sum_mod_eq hw hinv1 (S.src t) e
    rw [show (solo d (contents wl) t (.relax ((S.dist t + getEdgeData g e) % 2 ^ 32) e es)
        : State T).dist = d from rfl, hsrc] at hsum
    set nd := (S.dist t + getEdgeData g e) % 2 ^ 32 with hnd
    rw [relaxEdges]
    split_ifs with hlt
    · have hlower := Step.lower (S := S) (g := g) (solo d (contents wl) t (.relax nd e es))
        ⟨t, .relax nd e es⟩ nd e es (mem_solo _) rfl hlt
      have hlower : Step S g (solo d (contents wl) t (.relax nd e es))
          (solo (Function.update d (getEdgeDst g e) nd) (contents wl) t
            (.push (S.pushWrap (getEdgeDst g e) nd) es)) := by
        simpa [solo, Multiset.erase_cons_head] using hlower
      have hpushes := run_push (S := S) (g := g) (d := Function.update d (getEdgeDst g e) nd)
        (t := t) es (S.pushWrap (getEdgeDst g e) nd) (contents wl)
      have hpushed := Step.pushed (S := S) (g := g)
        (solo (Function.update d (getEdgeDst g e) nd)
          (↑(S.pushWrap (getEdgeDst g e) nd) + contents wl) t (.push [] es))
        ⟨t, .push [] es⟩ es (mem_solo _) rfl
      rw [solo_advance] at hpushed
      rw [← contents_foldl push contents hpush] at hpushes hpushed
      have hrun := (Relation.ReflTransGen.head hload (.head hlower hpushes)).tail hpushed
      -- the destination is not the item's node: its label would be below the item's distance
      have hne : getEdgeDst g e ≠ S.src t := by
        intro heq
        rw [heq, hsrc] at hlt
        omega
      obtain ⟨st', hrest, hst'⟩ := relaxEdges_run es _ _ _ (hinv.run hw hS hrun) rfl
        (by rw [Function.update_of_ne hne.symm, hsrc])
      exact ⟨st', hrun.trans hrest, hst'⟩
    · have hkeep := Step.keep (S := S) (g := g) (solo d (contents wl) t (.relax nd e es))
        ⟨t, .relax nd e es⟩ nd e es (mem_solo _) rfl (not_lt.mp hlt)
      rw [solo_advance] at hkeep
      have hrun := Relation.ReflTransGen.head hload (.single hkeep)
      obtain ⟨st', hrest, hst'⟩ := relaxEdges_run es d wl _ (hinv.run hw hS hrun) rfl hsrc
      exact ⟨st', hrun.trans hrest, hst'⟩

/-- **One item of the serial loops is a run of the machine** from a state with no operator at
work and the item in the worklist. -/
theorem processItem_run {st : State T} (hinv : Inv S g source st) (hact : st.active = 0)
    {t : T} (ht : t ∈ st.pool) {wl : W} (hwl : contents wl = st.pool.erase t) :
    ∃ st', Relation.ReflTransGen (Step S g) st st' ∧ st'.active = 0 ∧
      st'.dist = (processItem S g push t (st.dist, wl)).1 ∧
      st'.pool = contents (processItem S g push t (st.dist, wl)).2 := by
  have hpop := Step.pop (S := S) (g := g) st t ht
  rw [hact, ← hwl] at hpop
  have hpop : Step S g st (solo st.dist (contents wl) t .check) := hpop
  rw [processItem]
  dsimp only
  split_ifs with hlt
  · have hskip := Step.skip (S := S) (g := g) (solo st.dist (contents wl) t .check)
      ⟨t, .check⟩ (mem_solo _) rfl hlt
    rw [solo_retire] at hskip
    exact ⟨_, .head hpop (.single hskip), rfl, rfl, rfl⟩
  · have henter := Step.enter (S := S) (g := g) (solo st.dist (contents wl) t .check)
      ⟨t, .check⟩ (mem_solo _) rfl (not_lt.mp hlt)
    rw [solo_advance] at henter
    have hrun := Relation.ReflTransGen.head hpop (.single henter)
    have hinv1 := hinv.run hw hS hrun
    -- the item's node is labelled at most its distance, and the check passed
    have hsrc : st.dist (S.src t) = S.dist t :=
      le_antisymm (hinv.pool t ht).1 (not_lt.mp hlt)
    obtain ⟨st', hedges, rfl⟩ := relaxEdges_run push contents hpush hw hS _ _ _ _ hinv1 rfl hsrc
    have hfinish := Step.finish (S := S) (g := g)
      (solo (relaxEdges S g push t (S.edgeRange t) (st.dist, wl)).1
        (contents (relaxEdges S g push t (S.edgeRange t) (st.dist, wl)).2) t (.load []))
      ⟨t, .load []⟩ (mem_solo _) rfl
    rw [solo_retire] at hfinish
    exact ⟨_, (hrun.trans hedges).tail hfinish, rfl, rfl, rfl⟩

end Run

/-- A serial state is one the machine reaches from the first push `pushWrap(wl, source, 0)`
with no operator at work, the same distances, and the worklist's items as pool. -/
def Simulates (S : PushScheme T) (g : Graph) (source : ℕ) (contents : W → Multiset T)
    (s : (ℕ → ℕ) × W) : Prop :=
  ∃ st, Relation.ReflTransGen (Step S g) (init source (S.pushWrap source 0)) st ∧
    st.active = 0 ∧ st.dist = s.1 ∧ st.pool = contents s.2

/-- The machine can end, from the items `items` of a first push, with nothing queued, no
operator at work and the distances `d`; `deltaStepAlgo` is this from the `"parallel"` push. -/
def MachineEnds (S : PushScheme T) (g : Graph) (source : ℕ) (items : List T) (d : ℕ → ℕ) :
    Prop :=
  ∃ st, Relation.ReflTransGen (Step S g) (init source items) st ∧
    st.pool = 0 ∧ st.active = 0 ∧ st.dist = d

section Ends

variable {S : PushScheme T} {g : Graph} {source : ℕ} {d : ℕ → ℕ}

/-- An end of the machine from a lawful first push is settled. -/
theorem MachineEnds.settled (hw : ∀ w ∈ g.edgeData, w ≤ 2 ^ 31) (hS : PushLaw S g S.pushWrap)
    {push : ℕ → ℕ → List T} (hpush : PushLaw S g push)
    (h : MachineEnds S g source (push source 0) d) : Settled (Adj g) source DIST_INFINITY d := by
  obtain ⟨st, hr, hpool, hact, rfl⟩ := h
  exact ((inv_init hpush).run hw hS hr).settled hpool hact

/-- A serial state with an empty worklist is an end of the machine. -/
theorem Simulates.ends {contents : W → Multiset T} {s : (ℕ → ℕ) × W}
    (h : Simulates S g source contents s) (hempty : contents s.2 = 0) :
    MachineEnds S g source (S.pushWrap source 0) s.1 := by
  obtain ⟨st, hr, hact, hd, hpool⟩ := h
  exact ⟨st, hr, hpool.trans hempty, hact, hd⟩

end Ends

/-! ## 3. `serDeltaAlgo` -/

/-- `UpdateRequestIndexer{stepShift}`: `req.dist >> shift` on 32-bit `unsigned`s (a count of 32
or more is undefined in C++; `UInt32`'s shift, like the hardware's, takes it modulo 32). -/
def UpdateRequestIndexer (shift dist : ℕ) : ℕ := (UInt32.ofNat dist >>> UInt32.ofNat shift).toNat

section SerDelta

variable (S : PushScheme T) (g : Graph) (func : T → ℕ)

/-- The inner `while (!curr.empty())` of `serDeltaAlgo` on the deque `minBucket()` returned:
pop its front, process the item; items pushed into that deque are drained too. -/
def drainLoop (which : Option ℕ) :
    ℕ → (ℕ → ℕ) × SerialBucketWL T → Option ((ℕ → ℕ) × SerialBucketWL T)
  | 0, _ => none
  | fuel + 1, (d, wl) =>
    match wl.popFront which with
    | none => some (d, wl)
    | some (item, wl) =>
      drainLoop which fuel (processItem S g (SerialBucketWL.push func) item (d, wl))

/-- The outer `while (!wl.empty())` of `serDeltaAlgo`, then `if (!wl.allEmpty()) std::abort();`
(`none`, as running out of fuel is). -/
def serDeltaLoop : ℕ → (ℕ → ℕ) × SerialBucketWL T → Option (ℕ → ℕ)
  | 0, _ => none
  | fuel + 1, (d, wl) =>
    if wl.empty then
      if wl.allEmpty then some d else none
    else
      match drainLoop S g func wl.minBucketRef fuel (d, wl) with
      | none => none
      | some (d, wl) => serDeltaLoop fuel (d, wl.goToNextBucket)

/-- `serDeltaAlgo(graph, source, pushWrap, edgeRange)` with delta shift `stepShift`:
`pushWrap(wl, source, 0)` into a `SerialBucketWL` over `UpdateRequestIndexer{stepShift}`, then
the loop. -/
def serDeltaAlgo (source stepShift fuel : ℕ) : Option (ℕ → ℕ) :=
  let func := fun t => UpdateRequestIndexer stepShift (S.dist t)
  serDeltaLoop S g func fuel
    (initDist source, (S.pushWrap source 0).foldl (SerialBucketWL.push func) SerialBucketWL.init)

end SerDelta

section SerDeltaRun

variable {S : PushScheme T} {g : Graph} {source : ℕ} {func : T → ℕ}
  (hw : ∀ w ∈ g.edgeData, w ≤ 2 ^ 31) (hS : PushLaw S g S.pushWrap)

/-- The items of a `SerialBucketWL`. -/
def bucketItems (wl : SerialBucketWL T) : Multiset T := wl.contents

omit [DecidableEq T] in
theorem bucketItems_push (wl : SerialBucketWL T) (t : T) :
    bucketItems (wl.push func t) = t ::ₘ bucketItems wl := by
  rw [bucketItems, bucketItems, Multiset.coe_eq_coe.mpr (SerialBucketWL.contents_push func wl t),
    Multiset.cons_coe]

include hw hS

/-- A popped item is in the pool and the rest of the worklist is the pool without it, so the
item's processing is a run of the machine. -/
theorem Simulates.process {contents : W → Multiset T} {push : W → T → W}
    (hpush : ∀ wl t, contents (push wl t) = t ::ₘ contents wl) {d : ℕ → ℕ} {wl wl' : W}
    {item : T} (h : Simulates S g source contents (d, wl))
    (hpop : contents wl = item ::ₘ contents wl') :
    Simulates S g source contents (processItem S g push item (d, wl')) := by
  obtain ⟨st, hr, hact, rfl, hpool⟩ := h
  have hinv := (inv_init hS).run hw hS hr
  have ht : item ∈ st.pool := by
    rw [hpool, hpop]
    exact Multiset.mem_cons_self _ _
  have hwl : contents wl' = st.pool.erase item := by
    rw [hpool, hpop, Multiset.erase_cons_head]
  obtain ⟨st', hr', hact', hd', hpool'⟩ := processItem_run push contents hpush hw hS hinv hact ht hwl
  exact ⟨st', hr.trans hr', hact', hd', hpool'⟩

theorem drainLoop_sim (which : Option ℕ) :
    ∀ (fuel : ℕ) (s s' : (ℕ → ℕ) × SerialBucketWL T),
      Simulates S g source bucketItems s → drainLoop S g func which fuel s = some s' →
      Simulates S g source bucketItems s'
  | 0, _, _, _, hrun => by cases hrun
  | fuel + 1, (d, wl), s', h, hrun => by
    rw [drainLoop] at hrun
    split at hrun
    · cases hrun
      exact h
    · rename_i item wl' hpop
      have hpop' : bucketItems wl = item ::ₘ bucketItems wl' := by
        rw [bucketItems, bucketItems, Multiset.coe_eq_coe.mpr
          (SerialBucketWL.contents_popFront hpop), Multiset.cons_coe]
      exact drainLoop_sim which fuel _ s' (h.process hw hS bucketItems_push hpop') hrun

/-- **A run of the serial loop that returns is a run of the machine to its end.** -/
theorem serDeltaLoop_ends :
    ∀ (fuel : ℕ) (s : (ℕ → ℕ) × SerialBucketWL T) (d : ℕ → ℕ),
      Simulates S g source bucketItems s → serDeltaLoop S g func fuel s = some d →
      MachineEnds S g source (S.pushWrap source 0) d
  | 0, _, _, _, hrun => by cases hrun
  | fuel + 1, (d0, wl), d, h, hrun => by
    rw [serDeltaLoop] at hrun
    split_ifs at hrun with hempty hall
    · -- `wl.allEmpty()`: nothing is left in any bucket
      cases hrun
      refine h.ends ?_
      show bucketItems wl = 0
      rw [bucketItems, SerialBucketWL.contents_of_allEmpty hall, Multiset.coe_nil]
    · split at hrun
      · cases hrun
      · rename_i d1 wl1 hdrain
        have h1 := drainLoop_sim hw hS _ fuel _ _ h hdrain
        refine serDeltaLoop_ends fuel _ d ?_ hrun
        obtain ⟨st, hr, hact, hd, hpool⟩ := h1
        exact ⟨st, hr, hact, hd, by rw [hpool]; simp [bucketItems,
          SerialBucketWL.contents_goToNextBucket]⟩

omit hw hS in
/-- The first push is what the machine starts from. -/
theorem simulates_init {W : Type} (contents : W → Multiset T) (push : W → T → W)
    (hpush : ∀ wl t, contents (push wl t) = t ::ₘ contents wl) (wl0 : W)
    (h0 : contents wl0 = 0) :
    Simulates S g source contents (initDist source, (S.pushWrap source 0).foldl push wl0) := by
  refine ⟨init source (S.pushWrap source 0), .refl, rfl, rfl, ?_⟩
  rw [contents_foldl push contents hpush, h0, add_zero]
  rfl

end SerDeltaRun

/-- **`serDeltaAlgo` is one thread of the machine**: when it returns, for every delta shift, its
distances are those of a run of `deltaStepAlgo`'s machine from `pushWrap(wl, source, 0)` to its
end. -/
theorem serDeltaAlgo_run {S : PushScheme T} {g : Graph} (hS : PushLaw S g S.pushWrap)
    (hw : ∀ w ∈ g.edgeData, w ≤ 2 ^ 31) {source stepShift fuel : ℕ} {d : ℕ → ℕ}
    (h : serDeltaAlgo S g source stepShift fuel = some d) :
    MachineEnds S g source (S.pushWrap source 0) d :=
  serDeltaLoop_ends hw hS fuel _ d
    (simulates_init bucketItems _ bucketItems_push SerialBucketWL.init rfl) h

/-- **When `serDeltaAlgo` returns, the distances are settled**, for every delta shift. -/
theorem serDeltaAlgo_settled {S : PushScheme T} {g : Graph} (hS : S.Lawful g)
    (hw : ∀ w ∈ g.edgeData, w ≤ 2 ^ 31) {source stepShift fuel : ℕ} {d : ℕ → ℕ}
    (h : serDeltaAlgo S g source stepShift fuel = some d) :
    Settled (Adj g) source DIST_INFINITY d :=
  (serDeltaAlgo_run hS.serial hw h).settled hw hS.serial hS.serial

/-! ## 4. `dijkstraAlgo` -/

/-- The pop of `galois::MinHeap`: `std::pop_heap` hands out a least item under `operator<`, and
which of several equal ones depends on the heap's history, so the model takes any pop that
hands out an item of a nonempty heap together with the others. -/
structure HeapPop (T : Type) where
  pop : List T → T × List T
  perm : ∀ l, l ≠ [] → ((pop l).1 :: (pop l).2).Perm l

section Dijkstra

variable (S : PushScheme T) (g : Graph) (heap : HeapPop T)

/-- The loop `while (!wl.empty()) { item = wl.pop(); ... }` of `dijkstraAlgo`; `wl.push` adds an
item to the heap. -/
def dijkstraLoop : ℕ → (ℕ → ℕ) × List T → Option (ℕ → ℕ)
  | 0, _ => none
  | fuel + 1, (d, wl) =>
    if wl.isEmpty then some d
    else dijkstraLoop fuel (processItem S g (fun h t => h ++ [t]) (heap.pop wl).1 (d, (heap.pop wl).2))

/-- `dijkstraAlgo(graph, source, pushWrap, edgeRange)`: `pushWrap(wl, source, 0)` into an empty
`MinHeap`, then the loop. -/
def dijkstraAlgo (source fuel : ℕ) : Option (ℕ → ℕ) :=
  dijkstraLoop S g heap fuel (initDist source, (S.pushWrap source 0).foldl (fun h t => h ++ [t]) [])

end Dijkstra

/-- The items of the heap. -/
def heapItems (l : List T) : Multiset T := l

omit [DecidableEq T] in
theorem heapItems_push (h : List T) (t : T) : heapItems (h ++ [t]) = t ::ₘ heapItems h := by
  rw [heapItems, heapItems, Multiset.coe_eq_coe.mpr (List.perm_append_singleton t h),
    Multiset.cons_coe]

/-- **A run of the heap loop that returns is a run of the machine to its end.** -/
theorem dijkstraLoop_ends {S : PushScheme T} {g : Graph} {heap : HeapPop T} {source : ℕ}
    (hw : ∀ w ∈ g.edgeData, w ≤ 2 ^ 31) (hS : PushLaw S g S.pushWrap) :
    ∀ (fuel : ℕ) (s : (ℕ → ℕ) × List T) (d : ℕ → ℕ),
      Simulates S g source heapItems s → dijkstraLoop S g heap fuel s = some d →
      MachineEnds S g source (S.pushWrap source 0) d
  | 0, _, _, _, hrun => by cases hrun
  | fuel + 1, (d0, wl), d, h, hrun => by
    rw [dijkstraLoop] at hrun
    split_ifs at hrun with hempty
    · cases hrun
      refine h.ends ?_
      show heapItems wl = 0
      rw [heapItems, List.isEmpty_iff.mp hempty, Multiset.coe_nil]
    · -- the heap hands out one of its items
      have hpop : heapItems wl = (heap.pop wl).1 ::ₘ heapItems (heap.pop wl).2 := by
        rw [heapItems, heapItems, Multiset.cons_coe, Multiset.coe_eq_coe]
        exact (heap.perm wl fun hnil => by simp [hnil] at hempty).symm
      exact dijkstraLoop_ends hw hS fuel _ d
        (h.process hw hS heapItems_push hpop) hrun

/-- **`dijkstraAlgo` is one thread of the machine**: when it returns, whichever least item each
pop hands out, its distances are those of a run of the machine from `pushWrap(wl, source, 0)`
to its end. -/
theorem dijkstraAlgo_run {S : PushScheme T} {g : Graph} (heap : HeapPop T)
    (hS : PushLaw S g S.pushWrap) (hw : ∀ w ∈ g.edgeData, w ≤ 2 ^ 31) {source fuel : ℕ}
    {d : ℕ → ℕ} (h : dijkstraAlgo S g heap source fuel = some d) :
    MachineEnds S g source (S.pushWrap source 0) d :=
  dijkstraLoop_ends hw hS fuel _ d (simulates_init heapItems _ heapItems_push [] rfl) h

/-- **When `dijkstraAlgo` returns, the distances are settled**, whichever least item each pop
hands out. -/
theorem dijkstraAlgo_settled {S : PushScheme T} {g : Graph} (heap : HeapPop T)
    (hS : S.Lawful g) (hw : ∀ w ∈ g.edgeData, w ≤ 2 ^ 31) {source fuel : ℕ} {d : ℕ → ℕ}
    (h : dijkstraAlgo S g heap source fuel = some d) :
    Settled (Adj g) source DIST_INFINITY d :=
  (dijkstraAlgo_run heap hS.serial hw h).settled hw hS.serial hS.serial

end Galois.Lonestar.SSSP
