import Mathlib.Data.List.Nodup
import Galois.DynamicBitset

/-!
# CuSP: reading the edges (NewGeneric.h, edgeInspection / assignEdges)

`NewDistGraphGeneric`'s constructor, communication path, first phase: every host reads the nodes
`gid2host` gives it and their edges, and decides for each edge which host keeps it.

* `InputGraph`, `Policy`, `ReaderSplit` -- the graph as `BufferedGraph` reads it, the policy
  methods the constructor calls, and the reader assignment (contiguous ranges in host order);
* `owner`, `ownedEdges`, `mirrorBit` -- what the policy decides, read on the input graph: the host
  of an edge, a host's edges of a node, and the nodes a host must mirror;
* `assignEdge`, `assignEdges` -- the inspection loop: per host, the edge count of every read
  node (`numOutgoingEdges`), the destinations that need a mirror there (`hasIncomingEdge`, a
  bitset allocated by the first edge that needs it) and the hosts that get any edge.

`inspectHolds_step` is what one edge does to the loop's data, `inspectHolds_foldl` the loop, and
`assignEdges_spec` says what a reader's inspection holds in terms of the input graph
(`Inspected`).
-/

namespace Galois.Cusp

open Compaction

/-! ## 1. The input -/

/-- An input graph as `BufferedGraph` loads it from a `.gr` file: `size` nodes and every node's
out-edges, destination and data, in file order. The file stores node ids in 32 bits, so the
code's `uint32_t` casts of them change nothing and ids are plain numbers here. -/
structure InputGraph (E : Type) where
  size : ℕ
  edges : ℕ → List (ℕ × E)
  dst_lt : ∀ n < size, ∀ e ∈ edges n, e.1 < size

/-- The methods of the partitioning policy the constructor calls: the master of a node, the
host that keeps an edge (from the source, the destination and the source's out-degree), and
whether edges stay with the host that read them. -/
structure Policy where
  retrieveMaster : ℕ → ℕ
  getEdgeOwner : ℕ → ℕ → ℕ → ℕ
  noCommunication : Bool

/-- `gid2host` splits the nodes `[0, size)` among the hosts in contiguous ranges, in host
order. -/
structure ReaderSplit (size numHosts : ℕ) (gid2host : ℕ → ℕ × ℕ) : Prop where
  pos : 0 < numHosts
  first : (gid2host 0).1 = 0
  next : ∀ h, h + 1 < numHosts → (gid2host h).2 = (gid2host (h + 1)).1
  le : ∀ h < numHosts, (gid2host h).1 ≤ (gid2host h).2
  last : (gid2host (numHosts - 1)).2 = size

/-- The nodes host `h` reads, `[gid2host[h].first, gid2host[h].second)`. -/
def hostRange (gid2host : ℕ → ℕ × ℕ) (h : ℕ) : List ℕ :=
  List.range' (gid2host h).1 ((gid2host h).2 - (gid2host h).1)

/-- `ReadMasterAssignment::retrieveMaster`: the first host whose read range holds `gid`, or
`numHosts` (after a failed `assert`) if none does. -/
def readMaster (gid2host : ℕ → ℕ × ℕ) (numHosts gid : ℕ) : ℕ :=
  ((List.range numHosts).find? fun h => (gid2host h).1 ≤ gid && gid < (gid2host h).2).getD numHosts

namespace ReaderSplit

variable {size numHosts : ℕ} {gid2host : ℕ → ℕ × ℕ}

/-- Ranges end no earlier than they start, and each host's range ends where the next starts. -/
theorem snd_le_snd (hs : ReaderSplit size numHosts gid2host) {h k : ℕ} (hhk : h ≤ k)
    (hk : k < numHosts) : (gid2host h).2 ≤ (gid2host k).2 := by
  obtain ⟨n, rfl⟩ := Nat.exists_eq_add_of_le hhk
  induction n with
  | zero => exact Nat.le_refl _
  | succ n ih =>
    have hnext := hs.next (h + n) (by omega)
    have hle := hs.le (h + n + 1) (by omega)
    have := ih (by omega) (by omega)
    rw [← Nat.add_assoc]
    omega

theorem snd_le (hs : ReaderSplit size numHosts gid2host) {h : ℕ} (hh : h < numHosts) :
    (gid2host h).2 ≤ size := by
  have := hs.snd_le_snd (Nat.le_sub_one_of_lt hh) (Nat.sub_one_lt_of_lt hh)
  rw [hs.last] at this
  exact this

/-- An earlier host's range ends before a later one's starts. -/
theorem snd_le_fst (hs : ReaderSplit size numHosts gid2host) {h k : ℕ} (hhk : h < k)
    (hk : k < numHosts) : (gid2host h).2 ≤ (gid2host k).1 := by
  have hprev := hs.snd_le_snd (Nat.le_sub_one_of_lt hhk) (by omega : k - 1 < numHosts)
  have hnext := hs.next (k - 1) (by omega)
  rw [Nat.sub_add_cancel (by omega)] at hnext
  omega

/-- **The hosts' ranges, in host order, are the nodes `[0, size)`.** -/
theorem flatMap_hostRange (hs : ReaderSplit size numHosts gid2host) :
    (List.range numHosts).flatMap (hostRange gid2host) = List.range size := by
  -- the first `k + 1` hosts read `[0, gid2host[k].second)`
  have hpre : ∀ k, k < numHosts →
      (List.range (k + 1)).flatMap (hostRange gid2host) = List.range' 0 (gid2host k).2 := by
    intro k
    induction k with
    | zero =>
      intro _
      rw [List.range_one, List.flatMap_singleton, hostRange, hs.first, Nat.sub_zero]
    | succ k ih =>
      intro hk
      have hnext := hs.next k hk
      have hle := hs.le (k + 1) hk
      have happ := @List.range'_append_1 0 (gid2host k).2 ((gid2host (k + 1)).2 - (gid2host k).2)
      rw [Nat.zero_add, Nat.add_sub_cancel' (hnext ▸ hle)] at happ
      rw [List.range_succ, List.flatMap_append, ih (by omega), List.flatMap_singleton, hostRange,
        ← hnext, happ]
  have hlast := hpre (numHosts - 1) (Nat.sub_one_lt_of_lt hs.pos)
  rw [Nat.sub_add_cancel hs.pos, hs.last] at hlast
  rw [hlast, List.range_eq_range']

theorem mem_hostRange {h g : ℕ} :
    g ∈ hostRange gid2host h ↔ (gid2host h).1 ≤ g ∧ g < (gid2host h).2 := by
  rw [hostRange, List.mem_range'_1]
  omega

/-- **The read master of a node is the host that reads it.** -/
theorem readMaster_eq (hs : ReaderSplit size numHosts gid2host) {h g : ℕ} (hh : h < numHosts)
    (hg : g ∈ hostRange gid2host h) : readMaster gid2host numHosts g = h := by
  rw [mem_hostRange] at hg
  have hsplit : List.range numHosts = List.range h ++ h :: List.range' (h + 1) (numHosts - h - 1) := by
    have hn : h + (numHosts - h - 1 + 1) = numHosts := by omega
    have happ := @List.range'_append_1 0 h (numHosts - h - 1 + 1)
    rw [List.range'_succ, Nat.zero_add, hn] at happ
    rw [List.range_eq_range', List.range_eq_range', happ]
  have hnone : (List.range h).find? (fun h' => (gid2host h').1 ≤ g && g < (gid2host h').2) = none := by
    rw [List.find?_eq_none]
    intro h' hh'
    have hlt := List.mem_range.mp hh'
    have := hs.snd_le_fst hlt hh
    simp only [Bool.and_eq_true, decide_eq_true_eq, not_and, Nat.not_lt]
    intro _
    omega
  rw [readMaster, hsplit, List.find?_append, hnone, Option.none_or, List.find?_cons_of_pos
    (by simpa using hg), Option.getD_some]

/-- **A per-reader run over the read ranges, in host order, is one run over the nodes**, each
node taken with its reader. -/
theorem flatMap_hostRange_filter_map {β : Type*} (hs : ReaderSplit size numHosts gid2host)
    (p : ℕ → ℕ → Bool) (F : ℕ → ℕ → β) :
    (List.range numHosts).flatMap (fun h => ((hostRange gid2host h).filter (p h)).map (F h)) =
      ((List.range size).filter fun g => p (readMaster gid2host numHosts g) g).map fun g =>
        F (readMaster gid2host numHosts g) g := by
  rw [← hs.flatMap_hostRange, List.filter_flatMap, List.map_flatMap]
  refine List.flatMap_congr fun h hh => ?_
  have hr : ∀ g ∈ hostRange gid2host h, readMaster gid2host numHosts g = h :=
    fun g hg => hs.readMaster_eq (List.mem_range.mp hh) hg
  have hf : (hostRange gid2host h).filter (fun g => p (readMaster gid2host numHosts g) g) =
      (hostRange gid2host h).filter (p h) := List.filter_congr fun g hg => by rw [hr g hg]
  rw [hf]
  exact List.map_congr_left fun g hg => by rw [hr g (List.mem_of_mem_filter hg)]

theorem flatMap_hostRange_filter (hs : ReaderSplit size numHosts gid2host)
    (p : ℕ → ℕ → Bool) :
    (List.range numHosts).flatMap (fun h => (hostRange gid2host h).filter (p h)) =
      (List.range size).filter fun g => p (readMaster gid2host numHosts g) g := by
  have h := hs.flatMap_hostRange_filter_map p fun _ g => g
  simp only [List.map_id'] at h
  exact h

end ReaderSplit

variable {E : Type}

/-- The host that keeps edge `(src, dst)`: `getEdgeOwner(src, dst, outdeg(src))`. -/
def owner (G : InputGraph E) (P : Policy) (src dst : ℕ) : ℕ :=
  P.getEdgeOwner src dst (G.edges src).length

/-- The edges of `src` that host `h` keeps, in file order. -/
def ownedEdges (G : InputGraph E) (P : Policy) (h src : ℕ) : List (ℕ × E) :=
  (G.edges src).filter fun e => owner G P src e.1 == h

/-- Among the edges read from `[lo, hi)`, one that host `h` keeps points at `d`, whose master is
another host: `h` needs a mirror of `d`. -/
def mirrorBit (G : InputGraph E) (P : Policy) (lo hi h d : ℕ) : Bool :=
  (List.range' lo (hi - lo)).any fun src =>
    (ownedEdges G P h src).any fun e => e.1 == d && P.retrieveMaster d != h

/-! ## 2. The inspection loop -/

/-- A reader's inspection data: per host, the number of edges it gets from each read node,
the nodes that need a mirror there (allocated on first use, as `indicatorVars` records), and the
hosts that get any edge. -/
structure InspectState where
  numOutgoingEdges : List (List ℕ)
  hasIncomingEdge : List DynamicBitSet
  indicatorVars : List Bool
  hostHasOutgoing : DynamicBitSet

/-- What `edgeInspection` sets up before `assignEdges`: zero counts for the `numRead` read
nodes, empty bitsets, and no host with edges. -/
def InspectState.init (numHosts numRead : ℕ) : InspectState where
  numOutgoingEdges := List.replicate numHosts (List.replicate numRead 0)
  hasIncomingEdge := List.replicate numHosts ⟨[], 0⟩
  indicatorVars := List.replicate numHosts false
  hostHasOutgoing := ((⟨[], 0⟩ : DynamicBitSet).resize numHosts).reset

/-- The body of `assignEdges`' loop for the edge `(src, dst)` of a node with `numEdgesL` edges:
count it for the host that keeps it, and if that host is not the destination's master, mark the
destination in the host's bitset, allocating the bitset first if no edge has needed it yet. -/
def assignEdge (P : Policy) (globalNodes globalOffset src numEdgesL : ℕ) (st : InspectState)
    (dst : ℕ) : InspectState :=
  let hostBelongs := P.getEdgeOwner src dst numEdgesL
  let st : InspectState := { st with
    numOutgoingEdges :=
      st.numOutgoingEdges.modify hostBelongs fun v => v.modify (src - globalOffset) (· + 1)
    hostHasOutgoing := st.hostHasOutgoing.set hostBelongs }
  if hostBelongs ≠ P.retrieveMaster dst then
    let st : InspectState :=
      if st.indicatorVars.getD hostBelongs false then st
      else { st with
        hasIncomingEdge :=
          st.hasIncomingEdge.modify hostBelongs fun b => (b.resize globalNodes).reset
        indicatorVars := st.indicatorVars.set hostBelongs true }
    { st with hasIncomingEdge := st.hasIncomingEdge.modify hostBelongs fun b => b.set dst }
  else st

/-- `assignEdges` with one edge-state round: every edge of every node read, `[lo, hi)`. The
`do_all` over the nodes updates counters and sets bits, which commute, so the sequential loop
gives the state of every interleaving. -/
def assignEdges (G : InputGraph E) (P : Policy) (lo hi : ℕ) (st : InspectState) :
    InspectState :=
  (List.range' lo (hi - lo)).foldl
    (fun st src =>
      ((G.edges src).map Prod.fst).foldl (assignEdge P G.size lo src (G.edges src).length) st)
    st

/-! ## 3. What one edge changes -/

section AssignEdge

variable (P : Policy) (globalNodes globalOffset src numEdgesL : ℕ) (st : InspectState) (dst : ℕ)

theorem assignEdge_numOutgoingEdges :
    (assignEdge P globalNodes globalOffset src numEdgesL st dst).numOutgoingEdges =
      st.numOutgoingEdges.modify (P.getEdgeOwner src dst numEdgesL)
        fun v => v.modify (src - globalOffset) (· + 1) := by
  unfold assignEdge
  dsimp only
  split
  · split <;> rfl
  · rfl

theorem assignEdge_hostHasOutgoing :
    (assignEdge P globalNodes globalOffset src numEdgesL st dst).hostHasOutgoing =
      st.hostHasOutgoing.set (P.getEdgeOwner src dst numEdgesL) := by
  unfold assignEdge
  dsimp only
  split
  · split <;> rfl
  · rfl

theorem length_assignEdge_indicatorVars :
    (assignEdge P globalNodes globalOffset src numEdgesL st dst).indicatorVars.length =
      st.indicatorVars.length := by
  unfold assignEdge
  dsimp only
  split
  · split <;> simp
  · rfl

theorem length_assignEdge_hasIncomingEdge :
    (assignEdge P globalNodes globalOffset src numEdgesL st dst).hasIncomingEdge.length =
      st.hasIncomingEdge.length := by
  unfold assignEdge
  dsimp only
  split
  · split <;> simp
  · rfl

/-- A host's allocation flag is raised by the first edge it keeps that needs a mirror. -/
theorem assignEdge_indicatorVars {o : ℕ} (ho : o < st.indicatorVars.length) :
    (assignEdge P globalNodes globalOffset src numEdgesL st dst).indicatorVars.getD o false =
      (st.indicatorVars.getD o false ||
        (P.getEdgeOwner src dst numEdgesL == o &&
          P.getEdgeOwner src dst numEdgesL != P.retrieveMaster dst)) := by
  unfold assignEdge
  dsimp only
  by_cases hm : P.getEdgeOwner src dst numEdgesL = P.retrieveMaster dst
  · rw [if_neg (not_not.mpr hm)]
    simp [hm]
  · rw [if_pos hm]
    split
    · rename_i hset
      by_cases hbo : P.getEdgeOwner src dst numEdgesL = o
      · subst hbo
        rw [hset, Bool.true_or]
      · simp [hbo]
    · rename_i hset
      dsimp only
      rw [getD_set_of_lt ho]
      by_cases hbo : P.getEdgeOwner src dst numEdgesL = o
      · subst hbo
        simp [hm]
      · simp [hbo]

/-- A host's bitset changes only when it keeps the edge and is not the destination's master:
then it is allocated if it was not, and the destination's bit is set. -/
theorem assignEdge_hasIncomingEdge {o : ℕ} (ho : o < st.hasIncomingEdge.length) :
    (assignEdge P globalNodes globalOffset src numEdgesL st dst).hasIncomingEdge.getD o ⟨[], 0⟩ =
      if P.getEdgeOwner src dst numEdgesL = o ∧ o ≠ P.retrieveMaster dst then
        (if st.indicatorVars.getD o false then st.hasIncomingEdge.getD o ⟨[], 0⟩
          else ((st.hasIncomingEdge.getD o ⟨[], 0⟩).resize globalNodes).reset).set dst
      else st.hasIncomingEdge.getD o ⟨[], 0⟩ := by
  unfold assignEdge
  dsimp only
  by_cases hm : P.getEdgeOwner src dst numEdgesL = P.retrieveMaster dst
  · -- the destination's master keeps the edge: no bitset changes
    rw [if_neg (not_not.mpr hm), if_neg (fun h => h.2 (h.1 ▸ hm))]
  rw [if_pos hm]
  have hlen : o < (st.hasIncomingEdge.modify (P.getEdgeOwner src dst numEdgesL)
      fun b => (b.resize globalNodes).reset).length := by simpa using ho
  by_cases hset : st.indicatorVars.getD (P.getEdgeOwner src dst numEdgesL) false = true
  · rw [if_pos hset]
    dsimp only
    rw [getD_modify ho]
    by_cases hbo : P.getEdgeOwner src dst numEdgesL = o
    · subst hbo
      rw [if_pos rfl, if_pos (And.intro rfl hm), if_pos hset]
    · rw [if_neg hbo, if_neg (fun h => hbo h.1)]
  · rw [if_neg hset]
    dsimp only
    rw [getD_modify hlen, getD_modify ho]
    by_cases hbo : P.getEdgeOwner src dst numEdgesL = o
    · subst hbo
      rw [if_pos rfl, if_pos rfl, if_pos (And.intro rfl hm), if_neg hset]
    · rw [if_neg hbo, if_neg hbo, if_neg (fun h => hbo h.1)]

end AssignEdge

/-! ## 4. The inspection loop, edge by edge -/

/-- The edges `(src, dst)` read from `[lo, hi)`, in loop order. -/
def readPairs (G : InputGraph E) (lo hi : ℕ) : List (ℕ × ℕ) :=
  (List.range' lo (hi - lo)).flatMap fun src => (G.edges src).map fun e => (src, e.1)

/-- `assignEdges` is one loop over the pairs it reads. -/
theorem assignEdges_eq_foldl (G : InputGraph E) (P : Policy) (lo hi : ℕ) (st : InspectState) :
    assignEdges G P lo hi st =
      (readPairs G lo hi).foldl
        (fun st q => assignEdge P G.size lo q.1 (G.edges q.1).length st q.2) st := by
  unfold assignEdges readPairs
  generalize List.range' lo (hi - lo) = srcs
  induction srcs generalizing st with
  | nil => rfl
  | cons src srcs ih =>
    rw [List.foldl_cons, ih, List.flatMap_cons, List.foldl_append, List.foldl_map,
      List.foldl_map]

/-- What a reader's inspection data says once the edges `ps` are processed: the counts of the
pairs per host and read node, the hosts that get any, and for every host whether its bitset is
allocated and which destinations it holds. -/
structure InspectHolds (G : InputGraph E) (P : Policy) (numHosts lo hi : ℕ) (ps : List (ℕ × ℕ))
    (st : InspectState) : Prop where
  counts_length : st.numOutgoingEdges.length = numHosts
  counts : ∀ o < numHosts, (st.numOutgoingEdges.getD o []).length = hi - lo ∧
    ∀ i < hi - lo, (st.numOutgoingEdges.getD o []).getD i 0 =
      ps.countP fun q => q.1 == lo + i && owner G P q.1 q.2 == o
  outgoing : st.hostHasOutgoing.Holds numHosts fun o => ps.any fun q => owner G P q.1 q.2 == o
  incoming_length : st.hasIncomingEdge.length = numHosts
  indicator_length : st.indicatorVars.length = numHosts
  indicator : ∀ o < numHosts, st.indicatorVars.getD o false =
    ps.any fun q => owner G P q.1 q.2 == o && P.retrieveMaster q.2 != o
  incoming : ∀ o < numHosts, st.indicatorVars.getD o false = true →
    (st.hasIncomingEdge.getD o ⟨[], 0⟩).Holds G.size
      fun d => ps.any fun q => q.2 == d && owner G P q.1 q.2 == o && P.retrieveMaster d != o
  empty : ∀ o < numHosts, st.indicatorVars.getD o false = false →
    st.hasIncomingEdge.getD o ⟨[], 0⟩ = ⟨[], 0⟩

section Loop

variable (G : InputGraph E) (P : Policy) (numHosts lo hi : ℕ)

theorem inspectHolds_init :
    InspectHolds G P numHosts lo hi [] (InspectState.init numHosts (hi - lo)) where
  counts_length := by simp [InspectState.init]
  counts o ho := by
    refine ⟨by simp [InspectState.init, ho], fun i hi => ?_⟩
    simp [InspectState.init, ho, hi]
  outgoing := (DynamicBitSet.holds_resize _ numHosts).reset.congr fun _ _ => by simp
  incoming_length := by simp [InspectState.init]
  indicator_length := by simp [InspectState.init]
  indicator o ho := by simp [InspectState.init, ho]
  incoming o ho h := by simp [InspectState.init, ho] at h
  empty o ho _ := by simp [InspectState.init, ho]

variable {G P numHosts lo hi}

/-- **One edge keeps the inspection data right.** -/
theorem inspectHolds_step {ps : List (ℕ × ℕ)} {st : InspectState}
    (hinv : InspectHolds G P numHosts lo hi ps st) {src dst : ℕ} (hsrc : lo ≤ src ∧ src < hi)
    (hown : owner G P src dst < numHosts) (hdst : dst < G.size) :
    InspectHolds G P numHosts lo hi (ps ++ [(src, dst)])
      (assignEdge P G.size lo src (G.edges src).length st dst) := by
  have hsame : P.getEdgeOwner src dst (G.edges src).length = owner G P src dst := rfl
  refine ⟨?_, fun o ho => ?_, ?_, ?_, ?_, fun o ho => ?_, fun o ho hset => ?_, fun o ho hset => ?_⟩
  · rw [assignEdge_numOutgoingEdges, List.length_modify, hinv.counts_length]
  · -- the count of the edge's host and source goes up by one
    obtain ⟨hlen, hcnt⟩ := hinv.counts o ho
    rw [assignEdge_numOutgoingEdges, hsame,
      getD_modify (by rw [hinv.counts_length]; exact ho)]
    by_cases hoo : owner G P src dst = o
    · subst hoo
      rw [if_pos rfl]
      refine ⟨by rw [List.length_modify, hlen], fun i hi => ?_⟩
      rw [getD_modify (by rw [hlen]; exact hi), hcnt i hi, List.countP_append]
      by_cases hsi : src - lo = i
      · rw [if_pos hsi]
        have hsrc' : src = lo + i := by omega
        simp [hsrc']
      · rw [if_neg hsi]
        have hsrc' : src ≠ lo + i := by omega
        simp [hsrc']
    · rw [if_neg hoo]
      refine ⟨hlen, fun i hi => ?_⟩
      rw [hcnt i hi, List.countP_append]
      simp [hoo]
  · -- the edge's host gets an edge
    rw [assignEdge_hostHasOutgoing, hsame]
    refine (hinv.outgoing.set hown).congr fun o _ => ?_
    rw [List.any_append]
    by_cases hoo : o = owner G P src dst
    · simp [hoo]
    · have h1 : (o == owner G P src dst) = false := beq_eq_false_iff_ne.mpr hoo
      have h2 : (owner G P src dst == o) = false := beq_eq_false_iff_ne.mpr (Ne.symm hoo)
      simp [h1, h2]
  · rw [length_assignEdge_hasIncomingEdge, hinv.incoming_length]
  · rw [length_assignEdge_indicatorVars, hinv.indicator_length]
  · rw [assignEdge_indicatorVars _ _ _ _ _ _ _ (by rw [hinv.indicator_length]; exact ho),
      hinv.indicator o ho, List.any_append, hsame]
    by_cases hoo : owner G P src dst = o
    · subst hoo
      simp [bne_comm]
    · have h1 : (owner G P src dst == o) = false := beq_eq_false_iff_ne.mpr hoo
      simp [h1]
  · -- a set allocation flag: the bitset was allocated before, or by this edge
    rw [assignEdge_indicatorVars _ _ _ _ _ _ _ (by rw [hinv.indicator_length]; exact ho),
      hsame] at hset
    rw [assignEdge_hasIncomingEdge _ _ _ _ _ _ _ (by rw [hinv.incoming_length]; exact ho),
      hsame]
    by_cases hnew : owner G P src dst = o ∧ o ≠ P.retrieveMaster dst
    · obtain ⟨hoo, hm⟩ := hnew
      subst hoo
      rw [if_pos ⟨rfl, hm⟩]
      by_cases hold : st.indicatorVars.getD (owner G P src dst) false = true
      · rw [if_pos hold]
        refine ((hinv.incoming _ ho hold).set hdst).congr fun d _ => ?_
        rw [List.any_append]
        by_cases hd : d = dst
        · subst hd
          simp [Ne.symm hm]
        · have h1 : (d == dst) = false := beq_eq_false_iff_ne.mpr hd
          have h2 : (dst == d) = false := beq_eq_false_iff_ne.mpr (Ne.symm hd)
          simp [h1, h2]
      · rw [if_neg hold, hinv.empty _ ho (by simpa using hold)]
        refine (((DynamicBitSet.holds_resize _ G.size).reset).set hdst).congr fun d _ => ?_
        have hnone := hinv.indicator _ ho
        rw [Bool.not_eq_true] at hold
        rw [hold] at hnone
        rw [List.any_append]
        -- no earlier edge of this host needed a mirror at all
        have hno : (ps.any fun q => q.2 == d && owner G P q.1 q.2 == owner G P src dst &&
            P.retrieveMaster d != owner G P src dst) = false := by
          rw [List.any_eq_false]
          intro q hq hq'
          have hq2 := (List.any_eq_false.mp hnone.symm) q hq
          simp only [Bool.and_eq_true, beq_iff_eq, bne_iff_ne, ne_eq] at hq' hq2
          obtain ⟨⟨hqd, hqo⟩, hqm⟩ := hq'
          exact hq2 ⟨hqo, by rw [hqd]; exact hqm⟩
        by_cases hd : d = dst
        · subst hd
          simp [Ne.symm hm, hno]
        · have h1 : (d == dst) = false := beq_eq_false_iff_ne.mpr hd
          have h2 : (dst == d) = false := beq_eq_false_iff_ne.mpr (Ne.symm hd)
          simp [h1, h2, hno]
    · rw [if_neg hnew]
      have hold : st.indicatorVars.getD o false = true := by
        by_contra hc
        rw [Bool.not_eq_true] at hc
        rw [hc] at hset
        simp only [Bool.false_or, Bool.and_eq_true, beq_iff_eq, bne_iff_ne, ne_eq] at hset
        exact hnew ⟨hset.1, fun h => hset.2 (hset.1 ▸ h)⟩
      refine (hinv.incoming o ho hold).congr fun d _ => ?_
      rw [List.any_append]
      by_cases hdd : d = dst
      · subst hdd
        by_cases hoo : owner G P src d = o
        · subst hoo
          have hm : P.retrieveMaster d = owner G P src d := by
            by_contra h
            exact hnew ⟨rfl, Ne.symm h⟩
          simp [hm]
        · simp [hoo]
      · have h2 : (dst == d) = false := beq_eq_false_iff_ne.mpr (Ne.symm hdd)
        simp [h2]
  · -- a clear allocation flag: nothing was allocated, by this edge either
    rw [assignEdge_indicatorVars _ _ _ _ _ _ _ (by rw [hinv.indicator_length]; exact ho),
      Bool.or_eq_false_iff] at hset
    rw [assignEdge_hasIncomingEdge _ _ _ _ _ _ _ (by rw [hinv.incoming_length]; exact ho),
      hsame]
    have hnew : ¬ (owner G P src dst = o ∧ o ≠ P.retrieveMaster dst) := by
      rintro ⟨rfl, hm⟩
      simp [hsame, hm] at hset
    rw [if_neg hnew, hinv.empty o ho hset.1]

end Loop

/-! ## 5. The whole loop -/

section Run

variable {G : InputGraph E} {P : Policy} {numHosts lo hi : ℕ}

/-- **The inspection data stays right over any run of edges** read from `[lo, hi)`: the step
lemma, by induction on the edges still to process. -/
theorem inspectHolds_foldl {ps : List (ℕ × ℕ)} {st : InspectState}
    (hinv : InspectHolds G P numHosts lo hi ps st) (qs : List (ℕ × ℕ))
    (hqs : ∀ q ∈ qs, (lo ≤ q.1 ∧ q.1 < hi) ∧ owner G P q.1 q.2 < numHosts ∧ q.2 < G.size) :
    InspectHolds G P numHosts lo hi (ps ++ qs)
      (qs.foldl (fun st q => assignEdge P G.size lo q.1 (G.edges q.1).length st q.2) st) := by
  induction qs generalizing ps st with
  | nil => simpa using hinv
  | cons q qs ih =>
    obtain ⟨hq, hown, hdst⟩ := hqs q List.mem_cons_self
    rw [List.foldl_cons, ← List.singleton_append, ← List.append_assoc]
    exact ih (inspectHolds_step hinv hq hown hdst) fun q' hq' =>
      hqs q' (List.mem_cons_of_mem _ hq')

theorem mem_readPairs {q : ℕ × ℕ} :
    q ∈ readPairs G lo hi ↔ (lo ≤ q.1 ∧ q.1 < hi) ∧ ∃ e ∈ G.edges q.1, e.1 = q.2 := by
  obtain ⟨s, d⟩ := q
  simp only [readPairs, List.mem_flatMap, List.mem_range'_1, List.mem_map, Prod.mk.injEq]
  constructor
  · rintro ⟨src, hsrc, e, he, rfl, rfl⟩
    exact ⟨by omega, e, he, rfl⟩
  · rintro ⟨hs, e, he, rfl⟩
    exact ⟨s, by omega, e, he, rfl, rfl⟩

/-- The pairs of one read node kept by one host are that host's edges of the node. -/
theorem countP_readPairs {i : ℕ} (hlt : i < hi - lo) (o : ℕ) :
    (readPairs G lo hi).countP (fun q => q.1 == lo + i && owner G P q.1 q.2 == o) =
      (ownedEdges G P o (lo + i)).length := by
  have hmem : lo + i ∈ List.range' lo (hi - lo) := List.mem_range'_1.mpr (by omega)
  rw [readPairs, List.countP_flatMap,
    List.sum_map_eq_nsmul_single (lo + i) _ fun src hne _ => ?_,
    List.count_eq_one_of_mem List.nodup_range' hmem, one_nsmul]
  · rw [Function.comp_apply, List.countP_map, ownedEdges, List.countP_eq_length_filter]
    simp [Function.comp_def]
  · -- the pairs of any other node do not count
    simp [List.countP_map, Function.comp_def, hne]

theorem any_owner_readPairs (o : ℕ) :
    (readPairs G lo hi).any (fun q => owner G P q.1 q.2 == o) =
      (List.range' lo (hi - lo)).any fun src => !(ownedEdges G P o src).isEmpty := by
  rw [Bool.eq_iff_iff, List.any_eq_true, List.any_eq_true]
  constructor
  · rintro ⟨⟨s, d⟩, hq, ho⟩
    obtain ⟨hs, e, he, rfl⟩ := mem_readPairs.mp hq
    have hown : e ∈ ownedEdges G P o s := List.mem_filter.mpr ⟨he, by simpa using ho⟩
    refine ⟨s, List.mem_range'_1.mpr (by omega), ?_⟩
    simpa [List.isEmpty_iff] using List.ne_nil_of_mem hown
  · rintro ⟨s, hs, hne⟩
    obtain ⟨e, he⟩ := List.exists_mem_of_ne_nil _ (by simpa [List.isEmpty_iff] using hne)
    obtain ⟨he, ho⟩ := List.mem_filter.mp he
    have hs' := List.mem_range'_1.mp hs
    exact ⟨(s, e.1), mem_readPairs.mpr ⟨by omega, e, he, rfl⟩, by simpa using ho⟩

theorem any_mirror_readPairs (o d : ℕ) :
    (readPairs G lo hi).any
        (fun q => q.2 == d && owner G P q.1 q.2 == o && P.retrieveMaster d != o) =
      mirrorBit G P lo hi o d := by
  rw [Bool.eq_iff_iff, mirrorBit, List.any_eq_true, List.any_eq_true]
  simp only [Bool.and_eq_true, beq_iff_eq, bne_iff_ne, ne_eq]
  constructor
  · rintro ⟨⟨s, d'⟩, hq, ⟨rfl, ho⟩, hm⟩
    obtain ⟨hs, e, he, rfl⟩ := mem_readPairs.mp hq
    refine ⟨s, List.mem_range'_1.mpr (by omega), List.any_eq_true.mpr ⟨e, ?_, ?_⟩⟩
    · exact List.mem_filter.mpr ⟨he, by simpa using ho⟩
    · simpa using hm
  · rintro ⟨s, hs, hany⟩
    obtain ⟨e, he, hed⟩ := List.any_eq_true.mp hany
    obtain ⟨he, ho⟩ := List.mem_filter.mp he
    simp only [Bool.and_eq_true, beq_iff_eq, bne_iff_ne, ne_eq] at hed
    obtain ⟨rfl, hm⟩ := hed
    have hs' := List.mem_range'_1.mp hs
    exact ⟨(s, e.1), mem_readPairs.mpr ⟨by omega, e, he, rfl⟩, ⟨rfl, by simpa using ho⟩, hm⟩

/-- A host's bitset as the sender finds it: never allocated, and then no edge needed a mirror
there, or allocated for the `n` nodes with the bits of `f`. -/
def IncomingBits (n : ℕ) (f : ℕ → Bool) (b : DynamicBitSet) : Prop :=
  (b = ⟨[], 0⟩ ∧ ∀ d, f d = false) ∨ b.Holds n f

/-- **What a reader's inspection says about the graph**: per host, the edge count of every read
node, whether it gets any edge, and the mirrors it needs. -/
structure Inspected (G : InputGraph E) (P : Policy) (numHosts lo hi : ℕ) (st : InspectState) :
    Prop where
  counts_length : st.numOutgoingEdges.length = numHosts
  counts : ∀ o < numHosts, st.numOutgoingEdges.getD o [] =
    (List.range' lo (hi - lo)).map fun src => (ownedEdges G P o src).length
  outgoing : st.hostHasOutgoing.Holds numHosts fun o =>
    (List.range' lo (hi - lo)).any fun src => !(ownedEdges G P o src).isEmpty
  incoming_length : st.hasIncomingEdge.length = numHosts
  incoming : ∀ o < numHosts,
    IncomingBits G.size (mirrorBit G P lo hi o) (st.hasIncomingEdge.getD o ⟨[], 0⟩)

/-- **`assignEdges` computes the inspection data of the read range**, for any policy whose
owners are hosts. -/
theorem assignEdges_spec (hhi : hi ≤ G.size)
    (hown : ∀ src, lo ≤ src → src < hi → ∀ e ∈ G.edges src, owner G P src e.1 < numHosts) :
    Inspected G P numHosts lo hi
      (assignEdges G P lo hi (InspectState.init numHosts (hi - lo))) := by
  have hrun := inspectHolds_foldl (inspectHolds_init G P numHosts lo hi) (readPairs G lo hi)
    fun q hq => by
      obtain ⟨hs, e, he, hd⟩ := mem_readPairs.mp hq
      exact ⟨hs, hd ▸ hown q.1 hs.1 hs.2 e he, hd ▸ G.dst_lt q.1 (by omega) e he⟩
  rw [List.nil_append, ← assignEdges_eq_foldl] at hrun
  refine ⟨hrun.counts_length, fun o ho => ?_,
    hrun.outgoing.congr fun o _ => any_owner_readPairs o, hrun.incoming_length, fun o ho => ?_⟩
  · -- the counts, entry by entry
    obtain ⟨hlen, hcnt⟩ := hrun.counts o ho
    refine List.ext_getElem (by simpa using hlen) fun i h1 _ => ?_
    have hlt : i < hi - lo := hlen ▸ h1
    rw [List.getElem_eq_getD 0, hcnt i hlt, countP_readPairs hlt o, List.getElem_map,
      List.getElem_range', Nat.one_mul]
  · -- the bitset is allocated exactly when some edge needed it
    cases hset : (assignEdges G P lo hi (InspectState.init numHosts (hi - lo))).indicatorVars.getD
        o false with
    | false =>
      refine Or.inl ⟨hrun.empty o ho hset, fun d => ?_⟩
      have hnone := (hrun.indicator o ho).symm.trans hset
      rw [← any_mirror_readPairs, List.any_eq_false]
      intro q hq hq'
      have hq2 := List.any_eq_false.mp hnone q hq
      simp only [Bool.and_eq_true, beq_iff_eq, bne_iff_ne, ne_eq] at hq' hq2
      obtain ⟨⟨rfl, hqo⟩, hqm⟩ := hq'
      exact hq2 ⟨hqo, hqm⟩
    | true => exact Or.inr ((hrun.incoming o ho hset).congr fun d _ => any_mirror_readPairs o d)

end Run


end Galois.Cusp
