import Galois.Lonestar.BFS.DirectionOpt
import Galois.Graphs.Transpose
import Galois.Counting

/-!
# `syncDOAlgo` returns

Every pass of `syncDOAlgo` labels the next layer, but the pull phase's `do` loop tests
`work_items.reduce() >= old_workItemNum`: a pass that labels nothing goes round again when the
pass before it counted nothing either, and then it goes round for ever. So the loop returns only
if no pull pass starts with `work_items` at `0`. After a pull pass the count is the layer just
labelled; after a push pass it is the out-degrees of that layer, and the pull phase starts only
when `scout_count`, that same sum, is above `edges_to_check / alpha`. With `alpha > 0` that
quotient is not negative as long as `edges_to_check`, which each push pass lowers by
`scout_count`, stays at least the out-degrees of the nodes not yet reached: a push pass lowers
it by at most the out-degrees of the layer it pushes from, or by `1` after a pull phase, when
that layer has an out-edge if it leads anywhere.

* `degreeSum` -- the out-degrees of a set of nodes; on a valid CSR graph all of them add up to
  `sizeEdges()` (`sum_degree`);
* `CountInv` -- the counters' invariant: at the `while` test with `next` not empty,
  `edges_to_check` covers the out-degrees from layer `L` on, `scout_count` is at most those of
  layer `L` (or `1`), and `work_items` is positive or equal to `scout_count`; in the pull phase
  `work_items` is positive;
* `rank`, `rank_lt` -- twice the unlabelled nodes, plus one in the pull phase and two at the
  `while` test with work to do: every pass lowers it;
* **`syncDOAlgo_returns`** -- with `alpha > 0` and `beta ≠ 0`, on a valid CSR graph of at most
  `DIST_INFINITY` nodes, every run of `syncDOAlgo` is finite, and a run that cannot go on has
  returned.
-/

namespace Galois.Lonestar.BFS.DirectionOpt

open Cusp BFS_SSSP ShortestPaths Graphs

/-! ## 1. Out-degrees -/

/-- The out-degrees of the nodes that satisfy `p`, added up. -/
def degreeSum (G : BiGraph) (p : ℕ → Prop) [DecidablePred p] : ℕ :=
  ∑ v ∈ (Finset.range G.size).filter p, G.degree v

/-- The iterations of node `src` in `outEdges` are its out-edges. -/
theorem length_outEdges (G : BiGraph) (n : ℕ) :
    (outEdges (fun m => G.out.edgeIndData.getD m 0) n).length =
      ∑ v ∈ Finset.range n, G.degree v := by
  induction n with
  | zero => rfl
  | succ n ih =>
    rw [outEdges_succ, List.length_append, ih, Finset.sum_range_succ, List.length_map,
      List.length_range']
    rfl

/-- **On a valid CSR graph the out-degrees add up to the edges.** -/
theorem sum_degree {G : BiGraph} (hcsr : CSRValid G.size G.sizeEdges G.out) :
    ∑ v ∈ Finset.range G.size, G.degree v = G.sizeEdges := by
  rw [← length_outEdges, ← List.length_map Prod.snd, hcsr.map_snd_outEdges, List.length_range]

/-- The nodes that satisfy `p` split into those that also satisfy `q` and the others. -/
theorem degreeSum_split (G : BiGraph) (p q : ℕ → Prop) [DecidablePred p] [DecidablePred q] :
    degreeSum G p = degreeSum G (fun v => p v ∧ q v) + degreeSum G (fun v => p v ∧ ¬ q v) := by
  unfold degreeSum
  rw [← Finset.sum_filter_add_sum_filter_not _ q, Finset.filter_filter, Finset.filter_filter]

theorem degreeSum_congr (G : BiGraph) {p q : ℕ → Prop} [DecidablePred p] [DecidablePred q]
    (hpq : ∀ v, p v ↔ q v) : degreeSum G p = degreeSum G q :=
  Finset.sum_congr (Finset.filter_congr fun v _ => hpq v) fun _ _ => rfl

/-- A node of the graph that satisfies `p` adds its out-degree. -/
theorem degree_le_degreeSum (G : BiGraph) {p : ℕ → Prop} [DecidablePred p] {v : ℕ}
    (hv : v < G.size) (hp : p v) : G.degree v ≤ degreeSum G p :=
  Finset.single_le_sum (fun _ _ => Nat.zero_le _)
    (Finset.mem_filter.mpr ⟨Finset.mem_range.mpr hv, hp⟩)

/-! ## 2. What a pass counts -/

/-- The nodes still at `DIST_INFINITY`. -/
def unlabelled (G : BiGraph) (data : ℕ → ℕ) : ℕ :=
  (List.range G.size).countP fun v => data v = DIST_INFINITY

/-- The nodes of layer `k`. -/
noncomputable def layerSize (G : BiGraph) (source k : ℕ) : ℕ :=
  (List.range G.size).countP fun v => dist (Hop G.out) source v = k

section Counts

variable {G : BiGraph} {source L : ℕ}

theorem layerSize_le (G : BiGraph) (source k : ℕ) : layerSize G source k ≤ G.size :=
  (List.countP_le_length).trans (List.length_range).le

/-- A layer with a node of the graph in it is not empty. -/
theorem layerSize_pos {k v : ℕ} (hv : v < G.size) (hk : dist (Hop G.out) source v = k) :
    0 < layerSize G source k :=
  List.countP_pos_iff.mpr ⟨v, List.mem_range.mpr hv, decide_eq_true hk⟩

/-- A list of exactly the nodes of layer `L + 1` that is not empty shows the layer is not. -/
theorem layerSize_pos_of_ne_nil (hG : G.WF) (hs : source < G.size) {l : List ℕ}
    (hl : ∀ v, v ∈ l ↔ dist (Hop G.out) source v = (L + 1 : ℕ)) (hne : l ≠ []) :
    0 < layerSize G source (L + 1) := by
  obtain ⟨v, hv⟩ := List.exists_mem_of_ne_nil _ hne
  have hdv := (hl v).mp hv
  exact layerSize_pos (lt_size_of_dist_eq hG hs hdv) hdv

/-- **A pass that labels exactly layer `L + 1` leaves that many nodes fewer unlabelled.** -/
theorem unlabelled_succ (hn : G.size ≤ DIST_INFINITY) {data data' : ℕ → ℕ}
    (hlabel : ∀ v, (data' v = data v ∧ dist (Hop G.out) source v ≠ (L + 1 : ℕ)) ∨
      (data v = DIST_INFINITY ∧ dist (Hop G.out) source v = (L + 1 : ℕ) ∧
        Hop G.out (data' v) v 1 ∧ dist (Hop G.out) source (data' v) = L)) :
    unlabelled G data = unlabelled G data' + layerSize G source (L + 1) := by
  refine Counting.countP_eq_add _ (fun v _ => ?_) (fun v _ => ?_)
  · rcases hlabel v with ⟨heq, hne⟩ | ⟨hinf, hdv, hhop, -⟩
    · rw [heq, decide_eq_false hne, Bool.or_false]
    · have := lt_size_of_hop hhop
      simp only [hinf, hdv, decide_true, Bool.or_true]
  · rintro ⟨hq, hr⟩
    rcases hlabel v with ⟨-, hne⟩ | ⟨-, -, hhop, -⟩
    · exact hne (of_decide_eq_true hr)
    · have := lt_size_of_hop hhop
      have := of_decide_eq_true hq
      omega

/-- The layer from `L` on is layer `L` and the layers from `L + 1` on. -/
theorem degreeSum_from (G : BiGraph) (source L : ℕ) :
    degreeSum G (fun v => ¬ dist (Hop G.out) source v < L) =
      degreeSum G (fun v => dist (Hop G.out) source v = L) +
        degreeSum G (fun v => ¬ dist (Hop G.out) source v < (L + 1 : ℕ)) := by
  rw [degreeSum_split G _ fun v => dist (Hop G.out) source v = L]
  congr 1
  · refine degreeSum_congr G fun v => ⟨fun h => h.2, fun h => ⟨by rw [h]; exact lt_irrefl _, h⟩⟩
  · refine degreeSum_congr G fun v => ⟨fun ⟨h1, h2⟩ h3 => ?_, fun h => ⟨?_, ?_⟩⟩
    · induction hd : dist (Hop G.out) source v using ENat.recTopCoe with
      | top => rw [hd] at h3; exact absurd h3 (by simp)
      | coe k =>
        rw [hd] at h1 h2 h3
        norm_cast at h1 h2 h3
        omega
    · exact fun h' => h (h'.trans (by exact_mod_cast Nat.lt_succ_self L))
    · intro h'
      rw [h'] at h
      exact h (by exact_mod_cast Nat.lt_succ_self L)

theorem degreeSum_from_anti (G : BiGraph) (source L : ℕ) :
    degreeSum G (fun v => ¬ dist (Hop G.out) source v < (L + 1 : ℕ)) ≤
      degreeSum G (fun v => ¬ dist (Hop G.out) source v < L) := by
  rw [degreeSum_from G source L]
  exact Nat.le_add_left _ _

/-- A layer that leads to a next one has an out-edge. -/
theorem degreeSum_layer_pos (hG : G.WF) (hs : source < G.size) {v : ℕ}
    (hv : dist (Hop G.out) source v = (L + 1 : ℕ)) :
    1 ≤ degreeSum G (fun v => dist (Hop G.out) source v = L) := by
  obtain ⟨u, ⟨⟨e, he, -⟩, -⟩, hu⟩ := exists_pred_of_dist_eq (fun _ _ _ h => hop_unit h) hv
  have hdeg : 1 ≤ G.degree u := by
    have := List.length_pos_of_mem he
    rw [edgeIds, List.length_range'] at this
    exact this
  exact hdeg.trans (degree_le_degreeSum G (lt_size_of_dist_eq hG hs hu) hu)

end Counts

/-! ## 3. The counts of the two passes -/

section Passes

variable {G : BiGraph} {source L : ℕ} {st : State} (hG : G.WF) (hs : source < G.size)
  (hn : G.size ≤ DIST_INFINITY) (h : Inv G source L st)
include hG hs hn h

omit hs in
/-- **A pull pass counts layer `L + 1`.** -/
theorem Inv.pullPass_work (hpc : st.pc = .pull) {order : List ℕ}
    (hord : order.Perm (List.range G.size)) :
    (order.foldl (pullNode G st.front) ⟨st.data, st.nextBits, 0⟩).work =
      layerSize G source (L + 1) := by
  have hsize : layerSize G source (L + 1) < 2 ^ 32 :=
    (layerSize_le G source _).trans_lt (hn.trans_lt (by decide))
  rw [foldl_pullNode_work G st.front order _ (hord.nodup_iff.mpr List.nodup_range)
    (Nat.two_pow_pos 32), Nat.zero_add, hord.countP_eq]
  rw [List.countP_congr fun v _ => by rw [h.isSome_pulled hG hpc v]]
  exact Nat.mod_eq_of_lt hsize

/-- **A push pass pushes layer `L + 1` and counts its out-degrees**, modulo `2^32`. -/
theorem Inv.push_next (hpc : st.pc = .head) {order : List (ℕ × ℕ)}
    (hord : order.Perm (pushEdges G st.next)) :
    (∀ v, v ∈ (order.foldl (pushEdge G) ⟨st.data, [], 0⟩).next ↔
        dist (Hop G.out) source v = (L + 1 : ℕ)) ∧
      (order.foldl (pushEdge G) ⟨st.data, [], 0⟩).work =
        degreeSum G (fun v => dist (Hop G.out) source v = (L + 1 : ℕ)) % 2 ^ 32 := by
  have hsrc : ∀ a ∈ order, a.1 ≠ DIST_INFINITY := fun a ha =>
    (h.push_src hG hs hn hpc hord ha).2.2.2
  have hlabel := h.push_label hG hs hn hpc hord
  obtain ⟨new, hnext, hnd, hmem, hwork⟩ :=
    foldl_pushEdge_next (G := G) hsrc ⟨st.data, [], 0⟩ (Nat.two_pow_pos 32)
  have hmem' : ∀ v, v ∈ new ↔ dist (Hop G.out) source v = (L + 1 : ℕ) := fun v =>
    (hmem v).trans ((h.layers.succ hn hlabel).newly_iff hlabel v)
  rw [List.nil_append] at hnext
  refine ⟨fun v => by rw [hnext, hmem'], ?_⟩
  rw [hwork, Nat.zero_add]
  congr 1
  -- the out-degrees of the pushed nodes, all nodes of the graph, are those of the layer
  rw [Counting.sum_map_eq_sum_ite (s := Finset.range G.size) hnd fun v hv =>
    Finset.mem_range.mpr (lt_size_of_dist_eq hG hs ((hmem' v).mp hv)), degreeSum,
    ← Finset.sum_filter]
  exact Finset.sum_congr (Finset.filter_congr fun v _ => hmem' v) fun _ _ => rfl

end Passes

/-! ## 4. The counters' invariant -/

/-- **The counters' invariant** after layer `L`: at the `while` test with `next` not empty,
`edges_to_check` covers the out-degrees of the layers from `L` on, `scout_count` is at most the
out-degrees of layer `L` or is `1`, and `work_items` is positive or is `scout_count`; in the pull
phase `edges_to_check` still covers them and `work_items` is positive. -/
structure CountInv (G : BiGraph) (source L : ℕ) (st : State) : Prop where
  head_edges : st.pc = .head → st.next ≠ [] →
    (degreeSum G (fun v => ¬ dist (Hop G.out) source v < L) : ℤ) ≤ st.edgesToCheck
  head_work : st.pc = .head → st.next ≠ [] → 1 ≤ st.work ∨ (st.work : ℤ) = st.scoutCount
  head_scout : st.pc = .head → st.next ≠ [] → 0 ≤ st.scoutCount ∧
    (st.scoutCount ≤ degreeSum G (fun v => dist (Hop G.out) source v = L) ∨ st.scoutCount = 1)
  pull_edges : st.pc = .pull →
    (degreeSum G (fun v => ¬ dist (Hop G.out) source v < L) : ℤ) ≤ st.edgesToCheck
  pull_work : st.pc = .pull → 1 ≤ st.work

section Count

variable {G : BiGraph} {source : ℕ} (hG : G.WF) (hs : source < G.size)
  (hn : G.size ≤ DIST_INFINITY)

include hs in
theorem countInv_init (hcsr : CSRValid G.size G.sizeEdges G.out) :
    CountInv G source 0 (init G source) := by
  have hzero : ∀ v, dist (Hop G.out) source v = ((0 : ℕ) : ℕ∞) ↔ v = source := fun v => by
    rw [Nat.cast_zero]
    exact dist_eq_zero_iff fun _ _ _ h => hop_unit h
  refine ⟨fun _ _ => ?_, fun _ _ => .inl le_rfl, fun _ _ => ⟨Int.natCast_nonneg _, .inl ?_⟩,
    (fun h => nomatch h), (fun h => nomatch h)⟩
  · -- every node is in a layer from `0` on: `edges_to_check` is all the out-degrees
    have hall : (Finset.range G.size).filter
        (fun v => ¬ dist (Hop G.out) source v < ((0 : ℕ) : ℕ∞)) = Finset.range G.size :=
      Finset.filter_true_of_mem fun v _ => by simp
    show _ ≤ ((G.sizeEdges : ℕ) : ℤ)
    rw [degreeSum, hall, sum_degree hcsr]
  · -- layer `0` is the source
    show ((G.degree source : ℕ) : ℤ) ≤ _
    exact_mod_cast degree_le_degreeSum G hs ((hzero source).mpr rfl)

/-- Starting the pull phase keeps the counters' invariant: with `alpha > 0` the test
`scout_count > edges_to_check / alpha` makes `scout_count` positive. -/
theorem CountInv.pull {alpha : ℤ} (halpha : 0 < alpha) {L : ℕ} {st : State}
    (hc : CountInv G source L st) (hpc : st.pc = .head) (hne : st.next ≠ [])
    (hdir : st.edgesToCheck.tdiv alpha < st.scoutCount) :
    CountInv G source L
      { st with curr := st.next, next := [],
                front := wlToBitset st.next st.front, pc := .pull } := by
  have hedges := hc.head_edges hpc hne
  refine ⟨(fun h => nomatch h), (fun h => nomatch h), (fun h => nomatch h), fun _ => hedges,
    fun _ => ?_⟩
  rcases hc.head_work hpc hne with hw | hw
  · exact hw
  · have hq : 0 ≤ st.edgesToCheck.tdiv alpha :=
      Int.tdiv_nonneg ((Int.natCast_nonneg _).trans hedges) halpha.le
    show 1 ≤ st.work
    omega

/-- The `do` loop goes on after a pass that counted something, when the pass before it did. -/
theorem pullPass_goes_on {G : BiGraph} {beta : ℤ} {st : State} {acc : PullAcc}
    (hw : 1 ≤ st.work) (hgo : st.work ≤ acc.work ∨ G.size / (beta % 2 ^ 64).toNat < acc.work) :
    1 ≤ acc.work := by
  rcases hgo with hgo | hgo
  · exact hw.trans hgo
  · exact Nat.lt_of_le_of_lt (Nat.zero_le _) hgo

include hG hs hn

/-- A pull pass keeps the counters' invariant: it goes on only when it counted something, and it
ends with `scout_count = 1` and the count of a layer. -/
theorem CountInv.pullPass {L : ℕ} {st : State} (h : Inv G source L st)
    (hc : CountInv G source L st) (hpc : st.pc = .pull) {order : List ℕ}
    (hord : order.Perm (List.range G.size)) (beta : ℤ) :
    CountInv G source (L + 1)
      (endPull G beta st (order.foldl (pullNode G st.front) ⟨st.data, st.nextBits, 0⟩)) := by
  have hwork := h.pullPass_work hG hn hpc hord
  have hedges : (degreeSum G (fun v => ¬ dist (Hop G.out) source v < (L + 1 : ℕ)) : ℤ) ≤
      st.edgesToCheck :=
    (Int.ofNat_le.mpr (degreeSum_from_anti G source L)).trans (hc.pull_edges hpc)
  have hw := hc.pull_work hpc
  have hinv := h.pullPass hG hs hn hord hpc beta
  unfold endPull at hinv ⊢
  split_ifs with hgo
  · -- the `do` loop goes on: the pass counted something
    refine ⟨fun hpc' => by simp [hpc] at hpc', fun hpc' => by simp [hpc] at hpc',
      fun hpc' => by simp [hpc] at hpc', fun _ => hedges, fun _ => ?_⟩
    exact pullPass_goes_on hw hgo
  · -- the `do` loop ends: `next` is layer `L + 1`
    rw [if_neg hgo] at hinv
    refine ⟨fun _ _ => hedges, fun hpc' hne => .inl ?_, fun _ _ => ⟨zero_le_one, .inr rfl⟩,
      (fun h => nomatch h), (fun h => nomatch h)⟩
    show 1 ≤ (order.foldl (pullNode G st.front) ⟨st.data, st.nextBits, 0⟩).work
    rw [hwork]
    exact layerSize_pos_of_ne_nil hG hs (hinv.mem_next rfl) hne

/-- A push pass keeps the counters' invariant: `edges_to_check` loses at most the out-degrees of
layer `L`, or `1` when layer `L` has an out-edge, and `work_items` is `scout_count`. -/
theorem CountInv.push {L : ℕ} {st : State} (h : Inv G source L st)
    (hc : CountInv G source L st) (hpc : st.pc = .head) (hne : st.next ≠ [])
    {order : List (ℕ × ℕ)} (hord : order.Perm (pushEdges G st.next)) :
    CountInv G source (L + 1) (endPush st (order.foldl (pushEdge G) ⟨st.data, [], 0⟩)) := by
  obtain ⟨hnext, hwork⟩ := h.push_next hG hs hn hpc hord
  have hedges := hc.head_edges hpc hne
  have hsplit := degreeSum_from G source L
  refine ⟨fun _ hne' => ?_, fun _ _ => .inr rfl, fun _ _ => ⟨Int.natCast_nonneg _, .inl ?_⟩,
    fun hpc' => by simp [endPush, hpc] at hpc', fun hpc' => by simp [endPush, hpc] at hpc'⟩
  · -- some node is pushed, so layer `L` has an out-edge
    obtain ⟨v, hv⟩ := List.exists_mem_of_ne_nil _ hne'
    have hpos := degreeSum_layer_pos hG hs ((hnext v).mp hv)
    show _ ≤ st.edgesToCheck - st.scoutCount
    rcases (hc.head_scout hpc hne).2 with hsc | hsc <;> omega
  · show ((order.foldl (pushEdge G) ⟨st.data, [], 0⟩).work : ℤ) ≤ _
    rw [hwork]
    exact_mod_cast Nat.mod_le _ _

end Count

/-! ## 5. Every run is finite -/

/-- What bounds the passes left: two for each unlabelled node, and one more in the pull phase or
two more at the `while` test with `next` not empty. -/
def rank (G : BiGraph) (st : State) : ℕ :=
  2 * unlabelled G st.data + if st.pc = .pull then 1 else if st.next = [] then 0 else 2

/-- From every state some pass can go on, unless the `while` loop has returned: the divisions
by `alpha` and `beta` are defined. -/
theorem step_or_returned {G : BiGraph} {alpha beta : ℤ} (halpha : alpha ≠ 0) (hbeta : beta ≠ 0)
    (st : State) : (st.pc = .head ∧ st.next = []) ∨ ∃ st', Step G alpha beta st st' := by
  cases hpc : st.pc with
  | pull => exact .inr ⟨_, .pullPass st hpc hbeta _ (List.Perm.refl _)⟩
  | head =>
    by_cases hne : st.next = []
    · exact .inl ⟨rfl, hne⟩
    · by_cases hdir : st.edgesToCheck.tdiv alpha < st.scoutCount
      · exact .inr ⟨_, .pull st hpc hne halpha hdir⟩
      · exact .inr ⟨_, .push st hpc hne halpha (not_lt.mp hdir) _ (List.Perm.refl _)⟩

section Rank

variable {G : BiGraph} {source : ℕ} (hG : G.WF) (hs : source < G.size)
  (hn : G.size ≤ DIST_INFINITY)
include hG hs hn

omit hn in
/-- A state at the `while` test whose `next` is exactly layer `L + 1`, after a pass that labelled
that layer, ranks below twice the nodes unlabelled before the pass, plus one. -/
theorem rank_head_lt {L : ℕ} (st : State) (hpc : st.pc = .head) {u : ℕ}
    (hu : u = unlabelled G st.data + layerSize G source (L + 1))
    (hnext : ∀ v, v ∈ st.next ↔ dist (Hop G.out) source v = (L + 1 : ℕ)) :
    rank G st < 2 * u + 1 := by
  simp only [rank, hpc, reduceCtorEq, if_false]
  split_ifs with hne
  · omega
  · have hk := layerSize_pos_of_ne_nil hG hs hnext hne
    omega

/-- **Every pass lowers the rank**: the pull phase starts one below the test, and a loop pass
labels the next layer, which is not empty when the `do` loop goes on or `next` gets nodes. -/
theorem rank_lt {alpha beta : ℤ} {L : ℕ} {st st' : State} (h : Inv G source L st)
    (hc : CountInv G source L st) (hstep : Step G alpha beta st st') : rank G st' < rank G st := by
  cases hstep with
  | pull hpc hne _ _ =>
    simp [rank, hpc, hne]
  | pullPass hpc _ order hord =>
    have hu := unlabelled_succ hn (h.pullPass_label hG hs hord hpc)
    have hinv := h.pullPass hG hs hn hord hpc beta
    have hrank : rank G st = 2 * unlabelled G st.data + 1 := by simp [rank, hpc]
    rw [hrank]
    unfold endPull at hinv ⊢
    split_ifs at hinv ⊢ with hgo
    · -- the `do` loop goes on: the pass counted, so labelled, a node
      have hk : 1 ≤ layerSize G source (L + 1) := by
        rw [← h.pullPass_work hG hn hpc hord]
        exact pullPass_goes_on (hc.pull_work hpc) hgo
      simp only [rank, hpc, if_true]
      omega
    · exact rank_head_lt hG hs _ rfl hu (hinv.mem_next rfl)
  | push hpc hne _ _ order hord =>
    have hu := unlabelled_succ hn (h.push_label hG hs hn hpc hord)
    calc rank G _ < 2 * unlabelled G st.data + 1 :=
          rank_head_lt hG hs (endPush st (order.foldl (pushEdge G) ⟨st.data, [], 0⟩)) hpc hu
            (h.push_next hG hs hn hpc hord).1
      _ < rank G st := by
          simp only [rank, hpc, hne, reduceCtorEq, if_false]
          omega

/-- Both invariants hold along every run from the start of the loop. -/
theorem invs_run (hcsr : CSRValid G.size G.sizeEdges G.out) {alpha beta : ℤ} (halpha : 0 < alpha)
    {st : State} (hrun : Relation.ReflTransGen (Step G alpha beta) (init G source) st) :
    ∃ L, Inv G source L st ∧ CountInv G source L st := by
  induction hrun with
  | refl => exact ⟨0, inv_init, countInv_init hs hcsr⟩
  | tail _ hstep ih =>
    obtain ⟨L, h, hc⟩ := ih
    cases hstep with
    | pull hpc hne _ hdir => exact ⟨L, h.pull hG hs hpc, hc.pull halpha hpc hne hdir⟩
    | pullPass hpc _ order hord =>
      exact ⟨L + 1, h.pullPass hG hs hn hord hpc beta, hc.pullPass hG hs hn h hpc hord beta⟩
    | push hpc hne _ _ order hord =>
      exact ⟨L + 1, h.push hG hs hn hpc hord, hc.push hG hs hn h hpc hne hord⟩

end Rank

/-- **`syncDOAlgo` returns**: with `alpha > 0` and `beta ≠ 0`, on a valid CSR graph of at most
`DIST_INFINITY` nodes with its in-edges, from a source among them, no run of its loops is
infinite, whatever the direction choices and the orders of the loops, and a run that cannot go
on has reached the `while` test with `next` empty. -/
theorem syncDOAlgo_returns {G : BiGraph} {source : ℕ} (hG : G.WF)
    (hcsr : CSRValid G.size G.sizeEdges G.out) (hs : source < G.size)
    (hn : G.size ≤ DIST_INFINITY) {alpha beta : ℤ} (halpha : 0 < alpha) (hbeta : beta ≠ 0) :
    Acc (fun st' st => Step G alpha beta st st') (init G source) ∧
      ∀ st, Relation.ReflTransGen (Step G alpha beta) (init G source) st →
        (st.pc = .head ∧ st.next = []) ∨ ∃ st', Step G alpha beta st st' := by
  refine ⟨?_, fun st _ => step_or_returned halpha.ne' hbeta st⟩
  -- by strong induction on the rank: every state a run reaches has only finite runs
  suffices H : ∀ r st, rank G st = r →
      Relation.ReflTransGen (Step G alpha beta) (init G source) st →
        Acc (fun st' st => Step G alpha beta st st') st from H _ _ rfl .refl
  intro r
  induction r using Nat.strong_induction_on with
  | _ r ih =>
    intro st hr hrun
    obtain ⟨L, h, hc⟩ := invs_run hG hs hn hcsr halpha hrun
    exact Acc.intro st fun st' hstep =>
      ih _ (hr ▸ rank_lt hG hs hn h hc hstep) st' rfl (hrun.tail hstep)

theorem csrValid_oneEdge : CSRValid oneEdge.size oneEdge.sizeEdges oneEdge.out :=
  ⟨rfl, rfl, rfl, by decide, rfl, by decide⟩

theorem syncDOAlgo_returns_oneEdge : oneEdge.WF ∧
    CSRValid oneEdge.size oneEdge.sizeEdges oneEdge.out ∧ 0 < oneEdge.size ∧
    oneEdge.size ≤ DIST_INFINITY ∧ (0 : ℤ) < 15 ∧ (18 : ℤ) ≠ 0 ∧
    Acc (fun st' st => Step oneEdge 15 18 st st') (init oneEdge 0) ∧
      ∀ st, Relation.ReflTransGen (Step oneEdge 15 18) (init oneEdge 0) st →
        (st.pc = .head ∧ st.next = []) ∨ ∃ st', Step oneEdge 15 18 st st' :=
  ⟨wf_oneEdge, csrValid_oneEdge, by decide, by decide, by decide, by decide,
    syncDOAlgo_returns wf_oneEdge csrValid_oneEdge (by decide) (by decide) (by decide)
      (by decide)⟩

end Galois.Lonestar.BFS.DirectionOpt
