import Galois.Graphs.LCCSRGraph
import Galois.Placement

/-!
# Transposing an `LC_CSR_Graph`

`LC_CSR_Graph::transpose` turns the graph's CSR into its CSC in place. It copies the old node
ends, counts every node's in-edges with atomic adds, turns the counts into a prefix sum (a serial
loop with a `uint32_t` counter), takes each node's first slot as its cursor, and scatters every
edge `src → dst` to the slot a fetch-and-add on `dst`'s cursor gives it, with `src` as its
destination and its data beside it.

A schedule of the parallel loops is an order of the atomic operations: outside them every
iteration writes only slots of its own, so every interleaving is a pair of permutations of the
iterations (`transpose`'s `sched₁`, `sched₂`).

* `foldl_countEdge` -- the counting loop counts, in any order;
* `prefixSumLoop_spec` -- below `2 ^ 32` nodes the prefix sum loop ends with the prefix sums;
  `prefixSumLoop_wraps` -- from `2 ^ 32` nodes on it never ends: the counter wraps first;
* `ScatterInv.run` -- the scatter fills node `v`'s slots, from its cursor on, with the edges into
  `v` in the order they are taken;
* **`transpose_spec`** -- on a valid graph of fewer than `2 ^ 32` nodes, in every schedule, the
  transpose ends with a valid graph in which `u → v` edges are the old `v → u` edges, data and
  all; **`transpose_never_ends`** -- a valid graph of `2 ^ 32` nodes is never transposed.
-/

namespace Galois.Graphs

open Cusp Placement

variable {E : Type}

/-! ## 1. The model -/

/-- `TRANSPOSE_EDGEINTDATA_INC` for edge `e`: copy its destination to `edgeDst_old[e]`, and count
it at `edgeIndData_temp[dst]` (`__sync_add_and_fetch`). -/
def countEdge (edgeDst : ℕ → ℕ) (s : (ℕ → ℕ) × (ℕ → ℕ)) (e : ℕ) : (ℕ → ℕ) × (ℕ → ℕ) :=
  let dst := edgeDst e
  (Function.update s.1 e dst, Function.update s.2 dst (s.2 dst + 1))

/-- The loop `for (uint32_t n = 1; n < numNodes; ++n) edgeIndData_temp[n] +=
edgeIndData_temp[n - 1]`, for at most `fuel` more tests of `n < numNodes`: `n` wraps at `2 ^ 32`,
and `none` is the loop still running when the fuel is out. -/
def prefixSumLoop (numNodes : ℕ) : ℕ → ℕ → (ℕ → ℕ) → Option (ℕ → ℕ)
  | 0, _, _ => none
  | fuel + 1, n, temp =>
    if n < numNodes then
      prefixSumLoop numNodes fuel ((n + 1) % 2 ^ 32)
        (Function.update temp n (temp n + temp ((n + 2 ^ 32 - 1) % 2 ^ 32)))
    else some temp

/-- The cursors `edgeIndData_temp` and the arrays `TRANSPOSE_EDGEDST` writes. -/
structure Scatter (E : Type) where
  cursor : ℕ → ℕ
  edgeDst : ℕ → ℕ
  edgeData_new : ℕ → E

/-- `TRANSPOSE_EDGEDST` for edge `e` of node `src`: take the slot `e_new` from the cursor of its
destination (`__sync_fetch_and_add`), and store there `src`, as a `uint32_t`, and the edge's
data. -/
def scatterEdge (edgeDst_old : ℕ → ℕ) (edgeData : ℕ → E) (s : Scatter E) (x : ℕ × ℕ) :
    Scatter E :=
  let dst := edgeDst_old x.2
  let e_new := s.cursor dst
  { cursor := Function.update s.cursor dst (e_new + 1)
    edgeDst := Function.update s.edgeDst e_new (x.1 % 2 ^ 32)
    edgeData_new := Function.update s.edgeData_new e_new (edgeData x.2) }

/-- The iterations of `TRANSPOSE_EDGEDST`: every node `src` with every edge `e` of its range in
`edgeIndData_old`. -/
def outEdges (edgeIndData_old : ℕ → ℕ) (numNodes : ℕ) : List (ℕ × ℕ) :=
  (List.range numNodes).flatMap fun src =>
    let b := if src = 0 then 0 else edgeIndData_old (src - 1)
    (List.range' b (edgeIndData_old src - b)).map fun e => (src, e)

/-- `LC_CSR_Graph::transpose()` on a graph of `numNodes` nodes and `numEdges` edges. `sched₁`
orders the atomic adds of `TRANSPOSE_EDGEINTDATA_INC`, `sched₂` the fetch-and-adds of
`TRANSPOSE_EDGEDST`; the other `do_all` loops write one index each and are maps. The temporaries
start zeroed. `none` is the prefix sum loop still running after `fuel` tests. -/
def transpose [Inhabited E] (numNodes numEdges : ℕ) (g : CSRGraph E) (fuel : ℕ)
    (sched₁ : List ℕ → List ℕ) (sched₂ : List (ℕ × ℕ) → List (ℕ × ℕ)) :
    Option (CSRGraph E) := do
  -- TRANSPOSE_EDGEINTDATA_COPY
  let edgeIndData_old := fun n => g.edgeIndData.getD n 0
  -- TRANSPOSE_EDGEINTDATA_INC
  let (edgeDst_old, edgeIndData_temp) :=
    (sched₁ (List.range numEdges)).foldl (countEdge fun e => g.edgeDst.getD e 0)
      (fun _ => 0, fun _ => 0)
  let edgeIndData_temp ← prefixSumLoop numNodes fuel 1 edgeIndData_temp
  -- TRANSPOSE_EDGEINTDATA_SET
  let edgeIndData := edgeIndData_temp
  -- TRANSPOSE_EDGEINTDATA_TEMP: each node's first slot
  let cursor := fun n => if n = 0 then 0 else edgeIndData (n - 1)
  -- TRANSPOSE_EDGEDST
  let s := (sched₂ (outEdges edgeIndData_old numNodes)).foldl
    (scatterEdge edgeDst_old fun e => g.edgeData.getD e default)
    ⟨cursor, fun e => g.edgeDst.getD e 0, fun _ => default⟩
  -- TRANSPOSE_EDGEDATA_SET
  some ⟨(List.range numNodes).map edgeIndData, (List.range numEdges).map s.edgeDst,
    (List.range numEdges).map s.edgeData_new⟩

/-- A graph of `numNodes` nodes and `numEdges` edges: every array has its length, the ends of the
nodes' edges do not decrease and the last is `numEdges`, and every destination is a node. -/
structure CSRValid (numNodes numEdges : ℕ) (g : CSRGraph E) : Prop where
  length_edgeIndData : g.edgeIndData.length = numNodes
  length_edgeDst : g.edgeDst.length = numEdges
  length_edgeData : g.edgeData.length = numEdges
  mono : g.edgeIndData.Pairwise (· ≤ ·)
  last : g.edgeIndData.getLastD 0 = numEdges
  dst_lt : ∀ d ∈ g.edgeDst, d < numNodes

/-! ## 2. Counting -/

/-- The counting loop, over any list of edges: each copies its destination and is counted once
at it. -/
theorem foldl_countEdge (dst : ℕ → ℕ) (l : List ℕ) (s : (ℕ → ℕ) × (ℕ → ℕ)) :
    (∀ e, (l.foldl (countEdge dst) s).1 e = if e ∈ l then dst e else s.1 e) ∧
      ∀ v, (l.foldl (countEdge dst) s).2 v = s.2 v + l.countP fun e => dst e = v := by
  induction l generalizing s with
  | nil => exact ⟨fun e => by simp, fun v => by simp⟩
  | cons x l ih =>
    obtain ⟨ih₁, ih₂⟩ := ih (countEdge dst s x)
    refine ⟨fun e => ?_, fun v => ?_⟩
    · rw [List.foldl_cons, ih₁]
      by_cases hx : e = x
      · subst hx
        simp [countEdge]
      · simp [countEdge, hx]
    · rw [List.foldl_cons, ih₂, List.countP_cons]
      by_cases hv : dst x = v
      · subst hv
        simp only [countEdge, Function.update_self, decide_true, if_true]
        omega
      · simp [countEdge, Function.update_of_ne (Ne.symm hv), hv]

/-! ## 3. The prefix sum -/

theorem prefixSumLoop_spec {numNodes : ℕ} (hN : numNodes < 2 ^ 32) (c : ℕ → ℕ) :
    ∀ fuel n temp, 0 < n → numNodes < n + fuel → 0 < fuel →
      (∀ m, m < n → temp m = sumBelow c (m + 1)) → (∀ m, n ≤ m → temp m = c m) →
      ∃ temp', prefixSumLoop numNodes fuel n temp = some temp' ∧
        ∀ m, m < numNodes → temp' m = sumBelow c (m + 1)
  | 0, _, _, _, _, hfuel, _, _ => absurd hfuel (Nat.lt_irrefl 0)
  | fuel + 1, n, temp, hn, hfuel, _, hbelow, habove => by
    rw [prefixSumLoop]
    by_cases hlt : n < numNodes
    · -- one pass: `temp[n]` becomes `c n` plus the sum before it
      have hprev : (n + 2 ^ 32 - 1) % 2 ^ 32 = n - 1 := by
        rw [show n + 2 ^ 32 - 1 = n - 1 + 2 ^ 32 by omega, Nat.add_mod_right,
          Nat.mod_eq_of_lt (by omega)]
      have hnext : (n + 1) % 2 ^ 32 = n + 1 := Nat.mod_eq_of_lt (by omega)
      rw [if_pos hlt, hprev, hnext]
      refine prefixSumLoop_spec hN c fuel (n + 1) _ (Nat.succ_pos n) (by omega) (by omega)
        (fun m hm => ?_) (fun m hm => ?_)
      · rcases Nat.lt_succ_iff_lt_or_eq.mp hm with hm | rfl
        · rw [Function.update_of_ne (by omega), hbelow m hm]
        · rw [Function.update_self, habove m (Nat.le_refl m), hbelow (m - 1) (by omega),
            Nat.sub_add_cancel hn, sumBelow_succ, Nat.add_comm]
      · rw [Function.update_of_ne (by omega), habove m (by omega)]
    · rw [if_neg hlt]
      exact ⟨temp, rfl, fun m hm => hbelow m (by omega)⟩

/-- **From `2 ^ 32` nodes on the prefix sum loop never ends**: its `uint32_t` counter wraps to `0`
before it reaches `numNodes`. -/
theorem prefixSumLoop_wraps {numNodes : ℕ} (hN : 2 ^ 32 ≤ numNodes) :
    ∀ fuel n temp, n < 2 ^ 32 → prefixSumLoop numNodes fuel n temp = none
  | 0, _, _, _ => rfl
  | fuel + 1, n, temp, hn => by
    rw [prefixSumLoop, if_pos (by omega)]
    exact prefixSumLoop_wraps hN fuel _ _ (Nat.mod_lt _ (Nat.two_pow_pos 32))

/-! ## 4. The iterations of the scatter -/

section OutEdges

variable (ind : ℕ → ℕ)

theorem outEdges_succ (n : ℕ) :
    outEdges ind (n + 1) = outEdges ind n ++
      (List.range' (if n = 0 then 0 else ind (n - 1))
        (ind n - if n = 0 then 0 else ind (n - 1))).map fun e => (n, e) := by
  simp [outEdges, List.range_succ, List.flatMap_append]

/-- Where the ends do not decrease, the edges of the nodes below `n` are those below the start of
node `n`, in order. -/
theorem map_snd_outEdges {numNodes : ℕ} (hmono : ∀ i j, i ≤ j → j < numNodes → ind i ≤ ind j) :
    ∀ n, n ≤ numNodes →
      (outEdges ind n).map Prod.snd = List.range (if n = 0 then 0 else ind (n - 1))
  | 0, _ => rfl
  | n + 1, hn => by
    have hle : (if n = 0 then 0 else ind (n - 1)) ≤ ind n := by
      split_ifs
      · exact Nat.zero_le _
      · exact hmono _ _ (by omega) (by omega)
    rw [outEdges_succ, List.map_append, map_snd_outEdges hmono n (by omega), List.map_map]
    simp only [Function.comp_def, List.map_id', List.range_eq_range', Nat.add_sub_cancel,
      if_neg (Nat.succ_ne_zero n)]
    -- node `n`'s edges continue those before it
    have happ := @List.range'_append_1 0 (if n = 0 then 0 else ind (n - 1))
      (ind n - if n = 0 then 0 else ind (n - 1))
    rwa [Nat.zero_add, Nat.add_sub_cancel' hle] at happ

/-- The iterations of node `u` are its edges, and there are none past the last node. -/
theorem filter_outEdges (u : ℕ) :
    ∀ n, (outEdges ind n).filter (fun x => x.1 = u) =
      if u < n then (List.range' (if u = 0 then 0 else ind (u - 1))
        (ind u - if u = 0 then 0 else ind (u - 1))).map fun e => (u, e)
      else []
  | 0 => rfl
  | n + 1 => by
    rw [outEdges_succ, List.filter_append, filter_outEdges u n, List.filter_map]
    by_cases hu : u = n
    · subst hu
      simp [Function.comp_def]
    · have hnone : (List.filter ((fun x => decide (x.1 = u)) ∘ fun e => (n, e))
          (List.range' (if n = 0 then 0 else ind (n - 1))
            (ind n - if n = 0 then 0 else ind (n - 1)))) = [] := by
        simp [Function.comp_def, Ne.symm hu]
      rw [hnone, List.map_nil, List.append_nil]
      by_cases hlt : u < n
      · rw [if_pos hlt, if_pos (Nat.lt_succ_of_lt hlt)]
      · rw [if_neg hlt, if_neg (by omega)]

end OutEdges

/-! ## 5. The scatter -/

section ScatterRun

variable (dstOld : ℕ → ℕ) (data : ℕ → E) (start : ℕ → ℕ)

/-- The iterations of `P` whose edge goes into `v`. -/
def into (P : List (ℕ × ℕ)) (v : ℕ) : List (ℕ × ℕ) := P.filter fun x => dstOld x.2 = v

/-- After the iterations `P`: every cursor is past the edges taken into its node, and the node's
slots from `start` on hold those edges' sources and data, in the order taken. -/
structure ScatterInv (P : List (ℕ × ℕ)) (s : Scatter E) : Prop where
  cursor : ∀ v, s.cursor v = start v + (into dstOld P v).length
  slots : ∀ v, (List.range' (start v) (into dstOld P v).length).map
      (fun k => (s.edgeDst k, s.edgeData_new k)) =
    (into dstOld P v).map fun x => (x.1 % 2 ^ 32, data x.2)

variable {dstOld data start}

theorem scatterInv_nil (edgeDst : ℕ → ℕ) (edgeData_new : ℕ → E) :
    ScatterInv dstOld data start [] ⟨start, edgeDst, edgeData_new⟩ :=
  ⟨fun v => by simp [into], fun v => by simp [into]⟩

/-- **One fetch-and-add** places the edge: its source and data go to the slot its destination's
cursor points at, and that cursor moves on. -/
theorem scatterEdge_places (s : Scatter E) (x : ℕ × ℕ) :
    Places (fun x : ℕ × ℕ => dstOld x.2) (fun x => (x.1 % 2 ^ 32, data x.2)) Scatter.cursor
      (fun s k => (s.edgeDst k, s.edgeData_new k)) s x (scatterEdge dstOld data s x) := by
  refine ⟨by simp [scatterEdge], fun v hv => ?_, by simp [scatterEdge], fun k hk => ?_⟩
  · simp [scatterEdge, Function.update_of_ne hv]
  · simp [scatterEdge, Function.update_of_ne hk]

/-- **The scatter, over any order of the iterations**, as long as no node takes more edges than
the room `cap` its slots have before the next node's. -/
theorem ScatterInv.run {cap : ℕ → ℕ}
    (hlayout : ∀ v w, v ≠ w → ∀ i j, i < cap v → j < cap w → start v + i ≠ start w + j)
    (l : List (ℕ × ℕ)) : ∀ (P : List (ℕ × ℕ)) (s : Scatter E), ScatterInv dstOld data start P s →
      (∀ v, (into dstOld (P ++ l) v).length ≤ cap v) →
      ScatterInv dstOld data start (P ++ l) (l.foldl (scatterEdge dstOld data) s) := by
  intro P s h hcap
  -- the iterations into `v` are the bucket of `v`, keyed by the old destination
  have hplaced : Placed (fun x : ℕ × ℕ => dstOld x.2) (fun x => (x.1 % 2 ^ 32, data x.2)) start
      Scatter.cursor (fun s k => (s.edgeDst k, s.edgeData_new k)) P s := ⟨h.cursor, h.slots⟩
  have hrun := (Placed.run hlayout (fun _ _ _ => trivial : ∀ (s : Scatter E) (x : ℕ × ℕ), True → True)
    (fun _ s x _ _ _ => scatterEdge_places s x) l P s trivial hplaced hcap).2
  exact ⟨hrun.cursor_eq, hrun.slots_eq⟩

end ScatterRun

/-! ## 6. The transpose -/

/-- The edges into `v`. -/
def inDegree (edgeDst : ℕ → ℕ) (numEdges v : ℕ) : ℕ :=
  (List.range numEdges).countP fun e => edgeDst e = v

/-- Below the length, `getD` reads the element. -/
theorem getD_of_lt {l : List ℕ} {i : ℕ} (hi : i < l.length) : l.getD i 0 = l[i] := by
  rw [List.getD_eq_getElem?_getD, List.getElem?_eq_getElem hi, Option.getD_some]

namespace CSRValid

variable {numNodes numEdges : ℕ} {g : CSRGraph E} (hg : CSRValid numNodes numEdges g)
include hg

theorem end_mono : ∀ i j, i ≤ j → j < numNodes →
    g.edgeIndData.getD i 0 ≤ g.edgeIndData.getD j 0 := by
  intro i j hij hj
  have hl := hg.length_edgeIndData
  rw [getD_of_lt (by omega), getD_of_lt (by omega)]
  rcases Nat.lt_or_eq_of_le hij with hlt | rfl
  · exact List.pairwise_iff_getElem.mp hg.mono i j (by omega) (by omega) hlt
  · exact Nat.le_refl _

theorem end_last : g.edgeIndData.getD (numNodes - 1) 0 = numEdges := by
  rw [← hg.last, List.getD_eq_getElem?_getD, List.getLastD_eq_getLast?, List.getLast?_eq_getElem?,
    hg.length_edgeIndData]

theorem end_le (n : ℕ) : g.edgeIndData.getD n 0 ≤ numEdges := by
  rw [List.getD_eq_getElem?_getD]
  cases h : g.edgeIndData[n]? with
  | none => exact Nat.zero_le _
  | some x =>
    rw [← hg.last]
    exact GrGraph.le_getLastD_of_pairwise hg.mono (List.mem_of_getElem? h)

theorem dst_lt_of_lt {e : ℕ} (he : e < numEdges) : g.edgeDst.getD e 0 < numNodes := by
  have hl := hg.length_edgeDst
  rw [List.getD_eq_getElem?_getD, List.getElem?_eq_getElem (by omega), Option.getD_some]
  exact hg.dst_lt _ (List.getElem_mem _)

/-- The edges of the graph's nodes are its edges below `numEdges`, in order. -/
theorem map_snd_outEdges :
    (outEdges (fun n => g.edgeIndData.getD n 0) numNodes).map Prod.snd = List.range numEdges := by
  rw [Galois.Graphs.map_snd_outEdges _ hg.end_mono numNodes (Nat.le_refl _)]
  split_ifs with hN
  · -- no node: no edge
    have hnil : g.edgeIndData = [] := List.length_eq_zero_iff.mp (hg.length_edgeIndData.trans hN)
    have h0 := hg.last
    rw [hnil] at h0
    rw [← h0]
    rfl
  · rw [hg.end_last]

/-- **A node's edges are its iterations of the scatter**, read off the arrays. -/
theorem edges_eq [Inhabited E] (v : ℕ) :
    g.edges v = ((outEdges (fun n => g.edgeIndData.getD n 0) numNodes).filter
      fun x => x.1 = v).map fun x => (g.edgeDst.getD x.2 0, g.edgeData.getD x.2 default) := by
  rw [filter_outEdges, CSRGraph.edges, CSRGraph.edge_begin, CSRGraph.edge_end]
  by_cases hv : v < numNodes
  · rw [if_pos hv, List.map_map]
    rfl
  · -- past the last node the end reads `0`
    have hend : g.edgeIndData.getD v 0 = 0 := by
      rw [List.getD_eq_getElem?_getD, List.getElem?_eq_none (by rw [hg.length_edgeIndData]; omega)]
      rfl
    rw [if_neg hv, hend]
    simp

end CSRValid

/-- **The counting loop, in any order of the adds**, copies every destination and counts every
node's in-edges. -/
theorem countEdge_phase (edgeDst : ℕ → ℕ) (numEdges : ℕ) {sched₁ : List ℕ → List ℕ}
    (h₁ : ∀ l, (sched₁ l).Perm l) :
    let r := (sched₁ (List.range numEdges)).foldl (countEdge edgeDst) (fun _ => 0, fun _ => 0)
    (∀ e, e < numEdges → r.1 e = edgeDst e) ∧ ∀ v, r.2 v = inDegree edgeDst numEdges v := by
  intro r
  obtain ⟨hcopy, hcount⟩ := foldl_countEdge edgeDst (sched₁ (List.range numEdges))
    (fun _ => 0, fun _ => 0)
  refine ⟨fun e he => ?_, fun v => ?_⟩
  · rw [hcopy, if_pos ((h₁ _).mem_iff.mpr (List.mem_range.mpr he))]
  · rw [hcount, Nat.zero_add, inDegree, (h₁ _).countP_eq]

/-- **The slots of `u` hold the old edges into `u`**: taken in any order of the iterations, those
from `v` carry the data of the old edges `v → u`. -/
theorem into_filter_perm {order outs : List (ℕ × ℕ)} (hperm : order.Perm outs)
    {dstOld dst : ℕ → ℕ} (data : ℕ → E) {numNodes : ℕ} (hN : numNodes < 2 ^ 32)
    (hmem : ∀ x ∈ outs, x.1 < numNodes ∧ dstOld x.2 = dst x.2) (u v : ℕ) :
    ((((into dstOld order u).map fun x => (x.1 % 2 ^ 32, data x.2)).filter
        fun y => y.1 = v).map Prod.snd).Perm
      ((((outs.filter fun x => x.1 = v).map fun x => (dst x.2, data x.2)).filter
        fun y => y.1 = u).map Prod.snd) := by
  simp only [into, List.filter_map, List.map_map, List.filter_filter, Function.comp_def]
  -- on the iterations, the copied destination is the old one and the source fits in 32 bits
  have hcongr : ∀ x ∈ order, (decide ((x.1 % 2 ^ 32) = v) && decide (dstOld x.2 = u)) =
      (decide (dst x.2 = u) && decide (x.1 = v)) := by
    intro x hx
    obtain ⟨hx₁, hx₂⟩ := hmem x (hperm.mem_iff.mp hx)
    rw [Nat.mod_eq_of_lt (by omega), hx₂, Bool.and_comm]
  rw [List.filter_congr hcongr]
  exact (hperm.filter _).map _

theorem getD_map_range (f : ℕ → ℕ) (n q : ℕ) :
    ((List.range n).map f).getD q 0 = if q < n then f q else 0 := by
  rw [List.getD_eq_getElem?_getD, List.getElem?_map]
  by_cases hq : q < n
  · rw [List.getElem?_range hq, if_pos hq]
    rfl
  · rw [List.getElem?_eq_none (by simpa using hq), if_neg hq]
    rfl

/-- **The arrays the scatter leaves make a valid graph**, where node `u`'s edges are the
iterations into `u`, in the order taken: its slots start after the in-edges of the nodes before
it, and each holds a source below `numNodes`. -/
theorem transposed_spec [Inhabited E] {numNodes numEdges : ℕ} {indeg sums dstOld : ℕ → ℕ}
    {data : ℕ → E} {order : List (ℕ × ℕ)} {s : Scatter E} (hN : numNodes < 2 ^ 32)
    (htotal : sumBelow indeg numNodes = numEdges) (hzero : ∀ v, numNodes ≤ v → indeg v = 0)
    (hsums : ∀ m, m < numNodes → sums m = sumBelow indeg (m + 1))
    (hinv : ScatterInv dstOld data (fun n => if n = 0 then 0 else sums (n - 1)) order s)
    (hinto : ∀ v, (into dstOld order v).length = indeg v) (hsrc : ∀ x ∈ order, x.1 < numNodes) :
    let g' : CSRGraph E := ⟨(List.range numNodes).map sums, (List.range numEdges).map s.edgeDst,
      (List.range numEdges).map s.edgeData_new⟩
    CSRValid numNodes numEdges g' ∧
      ∀ u, g'.edges u = (into dstOld order u).map fun x => (x.1 % 2 ^ 32, data x.2) := by
  intro g'
  have hcursor : ∀ v, v ≤ numNodes → (if v = 0 then 0 else sums (v - 1)) = sumBelow indeg v := by
    intro v hv
    rcases Nat.eq_zero_or_pos v with rfl | hpos
    · rfl
    · rw [if_neg (Nat.pos_iff_ne_zero.mp hpos), hsums (v - 1) (by omega), Nat.sub_add_cancel hpos]
  -- node `v`'s slots hold the iterations into it
  have hslots : ∀ v, v < numNodes →
      (List.range' (sumBelow indeg v) (indeg v)).map (fun k => (s.edgeDst k, s.edgeData_new k)) =
        (into dstOld order v).map fun x => (x.1 % 2 ^ 32, data x.2) := by
    intro v hv
    rw [← hinto v, ← hcursor v hv.le]
    exact hinv.slots v
  have hend : ∀ v, v < numNodes → sumBelow indeg (v + 1) ≤ numEdges := fun v hv =>
    htotal ▸ sumBelow_mono indeg (by omega)
  have hedges : ∀ u, g'.edges u = (into dstOld order u).map fun x => (x.1 % 2 ^ 32, data x.2) := by
    intro u
    by_cases hu : u < numNodes
    · have hbegin : g'.edge_begin u = sumBelow indeg u := by
        rw [CSRGraph.edge_begin, ← hcursor u hu.le]
        split_ifs with h0
        · rfl
        · exact (getD_map_range sums numNodes (u - 1)).trans (if_pos (by omega))
      have hlen : g'.edge_end u - g'.edge_begin u = indeg u := by
        rw [hbegin, CSRGraph.edge_end]
        show ((List.range numNodes).map sums).getD u 0 - _ = _
        rw [getD_map_range, if_pos hu, hsums u hu, sumBelow_succ]
        omega
      rw [← hslots u hu, CSRGraph.edges, hlen, hbegin]
      refine List.map_congr_left fun k hk => ?_
      have hk' : k < numEdges := by
        have := List.mem_range'_1.mp hk
        have := hend u hu
        rw [sumBelow_succ] at this
        omega
      show (((List.range numEdges).map s.edgeDst).getD k 0,
        ((List.range numEdges).map s.edgeData_new).getD k default) = _
      rw [getD_map_range, if_pos hk', List.getD_eq_getElem?_getD, List.getElem?_map,
        List.getElem?_range hk']
      rfl
    · -- past the last node nothing ends, and no edge went into it
      have hnil : into dstOld order u = [] :=
        List.length_eq_zero_iff.mp ((hinto u).trans (hzero u (by omega)))
      have hend' : g'.edge_end u = 0 := by
        show ((List.range numNodes).map sums).getD u 0 = 0
        rw [getD_map_range, if_neg hu]
      rw [hnil, List.map_nil, CSRGraph.edges, hend', Nat.zero_sub]
      rfl
  refine ⟨⟨by simp [g'], by simp [g'], by simp [g'], ?_, ?_, fun d hd => ?_⟩, hedges⟩
  · -- the prefix sums do not decrease
    refine List.pairwise_map.mpr (List.pairwise_lt_range.imp_of_mem fun ha hb hab => ?_)
    rw [hsums _ (List.mem_range.mp ha), hsums _ (List.mem_range.mp hb)]
    exact sumBelow_mono indeg (by omega)
  · show ((List.range numNodes).map sums).getLastD 0 = numEdges
    rw [List.getLastD_eq_getLast?, List.getLast?_map, List.getLast?_range]
    split_ifs with h0
    · rw [← htotal, h0]
      rfl
    · rw [Option.map_some, Option.getD_some, hsums _ (by omega), Nat.sub_add_cancel
        (Nat.pos_of_ne_zero h0), htotal]
  · -- every slot lies in some node's block and holds a source below `numNodes`
    obtain ⟨k, hk, rfl⟩ := List.mem_map.mp hd
    obtain ⟨v, hv, hle, hlt⟩ :=
      exists_of_lt_sumBelow indeg (htotal ▸ List.mem_range.mp hk : k < sumBelow indeg numNodes)
    have hmem : (s.edgeDst k, s.edgeData_new k) ∈
        (into dstOld order v).map fun x => (x.1 % 2 ^ 32, data x.2) := by
      rw [← hslots v hv]
      rw [sumBelow_succ] at hlt
      exact List.mem_map_of_mem (List.mem_range'_1.mpr ⟨hle, hlt⟩)
    obtain ⟨x, hx, hxk⟩ := List.mem_map.mp hmem
    have hx₁ := hsrc x (List.mem_of_mem_filter hx)
    rw [← (Prod.mk.inj hxk).1, Nat.mod_eq_of_lt (by omega)]
    exact hx₁

theorem transpose_eq [Inhabited E] {numNodes numEdges fuel : ℕ} {g : CSRGraph E}
    {sched₁ : List ℕ → List ℕ} {sched₂ : List (ℕ × ℕ) → List (ℕ × ℕ)}
    {edgeDst_old counts sums : ℕ → ℕ}
    (hcount : (sched₁ (List.range numEdges)).foldl (countEdge fun e => g.edgeDst.getD e 0)
      (fun _ => 0, fun _ => 0) = (edgeDst_old, counts))
    (hloop : prefixSumLoop numNodes fuel 1 counts = some sums) :
    transpose numNodes numEdges g fuel sched₁ sched₂ =
      let s := (sched₂ (outEdges (fun n => g.edgeIndData.getD n 0) numNodes)).foldl
        (scatterEdge edgeDst_old fun e => g.edgeData.getD e default)
        ⟨fun n => if n = 0 then 0 else sums (n - 1), fun e => g.edgeDst.getD e 0, fun _ => default⟩
      some ⟨(List.range numNodes).map sums, (List.range numEdges).map s.edgeDst,
        (List.range numEdges).map s.edgeData_new⟩ := by
  rw [transpose, hcount]
  dsimp only
  rw [hloop]
  rfl


/-- **`transpose` transposes.** On a valid graph of fewer than `2 ^ 32` nodes, in every schedule of
its parallel loops and with fuel for its prefix sum loop, it ends with a valid graph of as many
nodes and edges, in which the edges `u → v` carry, in some order, the data of the old edges
`v → u`. -/
theorem transpose_spec [Inhabited E] {numNodes numEdges : ℕ} {g : CSRGraph E}
    (hN : numNodes < 2 ^ 32) (hg : CSRValid numNodes numEdges g)
    {sched₁ : List ℕ → List ℕ} {sched₂ : List (ℕ × ℕ) → List (ℕ × ℕ)}
    (h₁ : ∀ l, (sched₁ l).Perm l) (h₂ : ∀ l, (sched₂ l).Perm l) {fuel : ℕ}
    (hfuel : numNodes < fuel) :
    ∃ g', transpose numNodes numEdges g fuel sched₁ sched₂ = some g' ∧
      CSRValid numNodes numEdges g' ∧
      ∀ u v, (((g'.edges u).filter fun x => x.1 = v).map Prod.snd).Perm
        (((g.edges v).filter fun x => x.1 = u).map Prod.snd) := by
  set dst := fun e => g.edgeDst.getD e 0 with hdst
  set data := fun e => g.edgeData.getD e default with hdata
  -- the counting loop counts the in-edges
  obtain ⟨hcopy, hcounts⟩ := countEdge_phase dst numEdges h₁
  rcases hcount : (sched₁ (List.range numEdges)).foldl (countEdge dst) (fun _ => 0, fun _ => 0)
    with ⟨dstOld, counts⟩
  rw [hcount] at hcopy hcounts
  dsimp only at hcopy hcounts
  obtain rfl : counts = inDegree dst numEdges := funext hcounts
  set indeg := inDegree dst numEdges with hindeg
  have hzero : ∀ v, numNodes ≤ v → indeg v = 0 := fun v hv => by
    rw [hindeg, inDegree, List.countP_eq_zero]
    intro e he
    have := hg.dst_lt_of_lt (List.mem_range.mp he)
    simp only [dst, decide_eq_true_eq]
    omega
  have htotal : sumBelow indeg numNodes = numEdges := by
    have h := sumBelow_countP (f := dst) (n := numNodes)
      fun e he => hg.dst_lt_of_lt (List.mem_range.mp he)
    rw [List.length_range] at h
    exact h
  -- the prefix sum loop ends with the prefix sums
  obtain ⟨sums, hloop, hsums⟩ := prefixSumLoop_spec hN indeg fuel 1 indeg Nat.one_pos
    (by omega) (by omega)
    (fun m hm => by rw [Nat.lt_one_iff.mp hm, sumBelow_succ, sumBelow_zero, Nat.zero_add])
    (fun _ _ => rfl)
  set cursor := fun n => if n = 0 then 0 else sums (n - 1) with hcursor_def
  have hcursor : ∀ v, v ≤ numNodes → cursor v = sumBelow indeg v := by
    intro v hv
    rcases Nat.eq_zero_or_pos v with rfl | hpos
    · rfl
    · simp only [cursor, if_neg (Nat.pos_iff_ne_zero.mp hpos), hsums (v - 1) (by omega),
        Nat.sub_add_cancel hpos]
  -- the scatter, in the order `sched₂` takes the iterations
  set order := sched₂ (outEdges (fun n => g.edgeIndData.getD n 0) numNodes) with horder
  have houts : ∀ x ∈ outEdges (fun n => g.edgeIndData.getD n 0) numNodes,
      x.1 < numNodes ∧ x.2 < numEdges := by
    intro x hx
    have h₂' : x.2 ∈ List.range numEdges := hg.map_snd_outEdges ▸ List.mem_map_of_mem hx
    refine ⟨?_, List.mem_range.mp h₂'⟩
    simp only [outEdges, List.mem_flatMap, List.mem_range, List.mem_map] at hx
    obtain ⟨src, hsrc, e, -, rfl⟩ := hx
    exact hsrc
  have hinto : ∀ v, (into dstOld order v).length = indeg v := by
    intro v
    rw [into, ← List.countP_eq_length_filter, (h₂ _).countP_eq, hindeg, inDegree,
      ← hg.map_snd_outEdges, List.countP_map]
    refine List.countP_congr fun x hx => ?_
    simp only [Function.comp_apply, hcopy x.2 (houts x hx).2, dst]
  have hlayout : ∀ v w, v ≠ w → ∀ i j, i < indeg v → j < indeg w → cursor v + i ≠ cursor w + j := by
    intro v w hvw i j hi hj
    have hv : v < numNodes := Nat.lt_of_not_le fun h => by rw [hzero v h] at hi; omega
    have hw : w < numNodes := Nat.lt_of_not_le fun h => by rw [hzero w h] at hj; omega
    rw [hcursor v hv.le, hcursor w hw.le]
    exact sumBelow_add_ne indeg hvw hi hj
  have hrun := ScatterInv.run hlayout order [] (⟨cursor, dst, fun _ => default⟩ : Scatter E)
    (scatterInv_nil dst fun _ => default : ScatterInv dstOld data cursor [] ⟨cursor, dst, _⟩)
    (fun v => by rw [List.nil_append, hinto])
  rw [List.nil_append] at hrun
  obtain ⟨hvalid, hedges⟩ := transposed_spec hN htotal hzero hsums hrun hinto
    fun x hx => (houts x ((h₂ _).mem_iff.mp hx)).1
  refine ⟨_, transpose_eq hcount hloop, hvalid, fun u v => ?_⟩
  rw [hedges u, hg.edges_eq v]
  exact into_filter_perm (h₂ _) data hN
    (fun x hx => ⟨(houts x hx).1, hcopy x.2 (houts x hx).2⟩) u v

/-- Two nodes and the edge `0 → 1` with data `5`. -/
theorem transpose_spec_two_nodes :
    ∃ g', transpose 2 1 (⟨[1, 1], [1], [5]⟩ : CSRGraph ℕ) 3 id id = some g' ∧ CSRValid 2 1 g' ∧
      ∀ u v, (((g'.edges u).filter fun x => x.1 = v).map Prod.snd).Perm
        ((((⟨[1, 1], [1], [5]⟩ : CSRGraph ℕ).edges v).filter fun x => x.1 = u).map Prod.snd) := by
  exact @transpose_spec ℕ _ 2 1 ⟨[1, 1], [1], [5]⟩ (by decide)
    ⟨rfl, rfl, rfl, by decide, rfl, by decide⟩ id id (fun l => List.Perm.refl l)
    (fun l => List.Perm.refl l) 3 (by decide)

/-- While the prefix sum loop runs, `transpose` has no graph to give. -/
theorem transpose_of_loop_none [Inhabited E] {numNodes numEdges fuel : ℕ} {g : CSRGraph E}
    {sched₁ : List ℕ → List ℕ} {sched₂ : List (ℕ × ℕ) → List (ℕ × ℕ)}
    (h : ∀ counts, prefixSumLoop numNodes fuel 1 counts = none) :
    transpose numNodes numEdges g fuel sched₁ sched₂ = none := by
  rw [transpose]
  generalize (sched₁ (List.range numEdges)).foldl _ _ = r
  obtain ⟨edgeDst_old, counts⟩ := r
  dsimp only
  rw [h counts]
  rfl

/-- **A graph of `2 ^ 32` nodes is never transposed**: it is valid, with no edge, but the prefix
sum loop's `uint32_t` counter wraps from `2 ^ 32 - 1` to `0` before it reaches `numNodes`, in every
schedule and with any fuel. -/
theorem transpose_never_ends :
    CSRValid (2 ^ 32) 0 (⟨List.replicate (2 ^ 32) 0, [], []⟩ : CSRGraph Unit) ∧
      ∀ fuel sched₁ sched₂, transpose (2 ^ 32) 0
        (⟨List.replicate (2 ^ 32) 0, [], []⟩ : CSRGraph Unit) fuel sched₁ sched₂ = none := by
  refine ⟨⟨List.length_replicate, rfl, rfl, List.pairwise_replicate.mpr (Or.inr (Nat.le_refl 0)),
    ?_, fun d hd => absurd hd List.not_mem_nil⟩, fun fuel sched₁ sched₂ => ?_⟩
  · rw [List.getLastD_eq_getLast?, List.getLast?_replicate, if_neg (Nat.pos_iff_ne_zero.mp
      (Nat.two_pow_pos 32))]
    rfl
  · exact transpose_of_loop_none fun counts =>
      prefixSumLoop_wraps (Nat.le_refl _) fuel 1 counts (by decide)

end Galois.Graphs
