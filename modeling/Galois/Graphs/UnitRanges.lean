import Mathlib.Data.List.GetD
import Galois.Graphs.LCCSRGraph

/-!
# Unit ranges: `determineUnitRangesFromGraph` and `determineUnitRangesFromPrefixSum`

A vector `r` of `unitsToSplit + 1` offsets gives unit `i` the nodes `[r[i], r[i + 1])`. The
corner cases come first (`unitRangeCornerCaseHandle`: no node, one unit, more units than nodes);
otherwise the main loop asks `divideNodesBinarySearch` for each unit's nodes, with node weight
`nodeAlpha`, edge weight `1` and the range's first node as node offset, and keeps the end of each
range that is not empty.

* `unitRangesLoop` -- the main loop, shared by `determineUnitRangesLoopGraph` and
  `determineUnitRangesLoopPrefixSum`, which differ only in how they read the range's edges;
* `UnitRanges` -- what the vector should be: `r[0] = beginNode`, `r[unitsToSplit] = endNode`,
  in order; then every node of the range falls in exactly one unit's (`UnitRanges.existsUnique`);
* `unitRangesLoop_spec` -- the loop's vector is such, and each unit's range starts where the
  range before it ends;
* `unitRanges_remainder_iff` -- with more units than nodes after a first node `beginNode > 0`,
  the units past the last node are given `totalNodes`, a count, where `endNode` is due;
* `determineUnitRanges_range_iff` -- the range overloads give unit ranges exactly outside that
  case, and the overloads over all nodes always do (`determineUnitRanges_all`);
* `determineUnitRangesFromGraph_two_masters` -- the case as `DistGraph` meets it, two masters
  from node `2` on four threads.

Offsets are `uint32_t` in the source, and so is `unitsToSplit + 1`, the vector's size: the
theorems take `unitsToSplit + 1 < 2 ^ 32`, below which it does not wrap. The overloads over all
nodes cut the node count to `uint32_t`, and the main loop weighs in `uint64_t`, through
`divideNodesBinarySearch64`: the theorems take a range whose weight, `endNode * nodeAlpha` and
one more than the edges before `endNode`, leaves `2 ^ 32` below `2 ^ 64`.
-/

namespace Galois.Graphs

open Cusp

/-! ## 1. The model -/

/-- `unitRangeCornerCaseHandle(unitsToSplit, beginNode, endNode, returnRanges)`: the vector of a
corner case, or `none` when there is none and the main loop must run. -/
def unitRangeCornerCaseHandle (unitsToSplit beginNode endNode : ℕ) : Option (List ℕ) :=
  let totalNodes := endNode - beginNode
  if beginNode = endNode then
    -- no nodes: assign nothing to all units
    some (beginNode :: List.replicate unitsToSplit beginNode)
  else if unitsToSplit = 1 then
    some [beginNode, endNode]
  else if totalNodes < unitsToSplit then
    -- one node for units until out of units, then `returnRanges[i + 1] = totalNodes`
    some ((beginNode :: (List.range totalNodes).map (beginNode + · + 1)) ++
      List.replicate (unitsToSplit - totalNodes) totalNodes)
  else none

/-- The body of the main loop for a unit that `divideNodesBinarySearch` gives the nodes
`nodeSplits` (local ids): the end of its range, shifted by `beginNode`, or the end of the range
before when it gets no node. -/
def unitRangeEnd (beginNode : ℕ) (nodeSplits : ℕ × ℕ) (prev : ℕ) : ℕ :=
  if nodeSplits.1 ≠ nodeSplits.2 then nodeSplits.2 + beginNode else prev

/-- The node range `divideNodesBinarySearch<GraphTy, uint32_t>` gives unit `i` of `unitsToSplit`
in the main loop: `numNodesInRange` nodes from `beginNode` on, node weight `nodeAlpha`, edge
weight `1`, no scale factor. -/
def unitSplit (edgePrefixSum : ℕ → ℕ) (unitsToSplit beginNode endNode numEdgesInRange edgeOffset
    nodeAlpha i : ℕ) : ℕ × ℕ :=
  (divideNodesBinarySearch64 (endNode - beginNode) numEdgesInRange nodeAlpha 1 i unitsToSplit
    edgePrefixSum [] edgeOffset beginNode).1

/-- The main loop of `determineUnitRangesLoopGraph` and `determineUnitRangesLoopPrefixSum` over
the prefix sum `edgePrefixSum`: `returnRanges[0] = beginNode`, then `returnRanges[i + 1]` for
each unit `i` in turn. -/
def unitRangesLoop (edgePrefixSum : ℕ → ℕ) (unitsToSplit beginNode endNode numEdgesInRange
    edgeOffset nodeAlpha : ℕ) : List ℕ :=
  (List.range unitsToSplit).scanl (fun prev i => unitRangeEnd beginNode
    (unitSplit edgePrefixSum unitsToSplit beginNode endNode numEdgesInRange edgeOffset nodeAlpha
      i) prev) beginNode

/-- `determineUnitRangesLoopGraph(graph, unitsToSplit, beginNode, endNode, returnRanges,
nodeAlpha)`: the graph is its own prefix sum (`graph[n]` is `*edge_end(n)`), and the range's
edges run from `edge_begin(beginNode)` to `edge_end(endNode - 1)`. -/
def determineUnitRangesLoopGraph {E : Type} (graph : CSRGraph E)
    (unitsToSplit beginNode endNode nodeAlpha : ℕ) : List ℕ :=
  unitRangesLoop graph.edge_end unitsToSplit beginNode endNode
    (graph.edge_end (endNode - 1) - graph.edge_begin beginNode) (graph.edge_begin beginNode)
    nodeAlpha

/-- `determineUnitRangesLoopPrefixSum(prefixSum, unitsToSplit, beginNode, endNode, returnRanges,
nodeAlpha)`: the range's edges are read off the prefix sum, after `prefixSum[beginNode - 1]`
(from the start for node `0`). -/
def determineUnitRangesLoopPrefixSum (prefixSum : List ℕ)
    (unitsToSplit beginNode endNode nodeAlpha : ℕ) : List ℕ :=
  let (numEdgesInRange, edgeOffset) :=
    if beginNode ≠ 0 then
      (prefixSum.getD (endNode - 1) 0 - prefixSum.getD (beginNode - 1) 0,
        prefixSum.getD (beginNode - 1) 0)
    else (prefixSum.getD (endNode - 1) 0, 0)
  unitRangesLoop (prefixSum.getD · 0) unitsToSplit beginNode endNode numEdgesInRange edgeOffset
    nodeAlpha

/-- `determineUnitRangesFromGraph(graph, unitsToSplit, beginNode, endNode, nodeAlpha)`, the
overload over the nodes `[beginNode, endNode)`. -/
def determineUnitRangesFromGraphRange {E : Type} (graph : CSRGraph E)
    (unitsToSplit beginNode endNode nodeAlpha : ℕ) : List ℕ :=
  (unitRangeCornerCaseHandle unitsToSplit beginNode endNode).getD
    (determineUnitRangesLoopGraph graph unitsToSplit beginNode endNode nodeAlpha)

/-- `determineUnitRangesFromGraph(graph, unitsToSplit, nodeAlpha)`: the same calls over the
`uint32_t totalNodes = graph.size()` nodes, from node `0`. -/
def determineUnitRangesFromGraph {E : Type} (graph : CSRGraph E) (unitsToSplit nodeAlpha : ℕ) :
    List ℕ :=
  determineUnitRangesFromGraphRange graph unitsToSplit 0 (graph.edgeIndData.length % 2 ^ 32)
    nodeAlpha

/-- `determineUnitRangesFromPrefixSum(unitsToSplit, edgePrefixSum, beginNode, endNode,
nodeAlpha)`, the overload over the nodes `[beginNode, endNode)`. -/
def determineUnitRangesFromPrefixSumRange (unitsToSplit : ℕ) (edgePrefixSum : List ℕ)
    (beginNode endNode nodeAlpha : ℕ) : List ℕ :=
  (unitRangeCornerCaseHandle unitsToSplit beginNode endNode).getD
    (determineUnitRangesLoopPrefixSum edgePrefixSum unitsToSplit beginNode endNode nodeAlpha)

/-- `determineUnitRangesFromPrefixSum(unitsToSplit, edgePrefixSum, nodeAlpha)`: all zeros where
`uint32_t numNodes = edgePrefixSum.size()` is zero, and otherwise the main loop over all its nodes,
with no other corner case. -/
def determineUnitRangesFromPrefixSum (unitsToSplit : ℕ) (edgePrefixSum : List ℕ)
    (nodeAlpha : ℕ) : List ℕ :=
  let numNodes := edgePrefixSum.length % 2 ^ 32
  if numNodes = 0 then 0 :: List.replicate unitsToSplit 0
  else
    unitRangesLoop (edgePrefixSum.getD · 0) unitsToSplit 0 numNodes
      (edgePrefixSum.getD (numNodes - 1) 0) 0 nodeAlpha

/-! ## 2. Unit ranges -/

/-- What a unit-range vector should be: `unitsToSplit + 1` offsets in order from `beginNode` to
`endNode`, so that the ranges `[r[i], r[i + 1])` cover `[beginNode, endNode)` in order. -/
structure UnitRanges (unitsToSplit beginNode endNode : ℕ) (r : List ℕ) : Prop where
  length_eq : r.length = unitsToSplit + 1
  head_eq : r.getD 0 0 = beginNode
  last_eq : r.getD unitsToSplit 0 = endNode
  mono : ∀ i, i < unitsToSplit → r.getD i 0 ≤ r.getD (i + 1) 0

section UnitRanges

variable {unitsToSplit beginNode endNode : ℕ} {r : List ℕ}

theorem UnitRanges.le_of_le (h : UnitRanges unitsToSplit beginNode endNode r) {i j : ℕ}
    (hij : i ≤ j) (hj : j ≤ unitsToSplit) : r.getD i 0 ≤ r.getD j 0 := by
  induction j, hij using Nat.le_induction with
  | base => exact Nat.le_refl _
  | succ j _ ih => exact Nat.le_trans (ih (by omega)) (h.mono j (by omega))

/-- **Unit ranges partition the range**: every node of `[beginNode, endNode)` falls in exactly
one unit's range. -/
theorem UnitRanges.existsUnique (h : UnitRanges unitsToSplit beginNode endNode r) {v : ℕ}
    (hb : beginNode ≤ v) (he : v < endNode) :
    ∃! i, i < unitsToSplit ∧ r.getD i 0 ≤ v ∧ v < r.getD (i + 1) 0 := by
  have hu : 0 < unitsToSplit := by
    rcases Nat.eq_zero_or_pos unitsToSplit with h0 | h0
    · have := h.last_eq
      rw [h0, h.head_eq] at this
      omega
    · exact h0
  -- the first unit whose range ends past `v`
  have hex : ∃ i, v < r.getD (i + 1) 0 := ⟨unitsToSplit - 1, by
    rw [Nat.sub_add_cancel hu, h.last_eq]; exact he⟩
  classical
  refine ⟨Nat.find hex, ⟨?_, ?_, Nat.find_spec hex⟩, ?_⟩
  · exact Nat.lt_of_le_of_lt (Nat.find_min' hex (by rw [Nat.sub_add_cancel hu, h.last_eq]; exact he))
      (Nat.sub_lt hu Nat.one_pos)
  · rcases Nat.eq_zero_or_pos (Nat.find hex) with h0 | h0
    · rw [h0, h.head_eq]
      exact hb
    · have hmin := Nat.find_min hex (Nat.sub_lt h0 Nat.one_pos)
      rw [Nat.sub_add_cancel h0] at hmin
      exact Nat.le_of_not_lt hmin
  · rintro j ⟨hj, hjv, hvj⟩
    have hle : Nat.find hex ≤ j := Nat.find_min' hex hvj
    rcases Nat.lt_or_eq_of_le hle with hlt | heq
    · -- a later unit starts at or after the end of the first one
      have hstart : r.getD (Nat.find hex + 1) 0 ≤ r.getD j 0 := h.le_of_le hlt (Nat.le_of_lt hj)
      have hend : v < r.getD (Nat.find hex + 1) 0 := Nat.find_spec hex
      omega
    · exact heq.symm

end UnitRanges

/-! ## 3. The main loop -/

section Loop

variable {edgePrefixSum : ℕ → ℕ} {unitsToSplit beginNode endNode numEdgesInRange edgeOffset
  nodeAlpha : ℕ}

/-- A unit's range end is the end of its node range, when the vector so far stands at its
start. -/
theorem unitRangeEnd_eq {s : ℕ × ℕ} {prev : ℕ} (hprev : prev = beginNode + s.1) :
    unitRangeEnd beginNode s prev = beginNode + s.2 := by
  unfold unitRangeEnd
  split_ifs with h
  · omega
  · rw [hprev, Decidable.of_not_not h]

theorem length_unitRangesLoop :
    (unitRangesLoop edgePrefixSum unitsToSplit beginNode endNode numEdgesInRange edgeOffset
      nodeAlpha).length = unitsToSplit + 1 := by
  rw [unitRangesLoop, List.length_scanl, List.length_range]

section Spec

variable (nodeAlpha) (hlt : beginNode < endNode) (hunits : 0 < unitsToSplit)
  (hunits32 : unitsToSplit < 2 ^ 32)
  (hmono : ∀ i j, i ≤ j → j + 1 < endNode → edgePrefixSum i ≤ edgePrefixSum j)
  (hoff : ∀ i, beginNode ≤ i + 1 → i < endNode →
    edgeOffset ≤ edgePrefixSum i ∧ edgePrefixSum i - edgeOffset ≤ numEdgesInRange)
  (hfit : (endNode - beginNode) * nodeAlpha + (numEdgesInRange + 1) + 2 ^ 32 ≤ 2 ^ 64)
include hlt hunits hunits32 hmono hoff hfit

/-- The node ranges `divideNodesBinarySearch` gives the units follow one another from the
range's first node to its last. -/
theorem unitSplit_contiguous :
    let split := unitSplit edgePrefixSum unitsToSplit beginNode endNode numEdgesInRange edgeOffset
      nodeAlpha
    (split 0).1 = 0 ∧ (∀ i, i < unitsToSplit → (split i).1 ≤ (split i).2) ∧
      (∀ i, i + 1 < unitsToSplit → (split i).2 = (split (i + 1)).1) ∧
      (split (unitsToSplit - 1)).2 = endNode - beginNode := by
  intro split
  have hend : endNode - beginNode + beginNode = endNode := Nat.sub_add_cancel (Nat.le_of_lt hlt)
  -- in the main loop no weight wraps, so the search in words is the one in `ℕ`
  have hr : ∀ i, split i = (divideNodesBinarySearch (endNode - beginNode) numEdgesInRange
      nodeAlpha 1 i unitsToSplit edgePrefixSum [] edgeOffset beginNode).1 := fun i =>
    congrArg Prod.fst (divideNodesBinarySearch64_eq hunits32 (.inl rfl) (Or.inr Nat.one_pos)
      (by omega) (fun j h₁ h₂ => hoff j h₁ (by omega)) (by omega) i)
  simp only [hr]
  exact divideNodes_partition (Nat.sub_pos_of_lt hlt) (Or.inr Nat.one_pos)
    (fun i j hij hj => hmono i j hij (by omega)) (fun i h₁ h₂ => (hoff i h₁ (by omega)).2)
    (blockDivision_nil hunits)

/-- **The main loop gives unit ranges**, and each unit's range starts where its node range from
`divideNodesBinarySearch` starts: the loop's `assert(returnRanges[i] == *(nodeSplits.first) +
beginNode)`. -/
theorem unitRangesLoop_spec :
    let split := unitSplit edgePrefixSum unitsToSplit beginNode endNode numEdgesInRange edgeOffset
      nodeAlpha
    let r := unitRangesLoop edgePrefixSum unitsToSplit beginNode endNode numEdgesInRange
      edgeOffset nodeAlpha
    UnitRanges unitsToSplit beginNode endNode r ∧
      ∀ i, i < unitsToSplit → r.getD i 0 = beginNode + (split i).1 := by
  intro split r
  obtain ⟨hfirst, hin, hnext, hlast⟩ :=
    unitSplit_contiguous nodeAlpha hlt hunits hunits32 hmono hoff hfit
  have hlen : r.length = unitsToSplit + 1 := length_unitRangesLoop
  have h0 : r.getD 0 0 = beginNode := by
    rw [List.getD_eq_getElem _ _ (by omega)]
    exact List.getElem_scanl_zero
  -- the vector after unit `i` stands at the end of its node range
  have hsucc : ∀ i, i < unitsToSplit → r.getD (i + 1) 0 = beginNode + (split i).2 := by
    intro i
    induction i with
    | zero =>
      intro _
      rw [List.getD_eq_getElem _ _ (by omega)]
      simp only [r, unitRangesLoop]
      rw [List.getElem_succ_scanl, List.getElem_scanl_zero, List.getElem_range]
      exact unitRangeEnd_eq (by rw [hfirst, Nat.add_zero])
    | succ i ih =>
      intro hi
      have hprev := ih (by omega)
      rw [List.getD_eq_getElem _ _ (by omega)] at hprev ⊢
      simp only [r, unitRangesLoop] at hprev ⊢
      rw [List.getElem_succ_scanl, List.getElem_range]
      exact unitRangeEnd_eq (by rw [hprev, hnext i hi])
  have hstart : ∀ i, i < unitsToSplit → r.getD i 0 = beginNode + (split i).1 := by
    intro i hi
    rcases i with _ | i
    · rw [h0, hfirst, Nat.add_zero]
    · rw [hsucc i (by omega), hnext i hi]
  refine ⟨⟨hlen, h0, ?_, fun i hi => ?_⟩, hstart⟩
  · rw [← Nat.sub_add_cancel hunits, hsucc _ (Nat.sub_lt hunits Nat.one_pos), hlast]
    omega
  · rw [hstart i hi, hsucc i hi]
    exact Nat.add_le_add_left (hin i hi) _

end Spec

end Loop

/-! ## 4. The corner cases -/

section Corner

variable {unitsToSplit beginNode endNode : ℕ}

/-- The vector of the corner case with more units than nodes reads `beginNode + i` up to the last
node, then the remainder's value. -/
theorem getD_remainderRanges (beginNode totalNodes k i : ℕ) :
    ((beginNode :: (List.range totalNodes).map (beginNode + · + 1)) ++
      List.replicate k totalNodes).getD i 0 =
      if i ≤ totalNodes then beginNode + i else if i ≤ totalNodes + k then totalNodes else 0 := by
  have hlen : (beginNode :: (List.range totalNodes).map (beginNode + · + 1)).length =
      totalNodes + 1 := by
    rw [List.length_cons, List.length_map, List.length_range]
  split_ifs with h1 h2
  · rw [List.getD_append _ _ _ _ (by omega)]
    rcases i with _ | i
    · rfl
    · have hi : i < ((List.range totalNodes).map (beginNode + · + 1)).length := by
        rw [List.length_map, List.length_range]
        omega
      rw [List.getD_cons_succ, List.getD_eq_getElem _ _ hi, List.getElem_map, List.getElem_range]
      omega
  · rw [List.getD_append_right _ _ _ _ (by omega), hlen]
    exact List.getD_replicate _ (by omega)
  · exact List.getD_eq_default _ _ (by rw [List.length_append, hlen, List.length_replicate]; omega)

theorem unitRanges_noNodes : UnitRanges unitsToSplit beginNode beginNode
    (beginNode :: List.replicate unitsToSplit beginNode) := by
  have hread : ∀ i, i ≤ unitsToSplit →
      (beginNode :: List.replicate unitsToSplit beginNode).getD i 0 = beginNode := by
    intro i hi
    rcases i with _ | i
    · rfl
    · rw [List.getD_cons_succ]
      exact List.getD_replicate _ (by omega)
  refine ⟨by rw [List.length_cons, List.length_replicate], hread 0 (Nat.zero_le _),
    hread _ (Nat.le_refl _), fun i hi => ?_⟩
  rw [hread i (by omega), hread (i + 1) hi]

theorem unitRanges_oneUnit (hbe : beginNode ≤ endNode) :
    UnitRanges 1 beginNode endNode [beginNode, endNode] :=
  ⟨rfl, rfl, rfl, fun i hi => by rw [Nat.lt_one_iff.mp hi]; exact hbe⟩

/-- **With more units than nodes, the vector is a unit-range vector only from node `0`**: past
the last node the units are given `totalNodes`, which is `endNode` only when `beginNode = 0`. -/
theorem unitRanges_remainder_iff (hlt : beginNode < endNode)
    (hmore : endNode - beginNode < unitsToSplit) :
    UnitRanges unitsToSplit beginNode endNode
      ((beginNode :: (List.range (endNode - beginNode)).map (beginNode + · + 1)) ++
        List.replicate (unitsToSplit - (endNode - beginNode)) (endNode - beginNode)) ↔
      beginNode = 0 := by
  have hread := getD_remainderRanges beginNode (endNode - beginNode)
    (unitsToSplit - (endNode - beginNode))
  constructor
  · intro h
    have hlast := h.last_eq
    rw [hread, if_neg (by omega), if_pos (by omega)] at hlast
    omega
  · intro hb
    refine ⟨?_, by rw [hread, if_pos (Nat.zero_le _), Nat.add_zero], ?_, fun i hi => ?_⟩
    · rw [List.length_append, List.length_cons, List.length_map, List.length_range,
        List.length_replicate]
      omega
    · rw [hread, if_neg (by omega), if_pos (by omega)]
      omega
    · rw [hread, hread]
      split_ifs <;> omega

end Corner

/-! ## 5. The four overloads -/

section Overloads

variable {unitsToSplit beginNode endNode nodeAlpha : ℕ} {prefixSum : List ℕ}

/-- A prefix sum that does not decrease, read through `getD` below its length. -/
theorem getD_le_getD_of_pairwise (hmono : prefixSum.Pairwise (· ≤ ·)) {i j : ℕ} (hij : i ≤ j)
    (hj : j < prefixSum.length) : prefixSum.getD i 0 ≤ prefixSum.getD j 0 := by
  rw [List.getD_eq_getElem _ _ (by omega), List.getD_eq_getElem _ _ hj]
  rcases Nat.lt_or_eq_of_le hij with hlt | rfl
  · exact List.pairwise_iff_getElem.mp hmono i j (by omega) hj hlt
  · exact Nat.le_refl _

/-- The main loop over a prefix sum that does not decrease and covers the range gives unit
ranges, where its weight fits. -/
theorem determineUnitRangesLoopPrefixSum_spec (hlt : beginNode < endNode)
    (hunits : 0 < unitsToSplit) (hunits32 : unitsToSplit < 2 ^ 32)
    (hlen : endNode ≤ prefixSum.length) (hmono : prefixSum.Pairwise (· ≤ ·))
    (hfit : endNode * nodeAlpha + prefixSum.getD (endNode - 1) 0 + 1 + 2 ^ 32 ≤ 2 ^ 64) :
    UnitRanges unitsToSplit beginNode endNode
      (determineUnitRangesLoopPrefixSum prefixSum unitsToSplit beginNode endNode nodeAlpha) := by
  have hle : ∀ i j, i ≤ j → j + 1 < endNode → prefixSum.getD i 0 ≤ prefixSum.getD j 0 :=
    fun i j hij hj => getD_le_getD_of_pairwise hmono hij (by omega)
  have hlast : ∀ i, i < endNode → prefixSum.getD i 0 ≤ prefixSum.getD (endNode - 1) 0 :=
    fun i hi => getD_le_getD_of_pairwise hmono (by omega) (by omega)
  have hnodes : (endNode - beginNode) * nodeAlpha ≤ endNode * nodeAlpha :=
    Nat.mul_le_mul_right _ (Nat.sub_le _ _)
  unfold determineUnitRangesLoopPrefixSum
  by_cases hb : beginNode ≠ 0
  · -- the range's edges are read past `prefixSum[beginNode - 1]`
    have hoff : ∀ i, beginNode ≤ i + 1 → i < endNode →
        prefixSum.getD (beginNode - 1) 0 ≤ prefixSum.getD i 0 ∧
        prefixSum.getD i 0 - prefixSum.getD (beginNode - 1) 0 ≤
          prefixSum.getD (endNode - 1) 0 - prefixSum.getD (beginNode - 1) 0 := fun i h₁ h₂ =>
      ⟨getD_le_getD_of_pairwise hmono (by omega) (by omega),
        Nat.sub_le_sub_right (hlast i h₂) _⟩
    rw [if_pos hb]
    exact (unitRangesLoop_spec nodeAlpha hlt hunits hunits32 hle hoff (by omega)).1
  · rw [if_neg hb]
    exact (unitRangesLoop_spec nodeAlpha hlt hunits hunits32 hle
      (fun i _ hi => ⟨Nat.zero_le _, by rw [Nat.sub_zero]; exact hlast i hi⟩) (by omega)).1

/-- The corner cases, then the loop: the range overload over a prefix sum. -/
theorem determineUnitRangesFromPrefixSumRange_eq :
    determineUnitRangesFromPrefixSumRange unitsToSplit prefixSum beginNode endNode nodeAlpha =
      if beginNode = endNode then beginNode :: List.replicate unitsToSplit beginNode
      else if unitsToSplit = 1 then [beginNode, endNode]
      else if endNode - beginNode < unitsToSplit then
        (beginNode :: (List.range (endNode - beginNode)).map (beginNode + · + 1)) ++
          List.replicate (unitsToSplit - (endNode - beginNode)) (endNode - beginNode)
      else determineUnitRangesLoopPrefixSum prefixSum unitsToSplit beginNode endNode nodeAlpha := by
  unfold determineUnitRangesFromPrefixSumRange unitRangeCornerCaseHandle
  dsimp only
  split_ifs <;> rfl

/-- **The range overload over a prefix sum gives unit ranges exactly outside one corner case**:
from node `0`, over no node, to one unit, or to no more units than nodes. -/
theorem determineUnitRangesFromPrefixSumRange_iff (hbe : beginNode ≤ endNode)
    (hunits : 0 < unitsToSplit) (hunits32 : unitsToSplit < 2 ^ 32)
    (hlen : endNode ≤ prefixSum.length) (hmono : prefixSum.Pairwise (· ≤ ·))
    (hfit : endNode * nodeAlpha + prefixSum.getD (endNode - 1) 0 + 1 + 2 ^ 32 ≤ 2 ^ 64) :
    UnitRanges unitsToSplit beginNode endNode
        (determineUnitRangesFromPrefixSumRange unitsToSplit prefixSum beginNode endNode
          nodeAlpha) ↔
      beginNode = 0 ∨ beginNode = endNode ∨ unitsToSplit = 1 ∨
        unitsToSplit ≤ endNode - beginNode := by
  rw [determineUnitRangesFromPrefixSumRange_eq]
  split_ifs with he h1 hmore
  · exact iff_of_true (he ▸ unitRanges_noNodes) (.inr (.inl he))
  · exact iff_of_true (h1 ▸ unitRanges_oneUnit hbe) (.inr (.inr (.inl h1)))
  · rw [unitRanges_remainder_iff (by omega) hmore]
    omega
  · exact iff_of_true
      (determineUnitRangesLoopPrefixSum_spec (by omega) hunits hunits32 hlen hmono hfit)
      (.inr (.inr (.inr (by omega))))

/-- The graph's loop is the prefix-sum loop over the graph's own `edgeIndData`: `edge_end` reads
it, and `edge_begin` reads the entry before. -/
theorem determineUnitRangesLoopGraph_eq {E : Type} (graph : CSRGraph E) :
    determineUnitRangesLoopGraph graph unitsToSplit beginNode endNode nodeAlpha =
      determineUnitRangesLoopPrefixSum graph.edgeIndData unitsToSplit beginNode endNode
        nodeAlpha := by
  unfold determineUnitRangesLoopGraph determineUnitRangesLoopPrefixSum CSRGraph.edge_begin
  by_cases hb : beginNode = 0
  · rw [if_pos hb, if_neg (not_not.mpr hb), Nat.sub_zero]
    rfl
  · rw [if_neg hb, if_pos hb]
    rfl

theorem determineUnitRangesFromGraphRange_eq {E : Type} (graph : CSRGraph E) :
    determineUnitRangesFromGraphRange graph unitsToSplit beginNode endNode nodeAlpha =
      determineUnitRangesFromPrefixSumRange unitsToSplit graph.edgeIndData beginNode endNode
        nodeAlpha := by
  rw [determineUnitRangesFromGraphRange, determineUnitRangesLoopGraph_eq]
  rfl

/-- **The range overloads give unit ranges exactly outside one corner case**, over a prefix sum
and over a graph whose `edgeIndData` does not decrease and covers the range: from node `0`, over
no node, to one unit, or to no more units than nodes. The vector's size `unitsToSplit + 1` fits in
`uint32_t`, and the range's weight leaves `2 ^ 32` below `2 ^ 64`. -/
theorem determineUnitRanges_range_iff {E : Type} {graph : CSRGraph E}
    (hbe : beginNode ≤ endNode) (hunits : 0 < unitsToSplit) (hunits32 : unitsToSplit + 1 < 2 ^ 32)
    (hlen : endNode ≤ prefixSum.length) (hmono : prefixSum.Pairwise (· ≤ ·))
    (hfit : endNode * nodeAlpha + prefixSum.getD (endNode - 1) 0 + 1 + 2 ^ 32 ≤ 2 ^ 64)
    (hglen : endNode ≤ graph.edgeIndData.length) (hgraph : graph.edgeIndData.Pairwise (· ≤ ·))
    (hgfit : endNode * nodeAlpha + graph.edgeIndData.getD (endNode - 1) 0 + 1 + 2 ^ 32 ≤ 2 ^ 64) :
    (UnitRanges unitsToSplit beginNode endNode
        (determineUnitRangesFromPrefixSumRange unitsToSplit prefixSum beginNode endNode
          nodeAlpha) ↔
      beginNode = 0 ∨ beginNode = endNode ∨ unitsToSplit = 1 ∨
        unitsToSplit ≤ endNode - beginNode) ∧
    (UnitRanges unitsToSplit beginNode endNode
        (determineUnitRangesFromGraphRange graph unitsToSplit beginNode endNode nodeAlpha) ↔
      beginNode = 0 ∨ beginNode = endNode ∨ unitsToSplit = 1 ∨
        unitsToSplit ≤ endNode - beginNode) := by
  refine ⟨determineUnitRangesFromPrefixSumRange_iff hbe hunits (by omega) hlen hmono hfit, ?_⟩
  rw [determineUnitRangesFromGraphRange_eq]
  exact determineUnitRangesFromPrefixSumRange_iff hbe hunits (by omega) hglen hgraph hgfit

/-- Four nodes in two units, over the graph and over its prefix sum. -/
theorem determineUnitRanges_range_iff_four_nodes :
    UnitRanges 2 0 4 (determineUnitRangesFromPrefixSumRange 2 [1, 2, 3, 4] 0 4 0) ∧
      UnitRanges 2 0 4 (determineUnitRangesFromGraphRange
        (⟨[1, 2, 3, 4], [1, 0, 3, 2], [(), (), (), ()]⟩ : CSRGraph Unit) 2 0 4 0) :=
  have h := determineUnitRanges_range_iff (by decide) (by decide) (by decide) (by decide)
    (by decide) (by decide) (by decide) (by decide) (by decide)
  ⟨h.1.mpr (.inl rfl), h.2.mpr (.inl rfl)⟩

/-- **The overloads over all nodes give unit ranges**, for a graph whose `edgeIndData` and for a
prefix sum that does not decrease, so that every node falls in exactly one unit's range. The
vector's size `unitsToSplit + 1` and the node count fit in `uint32_t`, and the nodes' weight leaves
`2 ^ 32` below `2 ^ 64`. -/
theorem determineUnitRanges_all {E : Type} {graph : CSRGraph E} (hunits : 0 < unitsToSplit)
    (hunits32 : unitsToSplit + 1 < 2 ^ 32) (hgraph : graph.edgeIndData.Pairwise (· ≤ ·))
    (hglen : graph.edgeIndData.length < 2 ^ 32)
    (hgfit : graph.edgeIndData.length * nodeAlpha +
      graph.edgeIndData.getD (graph.edgeIndData.length - 1) 0 + 1 + 2 ^ 32 ≤ 2 ^ 64)
    (hmono : prefixSum.Pairwise (· ≤ ·)) (hlen : prefixSum.length < 2 ^ 32)
    (hfit : prefixSum.length * nodeAlpha + prefixSum.getD (prefixSum.length - 1) 0 + 1 + 2 ^ 32 ≤
      2 ^ 64) :
    let r := determineUnitRangesFromGraph graph unitsToSplit nodeAlpha
    let r' := determineUnitRangesFromPrefixSum unitsToSplit prefixSum nodeAlpha
    (UnitRanges unitsToSplit 0 graph.edgeIndData.length r ∧
      ∀ v, v < graph.edgeIndData.length →
        ∃! i, i < unitsToSplit ∧ r.getD i 0 ≤ v ∧ v < r.getD (i + 1) 0) ∧
    (UnitRanges unitsToSplit 0 prefixSum.length r' ∧
      ∀ v, v < prefixSum.length →
        ∃! i, i < unitsToSplit ∧ r'.getD i 0 ≤ v ∧ v < r'.getD (i + 1) 0) := by
  intro r r'
  have hcover : ∀ {n : ℕ} {q : List ℕ}, UnitRanges unitsToSplit 0 n q →
      UnitRanges unitsToSplit 0 n q ∧
        ∀ v, v < n → ∃! i, i < unitsToSplit ∧ q.getD i 0 ≤ v ∧ v < q.getD (i + 1) 0 :=
    fun h => ⟨h, fun _ hv => h.existsUnique (Nat.zero_le _) hv⟩
  refine ⟨hcover ?_, hcover ?_⟩
  · dsimp only [r]
    rw [determineUnitRangesFromGraph, Nat.mod_eq_of_lt hglen, determineUnitRangesFromGraphRange_eq]
    exact (determineUnitRangesFromPrefixSumRange_iff (Nat.zero_le _) hunits (by omega)
      (Nat.le_refl _) hgraph hgfit).mpr (.inl rfl)
  · dsimp only [r']
    unfold determineUnitRangesFromPrefixSum
    dsimp only
    rw [Nat.mod_eq_of_lt hlen]
    split_ifs with h0
    · rw [h0]
      exact unitRanges_noNodes
    · exact determineUnitRangesLoopPrefixSum_spec (Nat.pos_of_ne_zero h0) hunits (by omega)
        (Nat.le_refl _) hmono hfit

/-- Four nodes in two units, over a graph and over a prefix sum. -/
theorem determineUnitRanges_all_four_nodes :
    let r := determineUnitRangesFromGraph
      (⟨[1, 2, 3, 4], [1, 0, 3, 2], [(), (), (), ()]⟩ : CSRGraph Unit) 2 0
    let r' := determineUnitRangesFromPrefixSum 2 [1, 2, 3, 4] 0
    (UnitRanges 2 0 4 r ∧ ∀ v, v < 4 → ∃! i, i < 2 ∧ r.getD i 0 ≤ v ∧ v < r.getD (i + 1) 0) ∧
      (UnitRanges 2 0 4 r' ∧ ∀ v, v < 4 → ∃! i, i < 2 ∧ r'.getD i 0 ≤ v ∧ v < r'.getD (i + 1) 0) :=
  @determineUnitRanges_all 2 0 [1, 2, 3, 4] Unit ⟨[1, 2, 3, 4], [1, 0, 3, 2], [(), (), (), ()]⟩
    (by decide) (by decide) (by decide) (by decide) (by decide) (by decide) (by decide)
    (by decide)

end Overloads

/-- **Two masters from node `2` on four threads, as `determineThreadRangesMaster` asks**: the corner
case for more units than nodes gives units `2` and `3` the count `2` where `endNode = 4` is due,
so the vector ends at `2`, and falls from `4` to `2` after unit `1`. -/
theorem determineUnitRangesFromGraph_two_masters :
    determineUnitRangesFromGraphRange
        (⟨[1, 2, 3, 4], [1, 0, 3, 2], [(), (), (), ()]⟩ : CSRGraph Unit) 4 2 4 0 =
        [2, 3, 4, 2, 2] ∧
      ¬ UnitRanges 4 2 4 (determineUnitRangesFromGraphRange
        (⟨[1, 2, 3, 4], [1, 0, 3, 2], [(), (), (), ()]⟩ : CSRGraph Unit) 4 2 4 0) := by
  have h : determineUnitRangesFromGraphRange
      (⟨[1, 2, 3, 4], [1, 0, 3, 2], [(), (), (), ()]⟩ : CSRGraph Unit) 4 2 4 0 =
      [2, 3, 4, 2, 2] := by decide
  refine ⟨h, fun hr => ?_⟩
  have hlast := hr.last_eq
  rw [h] at hlast
  exact absurd hlast (by decide)

end Galois.Graphs
