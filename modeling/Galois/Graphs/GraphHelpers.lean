import Mathlib.Algebra.Order.BigOperators.Group.List
import Mathlib.Tactic.IntervalCases
import Galois.BinarySearch
import Galois.Graphs.FileGraph

/-!
# Dividing a graph's nodes among threads

`divideNodesBinarySearch` gives division `id` of `total` the nodes whose weight (a weight per
node plus a weight per edge, read off the edge prefix sum) falls in its share of the blocks:
both ends of its range are found by a binary search (`findIndexPrefixSum`) for the first node
whose weight reaches the start of the division's blocks.

* `findIndexLoop_eq` -- the search is `BinarySearch.lowerBoundLoop` for `Reaches`, "the
  weight before `mid` reaches the target", so `findIndexPrefixSum_spec`: it finds the first such
  node;
* `BlockDivision` -- what the divisions read of `determine_block_division`: with no scale
  factor (`determine_block_division_nil`: the scale factor of ones) or one entry per division,
  running sums that do not decrease and end at the number of blocks;
* `divideNodes_partition` -- for every such division, a prefix sum that does not decrease and
  a node or an edge weight, the ranges of the divisions `0, …, total - 1` follow one another
  from node `0` to the last node: every node falls in exactly one division's range;
* `divideNodesBinarySearch64` -- the same function in the source's machine words, equal to the
  one in `ℕ` while nothing wraps (`divideNodesBinarySearch64_eq`), so that
  **`divideNodes_word_partition`** holds for it, and **`divideNodes_contiguous`** with no scale
  factor at any edge and node offset; `divideNodes_weight_wraps` is a graph whose weight wraps
  to `0` and whose only division gets no node.

`FileGraph.divideByNode` is the division over a `FileGraph`'s own `outIdx`.
-/

namespace Galois.Graphs

open BinarySearch

/-! ## 1. The model -/

/-- `findIndexPrefixSum`'s loop, for at most `fuel` more passes over `[lb, ub)`. -/
def findIndexLoop (nodeWeight edgeWeight targetWeight : ℕ) (edgePrefixSum : ℕ → ℕ)
    (edgeOffset nodeOffset : ℕ) : ℕ → ℕ → ℕ → ℕ
  | 0, lb, _ => lb
  | fuel + 1, lb, ub =>
    if lb < ub then
      let mid := lb + (ub - lb) / 2
      -- `mid - 1 + nodeOffset` wraps in `size_t`; under the test it is `mid + nodeOffset - 1`
      let num_edges :=
        if mid + nodeOffset ≠ 0 then edgePrefixSum (mid + nodeOffset - 1) - edgeOffset else 0
      let weight := num_edges * edgeWeight + mid * nodeWeight
      if weight < targetWeight then
        findIndexLoop nodeWeight edgeWeight targetWeight edgePrefixSum edgeOffset nodeOffset fuel
          (mid + 1) ub
      else
        findIndexLoop nodeWeight edgeWeight targetWeight edgePrefixSum edgeOffset nodeOffset fuel
          lb mid
    else lb

/-- `findIndexPrefixSum(nodeWeight, edgeWeight, targetWeight, lb, ub, edgePrefixSum, edgeOffset,
nodeOffset)`: the `while (lb < ub)` loop, which passes at most `ub - lb` times since every pass
narrows `[lb, ub)`. -/
def findIndexPrefixSum (nodeWeight edgeWeight targetWeight lb ub : ℕ) (edgePrefixSum : ℕ → ℕ)
    (edgeOffset nodeOffset : ℕ) : ℕ :=
  findIndexLoop nodeWeight edgeWeight targetWeight edgePrefixSum edgeOffset nodeOffset (ub - lb)
    lb ub

/-- `determine_block_division(numDivisions, scaleFactor)`: the number of blocks, and the scale
factor as running sums; with no scale factor every division gets one block. -/
def determine_block_division (numDivisions : ℕ) (scaleFactor : List ℕ) : ℕ × List ℕ :=
  if scaleFactor.isEmpty then (numDivisions, (List.range numDivisions).map (· + 1))
  else
    let sums := ((scaleFactor.take numDivisions).scanl (· + ·) 0).tail
    (sums.getLastD 0, sums)

/-- `divideNodesBinarySearch(numNodes, numEdges, nodeWeight, edgeWeight, id, total,
edgePrefixSum, scaleFactor, edgeOffset, nodeOffset)`: division `id`'s node range and edge
range. -/
def divideNodesBinarySearch (numNodes numEdges nodeWeight edgeWeight id total : ℕ)
    (edgePrefixSum : ℕ → ℕ) (scaleFactor : List ℕ) (edgeOffset nodeOffset : ℕ) :
    (ℕ × ℕ) × (ℕ × ℕ) :=
  if numNodes = 0 then ((0, 0), (0, 0))
  else
    let weight := numNodes * nodeWeight + (numEdges + 1) * edgeWeight
    let (numBlocks, scaleFactor) := determine_block_division total scaleFactor
    let blockWeight := (weight + numBlocks - 1) / numBlocks
    let blockLower := if id ≠ 0 then scaleFactor.getD (id - 1) 0 else 0
    let blockUpper := scaleFactor.getD id 0
    let nodesLower := if blockLower = 0 then 0
      else findIndexPrefixSum nodeWeight edgeWeight (blockWeight * blockLower) 0 numNodes
        edgePrefixSum edgeOffset nodeOffset
    let nodesUpper := findIndexPrefixSum nodeWeight edgeWeight (blockWeight * blockUpper)
      nodesLower numNodes edgePrefixSum edgeOffset nodeOffset
    let edges := if nodesLower ≠ nodesUpper then
        ((if nodesLower + nodeOffset ≠ 0 then
            edgePrefixSum (nodesLower + nodeOffset - 1) - edgeOffset else 0),
          edgePrefixSum (nodesUpper + nodeOffset - 1) - edgeOffset)
      else (numEdges, numEdges)
    ((nodesLower, nodesUpper), edges)

/-! ## 2. The search is a lower-bound search -/

section Search

variable (nodeWeight edgeWeight : ℕ) (edgePrefixSum : ℕ → ℕ) (edgeOffset nodeOffset : ℕ)

/-- The weight `findIndexPrefixSum` gives the nodes before `mid`: their edges, read off the prefix
sum, and the nodes themselves. -/
def prefixWeight (mid : ℕ) : ℕ :=
  (if mid + nodeOffset ≠ 0 then edgePrefixSum (mid + nodeOffset - 1) - edgeOffset else 0) *
    edgeWeight + mid * nodeWeight

/-- "The nodes before `mid` reach `targetWeight`", the predicate the search looks for. -/
def Reaches (targetWeight mid : ℕ) : Bool :=
  decide (targetWeight ≤ prefixWeight nodeWeight edgeWeight edgePrefixSum edgeOffset nodeOffset mid)

theorem findIndexLoop_eq (targetWeight : ℕ) :
    ∀ fuel lb ub, findIndexLoop nodeWeight edgeWeight targetWeight edgePrefixSum edgeOffset
      nodeOffset fuel lb ub = lowerBoundLoop
        (Reaches nodeWeight edgeWeight edgePrefixSum edgeOffset nodeOffset targetWeight) fuel lb ub
  | 0, _, _ => rfl
  | fuel + 1, lb, ub => by
    have ih := findIndexLoop_eq targetWeight fuel
    unfold findIndexLoop lowerBoundLoop
    by_cases hlt : lb < ub
    · rw [if_pos hlt, if_pos hlt]
      by_cases hw : prefixWeight nodeWeight edgeWeight edgePrefixSum edgeOffset nodeOffset
          (lb + (ub - lb) / 2) < targetWeight
      · have hp : Reaches nodeWeight edgeWeight edgePrefixSum edgeOffset nodeOffset targetWeight
            (lb + (ub - lb) / 2) = false := decide_eq_false (Nat.not_le_of_lt hw)
        rw [prefixWeight] at hw
        dsimp only
        rw [if_pos hw, hp, ih]
        rfl
      · have hp : Reaches nodeWeight edgeWeight edgePrefixSum edgeOffset nodeOffset targetWeight
            (lb + (ub - lb) / 2) = true := decide_eq_true (Nat.le_of_not_lt hw)
        rw [prefixWeight] at hw
        dsimp only
        rw [if_neg hw, hp, ih]
        rfl
    · rw [if_neg hlt, if_neg hlt]

variable {nodeWeight edgeWeight edgePrefixSum edgeOffset nodeOffset} {numNodes : ℕ}
  (hmono : ∀ i j, i ≤ j → j + 1 < numNodes + nodeOffset → edgePrefixSum i ≤ edgePrefixSum j)
include hmono

/-- Below `numNodes` the weight does not decrease, where the prefix sum does not. -/
theorem prefixWeight_mono {i j : ℕ} (hij : i ≤ j) (hj : j < numNodes) :
    prefixWeight nodeWeight edgeWeight edgePrefixSum edgeOffset nodeOffset i ≤
      prefixWeight nodeWeight edgeWeight edgePrefixSum edgeOffset nodeOffset j := by
  have hedges : (if i + nodeOffset ≠ 0 then edgePrefixSum (i + nodeOffset - 1) - edgeOffset
      else 0) ≤ (if j + nodeOffset ≠ 0 then edgePrefixSum (j + nodeOffset - 1) - edgeOffset
      else 0) := by
    split_ifs with hi hj'
    · exact Nat.sub_le_sub_right (hmono _ _ (by omega) (by omega)) _
    · exact absurd (by omega) hj'
    · exact Nat.zero_le _
    · exact Nat.le_refl 0
  exact Nat.add_le_add (Nat.mul_le_mul_right _ hedges) (Nat.mul_le_mul_right _ hij)

theorem upwardClosed_reaches (targetWeight : ℕ) :
    UpwardClosed (Reaches nodeWeight edgeWeight edgePrefixSum edgeOffset nodeOffset targetWeight)
      numNodes := by
  intro i j hij hj hi
  rw [Reaches, decide_eq_true_eq] at hi ⊢
  exact Nat.le_trans hi (prefixWeight_mono hmono hij hj)

/-- **`findIndexPrefixSum` finds the first node from `lb` on whose predecessors reach the
target**, or `numNodes`. -/
theorem findIndexPrefixSum_spec (targetWeight : ℕ) {lb : ℕ} (hlb : lb ≤ numNodes) :
    IsLowerBound (Reaches nodeWeight edgeWeight edgePrefixSum edgeOffset nodeOffset targetWeight)
      lb numNodes (findIndexPrefixSum nodeWeight edgeWeight targetWeight lb numNodes
        edgePrefixSum edgeOffset nodeOffset) := by
  rw [findIndexPrefixSum, findIndexLoop_eq]
  exact lowerBoundLoop_spec (upwardClosed_reaches hmono targetWeight) _ _ _ (searchInv_init hlb)
    (Nat.le_refl _)

end Search

/-! ## 3. The divisions partition the nodes -/

section Division

variable {numNodes numEdges nodeWeight edgeWeight total : ℕ} {edgePrefixSum : ℕ → ℕ}
  {scaleFactor : List ℕ} {edgeOffset nodeOffset : ℕ}

/-- Where `scaleFactor` has an entry per division, `determine_block_division` leaves at `i` the
blocks of the divisions up to `i`. -/
theorem determine_block_division_getD (hlen : scaleFactor.length = total) (i : ℕ) :
    (determine_block_division total scaleFactor).2.getD i 0 =
      if i < total then (scaleFactor.take (i + 1)).sum else 0 := by
  by_cases hnil : scaleFactor = []
  · subst hnil
    subst hlen
    simp [determine_block_division]
  · have hne : scaleFactor.isEmpty = false := List.isEmpty_eq_false_iff.mpr hnil
    rw [determine_block_division, hne, ← hlen, List.take_length]
    simp only [Bool.false_eq_true, if_false, List.getD_eq_getElem?_getD, List.getElem?_tail,
      List.getElem?_scanl]
    split_ifs with h₁ h₂ h₂
    · rw [Option.getD_some, List.sum_eq_foldl_nat]
    · omega
    · omega
    · rfl

/-- ... and their sum as the number of blocks. -/
theorem determine_block_division_fst (hlen : scaleFactor.length = total)
    (hne : scaleFactor ≠ []) : (determine_block_division total scaleFactor).1 = scaleFactor.sum := by
  have hne' : scaleFactor.isEmpty = false := List.isEmpty_eq_false_iff.mpr hne
  rw [determine_block_division, hne', ← hlen, List.take_length]
  simp only [Bool.false_eq_true, if_false, List.getLastD_eq_getLast?, List.getLast?_tail,
    List.getLast?_scanl, List.length_scanl]
  rw [if_neg (by simpa using hne), Option.getD_some, List.sum_eq_foldl_nat]

/-- **No scale factor is the scale factor of ones.** -/
theorem determine_block_division_nil (htotal : 0 < total) :
    determine_block_division total [] = determine_block_division total (List.replicate total 1) := by
  have hne : List.replicate total 1 ≠ [] := by simpa using Nat.pos_iff_ne_zero.mp htotal
  refine Prod.ext ?_ (List.ext_getElem? fun i => ?_)
  · rw [determine_block_division_fst List.length_replicate hne]
    simp [determine_block_division]
  · have hrep : (List.replicate total 1).isEmpty = false := List.isEmpty_eq_false_iff.mpr hne
    simp only [determine_block_division, List.isEmpty_nil, if_true, hrep, Bool.false_eq_true,
      if_false, List.take_replicate, Nat.min_self, List.getElem?_tail, List.getElem?_scanl,
      List.getElem?_map, List.length_replicate]
    by_cases hi : i < total
    · rw [List.getElem?_range hi, if_pos (by omega), ← List.sum_eq_foldl_nat]
      simp [Nat.min_eq_left (Nat.succ_le_of_lt hi)]
    · rw [List.getElem?_eq_none (by simpa using hi), if_neg (by omega)]
      rfl

/-- What the divisions `0, …, total - 1` read of `determine_block_division`'s result: a positive
number of blocks, and running sums that do not decrease and end at it. -/
structure BlockDivision (total : ℕ) (blocks : ℕ × List ℕ) : Prop where
  pos : 0 < blocks.1
  mono : ∀ i j, i ≤ j → j < total → blocks.2.getD i 0 ≤ blocks.2.getD j 0
  last : blocks.2.getD (total - 1) 0 = blocks.1

theorem blockDivision_of_length (hlen : scaleFactor.length = total) (hpos : 0 < scaleFactor.sum) :
    BlockDivision total (determine_block_division total scaleFactor) := by
  have hne : scaleFactor ≠ [] := by
    rintro rfl
    exact Nat.lt_irrefl 0 hpos
  have htotal : 0 < total := hlen ▸ List.length_pos_iff.mpr hne
  refine ⟨?_, fun i j hij hj => ?_, ?_⟩
  · rw [determine_block_division_fst hlen hne]
    exact hpos
  · rw [determine_block_division_getD hlen, determine_block_division_getD hlen,
      if_pos (by omega), if_pos hj]
    exact List.monotone_sum_take _ (by omega)
  · rw [determine_block_division_getD hlen, determine_block_division_fst hlen hne,
      if_pos (by omega), Nat.sub_add_cancel htotal, ← hlen, List.take_length]

theorem blockDivision_nil (htotal : 0 < total) :
    BlockDivision total (determine_block_division total []) := by
  rw [determine_block_division_nil htotal]
  exact blockDivision_of_length List.length_replicate (by simpa using htotal)

/-- Where `scaleFactor` is empty or has an entry per division, no division's blocks run past the
number of blocks. -/
theorem determine_block_division_getD_le (hsf : scaleFactor = [] ∨ scaleFactor.length = total)
    (i : ℕ) : (determine_block_division total scaleFactor).2.getD i 0 ≤
      (determine_block_division total scaleFactor).1 := by
  have hlength : ∀ {sf : List ℕ}, sf.length = total → sf ≠ [] →
      (determine_block_division total sf).2.getD i 0 ≤ (determine_block_division total sf).1 := by
    intro sf hlen hne
    rw [determine_block_division_getD hlen, determine_block_division_fst hlen hne]
    split_ifs
    · exact List.Sublist.sum_le_sum (List.take_sublist _ _) fun _ _ => Nat.zero_le _
    · exact Nat.zero_le _
  by_cases hnil : scaleFactor = []
  · subst hnil
    rcases Nat.eq_zero_or_pos total with h0 | htotal
    · subst h0
      exact Nat.le_of_eq (by rfl)
    · rw [determine_block_division_nil htotal]
      exact hlength List.length_replicate (by simpa using Nat.pos_iff_ne_zero.mp htotal)
  · exact hlength (hsf.resolve_left hnil) hnil

/-- `blockWeight`: the weight of one block, the whole graph's weight over `numBlocks` rounded
up. -/
def blockWeight (numNodes numEdges nodeWeight edgeWeight numBlocks : ℕ) : ℕ :=
  (numNodes * nodeWeight + (numEdges + 1) * edgeWeight + numBlocks - 1) / numBlocks

/-- The whole weight is at most `numBlocks` blocks. -/
theorem le_blockWeight_mul {numBlocks : ℕ} (hpos : 0 < numBlocks) :
    numNodes * nodeWeight + (numEdges + 1) * edgeWeight ≤
      blockWeight numNodes numEdges nodeWeight edgeWeight numBlocks * numBlocks := by
  have h := Nat.lt_div_mul_add
    (a := numNodes * nodeWeight + (numEdges + 1) * edgeWeight + numBlocks - 1) hpos
  rw [blockWeight]
  omega

/-- Below `numNodes` the weight stays below the whole graph's, with a node or an edge weight and
a prefix sum that does not exceed the edge count. -/
theorem prefixWeight_lt_weight (hweight : 0 < nodeWeight ∨ 0 < edgeWeight)
    (hle : ∀ i, nodeOffset ≤ i + 1 → i + 1 < numNodes + nodeOffset →
      edgePrefixSum i - edgeOffset ≤ numEdges)
    {i : ℕ} (hi : i < numNodes) :
    prefixWeight nodeWeight edgeWeight edgePrefixSum edgeOffset nodeOffset i <
      numNodes * nodeWeight + (numEdges + 1) * edgeWeight := by
  have hedges : (if i + nodeOffset ≠ 0 then edgePrefixSum (i + nodeOffset - 1) - edgeOffset
      else 0) ≤ numEdges := by
    split_ifs with h
    · exact hle _ (by omega) (by omega)
    · exact Nat.zero_le _
  unfold prefixWeight
  generalize (if i + nodeOffset ≠ 0 then edgePrefixSum (i + nodeOffset - 1) - edgeOffset
    else 0) = d at hedges ⊢
  rcases hweight with hn | he
  · have h1 : d * edgeWeight ≤ (numEdges + 1) * edgeWeight := Nat.mul_le_mul_right _ (by omega)
    have h2 : i * nodeWeight < numNodes * nodeWeight := Nat.mul_lt_mul_of_pos_right hi hn
    omega
  · have h1 : d * edgeWeight < (numEdges + 1) * edgeWeight :=
      Nat.mul_lt_mul_of_pos_right (by omega) he
    have h2 : i * nodeWeight ≤ numNodes * nodeWeight := Nat.mul_le_mul_right _ (Nat.le_of_lt hi)
    omega

/-- Reaching a target reaches every smaller one. -/
theorem reaches_of_le {t t' mid : ℕ} (ht : t ≤ t')
    (h : Reaches nodeWeight edgeWeight edgePrefixSum edgeOffset nodeOffset t' mid = true) :
    Reaches nodeWeight edgeWeight edgePrefixSum edgeOffset nodeOffset t mid = true := by
  rw [Reaches, decide_eq_true_eq] at h ⊢
  exact Nat.le_trans ht h

section Bounds

variable (hN : numNodes ≠ 0) {numBlocks : ℕ} {sums : List ℕ}
  (hdiv : determine_block_division total scaleFactor = (numBlocks, sums))
include hN hdiv

/-- Division `0` starts at node `0`. -/
theorem divideNodes_lower_zero :
    (divideNodesBinarySearch numNodes numEdges nodeWeight edgeWeight 0 total edgePrefixSum
      scaleFactor edgeOffset nodeOffset).1.1 = 0 := by
  unfold divideNodesBinarySearch
  rw [if_neg hN, hdiv]
  rfl

/-- A division's edges are read off the prefix sum at its nodes' ends, and are `numEdges` to
`numEdges` where it has no node. -/
theorem divideNodes_edges {id nodesLower nodesUpper : ℕ} {edges : ℕ × ℕ}
    (hres : divideNodesBinarySearch numNodes numEdges nodeWeight edgeWeight id total edgePrefixSum
      scaleFactor edgeOffset nodeOffset = ((nodesLower, nodesUpper), edges)) :
    edges = if nodesLower ≠ nodesUpper then
        ((if nodesLower + nodeOffset ≠ 0 then
            edgePrefixSum (nodesLower + nodeOffset - 1) - edgeOffset else 0),
          edgePrefixSum (nodesUpper + nodeOffset - 1) - edgeOffset)
      else (numEdges, numEdges) := by
  unfold divideNodesBinarySearch at hres
  rw [if_neg hN, hdiv] at hres
  simp only [Prod.mk.injEq] at hres
  obtain ⟨⟨rfl, rfl⟩, rfl⟩ := hres
  rfl

variable (hmono : ∀ i j, i ≤ j → j + 1 < numNodes + nodeOffset → edgePrefixSum i ≤ edgePrefixSum j)
include hmono

/-- The start of division `id` is where the weight reaches the blocks before it. -/
theorem divideNodes_lower_spec (id : ℕ) :
    IsLowerBound (Reaches nodeWeight edgeWeight edgePrefixSum edgeOffset nodeOffset
        (blockWeight numNodes numEdges nodeWeight edgeWeight numBlocks *
          if id ≠ 0 then sums.getD (id - 1) 0 else 0))
      0 numNodes (divideNodesBinarySearch numNodes numEdges nodeWeight edgeWeight id total
        edgePrefixSum scaleFactor edgeOffset nodeOffset).1.1 := by
  unfold divideNodesBinarySearch
  rw [if_neg hN, hdiv]
  dsimp only
  generalize (if id ≠ 0 then sums.getD (id - 1) 0 else 0) = blockLower
  split_ifs with h0
  · -- no node is needed to reach zero blocks
    subst h0
    refine ⟨Nat.le_refl 0, Nat.zero_le _, fun i hi hlt => absurd hlt (Nat.not_lt_of_le hi),
      fun _ => ?_⟩
    rw [Reaches, Nat.mul_zero]
    exact decide_eq_true (Nat.zero_le _)
  · exact findIndexPrefixSum_spec hmono _ (Nat.zero_le _)

/-- Its end is where the weight reaches its last block, searched from its start. -/
theorem divideNodes_upper_spec (id : ℕ) :
    IsLowerBound (Reaches nodeWeight edgeWeight edgePrefixSum edgeOffset nodeOffset
        (blockWeight numNodes numEdges nodeWeight edgeWeight numBlocks * sums.getD id 0))
      (divideNodesBinarySearch numNodes numEdges nodeWeight edgeWeight id total edgePrefixSum
        scaleFactor edgeOffset nodeOffset).1.1 numNodes
      (divideNodesBinarySearch numNodes numEdges nodeWeight edgeWeight id total edgePrefixSum
        scaleFactor edgeOffset nodeOffset).1.2 := by
  have hlo := (divideNodes_lower_spec hN hdiv hmono id : IsLowerBound _ 0 numNodes
    (divideNodesBinarySearch numNodes numEdges nodeWeight edgeWeight id total edgePrefixSum
      scaleFactor edgeOffset nodeOffset).1.1)
  unfold divideNodesBinarySearch at hlo ⊢
  rw [if_neg hN, hdiv] at hlo ⊢
  exact findIndexPrefixSum_spec hmono _ hlo.le_ub

end Bounds

/-- **The divisions partition the nodes**, for every division into blocks: division `0` starts
at node `0`, each division's range is in order and ends where the next one's starts, and the
last one ends at `numNodes`. -/
theorem divideNodes_partition (hN : 0 < numNodes) (hweight : 0 < nodeWeight ∨ 0 < edgeWeight)
    (hmono : ∀ i j, i ≤ j → j + 1 < numNodes + nodeOffset → edgePrefixSum i ≤ edgePrefixSum j)
    (hle : ∀ i, nodeOffset ≤ i + 1 → i + 1 < numNodes + nodeOffset →
      edgePrefixSum i - edgeOffset ≤ numEdges)
    (hblocks : BlockDivision total (determine_block_division total scaleFactor)) :
    let nodes := fun id => (divideNodesBinarySearch numNodes numEdges nodeWeight edgeWeight id
      total edgePrefixSum scaleFactor edgeOffset nodeOffset).1
    (nodes 0).1 = 0 ∧ (∀ id, id < total → (nodes id).1 ≤ (nodes id).2) ∧
      (∀ id, id + 1 < total → (nodes id).2 = (nodes (id + 1)).1) ∧
      (nodes (total - 1)).2 = numNodes := by
  intro nodes
  have hN' : numNodes ≠ 0 := Nat.pos_iff_ne_zero.mp hN
  rcases hdiv : determine_block_division total scaleFactor with ⟨numBlocks, sums⟩
  rw [hdiv] at hblocks
  -- the blocks before division `id` are no more than those up to it
  have hblock : ∀ id, id < total → (if id ≠ 0 then sums.getD (id - 1) 0 else 0) ≤
      sums.getD id 0 := by
    intro id hid
    split_ifs
    · exact hblocks.mono _ _ (Nat.sub_le id 1) hid
    · exact Nat.zero_le _
  refine ⟨divideNodes_lower_zero hN' hdiv,
    fun id _ => (divideNodes_upper_spec hN' hdiv hmono id).lb_le, fun id hid => ?_, ?_⟩
  · have hlo : IsLowerBound _ 0 numNodes (nodes (id + 1)).1 :=
      divideNodes_lower_spec hN' hdiv hmono (id + 1)
    rw [if_pos (Nat.succ_ne_zero id), Nat.add_sub_cancel] at hlo
    have hle' : (nodes id).1 ≤ (nodes (id + 1)).1 :=
      hlo.le_of_imp (divideNodes_lower_spec hN' hdiv hmono id)
        fun _ => reaches_of_le (Nat.mul_le_mul_left _ (hblock id (by omega)))
    exact (divideNodes_upper_spec hN' hdiv hmono id).eq_of_le hlo hle' (Nat.zero_le _)
  · -- no node before the last reaches all the blocks
    have hlast : IsLowerBound _ _ numNodes (nodes (total - 1)).2 :=
      divideNodes_upper_spec hN' hdiv hmono (total - 1)
    have hsum : sums.getD (total - 1) 0 = numBlocks := hblocks.last
    rw [hsum] at hlast
    refine hlast.eq_ub fun i _ hi => ?_
    rw [Reaches, decide_eq_false_iff_not, Nat.not_le]
    exact Nat.lt_of_lt_of_le (prefixWeight_lt_weight hweight hle hi)
      (le_blockWeight_mul hblocks.pos)

end Division

/-! ## 4. In the source's machine words

The source weighs in `size_t` and `uint64_t` and counts blocks in `uint32_t`; the `size_t`
`total` is cut to `uint32_t` on its way into `determine_block_division`. Sections 1 to 3 compute
in `ℕ`. Here every wrap is written out, and `divideNodesBinarySearch64_eq` says that the two agree
while the graph's weight leaves room for the blocks below `2 ^ 64`. -/

/-- `findIndexPrefixSum`'s loop in the source's words: `num_edges` and `weight` wrap at
`2 ^ 64`. -/
def findIndexLoop64 (nodeWeight edgeWeight targetWeight : ℕ) (edgePrefixSum : ℕ → ℕ)
    (edgeOffset nodeOffset : ℕ) : ℕ → ℕ → ℕ → ℕ
  | 0, lb, _ => lb
  | fuel + 1, lb, ub =>
    if lb < ub then
      let mid := lb + (ub - lb) / 2
      let num_edges := if mid + nodeOffset ≠ 0 then
          (edgePrefixSum (mid + nodeOffset - 1) + 2 ^ 64 - edgeOffset) % 2 ^ 64
        else 0
      let weight := (num_edges * edgeWeight + mid * nodeWeight) % 2 ^ 64
      if weight < targetWeight then
        findIndexLoop64 nodeWeight edgeWeight targetWeight edgePrefixSum edgeOffset nodeOffset fuel
          (mid + 1) ub
      else
        findIndexLoop64 nodeWeight edgeWeight targetWeight edgePrefixSum edgeOffset nodeOffset fuel
          lb mid
    else lb

/-- `findIndexPrefixSum` in the source's words. -/
def findIndexPrefixSum64 (nodeWeight edgeWeight targetWeight lb ub : ℕ)
    (edgePrefixSum : ℕ → ℕ) (edgeOffset nodeOffset : ℕ) : ℕ :=
  findIndexLoop64 nodeWeight edgeWeight targetWeight edgePrefixSum edgeOffset nodeOffset (ub - lb)
    lb ub

/-- `determine_block_division` in `uint32_t`: the running sums wrap at `2 ^ 32`. -/
def determine_block_division32 (numDivisions : ℕ) (scaleFactor : List ℕ) : ℕ × List ℕ :=
  if scaleFactor.isEmpty then (numDivisions, (List.range numDivisions).map (· + 1))
  else
    let sums := ((scaleFactor.take numDivisions).scanl (fun a b => (a + b) % 2 ^ 32) 0).tail
    (sums.getLastD 0, sums)

/-- `divideNodesBinarySearch` in the source's words: the weight and the block weight wrap at
`2 ^ 64`, and so do `blockWeight * blockLower` and `blockWeight * blockUpper`. -/
def divideNodesBinarySearch64 (numNodes numEdges nodeWeight edgeWeight id total : ℕ)
    (edgePrefixSum : ℕ → ℕ) (scaleFactor : List ℕ) (edgeOffset nodeOffset : ℕ) :
    (ℕ × ℕ) × (ℕ × ℕ) :=
  if numNodes = 0 then ((0, 0), (0, 0))
  else
    let weight := (numNodes * nodeWeight + (numEdges + 1) * edgeWeight) % 2 ^ 64
    let (numBlocks, scaleFactor) := determine_block_division32 (total % 2 ^ 32) scaleFactor
    let blockWeight := (weight + numBlocks - 1) % 2 ^ 64 / numBlocks
    let blockLower := if id ≠ 0 then scaleFactor.getD (id - 1) 0 else 0
    let blockUpper := scaleFactor.getD id 0
    let nodesLower := if blockLower = 0 then 0
      else findIndexPrefixSum64 nodeWeight edgeWeight (blockWeight * blockLower % 2 ^ 64) 0
        numNodes edgePrefixSum edgeOffset nodeOffset
    let nodesUpper := findIndexPrefixSum64 nodeWeight edgeWeight
      (blockWeight * blockUpper % 2 ^ 64) nodesLower numNodes edgePrefixSum edgeOffset nodeOffset
    let edges := if nodesLower ≠ nodesUpper then
        ((if nodesLower + nodeOffset ≠ 0 then
            (edgePrefixSum (nodesLower + nodeOffset - 1) + 2 ^ 64 - edgeOffset) % 2 ^ 64 else 0),
          (edgePrefixSum (nodesUpper + nodeOffset - 1) + 2 ^ 64 - edgeOffset) % 2 ^ 64)
      else (numEdges, numEdges)
    ((nodesLower, nodesUpper), edges)

section Words

variable {numNodes numEdges nodeWeight edgeWeight total : ℕ} {edgePrefixSum : ℕ → ℕ}
  {scaleFactor : List ℕ} {edgeOffset nodeOffset : ℕ}

/-- A `uint64_t` subtraction that does not go below zero does not wrap. -/
theorem sub_wrap_eq {a b : ℕ} (hb : b ≤ a) (ha : a - b < 2 ^ 64) :
    (a + 2 ^ 64 - b) % 2 ^ 64 = a - b := by
  rw [show a + 2 ^ 64 - b = a - b + 2 ^ 64 by omega, Nat.add_mod_right,
    Nat.mod_eq_of_lt (by omega)]

/-- Where no weight below `numNodes` wraps, the search in words is the search in `ℕ`. -/
theorem findIndexLoop64_eq (targetWeight : ℕ)
    (hoff : ∀ i, nodeOffset ≤ i + 1 → i < numNodes + nodeOffset →
      edgeOffset ≤ edgePrefixSum i ∧ edgePrefixSum i - edgeOffset < 2 ^ 64)
    (hfit : ∀ mid, mid < numNodes →
      prefixWeight nodeWeight edgeWeight edgePrefixSum edgeOffset nodeOffset mid < 2 ^ 64) :
    ∀ fuel lb ub, ub ≤ numNodes →
      findIndexLoop64 nodeWeight edgeWeight targetWeight edgePrefixSum edgeOffset nodeOffset fuel
        lb ub =
      findIndexLoop nodeWeight edgeWeight targetWeight edgePrefixSum edgeOffset nodeOffset fuel
        lb ub
  | 0, _, _, _ => rfl
  | fuel + 1, lb, ub, hub => by
    unfold findIndexLoop64 findIndexLoop
    by_cases hlt : lb < ub
    · rw [if_pos hlt, if_pos hlt]
      have hmid : lb + (ub - lb) / 2 < numNodes := by omega
      -- the edges before `mid` and its weight do not wrap
      have hedges : (if lb + (ub - lb) / 2 + nodeOffset ≠ 0 then
            (edgePrefixSum (lb + (ub - lb) / 2 + nodeOffset - 1) + 2 ^ 64 - edgeOffset) % 2 ^ 64
          else 0) =
          if lb + (ub - lb) / 2 + nodeOffset ≠ 0 then
            edgePrefixSum (lb + (ub - lb) / 2 + nodeOffset - 1) - edgeOffset
          else 0 := by
        split_ifs with h
        · obtain ⟨h₁, h₂⟩ := hoff (lb + (ub - lb) / 2 + nodeOffset - 1) (by omega)
            (by omega)
          exact sub_wrap_eq h₁ h₂
        · rfl
      have hweight : (if lb + (ub - lb) / 2 + nodeOffset ≠ 0 then
            edgePrefixSum (lb + (ub - lb) / 2 + nodeOffset - 1) - edgeOffset else 0) * edgeWeight +
          (lb + (ub - lb) / 2) * nodeWeight < 2 ^ 64 := hfit _ hmid
      dsimp only
      rw [hedges, Nat.mod_eq_of_lt hweight,
        findIndexLoop64_eq targetWeight hoff hfit fuel _ ub hub,
        findIndexLoop64_eq targetWeight hoff hfit fuel lb _ (by omega)]
    · rw [if_neg hlt, if_neg hlt]

/-- The search in `ℕ` never answers past `ub`. -/
theorem findIndexPrefixSum_le {targetWeight lb ub : ℕ} (h : lb ≤ ub) :
    findIndexPrefixSum nodeWeight edgeWeight targetWeight lb ub edgePrefixSum edgeOffset
      nodeOffset ≤ ub := by
  rw [findIndexPrefixSum, findIndexLoop_eq]
  exact lowerBoundLoop_le _ _ _ h

/-- Where the graph's weight fits in `uint64_t`, the search over `[lb, numNodes]` in words is the
search in `ℕ`. -/
theorem findIndexPrefixSum64_eq (hweight : 0 < nodeWeight ∨ 0 < edgeWeight)
    (hoff : ∀ i, nodeOffset ≤ i + 1 → i < numNodes + nodeOffset →
      edgeOffset ≤ edgePrefixSum i ∧ edgePrefixSum i - edgeOffset ≤ numEdges)
    (hedges : numEdges < 2 ^ 64)
    (hW : numNodes * nodeWeight + (numEdges + 1) * edgeWeight < 2 ^ 64) (t lb : ℕ) :
    findIndexPrefixSum64 nodeWeight edgeWeight t lb numNodes edgePrefixSum edgeOffset
        nodeOffset =
      findIndexPrefixSum nodeWeight edgeWeight t lb numNodes edgePrefixSum edgeOffset
        nodeOffset := by
  have hfit : ∀ mid, mid < numNodes →
      prefixWeight nodeWeight edgeWeight edgePrefixSum edgeOffset nodeOffset mid < 2 ^ 64 :=
    fun mid hmid => Nat.lt_trans (prefixWeight_lt_weight hweight
      (fun i h₁ _ => (hoff i h₁ (by omega)).2) hmid) hW
  have hoff' : ∀ i, nodeOffset ≤ i + 1 → i < numNodes + nodeOffset →
      edgeOffset ≤ edgePrefixSum i ∧ edgePrefixSum i - edgeOffset < 2 ^ 64 := fun i h₁ h₂ =>
    ⟨(hoff i h₁ h₂).1, Nat.lt_of_le_of_lt (hoff i h₁ h₂).2 hedges⟩
  exact findIndexLoop64_eq t hoff' hfit _ _ _ (Nat.le_refl _)

/-- Running sums that stay below `m` do not wrap at `m`. -/
theorem scanl_mod_eq {m : ℕ} :
    ∀ (l : List ℕ) (a : ℕ), a + l.sum < m → l.scanl (fun a b => (a + b) % m) a = l.scanl (· + ·) a
  | [], _, _ => rfl
  | x :: l, a, h => by
    rw [List.sum_cons] at h
    rw [List.scanl_cons, List.scanl_cons, Nat.mod_eq_of_lt (by omega),
      scanl_mod_eq l (a + x) (by omega)]

/-- Where the scale factor sums to less than `2 ^ 32`, its running sums do not wrap. -/
theorem determine_block_division32_eq {numDivisions : ℕ} (hsum : scaleFactor.sum < 2 ^ 32) :
    determine_block_division32 numDivisions scaleFactor =
      determine_block_division numDivisions scaleFactor := by
  have htake : (scaleFactor.take numDivisions).sum ≤ scaleFactor.sum :=
    List.Sublist.sum_le_sum (List.take_sublist _ _) fun _ _ => Nat.zero_le _
  unfold determine_block_division32 determine_block_division
  rw [scanl_mod_eq _ 0 (by omega)]

/-- The number of blocks, `total` or the scale factor's sum, fits in `uint32_t`. -/
theorem determine_block_division_fst_lt (htotal : total < 2 ^ 32)
    (hsf : scaleFactor = [] ∨ scaleFactor.length = total ∧ scaleFactor.sum < 2 ^ 32) :
    (determine_block_division total scaleFactor).1 < 2 ^ 32 := by
  rcases hsf with rfl | ⟨hlen, hsum⟩
  · exact htotal
  · by_cases hnil : scaleFactor = []
    · subst hnil
      exact htotal
    · rw [determine_block_division_fst hlen hnil]
      exact hsum

/-- **The division in words is the division in `ℕ`** while nothing wraps: `total` and the scale
factor's sum fit in `uint32_t`, the graph's weight leaves `2 ^ 32` below `2 ^ 64`, and the prefix
sum read below `numNodes` is at least the edge offset and at most `numEdges` past it. -/
theorem divideNodesBinarySearch64_eq (htotal : total < 2 ^ 32)
    (hsf : scaleFactor = [] ∨ scaleFactor.length = total ∧ scaleFactor.sum < 2 ^ 32)
    (hweight : 0 < nodeWeight ∨ 0 < edgeWeight)
    (hfit : numNodes * nodeWeight + (numEdges + 1) * edgeWeight + 2 ^ 32 ≤ 2 ^ 64)
    (hoff : ∀ i, nodeOffset ≤ i + 1 → i < numNodes + nodeOffset →
      edgeOffset ≤ edgePrefixSum i ∧ edgePrefixSum i - edgeOffset ≤ numEdges)
    (hedges : numEdges < 2 ^ 64) (id : ℕ) :
    divideNodesBinarySearch64 numNodes numEdges nodeWeight edgeWeight id total edgePrefixSum
        scaleFactor edgeOffset nodeOffset =
      divideNodesBinarySearch numNodes numEdges nodeWeight edgeWeight id total edgePrefixSum
        scaleFactor edgeOffset nodeOffset := by
  unfold divideNodesBinarySearch64 divideNodesBinarySearch
  by_cases hN : numNodes = 0
  · rw [if_pos hN, if_pos hN]
  have hsum : scaleFactor.sum < 2 ^ 32 := by
    rcases hsf with rfl | ⟨-, h⟩
    · exact Nat.two_pow_pos 32
    · exact h
  -- the number of blocks fits in `uint32_t` and bounds every running sum
  have hblocks := determine_block_division_fst_lt htotal hsf
  have hle := determine_block_division_getD_le (hsf.imp_right And.left)
  rw [if_neg hN, if_neg hN, Nat.mod_eq_of_lt htotal, determine_block_division32_eq hsum]
  rcases hdiv : determine_block_division total scaleFactor with ⟨numBlocks, sums⟩
  rw [hdiv] at hblocks hle
  dsimp only at hblocks hle ⊢
  have hW : numNodes * nodeWeight + (numEdges + 1) * edgeWeight < 2 ^ 64 := by omega
  have hW' : numNodes * nodeWeight + (numEdges + 1) * edgeWeight + numBlocks - 1 < 2 ^ 64 := by
    omega
  rw [Nat.mod_eq_of_lt hW, Nat.mod_eq_of_lt hW']
  have hlower : (if id ≠ 0 then sums.getD (id - 1) 0 else 0) ≤ numBlocks := by
    split_ifs
    · exact hle _
    · exact Nat.zero_le _
  -- no target wraps: `blockWeight * numBlocks` is at most the weight rounded up
  have hceil := Nat.div_mul_le_self
    (numNodes * nodeWeight + (numEdges + 1) * edgeWeight + numBlocks - 1) numBlocks
  generalize (numNodes * nodeWeight + (numEdges + 1) * edgeWeight + numBlocks - 1) / numBlocks =
    blockWeight at hceil ⊢
  have htarget : ∀ b, b ≤ numBlocks → blockWeight * b % 2 ^ 64 = blockWeight * b := by
    intro b hb
    have hmul : blockWeight * b ≤ blockWeight * numBlocks := Nat.mul_le_mul_left _ hb
    exact Nat.mod_eq_of_lt (by omega)
  generalize (if id ≠ 0 then sums.getD (id - 1) 0 else 0) = blockLower at hlower ⊢
  rw [htarget _ hlower, htarget _ (hle id)]
  simp only [findIndexPrefixSum64_eq hweight hoff hedges hW]
  -- the edges read at the ends of the range do not wrap
  have hlo : (if blockLower = 0 then 0 else findIndexPrefixSum nodeWeight edgeWeight
      (blockWeight * blockLower) 0 numNodes edgePrefixSum edgeOffset nodeOffset) ≤ numNodes := by
    split_ifs
    · exact Nat.zero_le _
    · exact findIndexPrefixSum_le (Nat.zero_le _)
  generalize (if blockLower = 0 then 0 else findIndexPrefixSum nodeWeight edgeWeight
      (blockWeight * blockLower) 0 numNodes edgePrefixSum edgeOffset nodeOffset) = nodesLower
    at hlo ⊢
  have hup : findIndexPrefixSum nodeWeight edgeWeight (blockWeight * sums.getD id 0) nodesLower
      numNodes edgePrefixSum edgeOffset nodeOffset ≤ numNodes := findIndexPrefixSum_le hlo
  generalize findIndexPrefixSum nodeWeight edgeWeight (blockWeight * sums.getD id 0) nodesLower
    numNodes edgePrefixSum edgeOffset nodeOffset = nodesUpper at hup ⊢
  have hsub : ∀ j, nodeOffset ≤ j + 1 → j < numNodes + nodeOffset →
      (edgePrefixSum j + 2 ^ 64 - edgeOffset) % 2 ^ 64 = edgePrefixSum j - edgeOffset :=
    fun j h₁ h₂ => sub_wrap_eq (hoff j h₁ h₂).1 (Nat.lt_of_le_of_lt (hoff j h₁ h₂).2 hedges)
  rw [hsub (nodesLower + nodeOffset - 1) (by omega) (by omega),
    hsub (nodesUpper + nodeOffset - 1) (by omega) (by omega)]

/-- **The divisions partition the nodes, in the source's words**, while the blocks fit in
`uint32_t` and the graph's weight leaves room for them below `2 ^ 64`. Take no scale factor, or
one entry per division with a positive sum. Take a prefix sum that does not decrease and ends at
`numEdges`. Then division `0` starts at node `0`, and each division's range is in order and ends
where the next one starts. The last one ends at `numNodes`. Each division's edges run between
the prefix sums at its nodes' ends, and are `numEdges` to `numEdges` where it has no node. The
search finds the first node of `[lb, ub]` whose predecessors reach the target. -/
theorem divideNodes_word_partition (hN : 0 < numNodes) (htotal : 0 < total)
    (htotal32 : total < 2 ^ 32) (hweight : 0 < nodeWeight ∨ 0 < edgeWeight)
    (hmono : ∀ i j, i ≤ j → j < numNodes → edgePrefixSum i ≤ edgePrefixSum j)
    (hlast : edgePrefixSum (numNodes - 1) = numEdges) (hedges : numEdges < 2 ^ 64)
    (hsf : scaleFactor = [] ∨
      scaleFactor.length = total ∧ 0 < scaleFactor.sum ∧ scaleFactor.sum < 2 ^ 32)
    (hfit : numNodes * nodeWeight + (numEdges + 1) * edgeWeight + 2 ^ 32 ≤ 2 ^ 64) :
    let r := fun id => divideNodesBinarySearch64 numNodes numEdges nodeWeight edgeWeight id total
      edgePrefixSum scaleFactor 0 0
    let prefixSum := fun k => if k ≠ 0 then edgePrefixSum (k - 1) else 0
    (r 0).1.1 = 0 ∧ (∀ id, id < total → (r id).1.1 ≤ (r id).1.2) ∧
      (∀ id, id + 1 < total → (r id).1.2 = (r (id + 1)).1.1) ∧ (r (total - 1)).1.2 = numNodes ∧
      (∀ id, id < total → (r id).2 = if (r id).1.1 ≠ (r id).1.2 then
        (prefixSum (r id).1.1, prefixSum (r id).1.2) else (numEdges, numEdges)) ∧
      ∀ targetWeight lb ub, lb ≤ ub → ub ≤ numNodes →
        IsLowerBound (Reaches nodeWeight edgeWeight edgePrefixSum 0 0 targetWeight) lb ub
          (findIndexPrefixSum64 nodeWeight edgeWeight targetWeight lb ub edgePrefixSum 0 0) := by
  intro r prefixSum
  have hle : ∀ i, i < numNodes → edgePrefixSum i ≤ numEdges := fun i hi =>
    hlast ▸ hmono i (numNodes - 1) (by omega) (by omega)
  have hmono' : ∀ i j, i ≤ j → j + 1 < numNodes + 0 → edgePrefixSum i ≤ edgePrefixSum j :=
    fun i j hij hj => hmono i j hij (by omega)
  have hle' : ∀ i, 0 ≤ i + 1 → i + 1 < numNodes + 0 → edgePrefixSum i - 0 ≤ numEdges :=
    fun i _ hi => hle i (by omega)
  -- nothing wraps, so the words compute what `ℕ` does
  have hr : ∀ id, r id = divideNodesBinarySearch numNodes numEdges nodeWeight edgeWeight id total
      edgePrefixSum scaleFactor 0 0 :=
    divideNodesBinarySearch64_eq htotal32 (hsf.imp_right fun h => ⟨h.1, h.2.2⟩) hweight hfit
      (fun i _ hi => ⟨Nat.zero_le _, hle i (by omega)⟩) hedges
  have hblocks : BlockDivision total (determine_block_division total scaleFactor) := by
    rcases hsf with rfl | ⟨hlen, hpos, -⟩
    · exact blockDivision_nil htotal
    · exact blockDivision_of_length hlen hpos
  obtain ⟨h0, hord, hnext, hend⟩ := divideNodes_partition hN hweight hmono' hle' hblocks
  simp only [hr]
  refine ⟨h0, hord, hnext, hend, fun id hid => ?_, fun t lb ub hlb hub => ?_⟩
  · have hord' := hord id hid
    dsimp only at hord'
    rcases hdiv : determine_block_division total scaleFactor with ⟨numBlocks, sums⟩
    rcases hres : divideNodesBinarySearch numNodes numEdges nodeWeight edgeWeight id total
      edgePrefixSum scaleFactor 0 0 with ⟨⟨nodesLower, nodesUpper⟩, edges⟩
    rw [hres] at hord'
    dsimp only at hord' ⊢
    rw [divideNodes_edges (Nat.pos_iff_ne_zero.mp hN) hdiv hres]
    by_cases hne : nodesLower = nodesUpper
    · rw [if_neg (not_not.mpr hne), if_neg (not_not.mpr hne)]
    · -- a division with nodes ends past node `0`
      have hpos : nodesUpper ≠ 0 := by omega
      rw [if_pos hne, if_pos hne]
      simp only [prefixSum, Nat.add_zero, Nat.sub_zero, if_pos hpos]
  · -- below `ub` the search in words is the search in `ℕ`
    have hoff : ∀ i, 0 ≤ i + 1 → i < ub + 0 →
        0 ≤ edgePrefixSum i ∧ edgePrefixSum i - 0 < 2 ^ 64 :=
      fun i _ hi => ⟨Nat.zero_le _, Nat.lt_of_le_of_lt (hle i (by omega)) hedges⟩
    have hfit' : ∀ mid, mid < ub → prefixWeight nodeWeight edgeWeight edgePrefixSum 0 0 mid < 2 ^ 64 :=
      fun mid hmid => by
        have := prefixWeight_lt_weight hweight hle' (Nat.lt_of_lt_of_le hmid hub)
        omega
    have hmono_ub : ∀ i j, i ≤ j → j + 1 < ub + 0 → edgePrefixSum i ≤ edgePrefixSum j :=
      fun i j hij hj => hmono i j hij (by omega)
    rw [findIndexPrefixSum64, findIndexLoop64_eq t hoff hfit' _ lb ub (Nat.le_refl ub)]
    exact findIndexPrefixSum_spec hmono_ub t hlb

/-- Three nodes, two divisions weighted one to two. -/
theorem divideNodes_word_partition_scaled :
    let r := fun id => divideNodesBinarySearch64 3 2 1 1 id 2 (fun i => [1, 2, 2].getD i 0) [1, 2]
      0 0
    let prefixSum := fun k => if k ≠ 0 then [1, 2, 2].getD (k - 1) 0 else 0
    (r 0).1.1 = 0 ∧ (∀ id, id < 2 → (r id).1.1 ≤ (r id).1.2) ∧
      (∀ id, id + 1 < 2 → (r id).1.2 = (r (id + 1)).1.1) ∧ (r (2 - 1)).1.2 = 3 ∧
      (∀ id, id < 2 → (r id).2 = if (r id).1.1 ≠ (r id).1.2 then
        (prefixSum (r id).1.1, prefixSum (r id).1.2) else (2, 2)) ∧
      ∀ targetWeight lb ub, lb ≤ ub → ub ≤ 3 →
        IsLowerBound (Reaches 1 1 (fun i => [1, 2, 2].getD i 0) 0 0 targetWeight) lb ub
          (findIndexPrefixSum64 1 1 targetWeight lb ub (fun i => [1, 2, 2].getD i 0) 0 0) :=
  divideNodes_word_partition (by decide) (by decide) (by decide) (Or.inl (by decide))
    (fun i j hij hj => by interval_cases j <;> interval_cases i <;> decide) rfl (by decide)
    (Or.inr ⟨rfl, by decide, by decide⟩) (by decide)

/-- **The weight wraps**: one node of weight `2 ^ 64 - 1` and one unit of edge weight weigh
`2 ^ 64`, kept as `0`. The block weight is then `0`, and the only division gets no node: its
range ends at node `0`, not at `numNodes = 1`. -/
theorem divideNodes_weight_wraps :
    (divideNodesBinarySearch64 1 0 (2 ^ 64 - 1) 1 0 1 (fun _ => 0) [] 0 0).1 = (0, 0) := by
  decide

/-- **With no scale factor the divisions partition the nodes, in the source's words**, at any
edge and node offset: division `0` starts at node `0`, each division's range is in order and
ends where the next one's starts, and the last one ends at `numNodes`. The prefix sum does not
decrease, and from `nodeOffset - 1` on it reads at least `edgeOffset` and at most `numEdges` past
it; `total` fits in `uint32_t`, and the graph's weight leaves `2 ^ 32` below `2 ^ 64`. -/
theorem divideNodes_contiguous (hN : 0 < numNodes) (htotal : 0 < total)
    (htotal32 : total < 2 ^ 32) (hweight : 0 < nodeWeight ∨ 0 < edgeWeight)
    (hmono : ∀ i j, i ≤ j → j + 1 < numNodes + nodeOffset → edgePrefixSum i ≤ edgePrefixSum j)
    (hoff : ∀ i, nodeOffset ≤ i + 1 → i < numNodes + nodeOffset →
      edgeOffset ≤ edgePrefixSum i ∧ edgePrefixSum i - edgeOffset ≤ numEdges)
    (hedges : numEdges < 2 ^ 64)
    (hfit : numNodes * nodeWeight + (numEdges + 1) * edgeWeight + 2 ^ 32 ≤ 2 ^ 64) :
    let nodes := fun id => (divideNodesBinarySearch64 numNodes numEdges nodeWeight edgeWeight id
      total edgePrefixSum [] edgeOffset nodeOffset).1
    (nodes 0).1 = 0 ∧ (∀ id, id < total → (nodes id).1 ≤ (nodes id).2) ∧
      (∀ id, id + 1 < total → (nodes id).2 = (nodes (id + 1)).1) ∧
      (nodes (total - 1)).2 = numNodes := by
  intro nodes
  have hr : ∀ id, nodes id = (divideNodesBinarySearch numNodes numEdges nodeWeight edgeWeight id
      total edgePrefixSum [] edgeOffset nodeOffset).1 := fun id =>
    congrArg Prod.fst (divideNodesBinarySearch64_eq htotal32 (.inl rfl) hweight hfit hoff hedges id)
  simp only [hr]
  exact divideNodes_partition hN hweight hmono (fun i h₁ _ => (hoff i h₁ (by omega)).2)
    (blockDivision_nil htotal)

/-- Nodes `1` to `3` of a prefix sum `[5, 6, 8, 8]`, read past its first five edges, in two
divisions. -/
theorem divideNodes_contiguous_three_nodes :
    let nodes := fun id => (divideNodesBinarySearch64 3 3 1 1 id 2
      (fun i => [5, 6, 8, 8].getD i 0) [] 5 1).1
    (nodes 0).1 = 0 ∧ (∀ id, id < 2 → (nodes id).1 ≤ (nodes id).2) ∧
      (∀ id, id + 1 < 2 → (nodes id).2 = (nodes (id + 1)).1) ∧ (nodes (2 - 1)).2 = 3 :=
  @divideNodes_contiguous 3 3 1 1 2 (fun i => [5, 6, 8, 8].getD i 0) 5 1 (by decide) (by decide)
    (by decide) (Or.inl (by decide))
    (fun i j hij hj => by
      have hj3 : j < 3 := by omega
      interval_cases j <;> interval_cases i <;> decide)
    (fun i _ hi => by interval_cases i <;> decide) (by decide) (by decide)

end Words

end Galois.Graphs
