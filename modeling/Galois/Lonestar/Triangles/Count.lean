import Mathlib
import Galois.Counting
import Galois.DynamicBitset
import Galois.Lonestar.Triangles

/-!
# The three counts are the number of triangles

On the graph the application expects after `readGraph` (symmetric, every node's destinations
sorted, no duplicate edge), each algorithm counts every triangle once, from one of its three
nodes:

* `SortedSymmetric` -- the graph: every edge ends at a node, destinations strictly increasing,
  symmetric;
* `take_lowerBoundBy`, `drop_lowerBoundBy`, `getElem?_lowerBoundBy` -- `lowerBound` on sorted
  destinations splits them where `comp` stops holding, and finds a destination exactly when it
  is there;
* `countEqual_eq`, `skipBelow_eq` -- the merged scan counts the common destinations, and the
  pointer of `orderedCountFunc` stops at the first destination not below its target;
* `triangleAt`, `numTriangles_eq` -- the triangles as a triple sum;
* `nodeIteratingAlgo_eq`, `edgeIteratingAlgo_eq`, `orderedCountAlgo_eq` -- each algorithm's sum
  is the triple sum in another order: a triangle `a < b < c` is counted by `b`, by the edge
  `a -> c`, and by `c`; the ordered count only when no node is its own destination, since it
  takes a self-loop for a triangle;
* `algorithms_count_triangles` -- all three report `numTriangles`.
-/

namespace Galois.Lonestar.Triangles

open BinarySearch Counting

/-- The graph the algorithms expect: every edge ends at a node, each node's destinations are
strictly increasing (sorted by `sortAllEdgesByDst`, with no duplicate edge), and `u -> v` is an
edge exactly when `v -> u` is (the `-symmetricGraph` input). -/
structure SortedSymmetric (adj : List (List ℕ)) : Prop where
  lt : ∀ u v, v ∈ adj.getD u [] → v < adj.length
  sorted : ∀ u, (adj.getD u []).Pairwise (· < ·)
  symm : ∀ u v, v ∈ adj.getD u [] → u ∈ adj.getD v []

theorem SortedSymmetric.mem_comm {adj : List (List ℕ)} (h : SortedSymmetric adj) (u v : ℕ) :
    v ∈ adj.getD u [] ↔ u ∈ adj.getD v [] :=
  ⟨h.symm u v, h.symm v u⟩

/-! ## 1. Searches on sorted destinations -/

/-- A test that holds on every value below one where it holds: the searches' `comp`. -/
def DownClosed (comp : ℕ → Bool) : Prop := ∀ x y, x ≤ y → comp y = true → comp x = true

theorem downClosed_lt (B : ℕ) : DownClosed (· < B) := fun x y hxy hy => by
  simp only [decide_eq_true_eq] at hy ⊢
  omega

theorem downClosed_le (n : ℕ) : DownClosed (· ≤ n) := fun x y hxy hy => by
  simp only [decide_eq_true_eq] at hy ⊢
  omega

theorem downClosed_not_lt (n : ℕ) : DownClosed fun x => !(n < x) := fun x y hxy hy => by
  simp only [Bool.not_eq_true', decide_eq_false_iff_not, Nat.not_lt] at hy ⊢
  omega

/-- The search never answers past the end. -/
theorem lowerBoundBy_le_length (l : List ℕ) (comp : ℕ → Bool) : lowerBoundBy l comp ≤ l.length :=
  lowerBoundLoop_le _ _ _ (Nat.zero_le _)

theorem length_drop_take_lowerBoundBy (l : List ℕ) (comp : ℕ → Bool) (k : ℕ) :
    ((l.take (lowerBoundBy l comp)).drop k).length = lowerBoundBy l comp - k := by
  rw [List.length_drop, List.length_take, Nat.min_eq_left (lowerBoundBy_le_length l comp)]

section Sorted

variable {l : List ℕ} (hs : l.Pairwise (· < ·))
include hs

theorem getElem_le_getElem {i j : ℕ} (hij : i ≤ j) (hi : i < l.length) (hj : j < l.length) :
    l[i] ≤ l[j] := by
  rcases Nat.lt_or_eq_of_le hij with hlt | rfl
  · exact le_of_lt (List.pairwise_iff_getElem.mp hs i j hi hj hlt)
  · exact le_refl _

/-- **`lowerBound` on sorted destinations stops where `comp` stops holding**: before its
answer `comp` holds, from it on it fails. -/
theorem lowerBoundBy_iff {comp : ℕ → Bool} (hmono : DownClosed comp) :
    ∀ i (hi : i < l.length), i < lowerBoundBy l comp ↔ comp l[i] = true := by
  have hlb : IsLowerBound _ 0 l.length (lowerBoundBy l comp) :=
    lowerBoundLoop_spec ?hup l.length 0 l.length (searchInv_init (Nat.zero_le _)) (Nat.sub_le _ _)
  case hup =>
    -- the search's predicate, `comp` failing, holds from some position on
    intro i j hij hj hpi
    dsimp only at hpi ⊢
    rw [List.getElem?_eq_getElem hj]
    rw [List.getElem?_eq_getElem (Nat.lt_of_le_of_lt hij hj)] at hpi
    simp only [Bool.not_eq_true'] at hpi ⊢
    cases hcj : comp l[j] with
    | false => rfl
    | true =>
      rw [hmono _ _ (getElem_le_getElem hs hij (Nat.lt_of_le_of_lt hij hj) hj) hcj] at hpi
      cases hpi
  refine fun i hi => ⟨fun hir => ?_, fun hci => ?_⟩
  · have := hlb.below i (Nat.zero_le i) hir
    rw [List.getElem?_eq_getElem hi] at this
    simpa using this
  · by_contra hge
    have hr : lowerBoundBy l comp < l.length := Nat.lt_of_le_of_lt (Nat.le_of_not_lt hge) hi
    have hpr := hlb.at_r hr
    rw [List.getElem?_eq_getElem hr] at hpr
    dsimp only at hpr
    rw [hmono _ _ (getElem_le_getElem hs (Nat.le_of_not_lt hge) hr hi) hci] at hpr
    cases hpr

/-- The destinations before the answer are those where `comp` holds. -/
theorem take_lowerBoundBy {comp : ℕ → Bool} (hmono : DownClosed comp) :
    l.take (lowerBoundBy l comp) = l.filter comp := by
  have hiff := lowerBoundBy_iff hs hmono
  conv_rhs => rw [← List.take_append_drop (lowerBoundBy l comp) l]
  rw [List.filter_append, List.filter_eq_self.mpr, List.filter_eq_nil_iff.mpr, List.append_nil]
  · intro x hx
    obtain ⟨j, hj, rfl⟩ := List.mem_drop_iff_getElem.mp hx
    rw [← hiff _ (by omega)]
    omega
  · intro x hx
    obtain ⟨j, hj, rfl⟩ := List.mem_take_iff_getElem.mp hx
    exact (hiff j _).mp (by omega)

/-- The destinations from the answer on are those where `comp` fails. -/
theorem drop_lowerBoundBy {comp : ℕ → Bool} (hmono : DownClosed comp) :
    l.drop (lowerBoundBy l comp) = l.filter fun x => !comp x := by
  have hiff := lowerBoundBy_iff hs hmono
  conv_rhs => rw [← List.take_append_drop (lowerBoundBy l comp) l]
  rw [List.filter_append, List.filter_eq_nil_iff.mpr, List.filter_eq_self.mpr, List.nil_append]
  · intro x hx
    obtain ⟨j, hj, rfl⟩ := List.mem_drop_iff_getElem.mp hx
    have := (hiff _ (by omega)).not.mp (by omega)
    simpa [Nat.add_comm] using this
  · intro x hx
    obtain ⟨j, hj, rfl⟩ := List.mem_take_iff_getElem.mp hx
    simpa using (hiff j _).mp (by omega)

theorem lowerBoundBy_eq_length {comp : ℕ → Bool} (hmono : DownClosed comp) :
    lowerBoundBy l comp = (l.filter comp).length := by
  rw [← take_lowerBoundBy hs hmono, List.length_take,
    Nat.min_eq_left (lowerBoundBy_le_length l comp)]

/-- **The search finds a destination exactly when it is there**: the first destination not
below `B` is `B` when `B` is a destination. -/
theorem getElem?_lowerBoundBy (B : ℕ) :
    l[lowerBoundBy l (· < B)]? = some B ↔ B ∈ l := by
  have hiff := lowerBoundBy_iff hs (downClosed_lt B)
  refine ⟨List.mem_of_getElem?, fun hB => ?_⟩
  obtain ⟨j, hj, rfl⟩ := List.mem_iff_getElem.mp hB
  -- `l[j]` is not below itself, so the answer is at most `j`, and not below `l[j]`
  have hrj : lowerBoundBy l (· < l[j]) ≤ j :=
    Nat.le_of_not_lt fun h => by simpa using (hiff j hj).mp h
  have hr : lowerBoundBy l (· < l[j]) < l.length := Nat.lt_of_le_of_lt hrj hj
  have hnot : ¬l[lowerBoundBy l (· < l[j])] < l[j] := fun h =>
    Nat.lt_irrefl _ ((hiff _ hr).mpr (by simpa using h))
  rw [List.getElem?_eq_getElem hr, Option.some.injEq]
  exact le_antisymm (getElem_le_getElem hs hrj hr hj) (Nat.le_of_not_lt hnot)

/-- `takeWhile` of a predicate closed downwards is its `filter`. -/
theorem takeWhile_eq_filter {comp : ℕ → Bool} (hmono : DownClosed comp) :
    l.takeWhile comp = l.filter comp := by
  induction l with
  | nil => rfl
  | cons x l ih =>
    obtain ⟨hx, hs⟩ := List.pairwise_cons.mp hs
    cases hcx : comp x with
    | true => rw [List.takeWhile_cons_of_pos hcx, List.filter_cons_of_pos hcx, ih hs]
    | false =>
      -- every later destination is above `x`, so `comp` fails there too
      rw [List.takeWhile_cons_of_neg (by simp [hcx]), List.filter_cons_of_neg (by simp [hcx]),
        eq_comm, List.filter_eq_nil_iff]
      intro y hy hcy
      rw [hmono x y (le_of_lt (hx y hy)) hcy] at hcx
      cases hcx

theorem lowerBoundBy_lt_length {x vv : ℕ} (hx : x ∈ l) (hvx : vv ≤ x) :
    lowerBoundBy l (· < vv) < l.length := by
  have hiff := lowerBoundBy_iff hs (downClosed_lt vv)
  obtain ⟨j, hj, rfl⟩ := List.mem_iff_getElem.mp hx
  -- the answer is at most the position of `x`, which is not below `vv`
  refine Nat.lt_of_le_of_lt (Nat.le_of_not_lt fun hjr => ?_) hj
  have := (hiff j hj).mp hjr
  simp only [decide_eq_true_eq] at this
  omega

theorem lowerBoundBy_mono {v w : ℕ} (hvw : v ≤ w) :
    lowerBoundBy l (· < v) ≤ lowerBoundBy l (· < w) := by
  rw [lowerBoundBy_eq_length hs (downClosed_lt v), lowerBoundBy_eq_length hs (downClosed_lt w),
    ← List.countP_eq_length_filter, ← List.countP_eq_length_filter]
  refine List.countP_mono_left fun x _ hx => ?_
  simp only [decide_eq_true_eq] at hx ⊢
  omega

/-- **The window of `edgeIteratingAlgo`**: between the first destination above `a` and the first
not below `c` lie the destinations strictly between `a` and `c`. -/
theorem drop_take_lowerBoundBy {a c : ℕ} (hac : a < c) :
    (l.take (lowerBoundBy l (· < c))).drop (lowerBoundBy l fun x => !(a < x)) =
      l.filter fun x => a < x && x < c := by
  have hbelow : (l.filter (· < c)).Pairwise (· < ·) := hs.filter _
  -- the destinations not above `a` all lie below `c`: the prefix below `c` has as many
  have hcount : lowerBoundBy l (fun x => !(a < x)) =
      lowerBoundBy (l.filter (· < c)) fun x => !(a < x) := by
    rw [lowerBoundBy_eq_length hs (downClosed_not_lt a),
      lowerBoundBy_eq_length hbelow (downClosed_not_lt a), List.filter_filter]
    congr 1
    refine List.filter_congr fun x _ => ?_
    by_cases hx : a < x
    · simp only [hx, decide_true, Bool.not_true, Bool.false_and]
    · simp only [hx, decide_false, Bool.not_false, Bool.true_and]
      exact (decide_eq_true (by omega)).symm
  rw [take_lowerBoundBy hs (downClosed_lt c), hcount, drop_lowerBoundBy hbelow (downClosed_not_lt a),
    List.filter_filter]
  refine List.filter_congr fun x _ => ?_
  rw [Bool.not_not, Bool.and_comm]

/-- **The pointer of `orderedCountFunc` stops at the first destination not below `vv`**, from any
position up to it, given a pass for each position to cross. -/
theorem skipBelow_eq (vv : ℕ) (hr : lowerBoundBy l (· < vv) < l.length) :
    ∀ fuel i, i ≤ lowerBoundBy l (· < vv) → lowerBoundBy l (· < vv) - i < fuel →
      skipBelow l vv fuel i = some (lowerBoundBy l (· < vv))
  | 0, _, _, hf => absurd hf (Nat.not_lt_zero _)
  | fuel + 1, i, hi, hf => by
    have hiff := lowerBoundBy_iff hs (downClosed_lt vv)
    have hin : i < l.length := Nat.lt_of_le_of_lt hi hr
    rw [skipBelow, List.getElem?_eq_getElem hin]
    dsimp only
    split_ifs with hlt
    · -- `l[i]` is below `vv`, so `i` is before the answer
      have hir := (hiff i hin).mpr (decide_eq_true hlt)
      exact skipBelow_eq vv hr fuel (i + 1) hir (by omega)
    · -- `l[i]` is not below `vv`, so `i` is the answer
      refine congrArg some (Nat.le_antisymm hi (Nat.le_of_not_lt fun hir => hlt ?_))
      simpa using (hiff i hin).mp hir

end Sorted

/-! ## 2. The merged scan -/

/-- **`countEqual` counts the common destinations**: on two increasing lists, with a pass for
each of their elements, the scan counts the elements of the first that the second has. One case
per branch of the scan. -/
theorem countEqual_eq : ∀ (fuel : ℕ) (as bs : List ℕ), as.Pairwise (· < ·) →
    bs.Pairwise (· < ·) → as.length + bs.length ≤ fuel → countEqual fuel as bs = as.countP (· ∈ bs)
  | 0, as, bs, _, _, hf => by
    rw [List.eq_nil_of_length_eq_zero (by omega : as.length = 0)]
    rfl
  | fuel + 1, [], bs, _, _, _ => by cases bs <;> rfl
  | fuel + 1, a :: as, [], _, _, _ => by simp [countEqual]
  | fuel + 1, a :: as, b :: bs, ha, hb, hf => by
    obtain ⟨ha₁, ha₂⟩ := List.pairwise_cons.mp ha
    obtain ⟨hb₁, hb₂⟩ := List.pairwise_cons.mp hb
    simp only [List.length_cons] at hf
    rw [countEqual]
    split_ifs with hab hba
    · -- `a` is below every element of `b :: bs`: it is not among them
      have hna : a ∉ b :: bs := fun hmem => by
        rcases List.mem_cons.mp hmem with rfl | hmem
        · exact Nat.lt_irrefl a hab
        · exact Nat.lt_asymm hab (hb₁ a hmem)
      rw [countEqual_eq fuel as (b :: bs) ha₂ hb (by simp only [List.length_cons]; omega),
        List.countP_cons_of_neg (by simpa using hna)]
    · -- `b` is below every element of `a :: as`: dropping it changes no membership
      rw [countEqual_eq fuel (a :: as) bs ha hb₂ (by simp only [List.length_cons]; omega)]
      refine List.countP_congr fun x hx => ?_
      have hbx : b < x := by
        rcases List.mem_cons.mp hx with rfl | hx
        · exact hba
        · exact Nat.lt_trans hba (ha₁ x hx)
      simp only [decide_eq_true_eq, List.mem_cons, (Nat.ne_of_lt hbx).symm, false_or]
    · -- `a = b`: counted once, and `a` is below the rest of `as`
      obtain rfl : a = b := by omega
      rw [countEqual_eq fuel as bs ha₂ hb₂ (by omega), List.countP_cons_of_pos (by simp)]
      congr 1
      refine List.countP_congr fun x hx => ?_
      simp only [decide_eq_true_eq, List.mem_cons, (Nat.ne_of_lt (ha₁ x hx)).symm, false_or]

/-! ## 3. What is counted -/

/-- Whether `a < b < c` are pairwise adjacent: the test `numTriangles` applies to each triple. -/
def triangleAt (adj : List (List ℕ)) (a b c : ℕ) : Bool :=
  a < b && b < c && adjacent adj a b && adjacent adj b c && adjacent adj a c

theorem triangleAt_iff {adj : List (List ℕ)} {a b c : ℕ} :
    triangleAt adj a b c = true ↔
      a < b ∧ b < c ∧ b ∈ adj.getD a [] ∧ c ∈ adj.getD b [] ∧ c ∈ adj.getD a [] := by
  simp only [triangleAt, adjacent, Bool.and_eq_true, decide_eq_true_eq, List.contains_iff_mem,
    and_assoc]

/-- **The triangles as a triple sum** over the nodes, one term for each triple `a < b < c`. -/
theorem numTriangles_eq (adj : List (List ℕ)) :
    numTriangles adj = ∑ a ∈ Finset.range adj.length, ∑ b ∈ Finset.range adj.length,
      ∑ c ∈ Finset.range adj.length, if triangleAt adj a b c then 1 else 0 := by
  rw [numTriangles, List.countP_flatMap, sum_range_eq]
  refine Finset.sum_congr rfl fun a _ => ?_
  rw [Function.comp_apply, List.countP_flatMap, sum_range_eq]
  refine Finset.sum_congr rfl fun b _ => ?_
  rw [Function.comp_apply, List.countP_map, countP_eq_sum_map, sum_range_eq]
  rfl

section Graph

variable {adj : List (List ℕ)} (h : SortedSymmetric adj)
include h

/-- A sum over some of `u`'s destinations is a sum over the nodes. -/
theorem SortedSymmetric.sum_filter (u : ℕ) (p : ℕ → Bool) (f : ℕ → ℕ) :
    (((adj.getD u []).filter p).map f).sum =
      ∑ x ∈ Finset.range adj.length, if x ∈ (adj.getD u []).filter p then f x else 0 :=
  sum_map_eq_sum_ite ((h.sorted u).filter p).nodup (fun x hx =>
    Finset.mem_range.mpr (h.lt u x (List.mem_of_mem_filter hx))) f

/-- A count over some of `u`'s destinations is a sum over the nodes. -/
theorem SortedSymmetric.countP_filter (u : ℕ) (p q : ℕ → Bool) :
    ((adj.getD u []).filter p).countP q =
      ∑ x ∈ Finset.range adj.length, if x ∈ (adj.getD u []).filter p ∧ q x then 1 else 0 :=
  countP_eq_sum_ite ((h.sorted u).filter p).nodup (fun x hx =>
    Finset.mem_range.mpr (h.lt u x (List.mem_of_mem_filter hx))) q

/-! ### `nodeIteratingAlgo` -/

/-- **Node `b` counts the triangles it is the middle node of**: its destinations `c` above it and
`a` below it, with `c` among `a`'s destinations. -/
theorem nodeIteratingNode_eq (b : ℕ) :
    nodeIteratingNode adj b = ∑ c ∈ Finset.range adj.length, ∑ a ∈ Finset.range adj.length,
      if triangleAt adj a b c then 1 else 0 := by
  have hs := h.sorted b
  unfold nodeIteratingNode
  dsimp only
  rw [take_lowerBoundBy hs (downClosed_lt b), drop_lowerBoundBy hs (downClosed_not_lt b),
    h.sum_filter]
  refine Finset.sum_congr rfl fun c _ => ite_eq_sum_boole (fun hc => ?_) fun a ht => ?_
  · rw [← List.countP_eq_length_filter, h.countP_filter]
    refine Finset.sum_congr rfl fun a _ => if_congr ?_ rfl rfl
    simp only [List.mem_filter, Bool.not_not, decide_eq_true_eq,
      getElem?_lowerBoundBy (h.sorted a), triangleAt_iff, h.mem_comm b a] at hc ⊢
    exact ⟨fun ⟨⟨hba, hab⟩, hca⟩ => ⟨hab, hc.2, hba, hc.1, hca⟩,
      fun ⟨hab, _, hba, _, hca⟩ => ⟨⟨hba, hab⟩, hca⟩⟩
  · obtain ⟨_, hbc, _, hcb, _⟩ := triangleAt_iff.mp ht
    simpa only [List.mem_filter, Bool.not_not, decide_eq_true_eq] using ⟨hcb, hbc⟩

theorem nodeIteratingAlgo_eq : nodeIteratingAlgo adj = numTriangles adj := by
  -- the middle node outermost, then the largest and the smallest swapped
  rw [nodeIteratingAlgo, sum_range_eq, numTriangles_eq, Finset.sum_comm]
  refine Finset.sum_congr rfl fun b _ => ?_
  rw [nodeIteratingNode_eq h b]
  exact Finset.sum_comm

/-! ### `edgeIteratingAlgo` -/

/-- **The work item `(a, c)` counts the triangles with smallest node `a` and largest node `c`**:
the destinations strictly between them that both have. -/
theorem edgeIteratingItem_eq {a c : ℕ} (hc : c ∈ adj.getD a []) (hac : a < c) :
    edgeIteratingItem adj a c =
      ∑ b ∈ Finset.range adj.length, if triangleAt adj a b c then 1 else 0 := by
  unfold edgeIteratingItem
  dsimp only
  -- the scan's passes are the lengths of the two windows
  rw [← length_drop_take_lowerBoundBy (adj.getD a []),
    ← length_drop_take_lowerBoundBy (adj.getD c []), drop_take_lowerBoundBy (h.sorted a) hac,
    drop_take_lowerBoundBy (h.sorted c) hac,
    countEqual_eq _ _ _ ((h.sorted a).filter _) ((h.sorted c).filter _) le_rfl, h.countP_filter]
  refine Finset.sum_congr rfl fun b _ => if_congr ?_ rfl rfl
  simp only [List.mem_filter, Bool.and_eq_true, decide_eq_true_eq, triangleAt_iff,
    h.mem_comm c b]
  exact ⟨fun ⟨⟨hba, hab, hbc⟩, hcb, _⟩ => ⟨hab, hbc, hba, hcb, hc⟩,
    fun ⟨hab, hbc, hba, hcb, _⟩ => ⟨⟨hba, hab, hbc⟩, hcb, hab, hbc⟩⟩

theorem edgeIteratingAlgo_eq : edgeIteratingAlgo adj = numTriangles adj := by
  rw [edgeIteratingAlgo, sum_range_eq, numTriangles_eq]
  refine Finset.sum_congr rfl fun a _ => ?_
  -- the largest node before the middle one, as the work items have it
  rw [h.sum_filter, Finset.sum_comm]
  refine Finset.sum_congr rfl fun c _ => ite_eq_sum_boole (fun hc => ?_) fun b ht => ?_
  · obtain ⟨hca, hac⟩ := List.mem_filter.mp hc
    exact edgeIteratingItem_eq h hca (of_decide_eq_true hac)
  · obtain ⟨hab, hbc, _, _, hca⟩ := triangleAt_iff.mp ht
    exact List.mem_filter.mpr ⟨hca, decide_eq_true (Nat.lt_trans hab hbc)⟩

/-! ### `orderedCountAlgo` -/

/-- **The inner loop of `orderedCountFunc` counts common destinations**: for a destination `v` of
`c`, the pointer over `c`'s destinations, from the first, meets each destination `vv ≤ v` of `v`
that `c` has. -/
theorem orderedCount_inner {c v : ℕ} (hv : v ∈ adj.getD c []) (count : ℕ) :
    (((adj.getD v []).takeWhile (· ≤ v)).foldlM (fun (st : ℕ × ℕ) vv => do
      let i ← skipBelow (adj.getD c []) vv ((adj.getD c []).length + 1) st.1
      pure (i, if (adj.getD c [])[i]? = some vv then st.2 + 1 else st.2)) (0, count)).map
        Prod.snd = some (count + ((adj.getD v []).filter (· ≤ v)).countP (· ∈ adj.getD c [])) := by
  have hs := h.sorted c
  rw [takeWhile_eq_filter (h.sorted v) (downClosed_le v)]
  -- the pointer stops at the search's answer for each `vv`, which grows with `vv`
  refine foldlM_cursor (fun vv => lowerBoundBy (adj.getD c []) (· < vv)) _ _
    (((h.sorted v).filter _).imp fun hxy => lowerBoundBy_mono hs (Nat.le_of_lt hxy))
    (fun vv hvv st hst => ?_) (0, count) fun _ _ => Nat.zero_le _
  have hr := lowerBoundBy_lt_length hs hv (of_decide_eq_true (List.mem_filter.mp hvv).2)
  rw [skipBelow_eq hs vv hr _ _ hst (by omega)]
  simp only [Option.bind_eq_bind, Option.bind_some, Option.pure_def, getElem?_lowerBoundBy hs,
    decide_eq_true_eq]

omit h in
theorem lt_of_mem_of_le (hloop : ∀ u, u ∉ adj.getD u []) {u v : ℕ} (hv : v ∈ adj.getD u [])
    (hle : v ≤ u) : v < u :=
  Nat.lt_of_le_of_ne hle fun heq => hloop u (heq ▸ hv)

/-- **Node `c` counts the triangles it is the largest node of**, when no node is its own
destination. -/
theorem orderedCountFunc_eq (hloop : ∀ u, u ∉ adj.getD u []) (c : ℕ) :
    orderedCountFunc adj c = some (∑ b ∈ Finset.range adj.length,
      ∑ a ∈ Finset.range adj.length, if triangleAt adj a b c then 1 else 0) := by
  unfold orderedCountFunc
  dsimp only
  rw [takeWhile_eq_filter (h.sorted c) (downClosed_le c),
    foldlM_add (fun v => ((adj.getD v []).filter (· ≤ v)).countP (· ∈ adj.getD c [])) _ ?_ 0,
    Nat.zero_add, h.sum_filter]
  · refine congrArg some (Finset.sum_congr rfl fun b _ =>
      ite_eq_sum_boole (fun hb => ?_) fun a ht => ?_)
    · rw [h.countP_filter]
      refine Finset.sum_congr rfl fun a _ => if_congr ?_ rfl rfl
      simp only [List.mem_filter, decide_eq_true_eq, triangleAt_iff] at hb ⊢
      -- without self-loops, a destination not above its node is below it
      exact ⟨fun ⟨⟨hab, hale⟩, hac⟩ => ⟨lt_of_mem_of_le hloop hab hale,
          lt_of_mem_of_le hloop hb.1 hb.2, (h.mem_comm b a).mp hab, (h.mem_comm c b).mp hb.1,
          (h.mem_comm c a).mp hac⟩,
        fun ⟨hab, _, hba, _, hca⟩ => ⟨⟨(h.mem_comm a b).mp hba, Nat.le_of_lt hab⟩,
          (h.mem_comm a c).mp hca⟩⟩
    · obtain ⟨_, hbc, _, hcb, _⟩ := triangleAt_iff.mp ht
      exact List.mem_filter.mpr ⟨(h.mem_comm b c).mp hcb, decide_eq_true (Nat.le_of_lt hbc)⟩
  · intro v hv n
    exact orderedCount_inner h (List.mem_filter.mp hv).1 n

theorem orderedCountAlgo_eq (hloop : ∀ u, u ∉ adj.getD u []) :
    orderedCountAlgo adj = some (numTriangles adj) := by
  rw [orderedCountAlgo, DynamicBitSet.mapM_some_of_forall _ fun c _ => orderedCountFunc_eq h hloop c,
    Option.map_some, sum_range_eq, numTriangles_eq]
  -- the largest node outermost: the three sums in the reverse order
  exact congrArg some (sum_comm_three fun c b a => if triangleAt adj a b c then 1 else 0)

end Graph

/-! ## 4. The three algorithms -/

/-- **All three algorithms report the number of triangles** on the graph they expect, the ordered
count when no node is its own destination. -/
theorem algorithms_count_triangles {adj : List (List ℕ)} (h : SortedSymmetric adj) :
    nodeIteratingAlgo adj = numTriangles adj ∧ edgeIteratingAlgo adj = numTriangles adj ∧
      ((∀ u, u ∉ adj.getD u []) → orderedCountAlgo adj = some (numTriangles adj)) :=
  ⟨nodeIteratingAlgo_eq h, edgeIteratingAlgo_eq h, orderedCountAlgo_eq h⟩

/-- Two triangles sharing the edge `1 -- 2`. -/
def diamond : List (List ℕ) := [[1, 2], [0, 2, 3], [0, 1, 3], [1, 2]]

theorem sortedSymmetric_diamond : SortedSymmetric diamond := by
  refine ⟨fun u v hv => ?_, fun u => ?_, fun u v hv => ?_⟩
  · rcases u with _ | _ | _ | _ | u <;> simp [diamond] at hv ⊢ <;> omega
  · rcases u with _ | _ | _ | _ | u <;> simp [diamond]
  · rcases u with _ | _ | _ | _ | u <;> simp [diamond] at hv <;> rcases hv with rfl | rfl | rfl <;>
      decide

theorem loopless_diamond : ∀ u, u ∉ diamond.getD u [] := by
  intro u
  rcases u with _ | _ | _ | _ | u <;> simp [diamond]

theorem algorithms_count_triangles_diamond :
    SortedSymmetric diamond ∧ (∀ u, u ∉ diamond.getD u []) ∧ numTriangles diamond = 2 ∧
      (nodeIteratingAlgo diamond = numTriangles diamond ∧
        edgeIteratingAlgo diamond = numTriangles diamond ∧
        ((∀ u, u ∉ diamond.getD u []) → orderedCountAlgo diamond = some (numTriangles diamond))) :=
  ⟨sortedSymmetric_diamond, loopless_diamond, by decide,
    algorithms_count_triangles sortedSymmetric_diamond⟩

end Galois.Lonestar.Triangles
