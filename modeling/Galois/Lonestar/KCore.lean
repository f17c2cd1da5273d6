import Mathlib

/-!
# k-core (Lonestar/k-core)

Every node holds `currentDegree`, a `std::atomic<uint32_t>` set to its number of edges. A node
whose degree is below `k` is dead; processing a dead node decrements each edge's destination
with `atomicSubtract`, and the one decrement that takes a degree from `k` to `k - 1` pushes the
destination as a new dead node. The graph is `adj`, each node's destinations in CSR order, and
`deg` the `currentDegree`s.

* `dec32`, `degreeCounting` -- the `uint32_t` arithmetic: a decrement of `0` wraps, and a
  degree of `2 ^ 32` or more is stored modulo `2 ^ 32`;
* `visitEdge`, `processNode` -- the operator both algorithms run on a dead node;
* `syncCascadeKCore` -- the rounds of `do_all` over `current` filling `next`;
* `KClosed` -- a set of nodes in which every node keeps at least `k` edge endpoints; the
  `k`-core is the largest one;
* `syncCascadeKCore_wraps` -- a node of `2 ^ 32` edges is stored as degree `0`.
-/

namespace Galois.Lonestar.KCore

/-- `atomicSubtract(currentDegree, 1u)` on a `uint32_t`: the new value. -/
def dec32 (x : ℕ) : ℕ := (x + (2 ^ 32 - 1)) % 2 ^ 32

/-- `degreeCounting`: each node's number of edges, stored in a `uint32_t`. -/
def degreeCounting (adj : List (List ℕ)) (n : ℕ) : ℕ := (adj.getD n []).length % 2 ^ 32

/-- `setupInitialWorklist`: the nodes whose degree is below `k`. -/
def setupInitialWorklist (adj : List (List ℕ)) (k : ℕ) (deg : ℕ → ℕ) : List ℕ :=
  (List.range adj.length).filter fun n => deg n < k

/-- One edge of a dead node: the destination's degree goes down by one, and the destination is
pushed when the old degree was `k`. -/
def visitEdge (k : ℕ) (st : (ℕ → ℕ) × List ℕ) (dst : ℕ) : (ℕ → ℕ) × List ℕ :=
  (Function.update st.1 dst (dec32 (st.1 dst)), if st.1 dst = k then st.2 ++ [dst] else st.2)

/-- The operator on a dead node: `visitEdge` for each of its edges. -/
def processNode (adj : List (List ℕ)) (k : ℕ) (st : (ℕ → ℕ) × List ℕ) (dead : ℕ) :
    (ℕ → ℕ) × List ℕ :=
  (adj.getD dead []).foldl (visitEdge k) st

/-- A round of `syncCascadeKCore`: the `do_all` over `current`, into an empty `next`. -/
def syncRound (adj : List (List ℕ)) (k : ℕ) (deg : ℕ → ℕ) (current : List ℕ) :
    (ℕ → ℕ) × List ℕ :=
  current.foldl (processNode adj k) (deg, [])

/-- The `while (!next->empty())` loop for at most `fuel` passes: the degrees, and the nodes
processed, in order. -/
def syncLoop (adj : List (List ℕ)) (k : ℕ) :
    ℕ → (ℕ → ℕ) → List ℕ → List ℕ → Option ((ℕ → ℕ) × List ℕ)
  | 0, _, _, _ => none
  | fuel + 1, deg, next, log =>
    if next = [] then some (deg, log)
    else syncLoop adj k fuel (syncRound adj k deg next).1 (syncRound adj k deg next).2 (log ++ next)

/-- `degreeCounting` and `syncCascadeKCore`. -/
def syncCascadeKCore (adj : List (List ℕ)) (k fuel : ℕ) : Option ((ℕ → ℕ) × List ℕ) :=
  syncLoop adj k fuel (degreeCounting adj) (setupInitialWorklist adj k (degreeCounting adj)) []

/-- A set of nodes in which every node keeps at least `k` edge endpoints. -/
def KClosed (adj : List (List ℕ)) (k : ℕ) (S : List ℕ) : Prop :=
  ∀ v ∈ S, k ≤ ((adj.getD v []).filter (· ∈ S)).length

/-! ## Runs of decrements on one node -/

theorem dec32_of_pos {x : ℕ} (h0 : 0 < x) (hx : x < 2 ^ 32) : dec32 x = x - 1 := by
  unfold dec32
  omega

/-- Without reaching `0`, `j` decrements take `j` off. -/
theorem iterate_dec32 {x j : ℕ} (hj : j ≤ x) (hx : x < 2 ^ 32) : dec32^[j] x = x - j := by
  induction j with
  | zero => rfl
  | succ j ih =>
    rw [Function.iterate_succ_apply', ih (by omega), dec32_of_pos (by omega) (by omega)]
    omega

/-- Of `m` decrements from `x` that stop at `0` at the latest, one sees the old value `k` when
`k` is among `x, x - 1, …, x + 1 - m`, and none otherwise. -/
theorem countP_iterate_dec32 {x m : ℕ} (k : ℕ) (hm : m ≤ x + 1) (hx : x < 2 ^ 32) :
    (List.range m).countP (fun j => dec32^[j] x = k) =
      if x + 1 - m ≤ k ∧ k ≤ x then 1 else 0 := by
  induction m with
  | zero => rw [List.range_zero, List.countP_nil, if_neg (by omega)]
  | succ m ih =>
    rw [List.range_succ, List.countP_append, ih (by omega), List.countP_singleton,
      iterate_dec32 (by omega) hx]
    by_cases hk : x - m = k
    · -- the last decrement is the one that sees `k`
      rw [decide_eq_true hk, if_pos rfl, if_neg (by omega), if_pos (by omega)]
    · rw [decide_eq_false hk, if_neg Bool.false_ne_true, Nat.add_zero]
      by_cases hin : x + 1 - m ≤ k ∧ k ≤ x
      · rw [if_pos hin, if_pos (by omega)]
      · rw [if_neg hin, if_neg (by omega)]

/-- `m` edges to one node `u`: `u` goes down `m` times and is pushed once for each old degree
`k` on the way. -/
theorem foldl_visitEdge_replicate (k u : ℕ) : ∀ (m : ℕ) (deg : ℕ → ℕ) (next : List ℕ),
    (List.replicate m u).foldl (visitEdge k) (deg, next) =
      (Function.update deg u (dec32^[m] (deg u)),
        next ++ List.replicate ((List.range m).countP fun j => dec32^[j] (deg u) = k) u)
  | 0, deg, next => by
    rw [List.replicate_zero, List.foldl_nil, Function.iterate_zero_apply, Function.update_eq_self,
      List.range_zero, List.countP_nil, List.replicate_zero, List.append_nil]
  | m + 1, deg, next => by
    rw [List.replicate_succ, List.foldl_cons, visitEdge]
    dsimp only
    rw [foldl_visitEdge_replicate k u m, Function.update_self, Function.update_idem,
      Function.iterate_succ_apply, List.range_succ_eq_map, List.countP_cons, List.countP_map]
    have hshift : ((fun j => decide (dec32^[j] (deg u) = k)) ∘ Nat.succ) =
        fun j => decide (dec32^[j] (dec32 (deg u)) = k) := by
      funext j
      rw [Function.comp_apply, Function.iterate_succ_apply]
    rw [hshift, Nat.add_comm, List.replicate_add, Function.iterate_zero_apply]
    by_cases hk : deg u = k
    · rw [if_pos hk, decide_eq_true hk, if_pos rfl, List.replicate_one, List.append_assoc]
    · rw [if_neg hk, decide_eq_false hk, if_neg Bool.false_ne_true, List.replicate_zero,
        List.nil_append]

/-- `m` edges to `u` that do not take it past `0`: it is pushed when `k` is among the degrees
it passes. -/
theorem foldl_visitEdge_replicate_of_le (k u m : ℕ) (deg : ℕ → ℕ) (next : List ℕ)
    (hm : m ≤ deg u) (hx : deg u < 2 ^ 32) :
    (List.replicate m u).foldl (visitEdge k) (deg, next) =
      (Function.update deg u (deg u - m),
        next ++ if deg u + 1 - m ≤ k ∧ k ≤ deg u then [u] else []) := by
  rw [foldl_visitEdge_replicate, iterate_dec32 hm hx, countP_iterate_dec32 k (by omega) hx]
  split_ifs <;> rfl

/-- `m` edges to `u` from degree `0`: the first decrement wraps to `2 ^ 32 - 1`. -/
theorem foldl_visitEdge_replicate_of_zero (k u m : ℕ) (deg : ℕ → ℕ) (next : List ℕ)
    (hu : deg u = 0) (hk : k ≠ 0) (hm : m ≤ 2 ^ 32 - 1) :
    (List.replicate (m + 1) u).foldl (visitEdge k) (deg, next) =
      (Function.update deg u (2 ^ 32 - 1 - m),
        next ++ if 2 ^ 32 - m ≤ k ∧ k ≤ 2 ^ 32 - 1 then [u] else []) := by
  have hwrap : dec32 0 = 2 ^ 32 - 1 := by
    unfold dec32
    omega
  rw [List.replicate_succ, List.foldl_cons, visitEdge]
  dsimp only
  rw [if_neg (by rw [hu]; exact Ne.symm hk), hu, hwrap,
    foldl_visitEdge_replicate_of_le k u m _ _ (by rw [Function.update_self]; exact hm)
      (by rw [Function.update_self]; omega),
    Function.update_self, Function.update_idem, show 2 ^ 32 - 1 + 1 - m = 2 ^ 32 - m by omega]

/-! ## A node of `2 ^ 32` edges -/

/-- The multigraph of the failing run: node `0` has `2 ^ 31` edges to each of `1` and `2`, and
each of them `2 ^ 31` edges back to `0`. -/
def wrapGraph : List (List ℕ) :=
  [List.replicate (2 ^ 31) 1 ++ List.replicate (2 ^ 31) 2, List.replicate (2 ^ 31) 0,
    List.replicate (2 ^ 31) 0]

/-- **A node of `2 ^ 32` edges breaks the k-core.** On `wrapGraph` with `k = 1`, `degreeCounting`
stores node `0`'s `2 ^ 32` edges as degree `0`, so node `0` starts dead. It takes nodes `1` and
`2` down to `0`, pushing both; they take node `0` from `0` round past `2 ^ 32 - 1` back to `0`, and
the last decrement sees `1` and pushes node `0` a second time; processed again, it takes nodes `1`
and `2` round to `2 ^ 31`. The run ends with node `0` processed twice and below `k`, and nodes `1`
and `2` at `2 ^ 31` though all their edges go to node `0`, where the whole graph is `1`-closed, so
every node is in the `1`-core. -/
theorem syncCascadeKCore_wraps :
    KClosed wrapGraph 1 [0, 1, 2] ∧
      ∃ deg, syncCascadeKCore wrapGraph 1 4 = some (deg, [0, 1, 2, 0]) ∧
        deg 0 = 0 ∧ deg 1 = 2 ^ 31 ∧ deg 2 = 2 ^ 31 := by
  have hadj0 : wrapGraph.getD 0 [] = List.replicate (2 ^ 31) 1 ++ List.replicate (2 ^ 31) 2 := rfl
  have hadj1 : wrapGraph.getD 1 [] = List.replicate (2 ^ 31) 0 := rfl
  have hadj2 : wrapGraph.getD 2 [] = List.replicate (2 ^ 31) 0 := rfl
  refine ⟨?_, ?_⟩
  · intro v hv
    simp only [List.mem_cons, List.not_mem_nil, or_false] at hv
    rcases hv with rfl | rfl | rfl
    · rw [hadj0, List.filter_append, List.filter_replicate_of_pos (by decide),
        List.filter_replicate_of_pos (by decide), List.length_append, List.length_replicate]
      omega
    · rw [hadj1, List.filter_replicate_of_pos (by decide), List.length_replicate]
      omega
    · rw [hadj2, List.filter_replicate_of_pos (by decide), List.length_replicate]
      omega
  · have hd0 : degreeCounting wrapGraph 0 = 0 := by
      rw [degreeCounting, hadj0, List.length_append, List.length_replicate, List.length_replicate,
        show 2 ^ 31 + 2 ^ 31 = 2 ^ 32 by omega, Nat.mod_self]
    have hd1 : degreeCounting wrapGraph 1 = 2 ^ 31 := by
      rw [degreeCounting, hadj1, List.length_replicate, Nat.mod_eq_of_lt (show 2 ^ 31 < 2 ^ 32 by omega)]
    have hd2 : degreeCounting wrapGraph 2 = 2 ^ 31 := by
      rw [degreeCounting, hadj2, List.length_replicate, Nat.mod_eq_of_lt (show 2 ^ 31 < 2 ^ 32 by omega)]
    have hinit : setupInitialWorklist wrapGraph 1 (degreeCounting wrapGraph) = [0] := by
      rw [setupInitialWorklist, show wrapGraph.length = 3 from rfl,
        show List.range 3 = [0, 1, 2] from rfl]
      simp only [List.filter_cons, hd0, hd1, hd2, List.filter_nil]
      rfl
    -- round 1: node `0` takes nodes `1` and `2` from `2 ^ 31` to `0`, pushing both
    have hr1 : syncRound wrapGraph 1 (degreeCounting wrapGraph) [0] =
        (Function.update (Function.update (degreeCounting wrapGraph) 1 0) 2 0, [1, 2]) := by
      rw [syncRound, List.foldl_cons, List.foldl_nil, processNode, hadj0, List.foldl_append,
        foldl_visitEdge_replicate_of_le 1 1 (2 ^ 31) (degreeCounting wrapGraph) []
          (Nat.le_of_eq hd1.symm) (by rw [hd1]; decide), hd1,
        Nat.sub_self, if_pos (by decide),
        foldl_visitEdge_replicate_of_le 1 2 (2 ^ 31) _ _
          (Nat.le_of_eq ((Function.update_of_ne (by decide) _ _).trans hd2).symm)
          (by rw [Function.update_of_ne (by decide), hd2]; decide),
        Function.update_of_ne (by decide), hd2, Nat.sub_self, if_pos (by decide)]
      rfl
    have hrep : List.replicate (2 ^ 31) 0 = List.replicate (2 ^ 31 - 1 + 1) 0 := rfl
    have hwrap : 2 ^ 32 - 1 - (2 ^ 31 - 1) = 2 ^ 31 := rfl
    -- round 2: nodes `1` and `2` take node `0` from `0` round past `2 ^ 32` back to `0`; only the
    -- last decrement sees `1`
    have hr2 : syncRound wrapGraph 1
        (Function.update (Function.update (degreeCounting wrapGraph) 1 0) 2 0) [1, 2] =
        (Function.update (Function.update (Function.update (degreeCounting wrapGraph) 1 0) 2 0)
          0 0, [0]) := by
      rw [syncRound, List.foldl_cons, List.foldl_cons, List.foldl_nil, processNode, processNode,
        hadj1, hadj2, hrep,
        foldl_visitEdge_replicate_of_zero 1 0 (2 ^ 31 - 1) _ []
          (by rw [Function.update_of_ne (by decide), Function.update_of_ne (by decide), hd0])
          (by decide) (by decide),
        if_neg (by decide), hwrap, ← hrep,
        foldl_visitEdge_replicate_of_le 1 0 (2 ^ 31) _ _
          (Nat.le_of_eq (by rw [Function.update_self])) (by rw [Function.update_self]; decide),
        Function.update_self, Function.update_idem, if_pos (by decide)]
      rfl
    have hrep1 : List.replicate (2 ^ 31) 1 = List.replicate (2 ^ 31 - 1 + 1) 1 := rfl
    have hrep2 : List.replicate (2 ^ 31) 2 = List.replicate (2 ^ 31 - 1 + 1) 2 := rfl
    -- round 3: node `0` takes nodes `1` and `2` from `0` round to `2 ^ 31`; nothing is pushed
    have hr3 : syncRound wrapGraph 1
        (Function.update (Function.update (Function.update (degreeCounting wrapGraph) 1 0) 2 0)
          0 0) [0] =
        (Function.update (Function.update (Function.update (Function.update
          (Function.update (degreeCounting wrapGraph) 1 0) 2 0) 0 0) 1 (2 ^ 31)) 2 (2 ^ 31),
          []) := by
      rw [syncRound, List.foldl_cons, List.foldl_nil, processNode, hadj0, List.foldl_append,
        hrep1, foldl_visitEdge_replicate_of_zero 1 1 (2 ^ 31 - 1) _ []
          (by rw [Function.update_of_ne (by decide), Function.update_of_ne (by decide),
            Function.update_self])
          (by decide) (by decide),
        if_neg (by decide), hwrap, hrep2,
        foldl_visitEdge_replicate_of_zero 1 2 (2 ^ 31 - 1) _ _
          (by rw [Function.update_of_ne (by decide), Function.update_of_ne (by decide),
            Function.update_self])
          (by decide) (by decide),
        if_neg (by decide), hwrap]
      rfl
    refine ⟨Function.update (Function.update (Function.update (Function.update
      (Function.update (degreeCounting wrapGraph) 1 0) 2 0) 0 0) 1 (2 ^ 31)) 2 (2 ^ 31),
      ?_, ?_, ?_, Function.update_self _ _ _⟩
    · rw [syncCascadeKCore, hinit, syncLoop, if_neg (List.cons_ne_nil _ _), hr1]
      dsimp only
      rw [syncLoop, if_neg (List.cons_ne_nil _ _), hr2]
      dsimp only
      rw [syncLoop, if_neg (List.cons_ne_nil _ _), hr3]
      dsimp only
      rw [syncLoop, if_pos rfl]
      rfl
    · rw [Function.update_of_ne (by decide), Function.update_of_ne (by decide),
        Function.update_self]
    · rw [Function.update_of_ne (by decide), Function.update_self]

end Galois.Lonestar.KCore
