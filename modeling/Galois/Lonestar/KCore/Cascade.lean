import Galois.Lonestar.KCore

/-!
# The k-core cascade in any order

`syncCascadeKCore` and `asyncCascadeKCore` run the same operator on the dead nodes; they differ
in the order of the `atomicSubtract`s, which the threads interleave. `Cascade` is the state of
any such interleaving: the degrees, the dead nodes in the order they were pushed, and the
position `pos` of each dead node's edge iterator. `CascadeStep` is one `atomicSubtract` on the
next edge of a dead node, with the push of the destination when the old degree was `k`.

* `SymmetricGraph` -- what the application asks of its input: every edge ends at a node, and
  `v` occurs among `u`'s edges as often as `u` among `v`'s;
* `CascadeInv` -- the invariant: no node is pushed twice, a node is dead exactly when its
  degree is below `k`, the degree of `w` is its number of edges less the edges into `w` the
  dead nodes have visited, and no dead node is in a `k`-closed set;
* `cascade_kcore` -- every interleaving that has visited every edge of every dead node leaves
  exactly the `k`-core alive, each alive node with its number of edges into the `k`-core, when
  no node has `2 ^ 32` edges;
* `syncCascadeKCore_kcore` -- the rounds of `syncCascadeKCore` are such an interleaving and end
  within `n + 1` rounds.
-/

namespace Galois.Lonestar.KCore

/-- The input the application requires (`-symmetricGraph`): every edge ends at a node, and `v`
occurs among `u`'s edges as often as `u` among `v`'s. -/
structure SymmetricGraph (adj : List (List ℕ)) : Prop where
  lt : ∀ u v, v ∈ adj.getD u [] → v < adj.length
  count : ∀ u v, (adj.getD u []).count v = (adj.getD v []).count u

/-- The state of any interleaving of the cascade: the `currentDegree`s, the dead nodes in the
order they were pushed, and the position of each dead node's edge iterator. -/
structure Cascade where
  deg : ℕ → ℕ
  dead : List ℕ
  pos : ℕ → ℕ

/-- The edges of `u` its iterator has passed. -/
def visited (adj : List (List ℕ)) (s : Cascade) (u : ℕ) : List ℕ :=
  (adj.getD u []).take (s.pos u)

/-- The edges into `w` the dead nodes have visited. -/
def visitedInto (adj : List (List ℕ)) (s : Cascade) (w : ℕ) : ℕ :=
  (s.dead.map fun u => (visited adj s u).count w).sum

/-- `atomicSubtract` on the edge `u → w`, the push of `w` when the old degree was `k`, and the
iterator of `u` one edge on. -/
def visitStep (k : ℕ) (s : Cascade) (u w : ℕ) : Cascade :=
  ⟨Function.update s.deg w (dec32 (s.deg w)), if s.deg w = k then s.dead ++ [w] else s.dead,
    Function.update s.pos u (s.pos u + 1)⟩

/-- One step of any interleaving: a thread processing the dead node `u` takes its next edge. -/
inductive CascadeStep (adj : List (List ℕ)) (k : ℕ) : Cascade → Cascade → Prop
  | visit {s : Cascade} {u w : ℕ} (hu : u ∈ s.dead) (hw : (adj.getD u [])[s.pos u]? = some w) :
      CascadeStep adj k s (visitStep k s u w)

/-- After `degreeCounting` and `setupInitialWorklist`, no edge visited. -/
def cascadeInit (adj : List (List ℕ)) (k : ℕ) : Cascade :=
  ⟨degreeCounting adj, setupInitialWorklist adj k (degreeCounting adj), fun _ => 0⟩

/-- Every edge of every dead node visited: no thread has work left. -/
def Finished (adj : List (List ℕ)) (s : Cascade) : Prop :=
  ∀ u ∈ s.dead, (adj.getD u []).length ≤ s.pos u

/-- The nodes `kCoreSanity` counts: those whose degree is at least `k`. -/
def aliveNodes (adj : List (List ℕ)) (k : ℕ) (deg : ℕ → ℕ) : List ℕ :=
  (List.range adj.length).filter fun v => k ≤ deg v

/-- What the application computes: the nodes of degree at least `k` form a `k`-closed set that
holds every `k`-closed set of nodes, the `k`-core, and each has its number of edges into it; the
processed nodes are the others, each once. -/
structure KCoreResult (adj : List (List ℕ)) (k : ℕ) (deg : ℕ → ℕ) (processed : List ℕ) :
    Prop where
  closed : KClosed adj k (aliveNodes adj k deg)
  largest : ∀ S, KClosed adj k S → ∀ v ∈ S, v < adj.length → v ∈ aliveNodes adj k deg
  degree : ∀ v ∈ aliveNodes adj k deg,
    deg v = ((adj.getD v []).filter (· ∈ aliveNodes adj k deg)).length
  nodup : processed.Nodup
  processed_iff : ∀ v < adj.length, v ∈ processed ↔ deg v < k

/-! ## 1. Counting edges -/

/-- The occurrences of `u` and of the elements of `P`, when `u ∉ P`. -/
theorem count_add_countP {P : List ℕ} {u : ℕ} (hu : u ∉ P) (L : List ℕ) :
    L.count u + L.countP (· ∈ P) = L.countP (· ∈ u :: P) := by
  induction L with
  | nil => rfl
  | cons x L ih =>
    rw [List.count_cons, List.countP_cons, List.countP_cons, ← ih]
    -- `x` counts once on each side: for `u`, or for `P`
    by_cases hx : x = u
    · subst hx
      simp only [beq_self_eq_true, if_true, hu, decide_false, List.mem_cons_self, decide_true,
        Bool.false_eq_true, if_false]
      omega
    · simp only [beq_iff_eq, hx, if_false, List.mem_cons, false_or]
      omega

/-- Over distinct `P`, the occurrences of the elements of `P` in `L` are the elements of `L` in
`P`. -/
theorem sum_map_count_eq_countP {P : List ℕ} (hP : P.Nodup) (L : List ℕ) :
    (P.map L.count).sum = L.countP (· ∈ P) := by
  induction P with
  | nil => simp
  | cons u P ih =>
    obtain ⟨hu, hP⟩ := List.nodup_cons.mp hP
    rw [List.map_cons, List.sum_cons, ih hP, count_add_countP hu]

section Graph

variable {adj : List (List ℕ)} (hg : SymmetricGraph adj)
include hg

/-- In a symmetric graph, the edges from distinct nodes `P` into `w` are `w`'s edges into `P`. -/
theorem sum_count_eq_countP {P : List ℕ} (hP : P.Nodup) (w : ℕ) :
    (P.map fun u => (adj.getD u []).count w).sum = (adj.getD w []).countP (· ∈ P) := by
  rw [← sum_map_count_eq_countP hP]
  congr 1
  exact List.map_congr_left fun u _ => hg.count u w

/-- ... so there are at most as many as `w` has edges. -/
theorem sum_count_le {P : List ℕ} (hP : P.Nodup) (w : ℕ) :
    (P.map fun u => (adj.getD u []).count w).sum ≤ (adj.getD w []).length := by
  rw [sum_count_eq_countP hg hP]
  exact List.countP_le_length

end Graph

/-- Changing one term of a sum over distinct nodes by `c`. -/
theorem sum_map_of_update {P : List ℕ} (hP : P.Nodup) {u : ℕ} (hu : u ∈ P) {f g : ℕ → ℕ}
    (hne : ∀ v, v ≠ u → g v = f v) {c : ℕ} (hgu : g u = f u + c) :
    (P.map g).sum = (P.map f).sum + c := by
  induction P with
  | nil => cases hu
  | cons v P ih =>
    obtain ⟨hv, hP⟩ := List.nodup_cons.mp hP
    rw [List.map_cons, List.map_cons, List.sum_cons, List.sum_cons]
    rcases List.mem_cons.mp hu with rfl | hu
    · -- the changed term is the head; the rest is over nodes other than `u`
      have hrest : P.map g = P.map f :=
        List.map_congr_left fun v' hv' => hne v' fun h => hv (h ▸ hv')
      rw [hgu, hrest]
      omega
    · have hvu : v ≠ u := fun h => hv (h ▸ hu)
      rw [hne v hvu, ih hP hu]
      omega

/-! ## 2. The invariant -/

/-- The invariant of every interleaving: the dead nodes are distinct nodes of the graph; a
node not dead has visited nothing; a node is dead exactly when its degree is below `k`; the
degree of `w` is its number of edges less the edges into `w` the dead nodes have visited; and no
dead node is in a `k`-closed set. -/
structure CascadeInv (adj : List (List ℕ)) (k : ℕ) (s : Cascade) : Prop where
  nodup : s.dead.Nodup
  lt : ∀ u ∈ s.dead, u < adj.length
  fresh : ∀ v, v ∉ s.dead → s.pos v = 0
  dead_iff : ∀ v < adj.length, v ∈ s.dead ↔ s.deg v < k
  deg_eq : ∀ w, s.deg w + visitedInto adj s w = (adj.getD w []).length
  safe : ∀ S, KClosed adj k S → ∀ v ∈ s.dead, v ∉ S

variable {adj : List (List ℕ)} {k : ℕ}

/-- A node that has no edge is no node of the graph's edge lists. -/
theorem getD_eq_nil {v : ℕ} (hv : adj.length ≤ v) : adj.getD v [] = [] := by
  rw [List.getD_eq_getElem?_getD, List.getElem?_eq_none hv, Option.getD_none]

theorem count_visited_le (s : Cascade) (u w : ℕ) :
    (visited adj s u).count w ≤ (adj.getD u []).count w :=
  (List.take_sublist _ _).count_le w

/-- A node with fewer than `k` edges is in no `k`-closed set. -/
theorem not_mem_of_length_lt {S : List ℕ} (hS : KClosed adj k S) {v : ℕ}
    (hv : (adj.getD v []).length < k) : v ∉ S := fun hvS =>
  absurd (hS v hvS) (Nat.not_le_of_lt (lt_of_le_of_lt (List.length_filter_le _ _) hv))

theorem cascadeInv_init (hdeg : ∀ v, (adj.getD v []).length < 2 ^ 32) :
    CascadeInv adj k (cascadeInit adj k) where
  nodup := List.nodup_range.filter _
  lt u hu := List.mem_range.mp (List.mem_filter.mp hu).1
  fresh _ _ := rfl
  dead_iff v hv := by
    simp [cascadeInit, setupInitialWorklist, hv]
  deg_eq w := by
    have hnil : ∀ u, visited adj (cascadeInit adj k) u = [] := fun u => List.take_zero
    simp only [visitedInto, hnil, List.count_nil, List.map_const', List.sum_replicate,
      smul_eq_mul, mul_zero, add_zero]
    exact Nat.mod_eq_of_lt (hdeg w)
  safe S hS v hv := by
    have hlt := (decide_eq_true_iff.mp (List.mem_filter.mp hv).2)
    rw [degreeCounting, Nat.mod_eq_of_lt (hdeg v)] at hlt
    exact not_mem_of_length_lt hS hlt

/-! ## 3. One step -/

section Step

variable (hg : SymmetricGraph adj) {s : Cascade} (h : CascadeInv adj k s) {u w : ℕ}
  (hu : u ∈ s.dead) (hw : (adj.getD u [])[s.pos u]? = some w)
include hg h hu hw

omit hg in
/-- With the iterator of `u` one edge on, the dead nodes have visited one more edge `u → w`. -/
theorem sum_visited_update (w' : ℕ) :
    (s.dead.map fun u' =>
      ((adj.getD u' []).take (Function.update s.pos u (s.pos u + 1) u')).count w').sum =
      visitedInto adj s w' + [w].count w' := by
  refine sum_map_of_update h.nodup hu (fun v hv => ?_) ?_
  · rw [Function.update_of_ne hv]
    rfl
  · rw [Function.update_self, List.take_add_one, hw, Option.toList_some, List.count_append]
    rfl

/-- The edge `u → w` is one more edge into `w` from a dead node than were visited, so the dead
nodes have at least that many edges into `w`. -/
theorem visitedInto_succ_le :
    visitedInto adj s w + 1 ≤ (adj.getD w []).countP (· ∈ s.dead) := by
  have hstep := sum_visited_update h hu hw w
  have hle := List.sum_le_sum fun u' (_ : u' ∈ s.dead) =>
    (List.take_sublist (Function.update s.pos u (s.pos u + 1) u') (adj.getD u' [])).count_le w
  rw [List.count_singleton_self] at hstep
  rw [← sum_count_eq_countP hg h.nodup, ← hstep]
  exact hle

theorem visitedInto_lt_length : visitedInto adj s w < (adj.getD w []).length :=
  lt_of_lt_of_le (visitedInto_succ_le hg h hu hw) List.countP_le_length

omit h hu in
theorem lt_length_of_visit : w < adj.length := hg.lt u w (List.mem_of_getElem? hw)

omit hu in
/-- A node pushed at the step was not dead. -/
theorem not_mem_of_visit (hk : s.deg w = k) : w ∉ s.dead := fun hwd =>
  absurd ((h.dead_iff w (lt_length_of_visit hg hw)).mp hwd) (by omega)

/-- Over the dead nodes after the step, a measure of the visited edges that is `0` on none is its
sum over the old dead nodes with `u`'s iterator one edge on: a pushed `w` has visited nothing. -/
theorem sum_visited_visitStep (f : List ℕ → ℕ) (hf : f [] = 0) :
    ((visitStep k s u w).dead.map fun u' => f (visited adj (visitStep k s u w) u')).sum =
      (s.dead.map fun u' =>
        f ((adj.getD u' []).take (Function.update s.pos u (s.pos u + 1) u'))).sum := by
  simp only [visitStep]
  split_ifs with hk
  · have hwu : w ≠ u := fun e => not_mem_of_visit hg h hw hk (e ▸ hu)
    rw [List.map_append, List.sum_append, List.map_singleton, List.sum_singleton]
    simp only [visited, Function.update_of_ne hwu, h.fresh w (not_mem_of_visit hg h hw hk),
      List.take_zero, hf, add_zero]
  · rfl

theorem visitedInto_visitStep (w' : ℕ) :
    visitedInto adj (visitStep k s u w) w' = visitedInto adj s w' + [w].count w' := by
  rw [← sum_visited_update h hu hw w', visitedInto]
  exact sum_visited_visitStep hg h hu hw (List.count w') List.count_nil

/-- One more edge visited. -/
theorem visitedCount_visitStep :
    ((visitStep k s u w).dead.map fun u' => (visited adj (visitStep k s u w) u').length).sum =
      (s.dead.map fun u' => (visited adj s u').length).sum + 1 := by
  have hlt : s.pos u < (adj.getD u []).length := (List.getElem?_eq_some_iff.mp hw).1
  have hupd : (s.dead.map fun u' =>
      ((adj.getD u' []).take (Function.update s.pos u (s.pos u + 1) u')).length).sum =
      (s.dead.map fun u' => (visited adj s u').length).sum + 1 := by
    refine sum_map_of_update h.nodup hu (fun v hv => ?_) ?_
    · rw [Function.update_of_ne hv]
      rfl
    · rw [Function.update_self, visited, List.length_take, List.length_take]
      omega
  rw [← hupd]
  exact sum_visited_visitStep hg h hu hw List.length List.length_nil

omit hg h hu hw in
/-- The dead nodes after the step: the old ones, and `w` when it is pushed. -/
theorem mem_visitStep_dead (v : ℕ) :
    v ∈ (visitStep k s u w).dead ↔ v ∈ s.dead ∨ (s.deg w = k ∧ v = w) := by
  simp only [visitStep]
  split_ifs with hk <;> simp [hk]

omit hu in
theorem nodup_visitStep_dead : (visitStep k s u w).dead.Nodup := by
  simp only [visitStep]
  split_ifs with hk
  · exact List.nodup_append.mpr ⟨h.nodup, List.nodup_singleton w,
      fun a ha b hb => by
        rw [List.mem_singleton.mp hb]
        exact fun e => not_mem_of_visit hg h hw hk (e ▸ ha)⟩
  · exact h.nodup

/-- A node pushed at degree `k` is in no `k`-closed set: it has more edges to dead nodes than
its length less `k`, and no dead node is in a `k`-closed set. -/
theorem not_mem_closed_of_visit (hk : s.deg w = k) {S : List ℕ} (hS : KClosed adj k S) :
    w ∉ S := by
  intro hwS
  have hkS : k ≤ (adj.getD w []).countP (· ∈ S) := by
    rw [List.countP_eq_length_filter]
    exact hS w hwS
  have hSD : (adj.getD w []).countP (· ∈ S) ≤ (adj.getD w []).countP (· ∉ s.dead) :=
    List.countP_mono_left fun x _ hx => by
      simp only [decide_eq_true_eq] at hx ⊢
      exact fun hxd => h.safe S hS x hxd hx
  have hsplit := List.length_eq_countP_add_countP (· ∈ s.dead) (l := adj.getD w [])
  simp only [decide_eq_true_eq] at hsplit
  have hvis := visitedInto_succ_le hg h hu hw
  have hdw := h.deg_eq w
  omega

/-- **One `atomicSubtract` keeps the invariant**, when no node has `2 ^ 32` edges: the old
degree of `w` is positive, as the dead nodes have not yet visited all of `w`'s edges, so the
decrement does not wrap; and a node pushed at degree `k` is in no `k`-closed set. -/
theorem cascadeInv_visitStep (hdeg : ∀ v, (adj.getD v []).length < 2 ^ 32) :
    CascadeInv adj k (visitStep k s u w) := by
  have hlt := visitedInto_lt_length hg h hu hw
  have hdw := h.deg_eq w
  have hdec : dec32 (s.deg w) = s.deg w - 1 := dec32_of_pos (by omega) (by have := hdeg w; omega)
  refine ⟨nodup_visitStep_dead hg h hw, fun v hv => ?_, fun v hv => ?_, fun v hv => ?_,
    fun w' => ?_, fun S hS v hv => ?_⟩
  · rcases (mem_visitStep_dead v).mp hv with hv | ⟨-, rfl⟩
    · exact h.lt v hv
    · exact lt_length_of_visit hg hw
  · have hvd : v ∉ s.dead := fun hd => hv ((mem_visitStep_dead v).mpr (Or.inl hd))
    have hvu : v ≠ u := fun e => hvd (e ▸ hu)
    simp only [visitStep, Function.update_of_ne hvu]
    exact h.fresh v hvd
  · rw [mem_visitStep_dead v]
    simp only [visitStep]
    by_cases hvw : v = w
    · subst hvw
      rw [Function.update_self, hdec, h.dead_iff v hv]
      omega
    · rw [Function.update_of_ne hvw, h.dead_iff v hv]
      simp [hvw]
  · rw [visitedInto_visitStep hg h hu hw]
    have := h.deg_eq w'
    simp only [visitStep]
    by_cases hw' : w' = w
    · subst hw'
      rw [Function.update_self, hdec, List.count_singleton_self]
      omega
    · rw [Function.update_of_ne hw', List.count_singleton, beq_false_of_ne (Ne.symm hw')]
      simpa using this
  · rcases (mem_visitStep_dead v).mp hv with hv | ⟨hk, rfl⟩
    · exact h.safe S hS v hv
    · exact not_mem_closed_of_visit hg h hu hw hk hS

end Step

/-! ## 4. The end of a run -/

theorem cascadeInv_of_reach (hg : SymmetricGraph adj)
    (hdeg : ∀ v, (adj.getD v []).length < 2 ^ 32)
    {s : Cascade} (hr : Relation.ReflTransGen (CascadeStep adj k) (cascadeInit adj k) s) :
    CascadeInv adj k s := by
  induction hr with
  | refl => exact cascadeInv_init hdeg
  | tail _ hs ih =>
    cases hs with
    | visit hu hw => exact cascadeInv_visitStep hg ih hu hw hdeg

/-- A state without a step has visited every edge of every dead node. -/
theorem finished_of_stuck {s : Cascade} (hstuck : ∀ s', ¬CascadeStep adj k s s') :
    Finished adj s := by
  intro u hu
  by_contra hlt
  obtain ⟨w, hw⟩ : ∃ w, (adj.getD u [])[s.pos u]? = some w :=
    ⟨_, List.getElem?_eq_getElem (Nat.lt_of_not_le hlt)⟩
  exact hstuck _ (.visit hu hw)

/-- At the end, the edges into `w` the dead nodes have visited are all of them. -/
theorem visitedInto_of_finished (hg : SymmetricGraph adj) {s : Cascade} (h : CascadeInv adj k s)
    (hf : Finished adj s) (w : ℕ) :
    visitedInto adj s w = (adj.getD w []).countP (· ∈ s.dead) := by
  rw [visitedInto, ← sum_count_eq_countP hg h.nodup]
  congr 1
  exact List.map_congr_left fun u hu => by rw [visited, List.take_of_length_le (hf u hu)]

/-- **A finished run leaves the `k`-core alive.** Every dead node has visited all its edges, so
the degree of a node is its number of edges to nodes not dead, that is to alive nodes; and no
dead node is in a `k`-closed set. -/
theorem kcoreResult_of_finished (hg : SymmetricGraph adj) {s : Cascade} (h : CascadeInv adj k s)
    (hf : Finished adj s) : KCoreResult adj k s.deg s.dead := by
  -- an edge ends at an alive node exactly when it ends at a node not dead
  have halive : ∀ v, (adj.getD v []).countP (· ∈ aliveNodes adj k s.deg) =
      (adj.getD v []).countP (· ∉ s.dead) := by
    intro v
    refine List.countP_congr fun x hx => ?_
    have hxn := hg.lt v x hx
    simp only [aliveNodes, List.mem_filter, List.mem_range, hxn, true_and, decide_eq_true_eq,
      h.dead_iff x hxn, not_lt]
  have hdeg : ∀ v, s.deg v = ((adj.getD v []).filter (· ∈ aliveNodes adj k s.deg)).length := by
    intro v
    have := h.deg_eq v
    have hsplit := List.length_eq_countP_add_countP (· ∈ s.dead) (l := adj.getD v [])
    simp only [decide_eq_true_eq] at hsplit
    rw [← List.countP_eq_length_filter, halive, visitedInto_of_finished hg h hf] at *
    omega
  refine ⟨fun v hv => ?_, fun S hS v hv hvn => ?_, fun v _ => hdeg v, h.nodup, h.dead_iff⟩
  · rw [← hdeg]
    exact (decide_eq_true_iff.mp (List.mem_filter.mp hv).2)
  · have hvd : v ∉ s.dead := fun hd => h.safe S hS v hd hv
    rw [h.dead_iff v hvn, not_lt] at hvd
    simp [aliveNodes, hvn, hvd]

/-- A state without a step, reached from the start, has the `k`-core alive. -/
theorem kcore_of_stuck (hg : SymmetricGraph adj) (hdeg : ∀ v, (adj.getD v []).length < 2 ^ 32)
    {s : Cascade} (hr : Relation.ReflTransGen (CascadeStep adj k) (cascadeInit adj k) s)
    (hstuck : ∀ s', ¬CascadeStep adj k s s') : KCoreResult adj k s.deg s.dead :=
  kcoreResult_of_finished hg (cascadeInv_of_reach hg hdeg hr) (finished_of_stuck hstuck)

/-- The distinct nodes of the graph have at most all its edges. -/
theorem sum_length_le {P : List ℕ} (hP : P.Nodup) (hlt : ∀ u ∈ P, u < adj.length) :
    (P.map fun u => (adj.getD u []).length).sum ≤ (adj.map List.length).sum := by
  obtain ⟨l, hperm, hsub⟩ := hP.subperm fun u hu => List.mem_range.mpr (hlt u hu)
  have hrange : (List.range adj.length).map (fun u => (adj.getD u []).length) =
      adj.map List.length := by
    refine List.ext_getElem (by simp) fun i h₁ h₂ => ?_
    simp only [List.getElem_map, List.getElem_range, List.getD_eq_getElem?_getD]
    rw [List.getElem?_eq_getElem (by simpa using h₂), Option.getD_some]
  rw [← (hperm.map _).sum_eq, ← hrange]
  exact (hsub.map _).sum_le_sum fun _ _ => Nat.zero_le _

/-- A run of `n` steps from the start has visited `n` edges of dead nodes. -/
theorem visitedCount_of_run (hg : SymmetricGraph adj)
    (hdeg : ∀ v, (adj.getD v []).length < 2 ^ 32) {f : ℕ → Cascade}
    (h0 : f 0 = cascadeInit adj k)
    (hf : ∀ i, CascadeStep adj k (f i) (f (i + 1))) :
    ∀ i, Relation.ReflTransGen (CascadeStep adj k) (cascadeInit adj k) (f i) ∧
      ((f i).dead.map fun u => (visited adj (f i) u).length).sum = i
  | 0 => by
    rw [h0]
    refine ⟨.refl, ?_⟩
    simp [visited, cascadeInit]
  | i + 1 => by
    obtain ⟨hr, hcount⟩ := visitedCount_of_run hg hdeg h0 hf i
    have hstep := hf i
    generalize f (i + 1) = s' at hstep ⊢
    cases hstep with
    | visit hu hw =>
      refine ⟨hr.tail (.visit hu hw), ?_⟩
      rw [visitedCount_visitStep hg (cascadeInv_of_reach hg hdeg hr) hu hw, hcount]

/-- **Every interleaving ends in the `k`-core.** For a symmetric graph in which no node has
`2 ^ 32` edges, and every `k`: no run of `atomicSubtract`s on the edges of dead nodes, in any
order, is longer than the graph has edges, since each visits an edge of a dead node once; and a
state the threads reach from `degreeCounting` and `setupInitialWorklist` in which no thread has
an edge left has the `k`-core alive, each alive node with its number of edges into it, and every
other node pushed once. -/
theorem cascade_kcore (hg : SymmetricGraph adj) (hdeg : ∀ v, (adj.getD v []).length < 2 ^ 32)
    (k : ℕ) :
    (∀ f : ℕ → Cascade, f 0 = cascadeInit adj k →
      (∀ i, CascadeStep adj k (f i) (f (i + 1))) → False) ∧
    ∀ s, Relation.ReflTransGen (CascadeStep adj k) (cascadeInit adj k) s →
      (∀ s', ¬CascadeStep adj k s s') → KCoreResult adj k s.deg s.dead := by
  refine ⟨fun f h0 hf => ?_, fun s hr hstuck => kcore_of_stuck hg hdeg hr hstuck⟩
  -- a run one step longer than the graph has edges has visited more edges than there are
  set N := (adj.map List.length).sum
  obtain ⟨hr, hcount⟩ := visitedCount_of_run hg hdeg h0 hf (N + 1)
  have h := cascadeInv_of_reach hg hdeg hr
  have hle := List.sum_le_sum fun u (_ : u ∈ (f (N + 1)).dead) =>
    List.length_take_le' ((f (N + 1)).pos u) (adj.getD u [])
  have := sum_length_le h.nodup h.lt
  simp only [visited] at hcount
  omega

/-- Two nodes joined by an edge each way. -/
theorem symmetricGraph_pair : SymmetricGraph [[1], [0]] := by
  refine ⟨fun u v hv => ?_, fun u v => ?_⟩
  · rcases u with _ | _ | u <;> simp_all
  · rcases u with _ | _ | u <;> rcases v with _ | _ | v <;> simp

theorem length_pair_lt : ∀ v, ([[1], [0]].getD v []).length < 2 ^ 32 := by
  intro v
  rcases v with _ | _ | v <;> simp

/-- With `k = 2` both nodes of the pair start dead; one thread takes node `0`'s edge, lowering
node `1` to `0`, another node `1`'s, and then no thread has work left. -/
theorem cascade_kcore_pair :
    let s₁ := visitStep 2 (cascadeInit [[1], [0]] 2) 0 1
    let s₂ := visitStep 2 s₁ 1 0
    SymmetricGraph [[1], [0]] ∧ (∀ v, ([[1], [0]].getD v []).length < 2 ^ 32) ∧
      Relation.ReflTransGen (CascadeStep [[1], [0]] 2) (cascadeInit [[1], [0]] 2) s₂ ∧
      (∀ s', ¬CascadeStep [[1], [0]] 2 s₂ s') ∧ KCoreResult [[1], [0]] 2 s₂.deg s₂.dead := by
  intro s₁ s₂
  have hr : Relation.ReflTransGen (CascadeStep [[1], [0]] 2) (cascadeInit [[1], [0]] 2) s₂ :=
    (Relation.ReflTransGen.single (.visit (by decide) (by decide))).tail
      (.visit (by decide) (by decide))
  -- both edges are visited: every dead node's iterator is at its end
  have hstuck : ∀ s', ¬CascadeStep [[1], [0]] 2 s₂ s' := by
    intro s' hs
    cases hs with
    | visit hu hw =>
      have hend : ∀ u ∈ s₂.dead, ([[1], [0]].getD u [])[s₂.pos u]? = none := by decide
      rw [hend _ hu] at hw
      cases hw
  exact ⟨symmetricGraph_pair, length_pair_lt, hr, hstuck,
    (cascade_kcore symmetricGraph_pair length_pair_lt 2).2 _ hr hstuck⟩

/-! ## 5. `syncCascadeKCore` -/

/-- The edge iterators between the nodes of a round of `syncCascadeKCore`: at the end for every
processed node, at the start for the others. -/
def posOf (adj : List (List ℕ)) (done : List ℕ) (v : ℕ) : ℕ :=
  if v ∈ done then (adj.getD v []).length else 0

/-- **The edges of one dead node are steps of the cascade**: `processNode` from the `j`-th edge
of `u` on takes the iterator of `u` to its end, pushing as the steps do. Induction on the edges
left. -/
theorem reach_foldl_visitEdge {u : ℕ} {dead : List ℕ} (hu : u ∈ dead) (pos : ℕ → ℕ) :
    ∀ (rest : List ℕ) (j : ℕ), (adj.getD u []).drop j = rest → ∀ deg next,
      Relation.ReflTransGen (CascadeStep adj k)
        ⟨deg, dead ++ next, Function.update pos u j⟩
        ⟨(rest.foldl (visitEdge k) (deg, next)).1,
          dead ++ (rest.foldl (visitEdge k) (deg, next)).2,
          Function.update pos u (j + rest.length)⟩ := by
  intro rest
  induction rest with
  | nil => intro j _ deg next; exact .refl
  | cons w rest ih =>
    intro j hdrop deg next
    have hw : (adj.getD u [])[j]? = some w := by
      rw [← Nat.add_zero j, ← List.getElem?_drop, hdrop, List.getElem?_cons_zero]
    have hrest : (adj.getD u []).drop (j + 1) = rest := by
      rw [← List.tail_drop, hdrop, List.tail_cons]
    -- the step on `u → w` is `visitEdge` on `w`, the iterator one edge on
    have hstep : CascadeStep adj k ⟨deg, dead ++ next, Function.update pos u j⟩
        ⟨(visitEdge k (deg, next) w).1, dead ++ (visitEdge k (deg, next) w).2,
          Function.update pos u (j + 1)⟩ := by
      have hpos : (adj.getD u [])[Function.update pos u j u]? = some w := by
        rw [Function.update_self]
        exact hw
      have : CascadeStep adj k ⟨deg, dead ++ next, Function.update pos u j⟩
          (visitStep k ⟨deg, dead ++ next, Function.update pos u j⟩ u w) :=
        .visit (List.mem_append_left next hu) hpos
      convert this using 1
      simp only [visitEdge, visitStep, Function.update_self, Function.update_idem]
      split_ifs <;> simp
    refine .head hstep ?_
    rw [List.foldl_cons, List.length_cons,
      show j + (rest.length + 1) = j + 1 + rest.length by omega]
    exact ih (j + 1) hrest (visitEdge k (deg, next) w).1 (visitEdge k (deg, next) w).2

theorem update_posOf {done : List ℕ} {u : ℕ} (hu : u ∉ done) :
    Function.update (posOf adj done) u (adj.getD u []).length = posOf adj (done ++ [u]) := by
  funext v
  by_cases hv : v = u
  · subst hv
    simp [posOf]
  · simp [posOf, hv]

variable (adj k) in
/-- **A round of `syncCascadeKCore` is a run of the cascade**: `processNode` on each node of
`current` in turn, each from the start of its edges to their end. Induction on `current`. -/
theorem reach_foldl_processNode (dead : List ℕ) :
    ∀ (cur done : List ℕ), (∀ u ∈ cur, u ∈ dead) → (∀ u ∈ cur, u ∉ done) → cur.Nodup →
      ∀ deg next, Relation.ReflTransGen (CascadeStep adj k)
        ⟨deg, dead ++ next, posOf adj done⟩
        ⟨(cur.foldl (processNode adj k) (deg, next)).1,
          dead ++ (cur.foldl (processNode adj k) (deg, next)).2, posOf adj (done ++ cur)⟩
  | [], done, _, _, _, deg, next => by rw [List.append_nil]; exact .refl
  | u :: cur, done, hcur, hdone, hnodup, deg, next => by
    obtain ⟨hu, hnodup⟩ := List.nodup_cons.mp hnodup
    have hu0 : Function.update (posOf adj done) u 0 = posOf adj done := by
      rw [Function.update_eq_self_iff, posOf, if_neg (hdone u (List.mem_cons_self ..))]
    have hnode := reach_foldl_visitEdge (k := k) (hcur u (List.mem_cons_self ..))
      (posOf adj done) (adj.getD u []) 0 (List.drop_zero) deg next
    rw [hu0, Nat.zero_add, update_posOf (hdone u (List.mem_cons_self ..))] at hnode
    refine hnode.trans ?_
    rw [List.foldl_cons, List.append_cons done u cur]
    exact reach_foldl_processNode dead cur (done ++ [u])
      (fun v hv => hcur v (List.mem_cons_of_mem _ hv))
      (fun v hv hvd => by
        rcases List.mem_append.mp hvd with hvd | hvd
        · exact hdone v (List.mem_cons_of_mem _ hv) hvd
        · exact hu (List.mem_singleton.mp hvd ▸ hv))
      hnodup _ _

section Loop

variable (hg : SymmetricGraph adj) (hdeg : ∀ v, (adj.getD v []).length < 2 ^ 32)
include hg hdeg

/-- **The loop of `syncCascadeKCore` runs the cascade to its end**, from any state of the
rounds that the cascade reaches, with more rounds of fuel than nodes not yet processed: each
round processes a node, and no node twice. Induction on the fuel. -/
theorem syncLoop_reach : ∀ (fuel : ℕ) (deg : ℕ → ℕ) (next log : List ℕ),
    Relation.ReflTransGen (CascadeStep adj k) (cascadeInit adj k)
      ⟨deg, log ++ next, posOf adj log⟩ →
    adj.length < fuel + log.length →
    ∃ deg' log', syncLoop adj k fuel deg next log = some (deg', log') ∧
      Relation.ReflTransGen (CascadeStep adj k) (cascadeInit adj k) ⟨deg', log', posOf adj log'⟩
  | 0, deg, next, log, hr, hfuel => by
    -- the processed nodes are distinct nodes of the graph
    have h := cascadeInv_of_reach hg hdeg hr
    have hle : log.length ≤ adj.length := by
      have hsub := (List.nodup_append.mp h.nodup).1.subperm fun v hv =>
        List.mem_range.mpr (h.lt v (List.mem_append_left next hv))
      simpa using hsub.length_le
    omega
  | fuel + 1, deg, next, log, hr, hfuel => by
    have h := cascadeInv_of_reach hg hdeg hr
    rw [syncLoop]
    split_ifs with hnext
    · subst hnext
      rw [List.append_nil] at hr
      exact ⟨deg, log, rfl, hr⟩
    · obtain ⟨hlog, hnodup, hdisj⟩ := List.nodup_append.mp h.nodup
      have hround := reach_foldl_processNode adj k (log ++ next) next log
        (fun u hu => List.mem_append_right log hu) (fun u hu hul => hdisj u hul u hu rfl)
        hnodup deg []
      rw [List.append_nil] at hround
      refine syncLoop_reach fuel _ _ (log ++ next) (hr.trans hround) ?_
      have : 0 < next.length := List.length_pos_iff.mpr hnext
      rw [List.length_append]
      omega

/-- **`syncCascadeKCore` computes the `k`-core.** For a symmetric graph in which no node has
`2 ^ 32` edges, every `k`, and more rounds of fuel than nodes: the loop ends, with the `k`-core
alive, each alive node with its number of edges into it, and every other node processed once. -/
theorem syncCascadeKCore_kcore (k fuel : ℕ) (hfuel : adj.length < fuel) :
    ∃ deg log, syncCascadeKCore adj k fuel = some (deg, log) ∧ KCoreResult adj k deg log := by
  -- the loop starts from the cascade's initial state
  have hpos : posOf adj [] = fun _ => 0 := by
    funext v
    simp [posOf]
  have hr₀ : Relation.ReflTransGen (CascadeStep adj k) (cascadeInit adj k)
      ⟨degreeCounting adj, [] ++ setupInitialWorklist adj k (degreeCounting adj),
        posOf adj []⟩ := by
    rw [hpos, List.nil_append]
    exact .refl
  obtain ⟨deg, log, hloop, hr⟩ :=
    syncLoop_reach hg hdeg fuel _ _ [] hr₀ (by simpa using hfuel)
  refine ⟨deg, log, hloop, kcoreResult_of_finished hg (cascadeInv_of_reach hg hdeg hr) ?_⟩
  intro u hu
  simp [posOf, hu]

end Loop

theorem syncCascadeKCore_kcore_pair :
    SymmetricGraph [[1], [0]] ∧ (∀ v, ([[1], [0]].getD v []).length < 2 ^ 32) ∧
      [[1], [0]].length < 3 ∧
      ∃ deg log, syncCascadeKCore [[1], [0]] 2 3 = some (deg, log) ∧
        KCoreResult [[1], [0]] 2 deg log := by
  exact ⟨symmetricGraph_pair, length_pair_lt, by decide,
    syncCascadeKCore_kcore symmetricGraph_pair length_pair_lt 2 3 (by decide)⟩

end Galois.Lonestar.KCore
