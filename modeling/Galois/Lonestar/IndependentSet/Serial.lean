import Galois.Lonestar.BfsSssp
import Galois.IndependentSets

/-!
# IndependentSet.cpp: the graph, `SerialAlgo` and `DefaultAlgo`

A node's `flag` is `UNMATCHED` until an algorithm decides it: `MATCHED` puts it in the set and
`OTHER_MATCHED` marks a neighbour of a member.

* `SymmetricGraph` -- the input: every edge has its reverse and no edge is a loop;
* `SerialAlgo.findUnmatched`, `SerialAlgo.match`, `SerialAlgo.run` -- the serial pass in node
  order. `DefaultAlgo.build` and `DefaultAlgo.modify` are the same two functions, run as the
  operator `processNode` of the `for_each` of `nondet` and `detBase`;
* `DefaultAlgo.run` -- that `for_each` with its iterations serialised in some order of the
  nodes, as the executors' conflict detection makes them;
* `GreedyInv`, **`DefaultAlgo.run_isMIS`** -- in every order the loop decides every node, and
  its members form a maximal independent set;
* `LexInv`, **`SerialAlgo.run_isLexFirst`** -- in node order the members are the
  lexicographically-first maximal independent set.
-/

namespace Galois.Lonestar.IndependentSet

open Cusp BFS_SSSP IndependentSets Function

/-- `LC_CSR_Graph<Node, void>`: the edges carry no data. -/
abbrev Graph := CSRGraph Unit

/-- `graph.size()`. -/
def size (g : Graph) : ℕ := g.edgeIndData.length

/-- An edge `src → dst`. -/
def Adj (g : Graph) (src dst : ℕ) : Prop := ∃ e ∈ edgeIds g src, getEdgeDst g e = dst

instance (g : Graph) : DecidableRel (Adj g) := fun src dst =>
  inferInstanceAs (Decidable (∃ e ∈ edgeIds g src, getEdgeDst g e = dst))

/-- The input every algorithm expects: each edge has its reverse and none is a loop. -/
structure SymmetricGraph (g : Graph) : Prop where
  symm : ∀ u < size g, ∀ e ∈ edgeIds g u,
    ∃ e' ∈ edgeIds g (getEdgeDst g e), getEdgeDst g e' = u
  loopless : ∀ u < size g, ∀ e ∈ edgeIds g u, getEdgeDst g e ≠ u

instance (g : Graph) : Decidable (SymmetricGraph g) :=
  decidable_of_iff ((∀ u < size g, ∀ e ∈ edgeIds g u,
      ∃ e' ∈ edgeIds g (getEdgeDst g e), getEdgeDst g e' = u) ∧
      ∀ u < size g, ∀ e ∈ edgeIds g u, getEdgeDst g e ≠ u)
    ⟨fun h => ⟨h.1, h.2⟩, fun h => ⟨h.symm, h.loopless⟩⟩

variable {g : Graph}

theorem adj_of_mem {u e : ℕ} (he : e ∈ edgeIds g u) : Adj g u (getEdgeDst g e) := ⟨e, he, rfl⟩

theorem Adj.lt_size {u v : ℕ} (h : Adj g u v) : u < size g := by
  obtain ⟨e, he, -⟩ := h
  exact lt_of_mem_edgeIds he

section Symmetric

variable (hg : SymmetricGraph g)
include hg

theorem Adj.symm {u v : ℕ} (h : Adj g u v) : Adj g v u := by
  obtain ⟨e, he, rfl⟩ := h
  exact hg.symm u (lt_of_mem_edgeIds he) e he

theorem Adj.ne {u v : ℕ} (h : Adj g u v) : u ≠ v := by
  obtain ⟨e, he, rfl⟩ := h
  exact (hg.loopless u (lt_of_mem_edgeIds he) e he).symm

theorem Adj.lt_size' {u v : ℕ} (h : Adj g u v) : v < size g := (h.symm hg).lt_size

end Symmetric

/-! ## 1. Flags and the two greedy operators -/

/-- `enum MatchFlag : char`. -/
inductive MatchFlag where
  | UNMATCHED
  | OTHER_MATCHED
  | MATCHED
  deriving DecidableEq, Repr

/-- The flags `Node()` leaves: every node `UNMATCHED`. -/
def initFlags : ℕ → MatchFlag := fun _ => .UNMATCHED

/-- A decided node is `MATCHED` or `OTHER_MATCHED`. -/
theorem MatchFlag.eq_other {f : MatchFlag} (hu : f ≠ .UNMATCHED) (hm : f ≠ .MATCHED) :
    f = .OTHER_MATCHED := by
  cases f with
  | UNMATCHED => exact absurd rfl hu
  | OTHER_MATCHED => rfl
  | MATCHED => exact absurd rfl hm

namespace SerialAlgo

/-- `findUnmatched(graph, src)`: `src` is undecided and no neighbour is `MATCHED`. -/
def findUnmatched (g : Graph) (m : ℕ → MatchFlag) (src : ℕ) : Bool :=
  m src == .UNMATCHED && (edgeIds g src).all fun e => m (getEdgeDst g e) != .MATCHED

/-- `match(graph, src)`: every neighbour `OTHER_MATCHED`, then `src` `MATCHED`. -/
def «match» (g : Graph) (m : ℕ → MatchFlag) (src : ℕ) : ℕ → MatchFlag :=
  update ((edgeIds g src).foldl (fun m e => update m (getEdgeDst g e) .OTHER_MATCHED) m) src
    .MATCHED

/-- One pass of the loop of `SerialAlgo::operator()`. -/
def step (g : Graph) (m : ℕ → MatchFlag) (src : ℕ) : ℕ → MatchFlag :=
  if findUnmatched g m src then «match» g m src else m

/-- `SerialAlgo::operator()`: every node in order. -/
def run (g : Graph) : ℕ → MatchFlag := (List.range (size g)).foldl (step g) initFlags

end SerialAlgo

namespace DefaultAlgo

/-- `build<WRITE>(graph, src)`: the test of `findUnmatched`, taking the locks of `src` and of
its neighbours. -/
def build (g : Graph) (m : ℕ → MatchFlag) (src : ℕ) : Bool := SerialAlgo.findUnmatched g m src

/-- `modify(graph, src)`: the writes of `match`. -/
def modify (g : Graph) (m : ℕ → MatchFlag) (src : ℕ) : ℕ → MatchFlag := SerialAlgo.«match» g m src

/-- `processNode(graph, src, ctx)`: `build`, the failsafe point, and `modify` when `build`
found `src` free. -/
def processNode (g : Graph) (m : ℕ → MatchFlag) (src : ℕ) : ℕ → MatchFlag :=
  if build g m src then modify g m src else m

/-- `run<WL>(graph)`, for `nondet` (`BulkSynchronous`) and `detBase` (`Deterministic`): the
`for_each` runs every node once with no pushes, and conflict detection serialises its
iterations in some `order`. -/
def run (g : Graph) (order : List ℕ) : ℕ → MatchFlag := order.foldl (processNode g) initFlags

end DefaultAlgo

/-- The serial pass is the `for_each` serialised in node order. -/
theorem SerialAlgo.run_eq (g : Graph) : SerialAlgo.run g = DefaultAlgo.run g (List.range (size g)) :=
  rfl

namespace SerialAlgo

variable {m : ℕ → MatchFlag} {src : ℕ}

theorem findUnmatched_iff :
    findUnmatched g m src = true ↔ m src = .UNMATCHED ∧ ∀ v, Adj g src v → m v ≠ .MATCHED := by
  simp only [findUnmatched, Bool.and_eq_true, beq_iff_eq, List.all_eq_true, bne_iff_ne, ne_eq,
    Adj]
  constructor
  · rintro ⟨hsrc, hall⟩
    exact ⟨hsrc, fun v ⟨e, he, hv⟩ => hv ▸ hall e he⟩
  · rintro ⟨hsrc, hall⟩
    exact ⟨hsrc, fun e he => hall _ ⟨e, he, rfl⟩⟩

/-- Writing one flag to the destination of each edge of a list. -/
theorem foldl_update_apply (es : List ℕ) (c : MatchFlag) (x : ℕ) :
    ∀ m : ℕ → MatchFlag, (es.foldl (fun m e => update m (getEdgeDst g e) c) m) x =
      if ∃ e ∈ es, getEdgeDst g e = x then c else m x := by
  induction es with
  | nil => intro m; simp
  | cons e es ih =>
    intro m
    rw [List.foldl_cons, ih]
    by_cases hx : getEdgeDst g e = x
    · simp [hx]
    · simp [hx, update_of_ne (Ne.symm hx)]

theorem match_apply (x : ℕ) :
    «match» g m src x = if x = src then .MATCHED else if Adj g src x then .OTHER_MATCHED else m x := by
  unfold «match»
  by_cases hx : x = src
  · rw [hx, update_self, if_pos rfl]
  · rw [update_of_ne hx, foldl_update_apply, if_neg hx]
    rfl

/-- `match` after a successful `findUnmatched` keeps every decided flag. -/
theorem match_of_ne_unmatched (hf : findUnmatched g m src = true) {u : ℕ}
    (hu : m u ≠ .UNMATCHED) : «match» g m src u = m u := by
  obtain ⟨hsrc, hnbr⟩ := findUnmatched_iff.mp hf
  rw [match_apply]
  have husrc : u ≠ src := fun h => hu (h ▸ hsrc)
  by_cases hadj : Adj g src u
  · rw [if_neg husrc, if_pos hadj, MatchFlag.eq_other hu (hnbr u hadj)]
  · rw [if_neg husrc, if_neg hadj]

/-- An undecided flag that `match` changes belongs to `src` or to one of its neighbours. -/
theorem match_of_unmatched (src : ℕ) {u : ℕ} (hu : m u = .UNMATCHED) :
    («match» g m src u = .MATCHED → u = src) ∧
      («match» g m src u = .OTHER_MATCHED → u ≠ src ∧ Adj g src u) := by
  rw [match_apply]
  by_cases husrc : u = src
  · rw [if_pos husrc]
    exact ⟨fun _ => husrc, fun h => MatchFlag.noConfusion h⟩
  · rw [if_neg husrc]
    by_cases hadj : Adj g src u
    · rw [if_pos hadj]
      exact ⟨fun h => MatchFlag.noConfusion h, fun _ => ⟨husrc, hadj⟩⟩
    · rw [if_neg hadj, hu]
      exact ⟨fun h => MatchFlag.noConfusion h, fun h => MatchFlag.noConfusion h⟩

end SerialAlgo

/-! ## 2. Every serialised order gives a maximal independent set -/

open SerialAlgo in
/-- What every serialised prefix `done` of the `for_each` keeps. -/
structure GreedyInv (g : Graph) (done : List ℕ) (m : ℕ → MatchFlag) : Prop where
  marked : ∀ u v, Adj g u v → m u = .MATCHED → m v = .OTHER_MATCHED
  covered : ∀ v, m v = .OTHER_MATCHED → ∃ u, Adj g v u ∧ m u = .MATCHED
  decided : ∀ v ∈ done, m v ≠ .UNMATCHED

theorem greedyInv_init : GreedyInv g [] initFlags :=
  ⟨fun _ _ _ h => MatchFlag.noConfusion h, fun _ h => MatchFlag.noConfusion h,
    fun _ h => absurd h List.not_mem_nil⟩

section Greedy

variable (hg : SymmetricGraph g)
include hg

open SerialAlgo

/-- **The operator keeps the invariant**, whichever node it runs on. -/
theorem GreedyInv.processNode {done : List ℕ} {m : ℕ → MatchFlag} (h : GreedyInv g done m)
    (src : ℕ) : GreedyInv g (done ++ [src]) (DefaultAlgo.processNode g m src) := by
  unfold DefaultAlgo.processNode DefaultAlgo.build DefaultAlgo.modify
  split_ifs with hf
  · have hsrc := (findUnmatched_iff.mp hf).1
    have hnbr := (findUnmatched_iff.mp hf).2
    refine ⟨fun u v huv hu => ?_, fun v hv => ?_, fun v hv => ?_⟩
    · -- a member: `src` itself, whose neighbours `match` marks, or an old one
      by_cases hmu : m u = .UNMATCHED
      · have hus := (match_of_unmatched src hmu).1 hu
        subst hus
        rw [match_apply, if_neg (huv.ne hg).symm, if_pos huv]
      · rw [match_of_ne_unmatched hf hmu] at hu
        rw [match_of_ne_unmatched hf (by rw [h.marked u v huv hu]; exact MatchFlag.noConfusion),
          h.marked u v huv hu]
    · -- a marked node: marked by `match`, next to `src`, or marked before with its member kept
      by_cases hmv : m v = .UNMATCHED
      · obtain ⟨-, hadj⟩ := (match_of_unmatched src hmv).2 hv
        refine ⟨src, hadj.symm hg, ?_⟩
        rw [match_apply, if_pos rfl]
      · rw [match_of_ne_unmatched hf hmv] at hv
        obtain ⟨u, hvu, hu⟩ := h.covered v hv
        refine ⟨u, hvu, ?_⟩
        rw [match_of_ne_unmatched hf (by rw [hu]; exact MatchFlag.noConfusion), hu]
    · rcases List.mem_append.mp hv with hold | hnew
      · rw [match_of_ne_unmatched hf (h.decided v hold)]
        exact h.decided v hold
      · rw [List.mem_singleton.mp hnew, match_apply, if_pos rfl]
        exact MatchFlag.noConfusion
  · refine ⟨h.marked, h.covered, fun v hv => ?_⟩
    rcases List.mem_append.mp hv with hold | hnew
    · exact h.decided v hold
    · -- `src` was decided, or a neighbour is a member and marked it
      rw [List.mem_singleton.mp hnew]
      intro hsrc
      refine hf (findUnmatched_iff.mpr ⟨hsrc, fun u hu hmu => ?_⟩)
      rw [h.marked u src (hu.symm hg) hmu] at hsrc
      exact MatchFlag.noConfusion hsrc

theorem GreedyInv.run {done : List ℕ} {m : ℕ → MatchFlag} (h : GreedyInv g done m)
    (order : List ℕ) :
    GreedyInv g (done ++ order) (order.foldl (DefaultAlgo.processNode g) m) := by
  induction order generalizing done m with
  | nil => simpa using h
  | cons v order ih =>
    rw [List.foldl_cons, ← List.singleton_append, ← List.append_assoc]
    exact ih (h.processNode hg v)

/-- At the end every node of the order is decided; the members are independent and every
other decided node has a member for a neighbour. -/
theorem GreedyInv.isMIS {m : ℕ → MatchFlag} {done : List ℕ} (h : GreedyInv g done m)
    (hdone : ∀ v < size g, v ∈ done) :
    IsMIS (Adj g) (· < size g) (fun v => m v = .MATCHED) where
  independent u v _ _ huv hu hv := by
    rw [h.marked u v huv hu] at hv
    exact MatchFlag.noConfusion hv
  maximal v hv hnot := by
    obtain ⟨u, hvu, hu⟩ := h.covered v (MatchFlag.eq_other (h.decided v (hdone v hv)) hnot)
    exact ⟨u, hvu.lt_size' hg, hvu, hu⟩

/-- A serialised run keeps `GreedyInv` over its order. -/
theorem DefaultAlgo.greedyInv_run (order : List ℕ) : GreedyInv g order (DefaultAlgo.run g order) := by
  have h := greedyInv_init.run hg order
  rwa [List.nil_append] at h

/-- **`nondet` and `detBase`**: whatever order the executor serialises the `for_each` in, every
node is decided and the `MATCHED` nodes form a maximal independent set. -/
theorem DefaultAlgo.run_isMIS {order : List ℕ} (horder : order.Perm (List.range (size g))) :
    (∀ v < size g, DefaultAlgo.run g order v ≠ .UNMATCHED) ∧
      IsMIS (Adj g) (· < size g) (fun v => DefaultAlgo.run g order v = .MATCHED) := by
  have h := DefaultAlgo.greedyInv_run hg order
  have hdone : ∀ v < size g, v ∈ order := fun v hv => horder.symm.subset (List.mem_range.mpr hv)
  exact ⟨fun v hv => h.decided v (hdone v hv), h.isMIS hg hdone⟩

end Greedy

/-- The path `0 - 1 - 2`. -/
def path3 : Graph := ⟨[1, 3, 4], [1, 0, 2, 1], [(), (), (), ()]⟩

/-- In the order `2, 0, 1` both ends join the set and the middle is marked. -/
theorem run_isMIS_path3 :
    (∀ v < size path3, DefaultAlgo.run path3 [2, 0, 1] v ≠ .UNMATCHED) ∧
      IsMIS (Adj path3) (· < size path3) (fun v => DefaultAlgo.run path3 [2, 0, 1] v = .MATCHED) :=
  DefaultAlgo.run_isMIS (by decide) (by decide)

/-! ## 3. In node order: the lexicographically-first set -/

/-- What the node-order passes keep: a member's smaller neighbours are marked, and a marked node
has a smaller member for a neighbour. -/
structure LexInv (g : Graph) (m : ℕ → MatchFlag) : Prop where
  matched : ∀ v, m v = .MATCHED → ∀ u, Adj g v u → u < v → m u = .OTHER_MATCHED
  other : ∀ v, m v = .OTHER_MATCHED → ∃ u, Adj g v u ∧ u < v ∧ m u = .MATCHED

/-- Once every node is decided, the members are the lexicographically-first set. -/
theorem LexInv.isLexFirst {m : ℕ → MatchFlag} (h : LexInv g m)
    (hdec : ∀ v < size g, m v ≠ .UNMATCHED) :
    IsLexFirst (Adj g) (size g) (fun v => m v = .MATCHED) := by
  intro v hv
  constructor
  · intro hm u hvu huv hu
    rw [h.matched v hm u hvu huv] at hu
    exact MatchFlag.noConfusion hu
  · intro hfree
    by_contra hnot
    obtain ⟨u, hvu, huv, hu⟩ := h.other v (MatchFlag.eq_other (hdec v hv) hnot)
    exact hfree u hvu huv hu

namespace SerialAlgo

section Lex

variable (hg : SymmetricGraph g)
include hg

/-- The pass at node `k`, after the nodes below `k`, keeps `LexInv` and keeps the members below
`k + 1`. -/
theorem lexInv_step {m : ℕ → MatchFlag} {k : ℕ} (hgr : GreedyInv g (List.range k) m)
    (h : LexInv g m) (hbelow : ∀ v, m v = .MATCHED → v < k) :
    LexInv g (step g m k) ∧ ∀ v, step g m k v = .MATCHED → v < k + 1 := by
  unfold step
  split_ifs with hf
  · obtain ⟨hk, hnbr⟩ := findUnmatched_iff.mp hf
    -- a node below `k` is decided, and a neighbour of `k` among them is marked
    have hsmall : ∀ u, Adj g k u → u < k → m u = .OTHER_MATCHED := fun u hku huk =>
      MatchFlag.eq_other (hgr.decided u (List.mem_range.mpr huk)) (hnbr u hku)
    have hkeep : ∀ u, m u ≠ .UNMATCHED → «match» g m k u = m u := fun u hu =>
      match_of_ne_unmatched hf hu
    refine ⟨⟨fun v hv u hvu huv => ?_, fun v hv => ?_⟩, fun v hv => ?_⟩
    · by_cases hmv : m v = .UNMATCHED
      · have hvk := (match_of_unmatched k hmv).1 hv
        subst hvk
        rw [hkeep u (by rw [hsmall u hvu huv]; exact MatchFlag.noConfusion), hsmall u hvu huv]
      · rw [hkeep v hmv] at hv
        rw [hkeep u (by rw [h.matched v hv u hvu huv]; exact MatchFlag.noConfusion),
          h.matched v hv u hvu huv]
    · by_cases hmv : m v = .UNMATCHED
      · -- newly marked: a neighbour of `k` above it, since those below are decided
        obtain ⟨hvk, hkv⟩ := (match_of_unmatched k hmv).2 hv
        have hkv' : k < v := by
          rcases Nat.lt_or_gt_of_ne hvk with hlt | hgt
          · exact absurd (hgr.decided v (List.mem_range.mpr hlt)) (not_not.mpr hmv)
          · exact hgt
        exact ⟨k, hkv.symm hg, hkv', by rw [match_apply, if_pos rfl]⟩
      · rw [hkeep v hmv] at hv
        obtain ⟨u, hvu, huv, hu⟩ := h.other v hv
        exact ⟨u, hvu, huv, by rw [hkeep u (by rw [hu]; exact MatchFlag.noConfusion), hu]⟩
    · by_cases hmv : m v = .UNMATCHED
      · rw [(match_of_unmatched k hmv).1 hv]
        exact Nat.lt_succ_self k
      · rw [hkeep v hmv] at hv
        exact Nat.lt_succ_of_lt (hbelow v hv)
  · exact ⟨h, fun v hv => Nat.lt_succ_of_lt (hbelow v hv)⟩

theorem lexInv_run (k : ℕ) :
    LexInv g ((List.range k).foldl (step g) initFlags) ∧
      ∀ v, (List.range k).foldl (step g) initFlags v = .MATCHED → v < k := by
  induction k with
  | zero => exact ⟨⟨fun _ h => MatchFlag.noConfusion h, fun _ h => MatchFlag.noConfusion h⟩,
      fun _ h => MatchFlag.noConfusion h⟩
  | succ k ih =>
    have hgr : GreedyInv g (List.range k) ((List.range k).foldl (step g) initFlags) := by
      have h := greedyInv_init.run hg (List.range k)
      rw [List.nil_append] at h
      exact h
    rw [List.range_succ, List.foldl_append, List.foldl_cons, List.foldl_nil]
    exact lexInv_step hg hgr ih.1 ih.2

/-- The serial pass decides every node. -/
theorem run_decided : ∀ v < size g, run g v ≠ .UNMATCHED := by
  have h := greedyInv_init.run hg (List.range (size g))
  rw [List.nil_append] at h
  exact fun v hv => h.decided v (List.mem_range.mpr hv)

/-- **`serial`**: the members of the serial pass are the lexicographically-first maximal
independent set, and every node is decided. -/
theorem run_isLexFirst :
    (∀ v < size g, run g v ≠ .UNMATCHED) ∧ IsLexFirst (Adj g) (size g) (fun v => run g v = .MATCHED) :=
  ⟨run_decided hg, (lexInv_run hg (size g)).1.isLexFirst (run_decided hg)⟩

end Lex

theorem run_isLexFirst_path3 :
    (∀ v < size path3, run path3 v ≠ .UNMATCHED) ∧
      IsLexFirst (Adj path3) (size path3) (fun v => run path3 v = .MATCHED) :=
  run_isLexFirst (by decide)

end SerialAlgo

end Galois.Lonestar.IndependentSet
