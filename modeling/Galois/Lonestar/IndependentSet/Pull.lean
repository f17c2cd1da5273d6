import Galois.Lonestar.IndependentSet.Serial

/-!
# IndependentSet.cpp: `PullAlgo`

Each round pulls the nodes deferred by the last round (`cur`), then a window `[ii, ei)` of new
nodes, moving `ei` on by `std::min(size, delta) - numCur`. A node whose smaller neighbours
include a `MATCHED` one goes to `otherMatched`; one with an undecided smaller neighbour is
deferred to `next`; any other goes to `matched`. Only then does `take` write the flags, so every
read of a round sees the flags before it, whatever the interleaving of the `do_all`s.

* `scanEdges_eq` -- what the scan of a node's edges decides;
* `Inv` -- the rounds' invariant: `LexInv`, the deferred nodes undecided and below the window,
  every node below the window and not deferred decided, every node from it on undecided, and
  `size` the count of undecided nodes;
* `Inv.numCur_le` -- the deferred nodes never outnumber `std::min(size, delta)`, so the unsigned
  subtraction that moves the window never wraps;
* **`run_eq_serial`** -- when the loop returns, every flag is the serial pass's;
* **`run_stalls`** -- on a graph of 1 to 24 nodes `delta` is `0`, the window never moves, and
  the loop never returns.
-/

namespace Galois.Lonestar.IndependentSet.PullAlgo

open Cusp BFS_SSSP IndependentSets Function

/-! ## 1. The model -/

/-- The loop of `pull` over `src`'s edges, from `f`: a smaller `MATCHED` neighbour makes it
`OTHER_MATCHED` and breaks; a smaller undecided one makes it `UNMATCHED`. -/
def scanEdges (g : Graph) (m : ℕ → MatchFlag) (src : ℕ) : List ℕ → MatchFlag → MatchFlag
  | [], f => f
  | e :: es, f =>
    if getEdgeDst g e ≥ src then scanEdges g m src es f
    else if m (getEdgeDst g e) = .MATCHED then .OTHER_MATCHED
    else if m (getEdgeDst g e) = .UNMATCHED then scanEdges g m src es .UNMATCHED
    else scanEdges g m src es f

/-- What the scan of all of `src`'s edges from `MATCHED` decides. -/
def decision (g : Graph) (m : ℕ → MatchFlag) (src : ℕ) : MatchFlag :=
  scanEdges g m src (edgeIds g src) .MATCHED

/-- The bags `pull` fills. -/
structure Bags where
  matched : List ℕ
  otherMatched : List ℕ
  next : List ℕ

/-- The operator of `pull` on `src`: an `OTHER_MATCHED` node returns, any other goes to the bag
its scan names. -/
def pullNode (g : Graph) (m : ℕ → MatchFlag) (b : Bags) (src : ℕ) : Bags :=
  if m src = .OTHER_MATCHED then b
  else
    match decision g m src with
    | .UNMATCHED => { b with next := b.next ++ [src] }
    | .MATCHED => { b with matched := b.matched ++ [src] }
    | .OTHER_MATCHED => { b with otherMatched := b.otherMatched ++ [src] }

/-- `pull(range, graph, matched, otherMatched, next, numProcessed)`: the operator on every node
of `range`. It writes no flag, so the bags' contents do not depend on the interleaving; their
order is the `InsertBag`'s, which nothing reads. -/
def pull (g : Graph) (m : ℕ → MatchFlag) (range : List ℕ) (b : Bags) : Bags :=
  range.foldl (pullNode g m) b

/-- `take<F>(bag, graph, numTaken)`: every node of the bag gets the flag `F`. -/
def take (F : MatchFlag) (bag : List ℕ) (m : ℕ → MatchFlag) : ℕ → MatchFlag :=
  bag.foldl (fun m src => update m src F) m

/-- The loop's state: the flags, the bag `cur`, the iterator `ei` (`ii` equals it between
rounds) and `size`. -/
structure State where
  flags : ℕ → MatchFlag
  cur : List ℕ
  ei : ℕ
  size : ℕ

/-- One pass of `while (size > 0)`. -/
def round (g : Graph) (delta : ℕ) (s : State) : State :=
  let b₀ : Bags := ⟨[], [], []⟩
  let b₁ := if s.cur.isEmpty then b₀ else pull g s.flags s.cur b₀
  let numCur := if s.cur.isEmpty then 0 else s.cur.length
  let ei := s.ei + (min s.size delta - numCur)
  let b₂ := if s.ei ≠ ei then pull g s.flags (List.range' s.ei (ei - s.ei)) b₁ else b₁
  let flags := take .OTHER_MATCHED b₂.otherMatched (take .MATCHED b₂.matched s.flags)
  ⟨flags, b₂.next, ei, s.size - (b₂.matched.length + b₂.otherMatched.length)⟩

/-- The loop `while (size > 0)`, for at most `fuel` rounds. -/
def loop (g : Graph) (delta : ℕ) : ℕ → State → Option (ℕ → MatchFlag)
  | 0, _ => none
  | fuel + 1, s => if s.size > 0 then loop g delta fuel (round g delta s) else some s.flags

/-- `PullAlgo::operator()`: `delta = graph.size() / 25`, both iterators at `begin()`. -/
def run (g : Graph) (fuel : ℕ) : Option (ℕ → MatchFlag) :=
  loop g (size g / 25) fuel ⟨initFlags, [], 0, size g⟩

/-! ## 2. One node, one bag, one round -/

variable {g : Graph}

/-- **The scan** ends `OTHER_MATCHED` at a smaller `MATCHED` neighbour, else `UNMATCHED` at a
smaller undecided one, else where it started. -/
theorem scanEdges_eq (m : ℕ → MatchFlag) (src : ℕ) (es : List ℕ) (f : MatchFlag) :
    scanEdges g m src es f =
      if ∃ e ∈ es, getEdgeDst g e < src ∧ m (getEdgeDst g e) = .MATCHED then .OTHER_MATCHED
      else if ∃ e ∈ es, getEdgeDst g e < src ∧ m (getEdgeDst g e) = .UNMATCHED then .UNMATCHED
      else f := by
  induction es generalizing f with
  | nil => simp [scanEdges]
  | cons e es ih =>
    rw [scanEdges]
    by_cases hlt : getEdgeDst g e < src
    · rw [if_neg (Nat.not_le.mpr hlt)]
      cases hme : m (getEdgeDst g e) with
      | MATCHED => simp [hlt, hme]
      | UNMATCHED =>
        rw [if_neg (by decide), if_pos rfl, ih]
        by_cases hM : ∃ e ∈ es, getEdgeDst g e < src ∧ m (getEdgeDst g e) = .MATCHED
        · simp [hM, hme]
        · simp [hM, hlt, hme]
      | OTHER_MATCHED =>
        rw [if_neg (by decide), if_neg (by decide), ih]
        simp [hme]
    · rw [if_pos (Nat.le_of_not_lt hlt), ih]
      simp [hlt]

theorem decision_matched {m : ℕ → MatchFlag} {src : ℕ} (h : decision g m src = .MATCHED)
    {u : ℕ} (hu : Adj g src u) (hlt : u < src) : m u = .OTHER_MATCHED := by
  obtain ⟨e, he, rfl⟩ := hu
  rw [decision, scanEdges_eq] at h
  have hnoM : ¬ ∃ e ∈ edgeIds g src, getEdgeDst g e < src ∧ m (getEdgeDst g e) = .MATCHED := by
    intro hM
    rw [if_pos hM] at h
    exact MatchFlag.noConfusion h
  have hnoU : ¬ ∃ e ∈ edgeIds g src, getEdgeDst g e < src ∧ m (getEdgeDst g e) = .UNMATCHED := by
    intro hU
    rw [if_neg hnoM, if_pos hU] at h
    exact MatchFlag.noConfusion h
  exact MatchFlag.eq_other (fun hun => hnoU ⟨e, he, hlt, hun⟩) (fun hm => hnoM ⟨e, he, hlt, hm⟩)

theorem decision_other {m : ℕ → MatchFlag} {src : ℕ} (h : decision g m src = .OTHER_MATCHED) :
    ∃ u, Adj g src u ∧ u < src ∧ m u = .MATCHED := by
  rw [decision, scanEdges_eq] at h
  split_ifs at h with h1 h2
  · obtain ⟨e, he, hlt, hm⟩ := h1
    exact ⟨getEdgeDst g e, adj_of_mem he, hlt, hm⟩

/-- `pull` over undecided nodes files each in the bag of its decision. -/
theorem pull_eq {m : ℕ → MatchFlag} (P : List ℕ) (hP : ∀ v ∈ P, m v = .UNMATCHED) (b : Bags) :
    pull g m P b =
      ⟨b.matched ++ P.filter (decision g m · = .MATCHED),
        b.otherMatched ++ P.filter (decision g m · = .OTHER_MATCHED),
        b.next ++ P.filter (decision g m · = .UNMATCHED)⟩ := by
  induction P generalizing b with
  | nil => simp [pull]
  | cons v P ih =>
    have hv : m v ≠ .OTHER_MATCHED := by rw [hP v List.mem_cons_self]; decide
    rw [pull, List.foldl_cons, ← pull, ih (fun w hw => hP w (List.mem_cons_of_mem v hw))]
    unfold pullNode
    rw [if_neg hv]
    cases hd : decision g m v <;> simp [hd]

theorem take_apply (F : MatchFlag) (bag : List ℕ) (x : ℕ) :
    ∀ m : ℕ → MatchFlag, take F bag m x = if x ∈ bag then F else m x := by
  induction bag with
  | nil => intro m; simp [take]
  | cons v bag ih =>
    intro m
    rw [take, List.foldl_cons, ← take, ih]
    by_cases hx : x = v <;> simp [hx]

/-- A list splits into its three decisions. -/
theorem length_filter_decision (m : ℕ → MatchFlag) (P : List ℕ) :
    (P.filter (decision g m · = .MATCHED)).length +
        (P.filter (decision g m · = .OTHER_MATCHED)).length +
        (P.filter (decision g m · = .UNMATCHED)).length = P.length := by
  induction P with
  | nil => rfl
  | cons v P ih =>
    cases hd : decision g m v <;> simp [hd] <;> omega

/-- The nodes a round pulls: the bag `cur`, then the window from `ei`. -/
def pulled (delta : ℕ) (s : State) : List ℕ :=
  s.cur ++ List.range' s.ei (min s.size delta - s.cur.length)

/-- **The round, unfolded**: over undecided nodes, the flags become the decisions of the pulled
nodes that are not deferred, the deferred ones become `cur`, and `size` loses the rest. -/
theorem round_eq {delta : ℕ} {s : State} (hP : ∀ v ∈ pulled delta s, s.flags v = .UNMATCHED) :
    round g delta s =
      ⟨fun x => if x ∈ pulled delta s ∧ decision g s.flags x ≠ .UNMATCHED then
          decision g s.flags x else s.flags x,
        (pulled delta s).filter (decision g s.flags · = .UNMATCHED),
        s.ei + (min s.size delta - s.cur.length),
        s.size - ((pulled delta s).filter (decision g s.flags · = .MATCHED)).length -
          ((pulled delta s).filter (decision g s.flags · = .OTHER_MATCHED)).length⟩ := by
  have hcur : (if s.cur.isEmpty then (⟨[], [], []⟩ : Bags) else pull g s.flags s.cur ⟨[], [], []⟩) =
      pull g s.flags s.cur ⟨[], [], []⟩ := by
    cases s.cur <;> rfl
  have hnum : (if s.cur.isEmpty then 0 else s.cur.length) = s.cur.length := by
    cases s.cur <;> rfl
  have hwin : ∀ b : Bags, (if s.ei ≠ s.ei + (min s.size delta - s.cur.length) then
      pull g s.flags (List.range' s.ei (s.ei + (min s.size delta - s.cur.length) - s.ei)) b
      else b) = pull g s.flags (List.range' s.ei (min s.size delta - s.cur.length)) b := by
    intro b
    rw [Nat.add_sub_cancel_left]
    split_ifs with hne
    · rfl
    · rw [show min s.size delta - s.cur.length = 0 by omega]
      rfl
  have hpull : pull g s.flags (List.range' s.ei (min s.size delta - s.cur.length))
      (pull g s.flags s.cur ⟨[], [], []⟩) = pull g s.flags (pulled delta s) ⟨[], [], []⟩ := by
    rw [pulled, pull, pull, pull, List.foldl_append]
  simp only [round, hcur, hnum, hwin, hpull, pull_eq _ hP, List.nil_append]
  congr 1
  · funext x
    rw [take_apply, take_apply]
    by_cases hx : x ∈ pulled delta s
    · cases hd : decision g s.flags x <;> simp [hx, hd]
    · simp [hx]
  · omega

/-! ## 3. The invariant of the rounds -/

/-- What every round keeps. -/
structure Inv (g : Graph) (delta : ℕ) (s : State) : Prop where
  lex : LexInv g s.flags
  cur_lt : ∀ v ∈ s.cur, v < s.ei
  cur_undecided : ∀ v ∈ s.cur, s.flags v = .UNMATCHED
  nodup : s.cur.Nodup
  decided : ∀ v < s.ei, v ∉ s.cur → s.flags v ≠ .UNMATCHED
  above : ∀ v, s.ei ≤ v → s.flags v = .UNMATCHED
  ei_le : s.ei ≤ size g
  size_eq : s.size = s.cur.length + (size g - s.ei)
  cur_le : s.cur.length ≤ delta

theorem inv_init (delta : ℕ) : Inv g delta ⟨initFlags, [], 0, size g⟩ where
  lex := ⟨fun _ h => MatchFlag.noConfusion h, fun _ h => MatchFlag.noConfusion h⟩
  cur_lt _ h := absurd h List.not_mem_nil
  cur_undecided _ h := absurd h List.not_mem_nil
  nodup := List.nodup_nil
  decided _ h := absurd h (Nat.not_lt_zero _)
  above _ _ := rfl
  ei_le := Nat.zero_le _
  size_eq := by simp
  cur_le := Nat.zero_le _

variable {delta : ℕ} {s : State}

/-- **The window never moves back**: `numCur` is at most `std::min(size, delta)`. -/
theorem Inv.numCur_le (h : Inv g delta s) : s.cur.length ≤ min s.size delta :=
  Nat.le_min.mpr ⟨by rw [h.size_eq]; exact Nat.le_add_right _ _, h.cur_le⟩

theorem mem_pulled {v : ℕ} (hv : v ∈ pulled delta s) :
    v ∈ s.cur ∨ (s.ei ≤ v ∧ v < s.ei + (min s.size delta - s.cur.length)) := by
  rcases List.mem_append.mp hv with hcur | hwin
  · exact .inl hcur
  · exact .inr (List.mem_range'_1.mp hwin)

theorem Inv.pulled_undecided (h : Inv g delta s) : ∀ v ∈ pulled delta s, s.flags v = .UNMATCHED :=
  fun v hv => (mem_pulled hv).elim (h.cur_undecided v) fun hw => h.above v hw.1

theorem Inv.nodup_pulled (h : Inv g delta s) : (pulled delta s).Nodup := by
  refine List.nodup_append.mpr ⟨h.nodup, List.nodup_range', fun a ha b hb hab => ?_⟩
  have := h.cur_lt a ha
  have := (List.mem_range'_1.mp hb).1
  omega

/-- A decided flag is not pulled, so the round keeps it. -/
theorem Inv.round_flags_of_decided (h : Inv g delta s) (u : ℕ) (hu : s.flags u ≠ .UNMATCHED) :
    (round g delta s).flags u = s.flags u := by
  rw [round_eq h.pulled_undecided]
  have hnot : u ∉ pulled delta s := fun hp => hu (h.pulled_undecided u hp)
  simp [hnot]

/-- The round keeps `LexInv`: a node decided `MATCHED` had only marked smaller neighbours, and
one decided `OTHER_MATCHED` a `MATCHED` one, all decided before and kept. -/
theorem Inv.lexInv_round (h : Inv g delta s) : LexInv g (round g delta s).flags := by
  have hkeep := h.round_flags_of_decided
  have hflags : ∀ x, (round g delta s).flags x =
      if x ∈ pulled delta s ∧ decision g s.flags x ≠ .UNMATCHED then decision g s.flags x
      else s.flags x := by
    intro x
    rw [round_eq h.pulled_undecided]
  constructor
  · intro v hv u hvu huv
    rw [hflags] at hv
    split_ifs at hv with hnew
    · have hu := decision_matched hv hvu huv
      rw [hkeep u (by rw [hu]; decide), hu]
    · have hu := h.lex.matched v hv u hvu huv
      rw [hkeep u (by rw [hu]; decide), hu]
  · intro v hv
    rw [hflags] at hv
    split_ifs at hv with hnew
    · obtain ⟨u, hvu, huv, hu⟩ := decision_other hv
      exact ⟨u, hvu, huv, by rw [hkeep u (by rw [hu]; decide), hu]⟩
    · obtain ⟨u, hvu, huv, hu⟩ := h.lex.other v hv
      exact ⟨u, hvu, huv, by rw [hkeep u (by rw [hu]; decide), hu]⟩

/-- **A round keeps the invariant.** -/
theorem Inv.round (h : Inv g delta s) : Inv g delta (round g delta s) := by
  have hP := h.pulled_undecided
  have hle := h.numCur_le
  have hk : min s.size delta - s.cur.length ≤ size g - s.ei := by
    have := h.size_eq
    omega
  have hlen := length_filter_decision (g := g) s.flags (pulled delta s)
  have hplen : (pulled delta s).length = s.cur.length + (min s.size delta - s.cur.length) := by
    rw [pulled, List.length_append, List.length_range']
  refine ⟨h.lexInv_round, ?_, ?_, ?_, ?_, ?_, ?_, ?_, ?_⟩ <;> rw [round_eq hP] <;> dsimp only
  · intro v hv
    rcases mem_pulled (List.mem_filter.mp hv).1 with hcur | hwin
    · exact Nat.lt_of_lt_of_le (h.cur_lt v hcur) (Nat.le_add_right _ _)
    · exact hwin.2
  · intro v hv
    have hd := List.mem_filter.mp hv
    simp only [decide_eq_true_eq] at hd
    rw [if_neg fun hc => hc.2 hd.2]
    exact hP v hd.1
  · exact h.nodup_pulled.filter _
  · intro v hv hnext
    by_cases hp : v ∈ pulled delta s
    · -- pulled and not deferred: decided by this round
      have hd : decision g s.flags v ≠ .UNMATCHED := fun hd =>
        hnext (List.mem_filter.mpr ⟨hp, by simp [hd]⟩)
      rw [if_pos ⟨hp, hd⟩]
      exact hd
    · -- not pulled: below the old window and not in `cur`, so decided before
      rw [if_neg fun hc => hp hc.1]
      have hvei : v < s.ei := by
        by_contra hge
        exact hp (List.mem_append_right _ (List.mem_range'_1.mpr ⟨Nat.le_of_not_lt hge, hv⟩))
      exact h.decided v hvei fun hc => hp (List.mem_append_left _ hc)
  · intro v hv
    have hp : v ∉ pulled delta s := fun hp => by
      rcases mem_pulled hp with hcur | hwin
      · have := h.cur_lt v hcur
        omega
      · omega
    rw [if_neg fun hc => hp hc.1]
    exact h.above v (by omega)
  · have := h.ei_le
    omega
  · have := h.size_eq
    omega
  · have := Nat.le_trans
      (List.length_filter_le (fun x => decide (decision g s.flags x = .UNMATCHED)) (pulled delta s))
      (Nat.le_of_eq hplen)
    omega

/-- **When the loop returns**, every node is decided and `LexInv` holds. -/
theorem Inv.loop {fuel : ℕ} {m : ℕ → MatchFlag} (h : Inv g delta s)
    (hrun : loop g delta fuel s = some m) : (∀ v < size g, m v ≠ .UNMATCHED) ∧ LexInv g m := by
  induction fuel generalizing s with
  | zero => exact absurd hrun (by simp [loop])
  | succ fuel ih =>
    rw [loop] at hrun
    split_ifs at hrun with hsize
    · exact ih h.round hrun
    · -- `size = 0`: nothing is deferred and the window reached the end
      cases hrun
      have hcur : s.cur = [] := List.eq_nil_of_length_eq_zero (by have := h.size_eq; omega)
      have hei : size g ≤ s.ei := by have := h.size_eq; omega
      exact ⟨fun v hv => h.decided v (Nat.lt_of_lt_of_le hv hei) (by simp [hcur]), h.lex⟩

theorem MatchFlag.eq_of_decided {f f' : MatchFlag} (hf : f ≠ .UNMATCHED) (hf' : f' ≠ .UNMATCHED)
    (h : f = .MATCHED ↔ f' = .MATCHED) : f = f' := by
  cases f <;> cases f' <;> simp_all

/-- From the initial state, for every window size, a loop that returns returns the flags of the
serial pass. -/
theorem loop_eq_serial (hg : SymmetricGraph g) (delta : ℕ) {fuel : ℕ} {m : ℕ → MatchFlag}
    (hrun : loop g delta fuel ⟨initFlags, [], 0, size g⟩ = some m) :
    ∀ v < size g, m v = SerialAlgo.run g v := by
  obtain ⟨hdec, hlex⟩ := (inv_init (g := g) delta).loop hrun
  have hslex := (SerialAlgo.lexInv_run hg (size g)).1.isLexFirst (SerialAlgo.run_decided hg)
  intro v hv
  exact MatchFlag.eq_of_decided (hdec v hv) (SerialAlgo.run_decided hg v hv)
    ((hlex.isLexFirst hdec).unique hslex v hv)

/-- **`pull`**: when the loop returns, its flags are those of the serial pass: the same set, the
lexicographically-first maximal independent set. -/
theorem run_eq_serial (hg : SymmetricGraph g) {fuel : ℕ} {m : ℕ → MatchFlag}
    (hrun : run g fuel = some m) : ∀ v < size g, m v = SerialAlgo.run g v :=
  loop_eq_serial hg (size g / 25) hrun

/-- Nodes `0` and `1` joined by an edge each way, and 23 more without edges. -/
def pair25 : Graph := ⟨1 :: List.replicate 24 2, [1, 0], [(), ()]⟩

/-- On 25 nodes `delta = 1`: the loop pulls one node a round and returns after 25 rounds. -/
theorem run_eq_serial_pair25 :
    ∃ m, run pair25 30 = some m ∧ ∀ v < size pair25, m v = SerialAlgo.run pair25 v := by
  obtain ⟨m, hm⟩ := Option.isSome_iff_exists.mp (show (run pair25 30).isSome = true by decide)
  exact ⟨m, hm, run_eq_serial (by decide) hm⟩

/-- With `delta = 0` and nothing deferred, a round changes nothing. -/
theorem round_stalled (m : ℕ → MatchFlag) (ei sz : ℕ) :
    round g 0 ⟨m, [], ei, sz⟩ = ⟨m, [], ei, sz⟩ := by
  simp [round, take]

/-- **On 1 to 24 nodes `pull` never returns**: `delta = size / 25 = 0`. -/
theorem run_stalls (hpos : 0 < size g) (hsmall : size g < 25) (fuel : ℕ) : run g fuel = none := by
  have hdelta : size g / 25 = 0 := Nat.div_eq_of_lt hsmall
  have hloop : ∀ fuel, loop g 0 fuel ⟨initFlags, [], 0, size g⟩ = none := by
    intro fuel
    induction fuel with
    | zero => rfl
    | succ fuel ih => rw [loop, if_pos hpos, round_stalled, ih]
  rw [run, hdelta]
  exact hloop fuel

theorem run_stalls_path3 : run path3 100 = none := run_stalls (by decide) (by decide) 100

end Galois.Lonestar.IndependentSet.PullAlgo
