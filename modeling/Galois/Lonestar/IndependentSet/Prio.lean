import Galois.Lonestar.IndependentSet.Serial
import Galois.RacyPhase

/-!
# IndependentSet.cpp: `PrioAlgo`

A node's `prioNode::flag` byte is `0xfe` once the node is in the set, `0x00` once a neighbour is,
and odd while it is undecided: `init-prio` writes `(res + res) | 1`, a priority in the upper
seven bits. Each round of `execute` runs every node's operator in parallel; an undecided node
compares its flag with each neighbour's and writes `0x00` (a neighbour is in), `0xfe` (it beats
every undecided neighbour), or nothing. A node writes only its own flag, once and after its
reads, so under any interleaving each read of a neighbour's flag sees its value before the round
or the one the neighbour writes (`RacyPhase.Sees`). The loop reads `other.flag` up to three times
per edge, and each read may fall on either side of the neighbour's write.

* `scanEdges_cases` -- the four ways the operator's loop ends;
* `Execute`, `Runs` -- one round under some interleaving, and the rounds of the `do ... while`
  up to one that sets no `unmatched`;
* `Inv` -- flags are `0xfe`, `0x00` or undecided, the `0xfe` nodes are independent, every `0x00`
  node has a `0xfe` neighbour, and no edge joins two `0xff` nodes; **`Inv.pass`** -- every round
  keeps it, and a round that sets nothing leaves every node decided;
* **`runs_isMIS`** -- when the loop ends, for every initial assignment of odd priority bytes
  with no edge between two `0xff` bytes and every interleaving, every node is decided and the
  `0xfe` nodes form a maximal independent set. Without that condition a node at `0xff` can read
  a neighbour's flag as `0xff` for `== 0xfe` and as its fresh `0xfe` for `>`, and both join; the
  bytes `init-prio` writes meet it (`InitPrio.lean`).
-/

namespace Galois.Lonestar.IndependentSet.PrioAlgo

open Cusp BFS_SSSP IndependentSets RacyPhase

/-! ## 1. The model -/

/-- What an operator's loop read at one edge: the destination, and its flag at each of the three
reads of `other.flag`, in `other.flag == 0xfe`, `nodedata.flag > other.flag` and
`nodedata.flag == other.flag`. -/
structure EdgeRead where
  dst : ℕ
  other₁ : UInt8
  other₂ : UInt8
  other₃ : UInt8
  deriving DecidableEq, Repr

/-- The loop of `execute` over `src`'s edges, on what it read; `me` is `nodedata.flag`. It gives
the flag written to `src`, if any, and whether it set `unmatched`. -/
def scanEdges (src : ℕ) (me : UInt8) : List EdgeRead → Option UInt8 × Bool
  | [] => (some 0xfe, false)
  | r :: rest =>
    if r.other₁ = 0xfe then (some 0x00, true)
    else if me > r.other₂ then scanEdges src me rest
    else if me = r.other₃ then
      if src > r.dst then scanEdges src me rest
      else if src = r.dst then (some 0x00, false)
      else (none, true)
    else (none, true)

/-- The operator of `execute` on `src`, whose flag is `me`: a decided node returns at once. -/
def execute (src : ℕ) (me : UInt8) (reads : List EdgeRead) : Option UInt8 × Bool :=
  if me &&& 1 = 0 then (none, false) else scanEdges src me reads

/-- The destinations of `src`'s edges, in edge order. -/
def dsts (g : Graph) (src : ℕ) : List ℕ := (edgeIds g src).map (getEdgeDst g)

/-- The writes of one `execute` pass, each node's to its own flag. -/
def writes (g : Graph) (m : ℕ → UInt8) (reads : ℕ → List EdgeRead) : List (ℕ × UInt8) :=
  (List.range (size g)).filterMap fun v => (execute v (m v) (reads v)).1.map (v, ·)

/-- Node `v`'s operator read every edge in order, each read as `Sees` allows. -/
def ReadsOk (g : Graph) (m : ℕ → UInt8) (reads : ℕ → List EdgeRead) (v : ℕ) : Prop :=
  (reads v).map EdgeRead.dst = dsts g v ∧
    ∀ r ∈ reads v, Sees m (writes g m reads) r.dst r.other₁ ∧
      Sees m (writes g m reads) r.dst r.other₂ ∧ Sees m (writes g m reads) r.dst r.other₃

/-- One pass of the `do_all` `execute` under some interleaving: node `v` reads its own flag as
`m v`, since only `v` writes it and only after its loop, and its neighbours' as `ReadsOk`
allows; `m'` is what the writes leave, and `unmatched` is set iff some operator set it. -/
def Execute (g : Graph) (m m' : ℕ → UInt8) (unmatched : Bool) : Prop :=
  ∃ reads : ℕ → List EdgeRead, (∀ v < size g, ReadsOk g m reads v) ∧
    Lands m (writes g m reads) m' ∧
    unmatched = (List.range (size g)).any fun v => (execute v (m v) (reads v)).2

/-- The rounds of `do { ... } while (unmatched.reduce())`, up to the first that sets nothing. -/
inductive Runs (g : Graph) : (ℕ → UInt8) → (ℕ → UInt8) → Prop
  | last {m m' : ℕ → UInt8} : Execute g m m' false → Runs g m m'
  | next {m m' m'' : ℕ → UInt8} : Execute g m m' true → Runs g m' m'' → Runs g m m''

/-! ## 2. The operator -/

/-- **The loop ends in one of four ways**: past every edge, having beaten each destination as it
read it; at a neighbour read as in the set; at a loop edge; or deferring to a neighbour. -/
theorem scanEdges_cases (src : ℕ) (me : UInt8) (rs : List EdgeRead) :
    (scanEdges src me rs = (some 0xfe, false) ∧
      ∀ r ∈ rs, r.other₁ ≠ 0xfe ∧ (r.other₂ < me ∨ (r.other₃ = me ∧ r.dst < src))) ∨
    (scanEdges src me rs = (some 0x00, true) ∧ ∃ r ∈ rs, r.other₁ = 0xfe) ∨
    (scanEdges src me rs = (some 0x00, false) ∧ ∃ r ∈ rs, r.dst = src) ∨
    scanEdges src me rs = (none, true) := by
  induction rs with
  | nil => exact .inl ⟨rfl, fun _ h => absurd h List.not_mem_nil⟩
  | cons r rs ih =>
    by_cases hpass : r.other₁ ≠ 0xfe ∧ (r.other₂ < me ∨ (r.other₃ = me ∧ r.dst < src))
    · -- the loop moves past this edge, and ends as it does on the rest
      have hstep : scanEdges src me (r :: rs) = scanEdges src me rs := by
        rcases hpass with ⟨hfe, hlt | ⟨heq, hsd⟩⟩
        · rw [scanEdges, if_neg hfe, if_pos hlt]
        · by_cases hlt : me > r.other₂
          · rw [scanEdges, if_neg hfe, if_pos hlt]
          · rw [scanEdges, if_neg hfe, if_neg hlt, if_pos heq.symm, if_pos hsd]
      rw [hstep]
      rcases ih with ⟨h1, hall⟩ | ⟨h2, q, hq, hq'⟩ | ⟨h3, q, hq, hq'⟩ | h4
      · exact .inl ⟨h1, fun q hq => (List.mem_cons.mp hq).elim (fun h => h ▸ hpass) (hall q)⟩
      · exact .inr (.inl ⟨h2, q, List.mem_cons_of_mem _ hq, hq'⟩)
      · exact .inr (.inr (.inl ⟨h3, q, List.mem_cons_of_mem _ hq, hq'⟩))
      · exact .inr (.inr (.inr h4))
    · -- the loop stops at this edge
      rw [scanEdges]
      by_cases hfe : r.other₁ = 0xfe
      · exact .inr (.inl ⟨if_pos hfe, r, List.mem_cons_self, hfe⟩)
      rw [if_neg hfe, if_neg fun hlt => hpass ⟨hfe, .inl hlt⟩]
      by_cases heq : me = r.other₃
      · rw [if_pos heq, if_neg fun hsd => hpass ⟨hfe, .inr ⟨heq.symm, hsd⟩⟩]
        by_cases hself : src = r.dst
        · exact .inr (.inr (.inl ⟨if_pos hself, r, List.mem_cons_self, hself.symm⟩))
        · exact .inr (.inr (.inr (if_neg hself)))
      · exact .inr (.inr (.inr (if_neg heq)))

/-- Two nodes cannot each beat the other. -/
theorem beats_asymm {a b : UInt8} {u v : ℕ} (hab : a < b ∨ (a = b ∧ u < v))
    (hba : b < a ∨ (b = a ∧ v < u)) : False := by
  rcases hab with hab | ⟨rfl, huv⟩ <;> rcases hba with hba | ⟨hba, hvu⟩
  · exact Nat.lt_asymm (UInt8.lt_iff_toNat_lt.mp hab) (UInt8.lt_iff_toNat_lt.mp hba)
  · exact UInt8.lt_irrefl a (hba ▸ hab)
  · exact UInt8.lt_irrefl a hba
  · exact Nat.lt_asymm huv hvu

/-- Nothing is above `0xff`. -/
theorem not_ff_lt (a : UInt8) : ¬ (0xff : UInt8) < a := by
  intro h
  have ha := UInt8.lt_iff_toNat_lt.mp h
  have hlt := UInt8.toNat_lt a
  simp only [UInt8.reduceToNat] at ha
  omega

/-- Only `0xff` is above `0xfe`. -/
theorem eq_ff_of_fe_lt {a : UInt8} (h : 0xfe < a) : a = 0xff := by
  have ha := UInt8.lt_iff_toNat_lt.mp h
  have hlt := UInt8.toNat_lt a
  simp only [UInt8.reduceToNat] at ha
  exact UInt8.toNat_inj.mp (by simp only [UInt8.reduceToNat]; omega)

theorem decided_fe : (0xfe : UInt8) &&& 1 = 0 := by decide

theorem decided_zero : (0x00 : UInt8) &&& 1 = 0 := by decide

/-- A decided node's operator does nothing. -/
theorem execute_of_decided {v : ℕ} {me : UInt8} (hme : me &&& 1 = 0) (reads : List EdgeRead) :
    execute v me reads = (none, false) := if_pos hme

/-! ## 3. One round -/

variable {g : Graph} {m m' : ℕ → UInt8} {reads : ℕ → List EdgeRead}

theorem mem_writes {x : ℕ} {y : UInt8} :
    (x, y) ∈ writes g m reads ↔ x < size g ∧ (execute x (m x) (reads x)).1 = some y := by
  simp [writes, Option.map_eq_some_iff]

/-- After the round a node of the graph holds what its operator wrote, or its old flag. -/
theorem lands_writes (hl : Lands m (writes g m reads) m') {x : ℕ} (hx : x < size g) :
    m' x = ((execute x (m x) (reads x)).1).getD (m x) := by
  cases hw : (execute x (m x) (reads x)).1 with
  | none =>
    refine hl.eq_of_not_mem fun v hv => ?_
    rw [mem_writes, hw] at hv
    exact absurd hv.2 (by simp)
  | some w =>
    refine hl.eq_of_mem_iff fun v => ?_
    rw [mem_writes, hw]
    simp [hx, eq_comm]

/-- What a read of `u`'s flag saw: its flag before the round, or the one `u` wrote. -/
theorem sees_writes {u : ℕ} {o : UInt8} (hs : Sees m (writes g m reads) u o) :
    o = m u ∨ (execute u (m u) (reads u)).1 = some o :=
  hs.imp_right fun h => (mem_writes.mp h).2

/-- A decided node's flag is read as it was. -/
theorem sees_of_decided {u : ℕ} {o : UInt8} (hs : Sees m (writes g m reads) u o)
    (hu : m u &&& 1 = 0) : o = m u := by
  rcases sees_writes hs with hold | hw
  · exact hold
  · rw [execute_of_decided hu] at hw
    exact absurd hw (by simp)

/-- An edge `v → u` was read by `v`'s operator. -/
theorem exists_read {v u : ℕ} (hok : ReadsOk g m reads v) (hvu : Adj g v u) :
    ∃ r ∈ reads v, r.dst = u := by
  obtain ⟨e, he, rfl⟩ := hvu
  have hmem : getEdgeDst g e ∈ (reads v).map EdgeRead.dst := by
    rw [hok.1]
    exact List.mem_map_of_mem he
  simpa using hmem

theorem adj_of_read {v : ℕ} {r : EdgeRead} (hok : ReadsOk g m reads v) (hr : r ∈ reads v) :
    Adj g v r.dst := by
  have hmem : r.dst ∈ dsts g v := by
    rw [← hok.1]
    exact List.mem_map_of_mem hr
  obtain ⟨e, he, hd⟩ := List.mem_map.mp hmem
  exact ⟨e, he, hd⟩

/-- The flags a round may leave. -/
structure Inv (g : Graph) (m : ℕ → UInt8) : Prop where
  flag : ∀ v < size g, m v = 0xfe ∨ m v = 0x00 ∨ m v &&& 1 ≠ 0
  independent : ∀ u v, Adj g u v → m u = 0xfe → m v ≠ 0xfe
  covered : ∀ v < size g, m v = 0x00 → ∃ u, Adj g v u ∧ m u = 0xfe
  no_ff_edge : ∀ u v, Adj g u v → m u = 0xff → m v ≠ 0xff

/-- Initial flags with bit 0 set, no two neighbours at `0xff`: nothing decided yet. -/
theorem inv_init {m₀ : ℕ → UInt8} (h₀ : ∀ v < size g, m₀ v &&& 1 ≠ 0)
    (hff : ∀ u v, Adj g u v → m₀ u = 0xff → m₀ v ≠ 0xff) : Inv g m₀ where
  flag v hv := .inr (.inr (h₀ v hv))
  independent u _ huv hu := absurd (hu ▸ decided_fe) (h₀ u huv.lt_size)
  covered v hv h := absurd (h ▸ decided_zero) (h₀ v hv)
  no_ff_edge := hff

section Round

variable (hg : SymmetricGraph g) (hok : ∀ v < size g, ReadsOk g m reads v)
  (hl : Lands m (writes g m reads) m')

include hg hok hl in
/-- **What a node's operator did**: nothing at a decided node; otherwise it wrote `0xfe` having
beaten every neighbour as read, wrote `0x00` having read a neighbour in the set, or deferred. -/
theorem outcome {v : ℕ} (hv : v < size g) :
    (m v &&& 1 = 0 ∧ m' v = m v) ∨
    (m v &&& 1 ≠ 0 ∧ m' v = 0xfe ∧ execute v (m v) (reads v) = (some 0xfe, false) ∧
      ∀ r ∈ reads v, r.other₁ ≠ 0xfe ∧ (r.other₂ < m v ∨ (r.other₃ = m v ∧ r.dst < v))) ∨
    (m v &&& 1 ≠ 0 ∧ m' v = 0x00 ∧ execute v (m v) (reads v) = (some 0x00, true) ∧
      ∃ r ∈ reads v, r.other₁ = 0xfe) ∨
    (m v &&& 1 ≠ 0 ∧ m' v = m v ∧ execute v (m v) (reads v) = (none, true)) := by
  rw [lands_writes hl hv]
  by_cases hme : m v &&& 1 = 0
  · exact .inl ⟨hme, by rw [execute_of_decided hme]; rfl⟩
  have hexe : execute v (m v) (reads v) = scanEdges v (m v) (reads v) := if_neg hme
  rw [hexe]
  rcases scanEdges_cases v (m v) (reads v) with ⟨h1, hall⟩ | ⟨h2, hp⟩ | ⟨-, r, hr, hrv⟩ | h4
  · exact .inr (.inl ⟨hme, by rw [h1]; rfl, h1, hall⟩)
  · exact .inr (.inr (.inl ⟨hme, by rw [h2]; rfl, h2, hp⟩))
  · exact absurd (hrv ▸ adj_of_read (hok v hv) hr) fun h => h.ne hg rfl
  · exact .inr (.inr (.inr ⟨hme, by rw [h4]; rfl, h4⟩))

include hg hok hl in
/-- A `0xfe` flag after the round was `0xfe` before, or its node wrote it. -/
theorem fe_cases {v : ℕ} (hv : v < size g) (hv' : m' v = 0xfe) :
    m v = 0xfe ∨ (m v &&& 1 ≠ 0 ∧ execute v (m v) (reads v) = (some 0xfe, false) ∧
      ∀ r ∈ reads v, r.other₁ ≠ 0xfe ∧ (r.other₂ < m v ∨ (r.other₃ = m v ∧ r.dst < v))) := by
  rcases outcome hg hok hl hv with ⟨-, heq⟩ | ⟨hme, -, h1, hall⟩ | ⟨-, h0, -⟩ | ⟨-, heq, -⟩
  · exact .inl (heq ▸ hv')
  · exact .inr ⟨hme, h1, hall⟩
  · rw [h0] at hv'
    exact absurd hv' (by decide)
  · exact .inl (heq ▸ hv')

include hg hok hl in
/-- A neighbour read as `0xfe` is in the set after the round. -/
theorem read_fe {v : ℕ} (hv : v < size g) {r : EdgeRead} (hr : r ∈ reads v)
    (hfe : r.other₁ = 0xfe) : m' r.dst = 0xfe := by
  have hu := (adj_of_read (hok v hv) hr).lt_size' hg
  rcases sees_writes ((hok v hv).2 r hr).1 with hold | hw
  · rw [lands_writes hl hu, execute_of_decided (by rw [← hold, hfe]; exact decided_fe)]
    exact hold.symm.trans hfe
  · rw [lands_writes hl hu, hw, hfe]
    rfl

include hok in
/-- **A node that wrote `0xfe` beat its neighbour as it read it**: a neighbour that also wrote
`0xfe` was below it or tied with a smaller id, unless the reader was `0xff` and read the
neighbour's fresh `0xfe` as below it. -/
theorem read_beats {v u : ℕ} (hv : v < size g) (hme : m v &&& 1 ≠ 0)
    (hall : ∀ r ∈ reads v, r.other₁ ≠ 0xfe ∧ (r.other₂ < m v ∨ (r.other₃ = m v ∧ r.dst < v)))
    (hvu : Adj g v u) (hu : execute u (m u) (reads u) = (some 0xfe, false)) :
    (m u < m v ∨ (m u = m v ∧ u < v)) ∨ m v = 0xff := by
  obtain ⟨r, hr, rfl⟩ := exists_read (hok v hv) hvu
  -- a read of a neighbour that wrote `0xfe` returned its old flag or `0xfe`
  have hread : ∀ o, Sees m (writes g m reads) r.dst o → o = m r.dst ∨ o = 0xfe := by
    intro o hs
    rcases sees_writes hs with hold | hw
    · exact .inl hold
    · rw [hu] at hw
      exact .inr (Option.some_inj.mp hw).symm
  rcases (hall r hr).2 with hlt | ⟨heq, hsd⟩
  · rcases hread _ ((hok v hv).2 r hr).2.1 with hold | hnew
    · exact .inl (.inl (hold ▸ hlt))
    · exact .inr (eq_ff_of_fe_lt (hnew ▸ hlt))
  · rcases hread _ ((hok v hv).2 r hr).2.2 with hold | hnew
    · exact .inl (.inr ⟨hold ▸ heq, hsd⟩)
    · exact absurd (heq ▸ hnew ▸ decided_fe) hme

include hg hok hl in
/-- **The `0xfe` nodes stay independent.** -/
theorem Inv.independent_pass (h : Inv g m) {u v : ℕ} (huv : Adj g u v) (hu : m' u = 0xfe)
    (hv : m' v = 0xfe) : False := by
  have hu' := huv.lt_size
  have hv' := huv.lt_size' hg
  rcases fe_cases hg hok hl hu' hu with hu0 | ⟨hume, hu1, hallu⟩ <;>
    rcases fe_cases hg hok hl hv' hv with hv0 | ⟨hvme, hv1, hallv⟩
  · exact h.independent u v huv hu0 hv0
  · -- `v` read `u`, already in the set, as `0xfe`
    obtain ⟨r, hr, rfl⟩ := exists_read (hok v hv') (huv.symm hg)
    have hold := sees_of_decided ((hok v hv').2 r hr).1 (by rw [hu0]; exact decided_fe)
    exact (hallv r hr).1 (hold.trans hu0)
  · obtain ⟨r, hr, rfl⟩ := exists_read (hok u hu') huv
    have hold := sees_of_decided ((hok u hu').2 r hr).1 (by rw [hv0]; exact decided_fe)
    exact (hallu r hr).1 (hold.trans hv0)
  · -- both wrote `0xfe`: each beat the other, or two `0xff` neighbours
    rcases read_beats hok hv' hvme hallv (huv.symm hg) hu1 with hvu | hvff <;>
      rcases read_beats hok hu' hume hallu huv hv1 with huv' | huff
    · exact beats_asymm hvu huv'
    · rcases hvu with hlt | ⟨heq, -⟩
      · exact not_ff_lt _ (huff ▸ hlt)
      · exact h.no_ff_edge u v huv huff (heq ▸ huff)
    · rcases huv' with hlt | ⟨heq, -⟩
      · exact not_ff_lt _ (hvff ▸ hlt)
      · exact h.no_ff_edge v u (huv.symm hg) hvff (heq ▸ hvff)
    · exact h.no_ff_edge u v huv huff hvff

include hg hok hl in
/-- **Every `0x00` node keeps a neighbour in the set.** -/
theorem Inv.covered_pass (h : Inv g m) {v : ℕ} (hv : v < size g) (hv0 : m' v = 0x00) :
    ∃ u, Adj g v u ∧ m' u = 0xfe := by
  rcases outcome hg hok hl hv with ⟨hme, heq⟩ | ⟨-, h1, -⟩ | ⟨-, -, -, r, hr, hfe⟩ | ⟨hme, heq, -⟩
  · -- decided before: its member was decided too, and kept its flag
    obtain ⟨u, hvu, hu⟩ := h.covered v hv (heq ▸ hv0)
    refine ⟨u, hvu, ?_⟩
    rcases outcome hg hok hl (hvu.lt_size' hg) with ⟨-, hu'⟩ | ⟨hume, -⟩ | ⟨hume, -⟩ | ⟨hume, -⟩
    · exact hu'.trans hu
    all_goals exact absurd (hu ▸ decided_fe) hume
  · rw [h1] at hv0
    exact absurd hv0 (by decide)
  · exact ⟨r.dst, adj_of_read (hok v hv) hr, read_fe hg hok hl hv hr hfe⟩
  · exact absurd (heq ▸ hv0 ▸ decided_zero) hme

include hg hok hl in
/-- **A round keeps the invariant.** -/
theorem Inv.pass (h : Inv g m) : Inv g m' where
  flag v hv := by
    rcases outcome hg hok hl hv with ⟨hme, heq⟩ | ⟨-, h1, -⟩ | ⟨-, h0, -⟩ | ⟨hme, heq, -⟩
    · rw [heq]
      exact h.flag v hv
    · exact .inl h1
    · exact .inr (.inl h0)
    · exact .inr (.inr (heq ▸ hme))
  independent _ _ huv hu hv := h.independent_pass hg hok hl huv hu hv
  covered _ hv hv0 := h.covered_pass hg hok hl hv hv0
  no_ff_edge u v huv hu hv := by
    -- `0xff` is never written, so both were `0xff` before
    have hold : ∀ x < size g, m' x = 0xff → m x = 0xff := by
      intro x hx hx'
      rcases outcome hg hok hl hx with ⟨-, heq⟩ | ⟨-, h1, -⟩ | ⟨-, h0, -⟩ | ⟨-, heq, -⟩
      · exact heq ▸ hx'
      · exact absurd (h1 ▸ hx') (by decide)
      · exact absurd (h0 ▸ hx') (by decide)
      · exact heq ▸ hx'
    exact h.no_ff_edge u v huv (hold u huv.lt_size hu) (hold v (huv.lt_size' hg) hv)

include hg hok hl in
/-- A round in which no operator set `unmatched` leaves every node decided. -/
theorem Inv.decided_pass (h : Inv g m)
    (hnone : ∀ v < size g, (execute v (m v) (reads v)).2 = false) :
    ∀ v < size g, m' v = 0xfe ∨ m' v = 0x00 := by
  intro v hv
  rcases outcome hg hok hl hv with ⟨hme, heq⟩ | ⟨-, h1, -⟩ | ⟨-, -, h2, -⟩ | ⟨-, -, h4⟩
  · rw [heq]
    exact (h.flag v hv).imp_right fun h0 => h0.resolve_right (not_not.mpr hme)
  · exact .inl h1
  · exact absurd (h2 ▸ hnone v hv) (by decide)
  · exact absurd (h4 ▸ hnone v hv) (by decide)

end Round

/-- **When the loop ends** the invariant holds and every node is decided. -/
theorem Inv.runs (hg : SymmetricGraph g) {m₀ m : ℕ → UInt8} (h : Inv g m₀)
    (hr : Runs g m₀ m) : Inv g m ∧ ∀ v < size g, m v = 0xfe ∨ m v = 0x00 := by
  induction hr with
  | last hx =>
    obtain ⟨reads, hok, hl, hb⟩ := hx
    have hnone : ∀ v < size g, _ := fun v hv => by
      have := hb.symm
      simp only [List.any_eq_false, List.mem_range, Bool.not_eq_true] at this
      exact this v hv
    exact ⟨h.pass hg hok hl, h.decided_pass hg hok hl hnone⟩
  | next hx _ ih =>
    obtain ⟨reads, hok, hl, -⟩ := hx
    exact ih (h.pass hg hok hl)

/-- Once every node is decided, independent `0xfe` nodes next to every `0x00` node form a
maximal independent set. -/
theorem isMIS_of_covered (hg : SymmetricGraph g) {m : ℕ → UInt8}
    (hind : ∀ u v, Adj g u v → m u = 0xfe → m v ≠ 0xfe)
    (hcov : ∀ v < size g, m v = 0x00 → ∃ u, Adj g v u ∧ m u = 0xfe)
    (hdec : ∀ v < size g, m v = 0xfe ∨ m v = 0x00) :
    IsMIS (Adj g) (· < size g) (fun v => m v = 0xfe) where
  independent u v _ _ huv hu := hind u v huv hu
  maximal v hv hnot := by
    obtain ⟨u, hvu, hu⟩ := hcov v hv ((hdec v hv).resolve_left hnot)
    exact ⟨u, hvu.lt_size' hg, hvu, hu⟩

/-- **`prio`, when no edge joins two `0xff` bytes**: for every initial assignment of priority
bytes with bit 0 set and no two neighbours at `0xff` (`init-prio` gives a node with an edge at
most `0xfd`, `initPrio_le_fd`), and every interleaving of the rounds, when the loop ends every
node is decided and the `0xfe` nodes form a maximal independent set. -/
theorem runs_isMIS (hg : SymmetricGraph g) {m₀ m : ℕ → UInt8}
    (h₀ : ∀ v < size g, m₀ v &&& 1 ≠ 0) (hff : ∀ u v, Adj g u v → m₀ u = 0xff → m₀ v ≠ 0xff)
    (hr : Runs g m₀ m) :
    (∀ v < size g, m v = 0xfe ∨ m v = 0x00) ∧
      IsMIS (Adj g) (· < size g) (fun v => m v = 0xfe) := by
  obtain ⟨h, hdec⟩ := (inv_init h₀ hff).runs hg hr
  exact ⟨hdec, isMIS_of_covered hg h.independent h.covered hdec⟩

/-! ## 5. One interleaving -/

/-- The reads of `execute` when every read comes before every write: each flag as it was. -/
def serialReads (g : Graph) (m : ℕ → UInt8) (v : ℕ) : List EdgeRead :=
  (dsts g v).map fun d => ⟨d, m d, m d, m d⟩

/-- The round in which every read comes before every write, the writes landing in node order:
the flags and `unmatched` after it. -/
def serialRound (g : Graph) (m : ℕ → UInt8) : (ℕ → UInt8) × Bool :=
  (applyWrites m (writes g m (serialReads g m)),
    (List.range (size g)).any fun v => (execute v (m v) (serialReads g m v)).2)

/-- **A round can always run**: the serial schedule is one of its interleavings. -/
theorem execute_serial (m : ℕ → UInt8) : Execute g m (serialRound g m).1 (serialRound g m).2 := by
  refine ⟨serialReads g m, fun v _ => ⟨?_, fun r hr => ?_⟩, lands_applyWrites _ _, rfl⟩
  · simp only [serialReads, List.map_map]
    exact List.map_id' _
  · obtain ⟨d, -, rfl⟩ := List.mem_map.mp hr
    exact ⟨.inl rfl, .inl rfl, .inl rfl⟩

/-- Two nodes joined by an edge each way. -/
def pair : Graph := ⟨[1, 2], [1, 0], [(), ()]⟩

/-- From `0xfd` and `0xff` on two neighbours the serial schedule runs three rounds: node `1` beats
node `0` and joins, node `0` reads it and leaves, and the last round finds nothing undecided. -/
theorem runs_isMIS_pair :
    ∃ m, Runs pair (fun v => if v = 0 then 0xfd else 0xff) m ∧
      (∀ v < size pair, m v = 0xfe ∨ m v = 0x00) ∧
        IsMIS (Adj pair) (· < size pair) (fun v => m v = 0xfe) := by
  have hg : SymmetricGraph pair := by decide
  let m₀ : ℕ → UInt8 := fun v => if v = 0 then 0xfd else 0xff
  have r₁ := execute_serial (g := pair) m₀
  have h₁ : (serialRound pair m₀).2 = true := by decide
  rw [h₁] at r₁
  have r₂ := execute_serial (g := pair) (serialRound pair m₀).1
  have h₂ : (serialRound pair (serialRound pair m₀).1).2 = true := by decide
  rw [h₂] at r₂
  have r₃ := execute_serial (g := pair) (serialRound pair (serialRound pair m₀).1).1
  have h₃ : (serialRound pair (serialRound pair (serialRound pair m₀).1).1).2 = false := by decide
  rw [h₃] at r₃
  have hr := Runs.next r₁ (Runs.next r₂ (Runs.last r₃))
  have hff : ∀ u < 2, ∀ v < 2, Adj pair u v → m₀ u = 0xff → m₀ v ≠ 0xff := by decide
  exact ⟨_, hr, runs_isMIS hg (by decide)
    (fun u v huv => hff u huv.lt_size v (huv.lt_size' hg) huv) hr⟩

end Galois.Lonestar.IndependentSet.PrioAlgo
