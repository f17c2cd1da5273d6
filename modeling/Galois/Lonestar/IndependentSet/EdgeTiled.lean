import Galois.Lonestar.IndependentSet.Prio
import Mathlib.Data.FinEnum

/-!
# IndependentSet.cpp: `EdgeTiledPrioAlgo`

`init-prio` writes `(res + res) | 0x03` to every node (bit 0: undecided, bit 1: "temporary yes")
and cuts each node's edges into tiles of `EDGE_TILE_SIZE`. A round has three `do_all`s:

* `execute`, one operator per tile: an undecided source reads each destination of the tile and
  writes `0x00` to its source on a neighbour at `0xfe`, or sets `tile.flag` to `true` when it
  beat every destination, `false` otherwise. The only flag writes are `0x00`, by a node's own
  tiles, so a read sees the value before the phase or `0x00`;
* `match_reduce`, one per tile: an undecided source with a `false` tile loses bit 1, by
  `nodedata.flag &= 0xfd` from each such tile, which race as `RacyPhase.RMWChain`s;
* `match_update`, one per node: a node with bits 0 and 1 becomes `0xfe` and writes `0x00` to
  every neighbour; another undecided node sets bits 0 and 1 again by `|= 0x03`. A node's three
  reads of its own flag see its value before the phase or a neighbour's `0x00`.

* `exec_tile`, `exec_zero` -- what `execute` leaves at a node; `reduce_eq` -- what
  `match_reduce` leaves; `update_fe`, `update_zero`, `update_flag` -- what `match_update` leaves;
* `Inv`, **`Inv.round`** -- every round keeps the `0xfe` nodes independent and every `0x00` node
  next to one, and a round that sets no `unmatched` leaves every node decided;
* **`rounds_isMIS`** -- for every initial assignment of bytes with bits 0 and 1 set and every
  interleaving, when the loop ends every node is decided and the `0xfe` nodes form a maximal
  independent set.
-/

namespace Galois.Lonestar.IndependentSet.EdgeTiledPrioAlgo

open Cusp BFS_SSSP IndependentSets RacyPhase PrioAlgo

/-! ## 1. The tiles -/

/-- `EDGE_TILE_SIZE`. -/
def EDGE_TILE_SIZE : ℕ := 64

/-- `EdgeTile`, less its `flag`, which the rounds keep apart: `src` and its edges `[beg, end)`. -/
structure EdgeTile where
  src : ℕ
  beg : ℕ
  «end» : ℕ
  deriving DecidableEq, Repr

/-- The tiles `init-prio` pushes to `works`, node by node: each node's edges cut by the loop
`pushEdgeTiles` models, full tiles of `EDGE_TILE_SIZE` edges and then the rest. -/
def works (g : Graph) : List EdgeTile :=
  (List.range (size g)).flatMap fun src =>
    (pushEdgeTiles EDGE_TILE_SIZE (g.edge_begin src) (g.edge_end src)).map fun r => ⟨src, r.1, r.2⟩

/-- The number of tiles. -/
def numTiles (g : Graph) : ℕ := (works g).length

/-- The `i`-th tile of `works`. -/
def tile (g : Graph) (i : ℕ) : EdgeTile := (works g).getD i ⟨0, 0, 0⟩

/-- The destinations of a tile's edges, in order. -/
def tileDsts (g : Graph) (t : EdgeTile) : List ℕ := (tileRange (t.beg, t.«end»)).map (getEdgeDst g)

variable {g : Graph}

theorem tile_mem {i : ℕ} (hi : i < numTiles g) : tile g i ∈ works g := by
  rw [tile, List.getD_eq_getElem?_getD, List.getElem?_eq_getElem hi, Option.getD_some]
  exact List.getElem_mem hi

theorem mem_works {t : EdgeTile} (ht : t ∈ works g) :
    t.src < size g ∧ (t.beg, t.«end») ∈ pushEdgeTiles EDGE_TILE_SIZE (g.edge_begin t.src)
      (g.edge_end t.src) := by
  obtain ⟨src, hsrc, hmem⟩ := List.mem_flatMap.mp ht
  obtain ⟨r, hr, rfl⟩ := List.mem_map.mp hmem
  exact ⟨List.mem_range.mp hsrc, hr⟩

/-- A tile's edges are edges of its source. -/
theorem adj_of_mem_tileDsts {i : ℕ} (hi : i < numTiles g) {d : ℕ}
    (hd : d ∈ tileDsts g (tile g i)) : Adj g (tile g i).src d := by
  obtain ⟨e, he, rfl⟩ := List.mem_map.mp hd
  refine ⟨e, ?_, rfl⟩
  have hcover := flatMap_pushEdgeTiles EDGE_TILE_SIZE (g.edge_begin (tile g i).src)
    (g.edge_end (tile g i).src)
  rw [edgeIds, ← hcover]
  exact List.mem_flatMap.mpr ⟨_, (mem_works (tile_mem hi)).2, he⟩

/-- **The tiles cover every edge**: each edge `v → u` is in a tile of `v`. -/
theorem exists_tile {v u : ℕ} (hvu : Adj g v u) :
    ∃ i < numTiles g, (tile g i).src = v ∧ u ∈ tileDsts g (tile g i) := by
  obtain ⟨e, he, rfl⟩ := hvu
  have hv := lt_of_mem_edgeIds he
  rw [edgeIds, ← flatMap_pushEdgeTiles EDGE_TILE_SIZE] at he
  obtain ⟨r, hr, her⟩ := List.mem_flatMap.mp he
  have ht : (⟨v, r.1, r.2⟩ : EdgeTile) ∈ works g :=
    List.mem_flatMap.mpr ⟨v, List.mem_range.mpr hv, List.mem_map.mpr ⟨r, hr, rfl⟩⟩
  obtain ⟨i, hi, hti⟩ := List.mem_iff_getElem.mp ht
  have htile : tile g i = ⟨v, r.1, r.2⟩ := by
    rw [tile, List.getD_eq_getElem?_getD, List.getElem?_eq_getElem hi, Option.getD_some, hti]
  exact ⟨i, hi, by rw [htile], by rw [htile]; exact List.mem_map_of_mem her⟩

/-! ## 2. The three phases -/

/-- What a tile's loop read at one edge: the destination, its flag at the three reads of
`other.flag`, and the source's flag at the two reads of `nodedata.flag` (in
`nodedata.flag > other.flag` and `nodedata.flag == other.flag`), which another tile of the same
source may have cleared meanwhile. -/
structure TileRead where
  dst : ℕ
  other₁ : UInt8
  me₂ : UInt8
  other₂ : UInt8
  me₃ : UInt8
  other₃ : UInt8
  deriving DecidableEq, Repr

/-- The loop of `execute` over a tile's edges, on what it read. It gives the flag written to the
source, the value written to `tile.flag`, and whether it set `unmatched`. -/
def scanTile (src : ℕ) : List TileRead → Option UInt8 × Option Bool × Bool
  | [] => (none, some true, false)
  | r :: rest =>
    if r.other₁ = 0xfe then (some 0x00, none, false)
    else if r.me₂ > r.other₂ then scanTile src rest
    else if r.me₃ = r.other₃ then
      if src > r.dst then scanTile src rest
      else if src = r.dst then (some 0x00, some false, false)
      else (none, some false, true)
    else (none, some false, true)

/-- The operator of `execute` on a tile, which first read its source's flag as `chk`. -/
def executeTile (src : ℕ) (chk : UInt8) (reads : List TileRead) :
    Option UInt8 × Option Bool × Bool :=
  if chk &&& 1 ≠ 0 then scanTile src reads else (none, none, false)

/-- What tile `i`'s operator did, on what it read (`obs i`: the first read, then the loop's). -/
def out (g : Graph) (obs : ℕ → UInt8 × List TileRead) (i : ℕ) :
    Option UInt8 × Option Bool × Bool :=
  executeTile (tile g i).src (obs i).1 (obs i).2

/-- The flag writes of one `execute` pass, each tile's to its source. -/
def tileWrites (g : Graph) (obs : ℕ → UInt8 × List TileRead) : List (ℕ × UInt8) :=
  (List.range (numTiles g)).filterMap fun i => (out g obs i).1.map ((tile g i).src, ·)

/-- Tile `i`'s operator read every edge of its tile in order, each read as `Sees` allows. -/
def TileReadsOk (g : Graph) (m : ℕ → UInt8) (obs : ℕ → UInt8 × List TileRead) (i : ℕ) : Prop :=
  Sees m (tileWrites g obs) (tile g i).src (obs i).1 ∧
    (obs i).2.map TileRead.dst = tileDsts g (tile g i) ∧
    ∀ r ∈ (obs i).2, Sees m (tileWrites g obs) r.dst r.other₁ ∧
      Sees m (tileWrites g obs) (tile g i).src r.me₂ ∧ Sees m (tileWrites g obs) r.dst r.other₂ ∧
      Sees m (tileWrites g obs) (tile g i).src r.me₃ ∧ Sees m (tileWrites g obs) r.dst r.other₃

/-- One pass of `execute` under some interleaving: `m'` is what the flag writes leave, each
`tile.flag` is what its own operator wrote or as it was, and `unmatched` is set iff some
operator set it. -/
def Execute (g : Graph) (m m' : ℕ → UInt8) (tf tf' : ℕ → Bool) (unmatched : Bool) : Prop :=
  ∃ obs : ℕ → UInt8 × List TileRead, (∀ i < numTiles g, TileReadsOk g m obs i) ∧
    Lands m (tileWrites g obs) m' ∧
    (∀ i < numTiles g, tf' i = (out g obs i).2.1.getD (tf i)) ∧
    unmatched = (List.range (numTiles g)).any fun i => (out g obs i).2.2

/-- One pass of `match_reduce` under some interleaving. Tile `i` reads its source's flag as
`chk i`; if it is undecided and `tile.flag` is `false`, `nodedata.flag &= 0xfd` reads the flag
again and writes it back without bit 1. A node's tiles are the only writers of its flag, and
`ws x` are their writes in trace order. -/
def Reduce (g : Graph) (tf : ℕ → Bool) (m m' : ℕ → UInt8) : Prop :=
  ∃ (chk : ℕ → UInt8) (ws : ℕ → List UInt8),
    (∀ i < numTiles g, chk i = m (tile g i).src ∨ chk i ∈ ws (tile g i).src) ∧
    ∀ x, RMWChain (· &&& 0xfd) (m x) (ws x) ∧
      (ws x).length = ((List.range (numTiles g)).filter fun i =>
        (tile g i).src = x ∧ chk i &&& 1 ≠ 0 ∧ tf i = false).length ∧
      m' x = (ws x).getLastD (m x)

/-- The writes of `match_update` at node `v`, which read its flag as `r₁` (for `& 0x01`), `r₂`
(for `& 0x02`) and `r₃` (for `|= 0x03`): a temporary yes becomes `0xfe` and clears every
neighbour; another undecided node sets bits 0 and 1 again. -/
def updateWrites (g : Graph) (v : ℕ) (r₁ r₂ r₃ : UInt8) : List (ℕ × UInt8) :=
  if r₁ &&& 0x01 ≠ 0 then
    if r₂ &&& 0x02 ≠ 0 then (v, 0xfe) :: (dsts g v).map fun dst => (dst, 0x00)
    else [(v, r₃ ||| 0x03)]
  else []

/-- The writes of `match_update` of the nodes `us`, from their reads `rd`. -/
def writesOf (g : Graph) (rd : ℕ → UInt8 × UInt8 × UInt8) (us : List ℕ) : List (ℕ × UInt8) :=
  us.flatMap fun u => updateWrites g u (rd u).1 (rd u).2.1 (rd u).2.2

/-- One pass of `match_update` under some interleaving: node `v` reads its own flag three times
before it writes, each read seeing the value before the phase or another node's write. -/
def Update (g : Graph) (m m' : ℕ → UInt8) : Prop :=
  ∃ rd : ℕ → UInt8 × UInt8 × UInt8,
    (∀ v < size g, ∀ r ∈ [(rd v).1, (rd v).2.1, (rd v).2.2],
      Sees m (writesOf g rd ((List.range (size g)).filter (· ≠ v))) v r) ∧
    Lands m (writesOf g rd (List.range (size g))) m'

/-- One round: `execute`, `match_reduce`, `match_update`. -/
def Round (g : Graph) (m m' : ℕ → UInt8) (tf tf' : ℕ → Bool) (unmatched : Bool) : Prop :=
  ∃ m₁ m₂, Execute g m m₁ tf tf' unmatched ∧ Reduce g tf' m₁ m₂ ∧ Update g m₂ m'

/-- The rounds of `do { ... } while (unmatched.reduce())`, up to the first that sets nothing. -/
inductive Runs (g : Graph) : (ℕ → UInt8) → (ℕ → Bool) → (ℕ → UInt8) → Prop
  | last {m m' : ℕ → UInt8} {tf tf' : ℕ → Bool} : Round g m m' tf tf' false → Runs g m tf m'
  | next {m m' m'' : ℕ → UInt8} {tf tf' : ℕ → Bool} :
      Round g m m' tf tf' true → Runs g m' tf' m'' → Runs g m tf m''

/-! ## 3. Flag bytes -/

theorem and_fd_idem (v : UInt8) : (v &&& 0xfd) &&& 0xfd = v &&& 0xfd := by
  rw [UInt8.and_assoc]
  rfl

theorem and_fd_bit0 (v : UInt8) : (v &&& 0xfd) &&& 1 = v &&& 1 := by
  rw [UInt8.and_assoc]
  rfl

theorem and_fd_bit1 (v : UInt8) : (v &&& 0xfd) &&& 2 = 0 := by
  rw [UInt8.and_assoc]
  exact UInt8.and_zero

set_option maxRecDepth 8000 in
theorem or_three_bits (v : UInt8) : (v ||| 3) &&& 3 = 3 := by
  revert v
  decide

set_option maxRecDepth 8000 in
theorem bits_of_and_three {v : UInt8} (h : v &&& 3 = 3) : v &&& 1 ≠ 0 ∧ v &&& 2 ≠ 0 := by
  revert v
  decide

/-- A node whose flag has bits 0 and 1 after `match_reduce`: a temporary yes. -/
def TempYes (m : ℕ → UInt8) (v : ℕ) : Prop := m v &&& 1 ≠ 0 ∧ m v &&& 2 ≠ 0

/-! ## 4. `execute` -/

/-- **The loop ends in one of four ways**: past every edge, with `tile.flag = true`, having
beaten each destination as it read it; at a neighbour read as in the set; at a loop edge; or
deferring to a neighbour. -/
theorem scanTile_cases (src : ℕ) (rs : List TileRead) :
    (scanTile src rs = (none, some true, false) ∧
      ∀ r ∈ rs, r.other₁ ≠ 0xfe ∧ (r.other₂ < r.me₂ ∨ (r.other₃ = r.me₃ ∧ r.dst < src))) ∨
    (scanTile src rs = (some 0x00, none, false) ∧ ∃ r ∈ rs, r.other₁ = 0xfe) ∨
    (scanTile src rs = (some 0x00, some false, false) ∧ ∃ r ∈ rs, r.dst = src) ∨
    scanTile src rs = (none, some false, true) := by
  induction rs with
  | nil => exact .inl ⟨rfl, fun _ h => absurd h List.not_mem_nil⟩
  | cons r rs ih =>
    by_cases hpass : r.other₁ ≠ 0xfe ∧ (r.other₂ < r.me₂ ∨ (r.other₃ = r.me₃ ∧ r.dst < src))
    · -- the loop moves past this edge, and ends as it does on the rest
      have hstep : scanTile src (r :: rs) = scanTile src rs := by
        rcases hpass with ⟨hfe, hlt | ⟨heq, hsd⟩⟩
        · rw [scanTile, if_neg hfe, if_pos hlt]
        · by_cases hlt : r.me₂ > r.other₂
          · rw [scanTile, if_neg hfe, if_pos hlt]
          · rw [scanTile, if_neg hfe, if_neg hlt, if_pos heq.symm, if_pos hsd]
      rw [hstep]
      rcases ih with ⟨h1, hall⟩ | ⟨h2, q, hq, hq'⟩ | ⟨h3, q, hq, hq'⟩ | h4
      · exact .inl ⟨h1, fun q hq => (List.mem_cons.mp hq).elim (fun h => h ▸ hpass) (hall q)⟩
      · exact .inr (.inl ⟨h2, q, List.mem_cons_of_mem _ hq, hq'⟩)
      · exact .inr (.inr (.inl ⟨h3, q, List.mem_cons_of_mem _ hq, hq'⟩))
      · exact .inr (.inr (.inr h4))
    · -- the loop stops at this edge
      rw [scanTile]
      by_cases hfe : r.other₁ = 0xfe
      · exact .inr (.inl ⟨if_pos hfe, r, List.mem_cons_self, hfe⟩)
      rw [if_neg hfe, if_neg fun hlt => hpass ⟨hfe, .inl hlt⟩]
      by_cases heq : r.me₃ = r.other₃
      · rw [if_pos heq, if_neg fun hsd => hpass ⟨hfe, .inr ⟨heq.symm, hsd⟩⟩]
        by_cases hself : src = r.dst
        · exact .inr (.inr (.inl ⟨if_pos hself, r, List.mem_cons_self, hself.symm⟩))
        · exact .inr (.inr (.inr (if_neg hself)))
      · exact .inr (.inr (.inr (if_neg heq)))

/-- A tile writes only `0x00`, and only to an undecided source. -/
theorem executeTile_write {src : ℕ} {chk y : UInt8} {rs : List TileRead}
    (h : (executeTile src chk rs).1 = some y) : y = 0x00 ∧ chk &&& 1 ≠ 0 := by
  unfold executeTile at h
  split_ifs at h with hchk
  · refine ⟨?_, hchk⟩
    rcases scanTile_cases src rs with ⟨h1, -⟩ | ⟨h2, -⟩ | ⟨h3, -⟩ | h4
    · rw [h1] at h
      exact absurd h (by simp)
    · rw [h2] at h
      exact (Option.some_inj.mp h).symm
    · rw [h3] at h
      exact (Option.some_inj.mp h).symm
    · rw [h4] at h
      exact absurd h (by simp)

variable {m m₁ : ℕ → UInt8} {obs : ℕ → UInt8 × List TileRead}

theorem mem_tileWrites {x : ℕ} {y : UInt8} :
    (x, y) ∈ tileWrites g obs ↔ ∃ i < numTiles g, (tile g i).src = x ∧ (out g obs i).1 = some y := by
  simp only [tileWrites, List.mem_filterMap, List.mem_range, Option.map_eq_some_iff,
    Prod.mk.injEq]
  constructor
  · rintro ⟨i, hi, y', hy', hx, rfl⟩
    exact ⟨i, hi, hx, hy'⟩
  · rintro ⟨i, hi, hx, hy⟩
    exact ⟨i, hi, y, hy, hx, rfl⟩

/-- A read during `execute` sees the flag before it or `0x00`. -/
theorem sees_exec {x : ℕ} {r : UInt8} (hs : Sees m (tileWrites g obs) x r) : r = m x ∨ r = 0x00 :=
  hs.imp_right fun h => by
    obtain ⟨i, -, -, hy⟩ := mem_tileWrites.mp h
    exact (executeTile_write hy).1

theorem sees_of_no_write {x : ℕ} {r : UInt8} (hs : Sees m (tileWrites g obs) x r)
    (hx : ∀ y, (x, y) ∉ tileWrites g obs) : r = m x :=
  hs.resolve_right (hx r)

section Execute

variable (hok : ∀ i < numTiles g, TileReadsOk g m obs i) (hl : Lands m (tileWrites g obs) m₁)

include hok in
/-- A decided node's tiles write nothing: they read it decided, or as `0x00`. -/
theorem no_write_of_decided {x : ℕ} (hx : m x &&& 1 = 0) : ∀ y, (x, y) ∉ tileWrites g obs := by
  intro y hy
  obtain ⟨i, hi, rfl, hw⟩ := mem_tileWrites.mp hy
  have hchk := (executeTile_write hw).2
  rcases sees_exec (hok i hi).1 with hold | hzero
  · exact hchk (hold ▸ hx)
  · exact hchk (hzero ▸ decided_zero)

include hl in
/-- A node not at `0x00` after `execute` was written by none of its tiles. -/
theorem no_write_of_ne_zero {x : ℕ} (hx : m₁ x ≠ 0x00) : ∀ y, (x, y) ∉ tileWrites g obs := by
  intro y hy
  rcases hl x with hmem | ⟨-, hnone⟩
  · obtain ⟨i, -, -, hw⟩ := mem_tileWrites.mp hmem
    exact hx (executeTile_write hw).1
  · exact hnone y hy

include hl in
theorem exec_eq_or_zero (x : ℕ) : m₁ x = m x ∨ m₁ x = 0x00 := by
  rcases hl x with hmem | ⟨heq, -⟩
  · obtain ⟨i, -, -, hw⟩ := mem_tileWrites.mp hmem
    exact .inr (executeTile_write hw).1
  · exact .inl heq

include hok hl in
theorem exec_of_decided {x : ℕ} (hx : m x &&& 1 = 0) : m₁ x = m x :=
  hl.eq_of_not_mem (no_write_of_decided hok hx)

include hok hl in
/-- **A node still undecided after `execute`** kept its flag, and each of its tiles either beat
every destination as read, setting `tile.flag`, or set `unmatched` and cleared it. -/
theorem exec_tile {tf tf₁ : ℕ → Bool}
    (htf : ∀ i < numTiles g, tf₁ i = (out g obs i).2.1.getD (tf i)) {i : ℕ} (hi : i < numTiles g)
    (hx : m₁ (tile g i).src &&& 1 ≠ 0) :
    m₁ (tile g i).src = m (tile g i).src ∧
      ((tf₁ i = true ∧ ∀ r ∈ (obs i).2, r.other₁ ≠ 0xfe ∧
          (r.other₂ < m (tile g i).src ∨ (r.other₃ = m (tile g i).src ∧ r.dst < (tile g i).src))) ∨
        (tf₁ i = false ∧ (out g obs i).2.2 = true)) := by
  have hne : m₁ (tile g i).src ≠ 0x00 := fun h => hx (h ▸ decided_zero)
  have hnone := no_write_of_ne_zero hl hne
  have hkeep : m₁ (tile g i).src = m (tile g i).src := hl.eq_of_not_mem hnone
  refine ⟨hkeep, ?_⟩
  -- the tile read its source undecided, at every read
  have hsrc : ∀ r, Sees m (tileWrites g obs) (tile g i).src r → r = m (tile g i).src :=
    fun r hs => sees_of_no_write hs hnone
  have hchk : (obs i).1 &&& 1 ≠ 0 := by rw [hsrc _ (hok i hi).1, ← hkeep]; exact hx
  have hout : out g obs i = scanTile (tile g i).src (obs i).2 := if_pos hchk
  rcases scanTile_cases (tile g i).src (obs i).2 with ⟨h1, hall⟩ | ⟨h2, -⟩ | ⟨h3, -⟩ | h4
  · refine .inl ⟨by rw [htf i hi, hout, h1]; rfl, fun r hr => ?_⟩
    have hme₂ := hsrc _ ((hok i hi).2.2 r hr).2.1
    have hme₃ := hsrc _ ((hok i hi).2.2 r hr).2.2.2.1
    have hpass := hall r hr
    rw [hme₂, hme₃] at hpass
    exact hpass
  · exact absurd (mem_tileWrites.mpr ⟨i, hi, rfl, by rw [hout, h2]⟩) (hnone 0x00)
  · exact absurd (mem_tileWrites.mpr ⟨i, hi, rfl, by rw [hout, h3]⟩) (hnone 0x00)
  · exact .inr ⟨by rw [htf i hi, hout, h4]; rfl, by rw [hout, h4]⟩

include hok hl in
/-- **A node `execute` sets to `0x00`** has a neighbour that was already `0xfe`. -/
theorem exec_zero (hg : SymmetricGraph g) {x : ℕ} (hx : m x &&& 1 ≠ 0) (hx₁ : m₁ x = 0x00) :
    ∃ u, Adj g x u ∧ m u = 0xfe := by
  have hmem : (x, 0x00) ∈ tileWrites g obs := by
    rcases hl x with hmem | ⟨heq, -⟩
    · exact hx₁ ▸ hmem
    · exact absurd (heq ▸ hx₁ ▸ decided_zero) hx
  obtain ⟨i, hi, rfl, hw⟩ := mem_tileWrites.mp hmem
  have hchk := (executeTile_write hw).2
  have hout : out g obs i = scanTile (tile g i).src (obs i).2 := if_pos hchk
  -- the tile's read that saw `0xfe`, or the loop edge it stopped at
  have hadj : ∀ r ∈ (obs i).2, Adj g (tile g i).src r.dst := fun r hr =>
    adj_of_mem_tileDsts hi (by rw [← (hok i hi).2.1]; exact List.mem_map_of_mem hr)
  rcases scanTile_cases (tile g i).src (obs i).2 with ⟨h1, -⟩ | ⟨-, r, hr, hfe⟩ | ⟨-, r, hr, hrs⟩ | h4
  · rw [hout, h1] at hw
    exact absurd hw (by simp)
  · refine ⟨r.dst, hadj r hr, ?_⟩
    rcases sees_exec ((hok i hi).2.2 r hr).1 with hold | hzero
    · exact hold ▸ hfe
    · exact absurd (hfe.symm.trans hzero) (by decide)
  · exact absurd (hrs ▸ hadj r hr) fun h => h.ne hg rfl
  · rw [hout, h4] at hw
    exact absurd hw (by simp)

end Execute

/-- An edge of a tile was read by the tile's operator. -/
theorem exists_tileRead {i : ℕ} (hok : TileReadsOk g m obs i) {u : ℕ}
    (hu : u ∈ tileDsts g (tile g i)) : ∃ r ∈ (obs i).2, r.dst = u := by
  have hmem : u ∈ (obs i).2.map TileRead.dst := by
    rw [hok.2.1]
    exact hu
  simpa using hmem

/-! ## 5. `match_reduce` -/

/-- **What `match_reduce` leaves**: an undecided node with a `false` tile loses bit 1, and every
other node keeps its flag. However the tiles' read-modify-writes interleave, each writes the same
value. -/
theorem reduce_eq {tf : ℕ → Bool} {m m' : ℕ → UInt8} (hr : Reduce g tf m m') (x : ℕ) :
    m' x = if m x &&& 1 ≠ 0 ∧ ∃ i < numTiles g, (tile g i).src = x ∧ tf i = false then
      m x &&& 0xfd else m x := by
  obtain ⟨chk, ws, hchk, hws⟩ := hr
  obtain ⟨hchain, hlen, hm'⟩ := hws x
  rw [hm', hchain.getLastD_eq and_fd_idem]
  -- each tile of `x` read bit 0 as it was before the phase
  have hbit : ∀ i < numTiles g, (tile g i).src = x → chk i &&& 1 = m x &&& 1 := by
    intro i hi hsrc
    rcases hchk i hi with hold | hmem
    · rw [hold, hsrc]
    · rw [hsrc] at hmem
      rw [hchain.eq_of_idem and_fd_idem _ hmem, and_fd_bit0]
  have hnil : ws x = [] ↔
      ¬ (m x &&& 1 ≠ 0 ∧ ∃ i < numTiles g, (tile g i).src = x ∧ tf i = false) := by
    rw [← List.length_eq_zero_iff, hlen, List.length_eq_zero_iff, List.filter_eq_nil_iff]
    simp only [List.mem_range, decide_eq_true_eq]
    constructor
    · rintro h ⟨hx, i, hi, hsrc, htf⟩
      exact h i hi ⟨hsrc, by rw [hbit i hi hsrc]; exact hx, htf⟩
    · rintro h i hi ⟨hsrc, hc, htf⟩
      exact h ⟨by rw [← hbit i hi hsrc]; exact hc, i, hi, hsrc, htf⟩
  by_cases hc : m x &&& 1 ≠ 0 ∧ ∃ i < numTiles g, (tile g i).src = x ∧ tf i = false
  · rw [if_neg fun h => hnil.mp h hc, if_pos hc]
  · rw [if_pos (hnil.mpr hc), if_neg hc]

/-! ## 6. `match_update` -/

theorem mem_updateWrites {v x : ℕ} {y r₁ r₂ r₃ : UInt8} :
    (x, y) ∈ updateWrites g v r₁ r₂ r₃ ↔ r₁ &&& 1 ≠ 0 ∧
      ((r₂ &&& 2 ≠ 0 ∧ ((x = v ∧ y = 0xfe) ∨ (x ∈ dsts g v ∧ y = 0x00))) ∨
        (r₂ &&& 2 = 0 ∧ x = v ∧ y = r₃ ||| 3)) := by
  unfold updateWrites
  by_cases h₁ : r₁ &&& 1 = 0
  · simp [h₁]
  by_cases h₂ : r₂ &&& 2 = 0
  · simp [h₁, h₂, eq_comm]
  · simp only [ne_eq, h₁, not_false_eq_true, if_true, h₂, List.mem_cons, Prod.mk.injEq,
      List.mem_map, true_and, false_and, or_false]
    constructor
    · rintro (h | ⟨d, hd, rfl, rfl⟩)
      · exact .inl h
      · exact .inr ⟨hd, rfl⟩
    · rintro (h | ⟨hd, rfl⟩)
      · exact .inl h
      · exact .inr ⟨x, hd, rfl, rfl⟩

theorem mem_writesOf {rd : ℕ → UInt8 × UInt8 × UInt8} {us : List ℕ} {x : ℕ} {y : UInt8} :
    (x, y) ∈ writesOf g rd us ↔ ∃ u ∈ us, (x, y) ∈ updateWrites g u (rd u).1 (rd u).2.1 (rd u).2.2 :=
  List.mem_flatMap

/-- Another node writes only `0x00` to `x`, from the branch of a temporary yes next to `x`. -/
theorem others_write {u x : ℕ} {y r₁ r₂ r₃ : UInt8} (hux : u ≠ x)
    (h : (x, y) ∈ updateWrites g u r₁ r₂ r₃) :
    y = 0x00 ∧ r₁ &&& 1 ≠ 0 ∧ r₂ &&& 2 ≠ 0 ∧ Adj g u x := by
  obtain ⟨h₁, ⟨h₂, ⟨hxu, -⟩ | ⟨hd, hy⟩⟩ | ⟨-, hxu, -⟩⟩ := mem_updateWrites.mp h
  · exact absurd hxu.symm hux
  · obtain ⟨e, he, rfl⟩ := List.mem_map.mp hd
    exact ⟨hy, h₁, h₂, adj_of_mem he⟩
  · exact absurd hxu.symm hux

section Update

variable {m₂ m₃ : ℕ → UInt8} {rd : ℕ → UInt8 × UInt8 × UInt8}
  (hrd : ∀ v < size g, ∀ r ∈ [(rd v).1, (rd v).2.1, (rd v).2.2],
    Sees m₂ (writesOf g rd ((List.range (size g)).filter (· ≠ v))) v r)
  (hl : Lands m₂ (writesOf g rd (List.range (size g))) m₃)

include hrd in
/-- A node reads its own flag as it was before the phase, or as a neighbour's `0x00`. -/
theorem sees_update {v : ℕ} (hv : v < size g) {r : UInt8}
    (hr : r ∈ [(rd v).1, (rd v).2.1, (rd v).2.2]) :
    r = m₂ v ∨ ∃ u, Adj g u v ∧ (rd u).1 &&& 1 ≠ 0 ∧ (rd u).2.1 &&& 2 ≠ 0 ∧ r = 0x00 := by
  refine (hrd v hv r hr).imp_right fun hmem => ?_
  obtain ⟨u, hu, hw⟩ := mem_writesOf.mp hmem
  have huv : u ≠ v := by simpa using (List.mem_filter.mp hu).2
  obtain ⟨hy, h₁, h₂, hadj⟩ := others_write huv hw
  exact ⟨u, hadj, h₁, h₂, hy⟩

include hrd in
/-- A node that takes the branch of a temporary yes was one before the phase: a neighbour's
`0x00` has neither bit. -/
theorem tempYes_of_branch {v : ℕ} (hv : v < size g) (h₁ : (rd v).1 &&& 1 ≠ 0)
    (h₂ : (rd v).2.1 &&& 2 ≠ 0) : TempYes m₂ v := by
  refine ⟨?_, ?_⟩
  · rcases sees_update hrd hv List.mem_cons_self with h | ⟨-, -, -, -, h⟩
    · rw [← h]
      exact h₁
    · exact absurd (h ▸ decided_zero) h₁
  · rcases sees_update hrd hv (List.mem_cons_of_mem _ List.mem_cons_self) with h | ⟨-, -, -, -, h⟩
    · rw [← h]
      exact h₂
    · rw [h] at h₂
      exact absurd (by decide) h₂

include hrd in
/-- **What `match_update` writes to a node**: its own writes, or `0x00` from a temporary yes
next to it. -/
theorem update_write_cases {x : ℕ} {y : UInt8}
    (h : (x, y) ∈ writesOf g rd (List.range (size g))) :
    (x, y) ∈ updateWrites g x (rd x).1 (rd x).2.1 (rd x).2.2 ∨
      (y = 0x00 ∧ ∃ u, Adj g u x ∧ TempYes m₂ u) := by
  obtain ⟨u, hu, hw⟩ := mem_writesOf.mp h
  by_cases hux : u = x
  · subst hux
    exact .inl hw
  · obtain ⟨hy, h₁, h₂, hadj⟩ := others_write hux hw
    exact .inr ⟨hy, u, hadj, tempYes_of_branch hrd (List.mem_range.mp hu) h₁ h₂⟩

/-- A node's own write to itself: `0xfe` from a temporary yes, or its flag with bits 0 and 1 set
again. A loop edge would add `0x00`. -/
theorem own_write (hg : SymmetricGraph g) {x : ℕ} {y r₁ r₂ r₃ : UInt8}
    (h : (x, y) ∈ updateWrites g x r₁ r₂ r₃) :
    r₁ &&& 1 ≠ 0 ∧ ((r₂ &&& 2 ≠ 0 ∧ y = 0xfe) ∨ (r₂ &&& 2 = 0 ∧ y &&& 3 = 3)) := by
  obtain ⟨h₁, ⟨h₂, ⟨-, hy⟩ | ⟨hd, -⟩⟩ | ⟨h₂, -, hy⟩⟩ := mem_updateWrites.mp h
  · exact ⟨h₁, .inl ⟨h₂, hy⟩⟩
  · obtain ⟨e, he, hdst⟩ := List.mem_map.mp hd
    have hloop : Adj g x x := ⟨e, he, hdst⟩
    exact absurd rfl (hloop.ne hg)
  · exact ⟨h₁, .inr ⟨h₂, hy ▸ or_three_bits r₃⟩⟩

/-- A node whose first read sees bit 0 writes itself. -/
theorem own_write_exists {v : ℕ} {r₁ r₂ r₃ : UInt8} (h₁ : r₁ &&& 1 ≠ 0) :
    ∃ y, (v, y) ∈ updateWrites g v r₁ r₂ r₃ := by
  by_cases h₂ : r₂ &&& 2 = 0
  · exact ⟨r₃ ||| 3, mem_updateWrites.mpr ⟨h₁, .inr ⟨h₂, rfl, rfl⟩⟩⟩
  · exact ⟨0xfe, mem_updateWrites.mpr ⟨h₁, .inl ⟨h₂, .inl ⟨rfl, rfl⟩⟩⟩⟩

include hrd hl in
/-- **A node out of the set stays out.** -/
theorem update_zero {x : ℕ} (hx : x < size g) (hx₂ : m₂ x = 0x00) : m₃ x = 0x00 := by
  rcases hl x with hmem | ⟨heq, -⟩
  · rcases update_write_cases hrd hmem with hown | ⟨hy, -⟩
    · -- its first read saw `0x00`, as it was or from a neighbour, and it does not write itself
      have h₁ := (mem_updateWrites.mp hown).1
      rcases sees_update hrd hx List.mem_cons_self with h | ⟨-, -, -, -, h⟩
      · exact absurd (h ▸ hx₂ ▸ decided_zero) h₁
      · exact absurd (h ▸ decided_zero) h₁
    · exact hy
  · exact heq.trans hx₂

include hrd hl in
/-- A node at `0xfe` after `match_update` was in the set or a temporary yes. -/
theorem update_eq_fe (hg : SymmetricGraph g) {x : ℕ} (hx : x < size g) (hx₃ : m₃ x = 0xfe) :
    m₂ x = 0xfe ∨ TempYes m₂ x := by
  rcases hl x with hmem | ⟨heq, -⟩
  · rw [hx₃] at hmem
    rcases update_write_cases hrd hmem with hown | ⟨hy, -⟩
    · obtain ⟨h₁, ⟨h₂, -⟩ | ⟨-, hy⟩⟩ := own_write hg hown
      · exact .inr (tempYes_of_branch hrd hx h₁ h₂)
      · exact absurd hy (by decide)
    · exact absurd hy (by decide)
  · exact .inl (heq.symm.trans hx₃)

include hrd hl in
/-- A node at `0x00` after `match_update` was out already or has a temporary yes next to it. -/
theorem update_eq_zero (hg : SymmetricGraph g) {x : ℕ} (hx₃ : m₃ x = 0x00) :
    m₂ x = 0x00 ∨ ∃ u, Adj g u x ∧ TempYes m₂ u := by
  rcases hl x with hmem | ⟨heq, -⟩
  · rw [hx₃] at hmem
    rcases update_write_cases hrd hmem with hown | ⟨-, hu⟩
    · obtain ⟨-, ⟨-, hy⟩ | ⟨-, hy⟩⟩ := own_write hg hown
      · exact absurd hy (by decide)
      · exact absurd hy (by decide)
    · exact .inr hu
  · exact .inl (heq.symm.trans hx₃)

include hrd hl in
/-- **Every flag after `match_update`** is `0xfe`, `0x00`, or undecided with bits 0 and 1 set,
when it was `0xfe`, `0x00` or undecided before. -/
theorem update_flag (hg : SymmetricGraph g) {x : ℕ} (hx : x < size g)
    (hflag : m₂ x = 0xfe ∨ m₂ x = 0x00 ∨ m₂ x &&& 1 ≠ 0) :
    m₃ x = 0xfe ∨ m₃ x = 0x00 ∨ m₃ x &&& 3 = 3 := by
  rcases hl x with hmem | ⟨heq, hnone⟩
  · rcases update_write_cases hrd hmem with hown | ⟨hy, -⟩
    · obtain ⟨-, ⟨-, hy⟩ | ⟨-, hy⟩⟩ := own_write hg hown
      · exact .inl hy
      · exact .inr (.inr hy)
    · exact .inr (.inl hy)
  · -- nothing wrote it, so it read itself decided
    have hr₁ : (rd x).1 = m₂ x := by
      refine (hrd x hx _ List.mem_cons_self).resolve_right fun hw => ?_
      obtain ⟨u, hu, hw⟩ := mem_writesOf.mp hw
      exact hnone _ (mem_writesOf.mpr ⟨u, (List.mem_filter.mp hu).1, hw⟩)
    have hdec : m₂ x &&& 1 = 0 := by
      by_contra h₁
      have hown : ∃ y, (x, y) ∈ updateWrites g x (rd x).1 (rd x).2.1 (rd x).2.2 :=
        own_write_exists (hr₁ ▸ h₁)
      obtain ⟨y, hy⟩ := hown
      exact hnone y (mem_writesOf.mpr ⟨x, List.mem_range.mpr hx, hy⟩)
    rw [heq]
    rcases hflag with h | h | h
    · exact .inl h
    · exact .inr (.inl h)
    · exact absurd hdec h

section Separated

/-! The temporary yeses are independent and have no neighbour in the set: what `execute` and
`match_reduce` leave (`Inv.round`). -/

variable (hT : ∀ u v, Adj g u v → TempYes m₂ u → ¬ TempYes m₂ v)
  (hTfe : ∀ u v, Adj g u v → TempYes m₂ u → m₂ v ≠ 0xfe)

include hrd in
/-- A node with no temporary yes next to it reads itself as it was. -/
theorem own_reads {x : ℕ} (hx : x < size g) (hno : ∀ u, Adj g u x → ¬ TempYes m₂ u) {r : UInt8}
    (hr : r ∈ [(rd x).1, (rd x).2.1, (rd x).2.2]) : r = m₂ x :=
  (sees_update hrd hx hr).resolve_right fun ⟨u, hux, h₁, h₂, _⟩ =>
    hno u hux (tempYes_of_branch hrd (hux.lt_size) h₁ h₂)

include hrd hl hT in
/-- **A temporary yes joins the set.** -/
theorem update_tempYes {x : ℕ} (hx : x < size g) (hyes : TempYes m₂ x) : m₃ x = 0xfe := by
  have hno : ∀ u, Adj g u x → ¬ TempYes m₂ u := fun u hux hu => hT u x hux hu hyes
  have h₁ : (rd x).1 &&& 1 ≠ 0 := by
    rw [own_reads hrd hx hno List.mem_cons_self]
    exact hyes.1
  have h₂ : (rd x).2.1 &&& 2 ≠ 0 := by
    rw [own_reads hrd hx hno (List.mem_cons_of_mem _ List.mem_cons_self)]
    exact hyes.2
  refine hl.eq_of_mem_iff fun y => ⟨fun hy => ?_, ?_⟩
  · rcases update_write_cases hrd hy with hown | ⟨-, u, hux, hu⟩
    · obtain ⟨-, ⟨-, hfe⟩ | ⟨h₂', -, -⟩⟩ := mem_updateWrites.mp hown
      · rcases hfe with ⟨-, hfe⟩ | ⟨hd, -⟩
        · exact hfe
        · obtain ⟨e, he, hdst⟩ := List.mem_map.mp hd
          exact absurd hyes (hno x ⟨e, he, hdst⟩)
      · exact absurd h₂' h₂
    · exact absurd hu (hno u hux)
  · rintro rfl
    exact mem_writesOf.mpr ⟨x, List.mem_range.mpr hx, mem_updateWrites.mpr ⟨h₁, .inl ⟨h₂, .inl ⟨rfl, rfl⟩⟩⟩⟩

include hrd hl hTfe in
/-- **A node in the set stays in it**: nothing writes it. -/
theorem update_fe {x : ℕ} (hx : x < size g) (hx₂ : m₂ x = 0xfe) : m₃ x = 0xfe := by
  have hno : ∀ u, Adj g u x → ¬ TempYes m₂ u := fun u hux hu => hTfe u x hux hu hx₂
  refine (hl.eq_of_not_mem fun y hy => ?_).trans hx₂
  rcases update_write_cases hrd hy with hown | ⟨-, u, hux, hu⟩
  · have h₁ := (mem_updateWrites.mp hown).1
    rw [own_reads hrd hx hno List.mem_cons_self, hx₂] at h₁
    exact h₁ decided_fe
  · exact hno u hux hu

end Separated

end Update

/-! ## 7. One round -/

/-- What every round keeps: each node is in the set (`0xfe`), out of it (`0x00`) or undecided
with bits 0 and 1 set; the set is independent; and each node out of it has a neighbour in it. -/
structure Inv (g : Graph) (m : ℕ → UInt8) : Prop where
  flag : ∀ v < size g, m v = 0xfe ∨ m v = 0x00 ∨ m v &&& 3 = 3
  independent : ∀ u v, Adj g u v → m u = 0xfe → m v ≠ 0xfe
  covered : ∀ v < size g, m v = 0x00 → ∃ u, Adj g v u ∧ m u = 0xfe

/-- Initial flags with bits 0 and 1 set: nothing decided yet. -/
theorem inv_init {m₀ : ℕ → UInt8} (h₀ : ∀ v < size g, m₀ v &&& 3 = 3) : Inv g m₀ where
  flag v hv := .inr (.inr (h₀ v hv))
  independent u _ huv hu := absurd (hu ▸ decided_fe) (bits_of_and_three (h₀ u huv.lt_size)).1
  covered v hv h := absurd (h ▸ decided_zero) (bits_of_and_three (h₀ v hv)).1

section Round

variable {m₂ : ℕ → UInt8} {tf tf₁ : ℕ → Bool}
  (hok : ∀ i < numTiles g, TileReadsOk g m obs i) (hl : Lands m (tileWrites g obs) m₁)
  (htf : ∀ i < numTiles g, tf₁ i = (out g obs i).2.1.getD (tf i)) (hred : Reduce g tf₁ m₁ m₂)

include hred in
theorem reduce_bit0 (x : ℕ) : m₂ x &&& 1 = m₁ x &&& 1 := by
  rw [reduce_eq hred x]
  split_ifs
  · exact and_fd_bit0 _
  · rfl

include hred in
theorem reduce_of_decided {x : ℕ} (hx : m₁ x &&& 1 = 0) : m₂ x = m₁ x := by
  rw [reduce_eq hred x, if_neg fun h => h.1 hx]

include hred in
/-- A temporary yes after `match_reduce` kept its flag, and every tile of it set `tile.flag`. -/
theorem reduce_tempYes {x : ℕ} (hx : TempYes m₂ x) :
    m₂ x = m₁ x ∧ ∀ i < numTiles g, (tile g i).src = x → tf₁ i = true := by
  have hc : ¬ (m₁ x &&& 1 ≠ 0 ∧ ∃ i < numTiles g, (tile g i).src = x ∧ tf₁ i = false) := by
    intro hc
    have h₂ := hx.2
    rw [reduce_eq hred x, if_pos hc, and_fd_bit1] at h₂
    exact h₂ rfl
  have hkeep : m₂ x = m₁ x := by rw [reduce_eq hred x, if_neg hc]
  refine ⟨hkeep, fun i hi hsrc => ?_⟩
  have h₁ : m₁ x &&& 1 ≠ 0 := hkeep ▸ hx.1
  by_contra htf
  exact hc ⟨h₁, i, hi, hsrc, by simpa using htf⟩

include hred in
/-- `execute` wrote none of the temporary yeses. -/
theorem tempYes_no_write (hl : Lands m (tileWrites g obs) m₁) {x : ℕ} (hx : TempYes m₂ x) :
    ∀ y, (x, y) ∉ tileWrites g obs := by
  have hkeep := (reduce_tempYes hred hx).1
  exact no_write_of_ne_zero hl fun h => hx.1 (by rw [hkeep, h, decided_zero])

include hok hl hred in
/-- **The set is what it was** after `execute` and `match_reduce`. -/
theorem round_fe_iff (x : ℕ) : m₂ x = 0xfe ↔ m x = 0xfe := by
  constructor
  · intro hx
    have h₁ : m₁ x &&& 1 = 0 := by rw [← reduce_bit0 hred x, hx, decided_fe]
    have hx₁ : m₁ x = 0xfe := (reduce_of_decided hred h₁).symm.trans hx
    rcases exec_eq_or_zero hl x with h | h
    · exact h.symm.trans hx₁
    · exact absurd (h.symm.trans hx₁) (by decide)
  · intro hx
    have h₀ : m x &&& 1 = 0 := hx ▸ decided_fe
    have hx₁ : m₁ x = m x := exec_of_decided hok hl h₀
    rw [reduce_of_decided hred (hx₁ ▸ h₀), hx₁, hx]

include hok hl hred in
/-- A node at `0x00` after `match_reduce` has a neighbour in the set before the round. -/
theorem round_covered (hg : SymmetricGraph g) (h : Inv g m) {x : ℕ} (hx : x < size g)
    (hx₂ : m₂ x = 0x00) : ∃ u, Adj g x u ∧ m u = 0xfe := by
  have h₁ : m₁ x &&& 1 = 0 := by rw [← reduce_bit0 hred x, hx₂, decided_zero]
  have hx₁ : m₁ x = 0x00 := (reduce_of_decided hred h₁).symm.trans hx₂
  by_cases h₀ : m x &&& 1 = 0
  · exact h.covered x hx ((exec_of_decided hok hl h₀).symm.trans hx₁)
  · exact exec_zero hok hl hg h₀ hx₁

include hl hred in
/-- After `match_reduce` a flag is `0xfe`, `0x00` or undecided. -/
theorem round_flag (h : Inv g m) {x : ℕ} (hx : x < size g) :
    m₂ x = 0xfe ∨ m₂ x = 0x00 ∨ m₂ x &&& 1 ≠ 0 := by
  by_cases hb : m₂ x &&& 1 = 0
  · have h₁ : m₁ x &&& 1 = 0 := by rw [← reduce_bit0 hred x, hb]
    rw [reduce_of_decided hred h₁]
    rcases exec_eq_or_zero hl x with he | he
    · rw [he] at h₁ ⊢
      rcases h.flag x hx with hfe | hz | h3
      · exact .inl hfe
      · exact .inr (.inl hz)
      · exact absurd h₁ (bits_of_and_three h3).1
    · exact .inr (.inl he)
  · exact .inr (.inr hb)

include hok hl htf hred in
/-- **A temporary yes beat each neighbour that `execute` did not write**, and none of them was
in the set: every tile of it passed every edge, reading the neighbour as it was. -/
theorem tempYes_read {u v : ℕ} (hu : TempYes m₂ u) (huv : Adj g u v)
    (hv : ∀ y, (v, y) ∉ tileWrites g obs) : m v ≠ 0xfe ∧ (m v < m u ∨ (m v = m u ∧ v < u)) := by
  obtain ⟨hkeep, hall⟩ := reduce_tempYes hred hu
  obtain ⟨i, hi, hsrc, hvi⟩ := exists_tile huv
  have hx : m₁ (tile g i).src &&& 1 ≠ 0 := by
    rw [hsrc, ← hkeep]
    exact hu.1
  obtain ⟨-, ⟨-, hpass⟩ | ⟨hfalse, -⟩⟩ := exec_tile hok hl htf hi hx
  · obtain ⟨r, hr, rfl⟩ := exists_tileRead (hok i hi) hvi
    have hreads := (hok i hi).2.2 r hr
    obtain ⟨hfe, hbeat⟩ := hpass r hr
    rw [sees_of_no_write hreads.1 hv] at hfe
    rw [sees_of_no_write hreads.2.2.1 hv, sees_of_no_write hreads.2.2.2.2 hv, hsrc] at hbeat
    exact ⟨hfe, hbeat⟩
  · exact absurd (hfalse.symm.trans (hall i hi hsrc)) Bool.false_ne_true

include hok hl htf hred in
/-- **The temporary yeses are independent**: each would have beaten the other. -/
theorem tempYes_independent (hg : SymmetricGraph g) :
    ∀ u v, Adj g u v → TempYes m₂ u → ¬ TempYes m₂ v := by
  intro u v huv hu hv
  have huv' := tempYes_read hok hl htf hred hu huv (tempYes_no_write hred hl hv)
  have hvu' := tempYes_read hok hl htf hred hv (huv.symm hg) (tempYes_no_write hred hl hu)
  exact beats_asymm huv'.2 hvu'.2

include hok hl htf hred in
/-- **No temporary yes is next to the set.** -/
theorem tempYes_not_fe : ∀ u v, Adj g u v → TempYes m₂ u → m₂ v ≠ 0xfe := by
  intro u v huv hu hv
  have hv₀ : m v = 0xfe := (round_fe_iff hok hl hred v).mp hv
  exact (tempYes_read hok hl htf hred hu huv (no_write_of_decided hok (hv₀ ▸ decided_fe))).1 hv₀

include hok hl htf hred in
/-- In a round that sets no `unmatched`, a node still undecided after `match_reduce` is a
temporary yes: each of its tiles beat every destination. -/
theorem tempYes_of_undecided (h : Inv g m) (hnone : ∀ i < numTiles g, (out g obs i).2.2 = false)
    {x : ℕ} (hx : x < size g) (hx₂ : m₂ x &&& 1 ≠ 0) : TempYes m₂ x := by
  have hx₁ : m₁ x &&& 1 ≠ 0 := by rwa [← reduce_bit0 hred x]
  have hkeep : m₂ x = m₁ x := by
    rw [reduce_eq hred x, if_neg]
    rintro ⟨-, i, hi, rfl, hfalse⟩
    obtain ⟨-, ⟨htrue, -⟩ | ⟨-, hset⟩⟩ := exec_tile hok hl htf hi hx₁
    · exact Bool.false_ne_true (hfalse.symm.trans htrue)
    · exact Bool.false_ne_true ((hnone i hi).symm.trans hset)
  have hm : m₁ x = m x :=
    (exec_eq_or_zero hl x).resolve_right fun h0 => hx₁ (by rw [h0, decided_zero])
  have h3 : m x &&& 3 = 3 := by
    rcases h.flag x hx with hfe | hz | h3
    · exact absurd (by rw [hm, hfe, decided_fe]) hx₁
    · exact absurd (by rw [hm, hz, decided_zero]) hx₁
    · exact h3
  unfold TempYes
  rw [hkeep, hm]
  exact bits_of_and_three h3

end Round

/-- **One round keeps the invariant**, and a round that sets no `unmatched` leaves every node
decided. -/
theorem Inv.round (hg : SymmetricGraph g) {m m' : ℕ → UInt8} {tf tf' : ℕ → Bool}
    {unmatched : Bool} (h : Inv g m) (hr : Round g m m' tf tf' unmatched) :
    Inv g m' ∧ (unmatched = false → ∀ v < size g, m' v = 0xfe ∨ m' v = 0x00) := by
  obtain ⟨m₁, m₂, ⟨obs, hok, hl, htf, hb⟩, hred, rd, hrd, hl₃⟩ := hr
  have hT := tempYes_independent hok hl htf hred hg
  have hTfe := tempYes_not_fe hok hl htf hred
  have hfe : ∀ x < size g, m x = 0xfe → m' x = 0xfe := fun x hx hx₀ =>
    update_fe hrd hl₃ hTfe hx ((round_fe_iff hok hl hred x).mpr hx₀)
  refine ⟨⟨fun v hv => update_flag hrd hl₃ hg hv (round_flag hl hred h hv), ?_, ?_⟩, ?_⟩
  · -- two members of the new set: old members, temporary yeses, or one of each
    intro u v huv hu hv
    have hu₂ := update_eq_fe hrd hl₃ hg huv.lt_size hu
    have hv₂ := update_eq_fe hrd hl₃ hg (huv.lt_size' hg) hv
    rcases hu₂ with hu₂ | hu₂ <;> rcases hv₂ with hv₂ | hv₂
    · exact h.independent u v huv ((round_fe_iff hok hl hred u).mp hu₂)
        ((round_fe_iff hok hl hred v).mp hv₂)
    · exact hTfe v u (huv.symm hg) hv₂ hu₂
    · exact hTfe u v huv hu₂ hv₂
    · exact hT u v huv hu₂ hv₂
  · intro v hv hv₃
    rcases update_eq_zero hrd hl₃ hg hv₃ with hv₂ | ⟨u, huv, hu⟩
    · obtain ⟨u, hvu, hu⟩ := round_covered hok hl hred hg h hv hv₂
      exact ⟨u, hvu, hfe u (hvu.lt_size' hg) hu⟩
    · exact ⟨u, huv.symm hg, update_tempYes hrd hl₃ hT huv.lt_size hu⟩
  · rintro rfl v hv
    have hnone : ∀ i < numTiles g, (out g obs i).2.2 = false := by
      have := hb.symm
      simp only [List.any_eq_false, List.mem_range, Bool.not_eq_true] at this
      exact this
    rcases round_flag hl hred h hv with h₂ | h₂ | h₂
    · exact .inl (update_fe hrd hl₃ hTfe hv h₂)
    · exact .inr (update_zero hrd hl₃ hv h₂)
    · exact .inl (update_tempYes hrd hl₃ hT hv (tempYes_of_undecided hok hl htf hred h hnone hv h₂))

/-- The invariant holds through every run, and the last round leaves every node decided. -/
theorem Inv.runs (hg : SymmetricGraph g) {m₀ m : ℕ → UInt8} {tf₀ : ℕ → Bool} (h : Inv g m₀)
    (hr : Runs g m₀ tf₀ m) : Inv g m ∧ ∀ v < size g, m v = 0xfe ∨ m v = 0x00 := by
  induction hr with
  | last hx =>
    obtain ⟨hinv, hdec⟩ := h.round hg hx
    exact ⟨hinv, hdec rfl⟩
  | next hx _ ih => exact ih (h.round hg hx).1

/-! ## 8. The result -/

/-- **`edge-tiled prio`**: for every initial assignment of flag bytes with bits 0 and 1 set
(`init-prio` writes `(res + res) | 0x03`), any tile flags, and every interleaving of the three
phases, when the loop ends every node is decided and the `0xfe` nodes form a maximal
independent set. -/
theorem rounds_isMIS (hg : SymmetricGraph g) {m₀ m : ℕ → UInt8} {tf₀ : ℕ → Bool}
    (h₀ : ∀ v < size g, m₀ v &&& 3 = 3) (hr : Runs g m₀ tf₀ m) :
    (∀ v < size g, m v = 0xfe ∨ m v = 0x00) ∧
      IsMIS (Adj g) (· < size g) (fun v => m v = 0xfe) := by
  obtain ⟨h, hdec⟩ := (inv_init h₀).runs hg hr
  exact ⟨hdec, isMIS_of_covered hg h.independent h.covered hdec⟩

/-! ## 9. One interleaving -/

/-- The reads of `execute` when every read comes before every write: each flag as it was. -/
def serialObs (g : Graph) (m : ℕ → UInt8) (i : ℕ) : UInt8 × List TileRead :=
  (m (tile g i).src, (tileDsts g (tile g i)).map fun d =>
    ⟨d, m d, m (tile g i).src, m d, m (tile g i).src, m d⟩)

/-- The writes of `match_reduce` to `x` when every tile reads before any writes. -/
def serialReduce (g : Graph) (tf : ℕ → Bool) (m : ℕ → UInt8) (x : ℕ) : List UInt8 :=
  List.replicate ((List.range (numTiles g)).filter fun i =>
    (tile g i).src = x ∧ m (tile g i).src &&& 1 ≠ 0 ∧ tf i = false).length (m x &&& 0xfd)

/-- The round in which each phase makes all its reads before its writes, which land in list
order: the flags, the tile flags and `unmatched` after it. -/
def serialRound (g : Graph) (m : ℕ → UInt8) (tf : ℕ → Bool) :
    (ℕ → UInt8) × (ℕ → Bool) × Bool :=
  let obs := serialObs g m
  let m₁ := applyWrites m (tileWrites g obs)
  let tf₁ := fun i => (out g obs i).2.1.getD (tf i)
  let m₂ := fun x => (serialReduce g tf₁ m₁ x).getLastD (m₁ x)
  (applyWrites m₂ (writesOf g (fun v => (m₂ v, m₂ v, m₂ v)) (List.range (size g))), tf₁,
    (List.range (numTiles g)).any fun i => (out g obs i).2.2)

theorem serialObs_ok (m : ℕ → UInt8) (i : ℕ) : TileReadsOk g m (serialObs g m) i := by
  refine ⟨.inl rfl, ?_, fun r hr => ?_⟩
  · simp only [serialObs, List.map_map]
    exact List.map_id' _
  · obtain ⟨d, -, rfl⟩ := List.mem_map.mp hr
    exact ⟨.inl rfl, .inl rfl, .inl rfl, .inl rfl, .inl rfl⟩

/-- **A round can always run**: the phase-serial schedule is one of its interleavings. -/
theorem round_serial (m : ℕ → UInt8) (tf : ℕ → Bool) :
    Round g m (serialRound g m tf).1 tf (serialRound g m tf).2.1 (serialRound g m tf).2.2 := by
  let m₁ := applyWrites m (tileWrites g (serialObs g m))
  let m₂ := fun x => (serialReduce g (serialRound g m tf).2.1 m₁ x).getLastD (m₁ x)
  refine ⟨m₁, m₂, ?_, ?_, ?_⟩
  · exact ⟨serialObs g m, fun i _ => serialObs_ok m i, lands_applyWrites _ _, fun i _ => rfl, rfl⟩
  · -- each tile reads its source before any tile writes it
    exact ⟨fun i => m₁ (tile g i).src, serialReduce g _ m₁, fun i _ => .inl rfl,
      fun x => ⟨RMWChain.replicate _ _ _, List.length_replicate, rfl⟩⟩
  · -- a node's three reads of its own flag come before the phase's writes
    refine ⟨fun v => (m₂ v, m₂ v, m₂ v), fun v _ r hr => .inl ?_, lands_applyWrites _ _⟩
    simpa using hr

/-- On two neighbours at `0xff`, the phase-serial schedule ends after two rounds: in the first,
node `1` wins the tie on its id and joins the set, clearing node `0`. -/
theorem rounds_isMIS_pair :
    ∃ m, Runs pair (fun _ => 0xff) (fun _ => false) m ∧
      (∀ v < size pair, m v = 0xfe ∨ m v = 0x00) ∧
        IsMIS (Adj pair) (· < size pair) (fun v => m v = 0xfe) := by
  have r₁ := round_serial (g := pair) (fun _ => 0xff) (fun _ => false)
  have h₁ : (serialRound pair (fun _ => 0xff) (fun _ => false)).2.2 = true := by decide
  rw [h₁] at r₁
  have r₂ := round_serial (g := pair) (serialRound pair (fun _ => 0xff) (fun _ => false)).1
    (serialRound pair (fun _ => 0xff) (fun _ => false)).2.1
  have h₂ : (serialRound pair (serialRound pair (fun _ => 0xff) (fun _ => false)).1
    (serialRound pair (fun _ => 0xff) (fun _ => false)).2.1).2.2 = false := by decide
  rw [h₂] at r₂
  have hr := Runs.next r₁ (Runs.last r₂)
  exact ⟨_, hr, rounds_isMIS (by decide) (by decide) hr⟩

end Galois.Lonestar.IndependentSet.EdgeTiledPrioAlgo
