import Galois.Cusp.EdgeLoading
import Galois.Gstl
import Mathlib.Data.Multiset.AddSub

/-!
# `BFS_SSSP` (Lonestar/BFS_SSSP.h)

What the BFS and SSSP programs share: the distance of an unreached node, the work items and how
an item is cut into edge tiles, the `pushWrap` and `edgeRange` functors the algorithms are
templated on, and the serial bucketed worklist of `serDeltaAlgo`.

* `DIST_INFINITY` -- `numeric_limits<uint32_t>::max() / 2 - 1 = 2 ^ 31 - 2`;
* `edgeIds`, `getEdgeDst`, `getEdgeData` -- the edges `graph.edges(n)` iterates and what an edge
  holds;
* `pushEdgeTiles`, `pushEdgeTilesParallel` -- the tiles of at most `EDGE_TILE_SIZE` edges a range
  is cut into, serially or by every thread on its `block_range`; both cover the range exactly
  (`flatMap_pushEdgeTiles`, `flatMap_pushEdgeTilesParallel`);
* `PushScheme`, `PushLaw` -- the template arguments `T`, `P`, `R` of an algorithm and what the
  algorithms rely on: the items `pushWrap(n, d)` makes carry `n` and `d` and their edge ranges
  are exactly the edges of `n`; `reqScheme` (`UpdateRequest`, `ReqPushWrap`, `OutEdgeRangeFn`)
  and `tileScheme` (`SrcEdgeTile`, `SrcEdgeTilePushWrap`, `TileRangeFn`) meet it
  (`reqScheme_lawful`, `tileScheme_lawful`);
* `SerialBucketWL` -- the buckets, the overflow bucket beyond `MAX_BUCKETS`, `goToNextBucket`
  and the pop of the current bucket's front; a push adds its item and a pop removes one
  (`contents_push`, `contents_popFront`).
-/

namespace Galois.Lonestar.BFS_SSSP

open Cusp

variable {E T : Type}

/-! ## 1. Distances and edges -/

/-- `DIST_INFINITY` of a 32-bit `Dist`: `std::numeric_limits<Dist>::max() / 2 - 1`. -/
def DIST_INFINITY : ℕ := (2 ^ 32 - 1) / 2 - 1

theorem DIST_INFINITY_eq : DIST_INFINITY = 2 ^ 31 - 2 := rfl

/-- The edge ids `graph.edges(n)` iterates: `[edge_begin(n), edge_end(n))`. -/
def edgeIds (g : CSRGraph E) (n : ℕ) : List ℕ :=
  List.range' (g.edge_begin n) (g.edge_end n - g.edge_begin n)

/-- `getEdgeDst(e)`. -/
def getEdgeDst (g : CSRGraph E) (e : ℕ) : ℕ := g.edgeDst.getD e 0

/-- `getEdgeData(e)`: an SSSP edge's weight. -/
def getEdgeData (g : CSRGraph ℕ) (e : ℕ) : ℕ := g.edgeData.getD e 0

/-- A node past the last one has no edges, so every node with an edge is a node of the graph. -/
theorem lt_of_mem_edgeIds {g : CSRGraph E} {n e : ℕ} (h : e ∈ edgeIds g n) :
    n < g.edgeIndData.length := by
  by_contra hn
  have hend : g.edge_end n = 0 := by
    simp [CSRGraph.edge_end, List.getD_eq_getElem?_getD, List.getElem?_eq_none (not_lt.mp hn)]
  rw [edgeIds, hend, Nat.zero_sub, List.range'_zero] at h
  exact List.not_mem_nil h

/-- Edge data of at most `bound` give edge weights of at most `bound`. -/
theorem getEdgeData_le {g : CSRGraph ℕ} {bound : ℕ} (hw : ∀ w ∈ g.edgeData, w ≤ bound)
    (e : ℕ) : getEdgeData g e ≤ bound := by
  rw [getEdgeData, List.getD_eq_getElem?_getD]
  cases h : g.edgeData[e]? with
  | none => exact Nat.zero_le bound
  | some w => exact hw w (List.mem_of_getElem? h)

/-! ## 2. Work items and edge tiles -/

/-- `UpdateRequest`: a node and the distance it was pushed with. -/
structure UpdateRequest where
  src : ℕ
  dist : ℕ
  deriving DecidableEq, Repr

/-- `SrcEdgeTile`: the edges `[beg, end)` of `src`, pushed with distance `dist`. -/
structure SrcEdgeTile where
  src : ℕ
  dist : ℕ
  beg : ℕ
  «end» : ℕ
  deriving DecidableEq, Repr

/-- The edge ids of a tile `[beg, end)`. -/
def tileRange (r : ℕ × ℕ) : List ℕ := List.range' r.1 (r.2 - r.1)

/-- The loop `for (; beg + EDGE_TILE_SIZE < end;)` of `pushEdgeTiles`: the full tiles from `beg`
on, and where the loop stopped. Each pass moves `beg` forward, so `end - beg` passes are
enough. -/
def fullTiles (tileSize stop : ℕ) : ℕ → ℕ → List (ℕ × ℕ) × ℕ
  | 0, beg => ([], beg)
  | fuel + 1, beg =>
    if beg + tileSize < stop then
      let r := fullTiles tileSize stop fuel (beg + tileSize)
      ((beg, beg + tileSize) :: r.1, r.2)
    else ([], beg)

/-- `pushEdgeTiles(wl, beg, end, f)`: full tiles while more than `EDGE_TILE_SIZE` edges are
left, then the rest as one tile, as `[beg, end)` ranges for `f` to make items of. -/
def pushEdgeTiles (tileSize beg stop : ℕ) : List (ℕ × ℕ) :=
  let r := if stop - beg > tileSize then fullTiles tileSize stop (stop - beg) beg else ([], beg)
  if stop - r.2 > 0 then r.1 ++ [(r.2, stop)] else r.1

/-- `pushEdgeTilesParallel(wl, graph, src, f)` on the range `[beg, end)` of `src`'s edges: a long
range is cut by every thread `tid` of `numThreads` on its `block_range`. -/
def pushEdgeTilesParallel (tileSize numThreads beg stop : ℕ) : List (ℕ × ℕ) :=
  if stop - beg > tileSize then
    (List.range numThreads).flatMap fun tid =>
      pushEdgeTiles tileSize (block_range beg stop tid numThreads).1
        (block_range beg stop tid numThreads).2
  else if stop - beg > 0 then [(beg, stop)] else []

theorem fullTiles_cover (tileSize stop : ℕ) :
    ∀ fuel beg, beg ≤ stop →
      ((fullTiles tileSize stop fuel beg).1.flatMap tileRange ++
          List.range' (fullTiles tileSize stop fuel beg).2
            (stop - (fullTiles tileSize stop fuel beg).2) =
        List.range' beg (stop - beg)) ∧
      (fullTiles tileSize stop fuel beg).2 ≤ stop
  | 0, beg, h => by simp [fullTiles, h]
  | fuel + 1, beg, h => by
    rw [fullTiles]
    split_ifs with hlt
    · obtain ⟨ih, hle⟩ := fullTiles_cover tileSize stop fuel (beg + tileSize) (by omega)
      refine ⟨?_, hle⟩
      rw [List.flatMap_cons, List.append_assoc, ih, tileRange, Nat.add_sub_cancel_left,
        List.range'_append_1]
      congr 1
      omega
    · simp [h]

/-- **The tiles of `pushEdgeTiles` cover `[beg, end)` exactly, in order.** -/
theorem flatMap_pushEdgeTiles (tileSize beg stop : ℕ) :
    (pushEdgeTiles tileSize beg stop).flatMap tileRange = List.range' beg (stop - beg) := by
  -- the tiles the loop cut, and the rest from where it stopped
  have hcut : ∀ r : List (ℕ × ℕ) × ℕ,
      r.1.flatMap tileRange ++ List.range' r.2 (stop - r.2) = List.range' beg (stop - beg) →
      (if stop - r.2 > 0 then r.1 ++ [(r.2, stop)] else r.1).flatMap tileRange =
        List.range' beg (stop - beg) := by
    intro r hr
    split_ifs with hpos
    · rw [List.flatMap_append, List.flatMap_singleton, tileRange]
      exact hr
    · rw [← hr, show stop - r.2 = 0 by omega, List.range'_zero, List.append_nil]
  apply hcut
  split_ifs with hlong
  · exact (fullTiles_cover tileSize stop _ beg (by omega)).1
  · simp

/-- **So do the tiles of `pushEdgeTilesParallel`**, whatever the number of threads. -/
theorem flatMap_pushEdgeTilesParallel (tileSize : ℕ) {numThreads : ℕ} (hT : 0 < numThreads)
    (beg stop : ℕ) :
    (pushEdgeTilesParallel tileSize numThreads beg stop).flatMap tileRange =
      List.range' beg (stop - beg) := by
  rw [pushEdgeTilesParallel]
  split_ifs with hlong hpos
  · rw [List.flatMap_assoc]
    simp only [flatMap_pushEdgeTiles]
    exact flatMap_blockOf (by omega) hT
  · simp [tileRange]
  · rw [List.flatMap_nil, show stop - beg = 0 by omega, List.range'_zero]

/-! ## 3. `pushWrap` and `edgeRange` -/

/-- The template arguments of an algorithm over work items `T`: the item's node and distance,
`pushWrap(cont, n, dist)` and its `"parallel"` overload (the items made for node `n` at distance
`dist`), and `edgeRange(item)` (the edge ids the item relaxes). -/
structure PushScheme (T : Type) where
  src : T → ℕ
  dist : T → ℕ
  pushWrap : ℕ → ℕ → List T
  pushWrapParallel : ℕ → ℕ → List T
  edgeRange : T → List ℕ

/-- What the algorithms need of a push: the items made for `n` at `d` carry `n` and `d`, their
edges are edges of `n`, and every edge of `n` is in one of them. -/
structure PushLaw (S : PushScheme T) (g : CSRGraph E) (push : ℕ → ℕ → List T) : Prop where
  src_eq : ∀ n d, ∀ t ∈ push n d, S.src t = n
  dist_eq : ∀ n d, ∀ t ∈ push n d, S.dist t = d
  range_sub : ∀ n d, ∀ t ∈ push n d, ∀ e ∈ S.edgeRange t, e ∈ edgeIds g n
  cover : ∀ n d, ∀ e ∈ edgeIds g n, ∃ t ∈ push n d, e ∈ S.edgeRange t

/-- Both pushes of a scheme obey `PushLaw`. -/
structure PushScheme.Lawful (S : PushScheme T) (g : CSRGraph E) : Prop where
  serial : PushLaw S g S.pushWrap
  parallel : PushLaw S g S.pushWrapParallel

/-- `ReqPushWrap` and `OutEdgeRangeFn`: one `UpdateRequest` per node, which relaxes all the
node's edges. -/
def reqScheme (g : CSRGraph E) : PushScheme UpdateRequest where
  src := UpdateRequest.src
  dist := UpdateRequest.dist
  pushWrap n dist := [⟨n, dist⟩]
  pushWrapParallel n dist := [⟨n, dist⟩]
  edgeRange req := edgeIds g req.src

/-- `SrcEdgeTilePushWrap` and `TileRangeFn`: the node's edges cut by `pushEdgeTiles` (by
`pushEdgeTilesParallel` over `numThreads` threads for the `"parallel"` overload), each tile made
by `SrcEdgeTileMaker{n, dist}`. -/
def tileScheme (g : CSRGraph E) (tileSize numThreads : ℕ) : PushScheme SrcEdgeTile where
  src := SrcEdgeTile.src
  dist := SrcEdgeTile.dist
  pushWrap n dist := (pushEdgeTiles tileSize (g.edge_begin n) (g.edge_end n)).map fun r =>
    ⟨n, dist, r.1, r.2⟩
  pushWrapParallel n dist :=
    (pushEdgeTilesParallel tileSize numThreads (g.edge_begin n) (g.edge_end n)).map fun r =>
      ⟨n, dist, r.1, r.2⟩
  edgeRange t := tileRange (t.beg, t.end)

theorem reqScheme_lawful (g : CSRGraph E) : (reqScheme g).Lawful g := by
  have h : PushLaw (reqScheme g) g (reqScheme g).pushWrap := by
    refine ⟨?_, ?_, ?_, ?_⟩ <;> intro n d
    · simp [reqScheme]
    · simp [reqScheme]
    · simp [reqScheme]
    · intro e he
      exact ⟨⟨n, d⟩, List.mem_singleton_self _, he⟩
  exact ⟨h, h⟩

/-- A push that cuts the node's edges into ranges covering them exactly obeys `PushLaw`. -/
theorem pushLaw_tiles {g : CSRGraph E} {tileSize numThreads : ℕ}
    {push : ℕ → ℕ → List SrcEdgeTile} (ranges : ℕ → List (ℕ × ℕ))
    (hpush : ∀ n d, push n d = (ranges n).map fun r => ⟨n, d, r.1, r.2⟩)
    (hranges : ∀ n, (ranges n).flatMap tileRange = edgeIds g n) :
    PushLaw (tileScheme g tileSize numThreads) g push := by
  refine ⟨?_, ?_, ?_, ?_⟩ <;> intro n d
  · intro t ht
    rw [hpush, List.mem_map] at ht
    obtain ⟨r, -, rfl⟩ := ht
    rfl
  · intro t ht
    rw [hpush, List.mem_map] at ht
    obtain ⟨r, -, rfl⟩ := ht
    rfl
  · intro t ht e he
    rw [hpush, List.mem_map] at ht
    obtain ⟨r, hr, rfl⟩ := ht
    rw [← hranges, List.mem_flatMap]
    exact ⟨r, hr, he⟩
  · intro e he
    rw [← hranges, List.mem_flatMap] at he
    obtain ⟨r, hr, he⟩ := he
    exact ⟨⟨n, d, r.1, r.2⟩, by rw [hpush]; exact List.mem_map_of_mem hr, he⟩

theorem tileScheme_lawful (g : CSRGraph E) (tileSize : ℕ) {numThreads : ℕ}
    (hT : 0 < numThreads) : (tileScheme g tileSize numThreads).Lawful g :=
  ⟨pushLaw_tiles _ (fun _ _ => rfl) fun _ => flatMap_pushEdgeTiles tileSize _ _,
    pushLaw_tiles _ (fun _ _ => rfl) fun _ => flatMap_pushEdgeTilesParallel tileSize hT _ _⟩

/-! ## 4. `SerialBucketWL` -/

/-- `MAX_BUCKETS`, the default of `SerialBucketWL`. -/
def MAX_BUCKETS : ℕ := 543210

/-- `SerialBucketWL<T, BucketFunc>`: `m_minBucket`, the deques `m_buckets` and the overflow
`m_lastBucket`. -/
structure SerialBucketWL (T : Type) where
  minBucket : ℕ
  buckets : List (List T)
  lastBucket : List T
  deriving DecidableEq, Repr

namespace SerialBucketWL

variable (func : T → ℕ)

/-- The worklist `SerialBucketWL(f)` starts as. -/
def init : SerialBucketWL T := ⟨0, [], []⟩

/-- `push(item)`: into bucket `func(item)`, growing the buckets up to it, or into the overflow
bucket from `MAX_BUCKETS` on. -/
def push (wl : SerialBucketWL T) (item : T) : SerialBucketWL T :=
  let b := func item
  if b < wl.buckets.length then { wl with buckets := wl.buckets.modify b (· ++ [item]) }
  else if MAX_BUCKETS ≤ b then { wl with lastBucket := wl.lastBucket ++ [item] }
  else
    { wl with
      buckets := (wl.buckets ++ List.replicate (b + 1 - wl.buckets.length) []).modify b
        (· ++ [item]) }

/-- The loop of `goToNextBucket()`: skip empty buckets; it moves `m_minBucket` up to the number
of buckets at most, so that many passes are enough. -/
def goToNextBucketLoop : ℕ → SerialBucketWL T → SerialBucketWL T
  | 0, wl => wl
  | fuel + 1, wl =>
    if wl.minBucket < wl.buckets.length ∧ (wl.buckets.getD wl.minBucket []).isEmpty then
      goToNextBucketLoop fuel { wl with minBucket := wl.minBucket + 1 }
    else wl

/-- `goToNextBucket()`. -/
def goToNextBucket (wl : SerialBucketWL T) : SerialBucketWL T :=
  goToNextBucketLoop wl.buckets.length wl

/-- Which deque `minBucket()` returns: bucket `m_minBucket`, or `none` for `m_lastBucket`. -/
def minBucketRef (wl : SerialBucketWL T) : Option ℕ :=
  if wl.minBucket < wl.buckets.length then some wl.minBucket else none

/-- `emptyImpl(start)`: the buckets from `start` on and the overflow bucket are empty. -/
def emptyFrom (wl : SerialBucketWL T) (start : ℕ) : Bool :=
  (wl.buckets.drop start).all List.isEmpty && wl.lastBucket.isEmpty

/-- `empty()`. -/
def empty (wl : SerialBucketWL T) : Bool := wl.emptyFrom wl.minBucket

/-- `allEmpty()`. -/
def allEmpty (wl : SerialBucketWL T) : Bool := wl.emptyFrom 0

/-- `curr.front()` and `curr.pop_front()` on the deque `minBucket()` returned. -/
def popFront (wl : SerialBucketWL T) : Option ℕ → Option (T × SerialBucketWL T)
  | some i =>
    match wl.buckets.getD i [] with
    | [] => none
    | item :: rest => some (item, { wl with buckets := wl.buckets.set i rest })
  | none =>
    match wl.lastBucket with
    | [] => none
    | item :: rest => some (item, { wl with lastBucket := rest })

/-- Every item the worklist holds. -/
def contents (wl : SerialBucketWL T) : List T := wl.buckets.flatten ++ wl.lastBucket

theorem flatten_modify_append {l : List (List T)} {i : ℕ} (hi : i < l.length) (x : T) :
    (l.modify i (· ++ [x])).flatten.Perm (x :: l.flatten) := by
  induction l generalizing i with
  | nil => exact absurd hi (Nat.not_lt_zero i)
  | cons b l ih =>
    cases i with
    | zero =>
      rw [List.modify_cons, if_pos rfl, List.flatten_cons, List.flatten_cons, List.append_assoc]
      exact List.perm_middle
    | succ i =>
      rw [List.modify_succ_cons, List.flatten_cons, List.flatten_cons]
      exact ((ih (by simpa using hi)).append_left b).trans List.perm_middle

theorem flatten_set_of_getD {l : List (List T)} {i : ℕ} {x : T} {rest : List T}
    (h : l.getD i [] = x :: rest) : l.flatten.Perm (x :: (l.set i rest).flatten) := by
  induction l generalizing i with
  | nil => simp at h
  | cons b l ih =>
    cases i with
    | zero =>
      rw [List.getD_cons_zero] at h
      subst h
      rfl
    | succ i =>
      rw [List.getD_cons_succ] at h
      rw [List.set_cons_succ, List.flatten_cons, List.flatten_cons]
      exact ((ih h).append_left b).trans List.perm_middle

/-- **A push adds its item.** -/
theorem contents_push (wl : SerialBucketWL T) (item : T) :
    (wl.push func item).contents.Perm (item :: wl.contents) := by
  simp only [push, contents]
  split_ifs with hlt hmax
  · exact (flatten_modify_append hlt item).append_right _
  · rw [← List.append_assoc]
    exact List.perm_append_singleton item _
  · have hgrow : func item < (wl.buckets ++ List.replicate (func item + 1 - wl.buckets.length)
        ([] : List T)).length := by
      simp only [List.length_append, List.length_replicate]
      omega
    have h := (flatten_modify_append hgrow item).append_right wl.lastBucket
    rwa [List.flatten_append, List.flatten_replicate_nil, List.append_nil] at h

theorem contents_goToNextBucketLoop :
    ∀ (fuel : ℕ) (wl : SerialBucketWL T), (goToNextBucketLoop fuel wl).contents = wl.contents
  | 0, _ => rfl
  | fuel + 1, wl => by
    rw [goToNextBucketLoop]
    split_ifs
    · exact contents_goToNextBucketLoop fuel _
    · rfl

theorem contents_goToNextBucket (wl : SerialBucketWL T) :
    wl.goToNextBucket.contents = wl.contents :=
  contents_goToNextBucketLoop _ wl

/-- **A pop removes the item it returns.** -/
theorem contents_popFront {wl wl' : SerialBucketWL T} {which : Option ℕ} {item : T}
    (h : wl.popFront which = some (item, wl')) : wl.contents.Perm (item :: wl'.contents) := by
  cases which with
  | none =>
    simp only [popFront] at h
    split at h
    · cases h
    · rename_i rest hlast
      cases h
      simp only [contents, hlast]
      exact List.perm_middle
  | some i =>
    simp only [popFront] at h
    split at h
    · cases h
    · rename_i rest hb
      cases h
      exact (flatten_set_of_getD hb).append_right _

/-- An all-empty worklist holds nothing. -/
theorem contents_of_allEmpty {wl : SerialBucketWL T} (h : wl.allEmpty = true) :
    wl.contents = [] := by
  simp only [allEmpty, emptyFrom, List.drop_zero, Bool.and_eq_true, List.all_eq_true,
    List.isEmpty_iff] at h
  simp only [contents, h.2, List.append_nil, List.flatten_eq_nil_iff]
  exact h.1

end SerialBucketWL

end Galois.Lonestar.BFS_SSSP
