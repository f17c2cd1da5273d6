import Galois.Lonestar.SSSP.Serial
import Galois.Lonestar.SSSP.Topo

/-!
# `main` of SSSP.cpp: every algorithm returns the shortest-path distances

`main` sets every distance to `DIST_INFINITY` and the source's to `0`, and runs the algorithm
`-algo` names. The delta-step algorithms and `topo` run under every interleaving of their
operators; the serial ones with their worklists. What the delta shift changes is only the order
in which items are popped, which the machine of `deltaStepAlgo` leaves open, and
`deltaStepBarrier` is that machine with fewer orders.

* `Algo` -- the algorithms of `-algo`;
* `Returns g source stepShift numThreads algo d` -- the switch of `main`: the algorithm can
  return leaving the distances `d`;
* **`Returns.settled`** -- whatever the algorithm, those distances are settled;
* **`returns_eq_min`** -- so every node's distance is its shortest-path distance, capped at
  `DIST_INFINITY`;
* **`returns_deltaStep_of_serial`** -- what `serDelta` and `dijkstra` return, `deltaStep` can
  return too.
-/

namespace Galois.Lonestar.SSSP

open Cusp BFS_SSSP ShortestPaths

/-- `enum Algo` of SSSP.cpp. -/
inductive Algo
  | deltaTile
  | deltaStep
  | deltaStepBarrier
  | serDeltaTile
  | serDelta
  | dijkstraTile
  | dijkstra
  | topo
  | topoTile
  deriving DecidableEq, Repr

/-- `EDGE_TILE_SIZE` of SSSP.cpp, the tile size of `BFS_SSSP`. -/
def EDGE_TILE_SIZE : ℕ := 512

/-- The switch of `main` on `algo`, after `graph.getData(source) = 0`: the algorithm can return
leaving the distances `d`. A serial loop returns within some number of passes, and `dijkstra`
pops with some `MinHeap`. -/
def Returns (g : Graph) (source stepShift numThreads : ℕ) : Algo → (ℕ → ℕ) → Prop
  | .deltaTile, d => deltaStepAlgo (tileScheme g EDGE_TILE_SIZE numThreads) g source d
  | .deltaStep, d => deltaStepAlgo (reqScheme g) g source d
  | .deltaStepBarrier, d => deltaStepAlgo (reqScheme g) g source d
  | .serDeltaTile, d => ∃ fuel,
      serDeltaAlgo (tileScheme g EDGE_TILE_SIZE numThreads) g source stepShift fuel = some d
  | .serDelta, d => ∃ fuel, serDeltaAlgo (reqScheme g) g source stepShift fuel = some d
  | .dijkstraTile, d => ∃ (heap : HeapPop SrcEdgeTile) (fuel : ℕ),
      dijkstraAlgo (tileScheme g EDGE_TILE_SIZE numThreads) g heap source fuel = some d
  | .dijkstra, d => ∃ (heap : HeapPop UpdateRequest) (fuel : ℕ),
      dijkstraAlgo (reqScheme g) g heap source fuel = some d
  | .topo, d => topoAlgo g source d
  | .topoTile, d => topoTileAlgo g source d

variable {g : Graph} {source stepShift numThreads : ℕ} {d : ℕ → ℕ}

/-- **Whatever the algorithm, the distances it returns are settled**: the two push schemes are
lawful, so each case is the settled theorem of its module. -/
theorem Returns.settled (hw : ∀ w ∈ g.edgeData, w ≤ 2 ^ 31) (hT : 0 < numThreads)
    {algo : Algo} (h : Returns g source stepShift numThreads algo d) :
    Settled (Adj g) source DIST_INFINITY d := by
  have hreq := reqScheme_lawful g
  have htile := tileScheme_lawful g EDGE_TILE_SIZE hT
  cases algo with
  | deltaTile => exact deltaStepAlgo_settled htile hw h
  | deltaStep => exact deltaStepAlgo_settled hreq hw h
  | deltaStepBarrier => exact deltaStepAlgo_settled hreq hw h
  | serDeltaTile =>
    obtain ⟨fuel, h⟩ := h
    exact serDeltaAlgo_settled htile hw h
  | serDelta =>
    obtain ⟨fuel, h⟩ := h
    exact serDeltaAlgo_settled hreq hw h
  | dijkstraTile =>
    obtain ⟨heap, fuel, h⟩ := h
    exact dijkstraAlgo_settled heap htile hw h
  | dijkstra =>
    obtain ⟨heap, fuel, h⟩ := h
    exact dijkstraAlgo_settled heap hreq hw h
  | topo => exact topoAlgo_settled hw h
  | topoTile => exact topoTileAlgo_settled hw h

/-- **Every algorithm returns the shortest-path distances**: with weights at most `2 ^ 31`, each
node's distance is its shortest-path distance from the source, capped at `DIST_INFINITY`, and
the source's is `0`. -/
theorem returns_eq_min (algo : Algo) (hw : ∀ w ∈ g.edgeData, w ≤ 2 ^ 31) (hT : 0 < numThreads)
    (h : Returns g source stepShift numThreads algo d) :
    d source = 0 ∧ ∀ v, (d v : ℕ∞) = min (dist (Adj g) source v) DIST_INFINITY := by
  have hs := h.settled hw hT
  exact ⟨hs.source, hs.eq_min⟩

/-- **`serDelta` and `dijkstra` return only what `deltaStep` can return**: each is one thread of
`deltaStepAlgo`'s machine from the same first push, whatever the delta shift or the heap. -/
theorem returns_deltaStep_of_serial (hw : ∀ w ∈ g.edgeData, w ≤ 2 ^ 31) {algo : Algo}
    (halgo : algo = .serDelta ∨ algo = .dijkstra)
    (h : Returns g source stepShift numThreads algo d) :
    Returns g source stepShift numThreads .deltaStep d := by
  have hreq := (reqScheme_lawful g).serial
  rcases halgo with rfl | rfl
  · obtain ⟨fuel, h⟩ := h
    exact serDeltaAlgo_run hreq hw h
  · obtain ⟨heap, fuel, h⟩ := h
    exact dijkstraAlgo_run heap hreq hw h

/-- The distances `serDelta` returns on one edge `0 → 1` of weight `5` are an end of
`deltaStep`. -/
theorem returns_deltaStep_of_serial_two_nodes :
    let g : Graph := ⟨[1, 1], [1], [5]⟩
    Returns g 0 13 1 .deltaStep ((serDeltaAlgo (reqScheme g) g 0 13 10).get (by decide)) :=
  returns_deltaStep_of_serial (by decide) (.inl rfl) ⟨10, (Option.some_get _).symm⟩

/-- One edge `0 → 1` of weight `5`: `serDelta` returns within ten passes, node `1` at `5`. -/
theorem returns_eq_min_two_nodes :
    let g : Graph := ⟨[1, 1], [1], [5]⟩
    let d := (serDeltaAlgo (reqScheme g) g 0 13 10).get (by decide)
    d 1 = 5 ∧ (d 1 : ℕ∞) = min (dist (Adj g) 0 1) DIST_INFINITY :=
  ⟨by decide, (returns_eq_min .serDelta (by decide) Nat.one_pos ⟨10, (Option.some_get _).symm⟩).2 1⟩

end Galois.Lonestar.SSSP
