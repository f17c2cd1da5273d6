import Galois.Lonestar.BFS.Sync

/-!
# `runAlgo` of bfs.cpp: every algorithm returns the hop distances

`main` sets every label to `DIST_INFINITY` and the source's to `0`, and `runAlgo<CONCURRENT>`
runs the algorithm `-algo` names, serial or parallel as `-exec` says. On a graph with fewer than
`DIST_INFINITY` nodes a reachable node is fewer than `DIST_INFINITY` hops away, so the settled
labels of every algorithm are the hop distances themselves.

* `Exec`, `Algo` -- the options `-exec` and `-algo`;
* `RunAlgo g source numThreads exec algo d` -- the switch of `runAlgo`: the algorithm can
  return leaving the labels `d`;
* **`RunAlgo.settled`** -- whatever the choice, the labels are settled;
* **`runAlgo_eq_hops`** -- each node's label is the number of edges of a shortest path from the
  source, or `DIST_INFINITY` when there is none.
-/

namespace Galois.Lonestar.BFS

open Cusp BFS_SSSP ShortestPaths

/-- `enum Exec` of bfs.cpp. -/
inductive Exec
  | SERIAL
  | PARALLEL
  deriving DecidableEq, Repr

/-- `enum Algo` of bfs.cpp. -/
inductive Algo
  | AsyncTile
  | Async
  | SyncTile
  | Sync
  deriving DecidableEq, Repr

/-- `EDGE_TILE_SIZE` of bfs.cpp, the tile size of `BFS_SSSP`. -/
def EDGE_TILE_SIZE : ℕ := 256

/-- The switch of `runAlgo<CONCURRENT>` on `algo`, with `CONCURRENT` from `-exec`: the algorithm
can return leaving the labels `d`. A serial loop returns within some number of items or
rounds. -/
def RunAlgo (g : Graph) (source numThreads : ℕ) : Exec → Algo → (ℕ → ℕ) → Prop
  | .PARALLEL, .AsyncTile, d => asyncAlgo (tileScheme g EDGE_TILE_SIZE numThreads) g source d
  | .PARALLEL, .Async, d => asyncAlgo (reqScheme g) g source d
  | .PARALLEL, .SyncTile, d => syncAlgo (edgeTileScheme g EDGE_TILE_SIZE numThreads) g source d
  | .PARALLEL, .Sync, d => syncAlgo (nodeScheme g) g source d
  | .SERIAL, .AsyncTile, d =>
    ∃ fuel, asyncSerial (tileScheme g EDGE_TILE_SIZE numThreads) g source fuel = some d
  | .SERIAL, .Async, d => ∃ fuel, asyncSerial (reqScheme g) g source fuel = some d
  | .SERIAL, .SyncTile, d =>
    ∃ fuel, syncSerial (edgeTileScheme g EDGE_TILE_SIZE numThreads) g source fuel = some d
  | .SERIAL, .Sync, d => ∃ fuel, syncSerial (nodeScheme g) g source fuel = some d

variable {g : Graph} {source numThreads : ℕ} {d : ℕ → ℕ}

/-- **Whatever the execution and the algorithm, the labels it returns are settled**: the push
schemes are lawful, so each case is the settled theorem of its module. -/
theorem RunAlgo.settled (hsize : g.edgeIndData.length < DIST_INFINITY) (hT : 0 < numThreads)
    {exec : Exec} {algo : Algo} (h : RunAlgo g source numThreads exec algo d) :
    Settled (Hop g) source DIST_INFINITY d := by
  have hreq := reqScheme_lawful g
  have htile := tileScheme_lawful g EDGE_TILE_SIZE hT
  have hnode := nodeScheme_lawful g
  have hetile := edgeTileScheme_lawful g EDGE_TILE_SIZE hT
  cases exec with
  | PARALLEL =>
    cases algo with
    | AsyncTile => exact asyncAlgo_settled htile h
    | Async => exact asyncAlgo_settled hreq h
    | SyncTile => exact syncAlgo_settled hetile hsize h
    | Sync => exact syncAlgo_settled hnode hsize h
  | SERIAL =>
    cases algo with
    | AsyncTile =>
      obtain ⟨fuel, h⟩ := h
      exact asyncSerial_settled htile.serial h
    | Async =>
      obtain ⟨fuel, h⟩ := h
      exact asyncSerial_settled hreq.serial h
    | SyncTile =>
      obtain ⟨fuel, h⟩ := h
      exact syncSerial_settled hsize hetile.serial h
    | Sync =>
      obtain ⟨fuel, h⟩ := h
      exact syncSerial_settled hsize hnode.serial h

/-- With fewer than `DIST_INFINITY` nodes, a reachable node is fewer than `DIST_INFINITY` hops
away: a shortest walk leaves each node with an edge at most once. -/
theorem dist_hop_lt (hsize : g.edgeIndData.length < DIST_INFINITY) {v : ℕ}
    (h : dist (Hop g) source v ≠ ⊤) : dist (Hop g) source v < DIST_INFINITY := by
  have hnodes : ∀ x y w, Hop g x y w → x ∈ Finset.range g.edgeIndData.length := by
    rintro x y w ⟨⟨e, he, -⟩, -⟩
    exact Finset.mem_range.mpr (lt_of_mem_edgeIds he)
  have hle := dist_le_card (fun _ _ _ => hop_unit) hnodes h
  rw [Finset.card_range] at hle
  exact lt_of_le_of_lt hle (by exact_mod_cast hsize)

/-- **Every algorithm returns the hop distances**: on a graph with fewer than `DIST_INFINITY`
nodes, each node's label is the number of edges of a shortest path from the source, and
`DIST_INFINITY` when the source does not reach it. -/
theorem runAlgo_eq_hops (exec : Exec) (algo : Algo) (hsize : g.edgeIndData.length < DIST_INFINITY)
    (hT : 0 < numThreads) (h : RunAlgo g source numThreads exec algo d) (v : ℕ) :
    (dist (Hop g) source v ≠ ⊤ → (d v : ℕ∞) = dist (Hop g) source v) ∧
      (dist (Hop g) source v = ⊤ → d v = DIST_INFINITY) := by
  have heq := (h.settled hsize hT).eq_min v
  refine ⟨fun hreach => ?_, fun hunreach => ?_⟩
  · rw [heq]
    exact min_eq_left (dist_hop_lt hsize hreach).le
  · rw [hunreach, min_eq_right le_top] at heq
    exact_mod_cast heq

/-- One edge `0 → 1`: the serial `Sync` returns within three rounds, node `1` one hop away. -/
theorem runAlgo_eq_hops_two_nodes :
    let g : Graph := ⟨[1, 1], [1], [()]⟩
    let d := (syncSerial (nodeScheme g) g 0 3).get (by decide)
    d 1 = 1 ∧ (dist (Hop g) 0 1 ≠ ⊤ → (d 1 : ℕ∞) = dist (Hop g) 0 1) ∧
      (dist (Hop g) 0 1 = ⊤ → d 1 = DIST_INFINITY) :=
  ⟨by decide, runAlgo_eq_hops .SERIAL .Sync (by decide) Nat.one_pos
    ⟨3, (Option.some_get _).symm⟩ 1⟩

end Galois.Lonestar.BFS
