import Mathlib.Data.Int.Basic
import Mathlib.Data.List.Sort
import Galois.UnionFind

/-!
# Boruvka's minimum spanning forest (Boruvka.cpp, `ParallelAlgo`)

Each component elects its lightest outgoing edge (`findLightest`, `Initialize`), the elected
edges merge their components and join the forest (`Merge`), and each source looks for its next
outgoing edge (`Find`). Edges heavier than `limit` are parked in `pending`; when a round finds
nothing more, `process` brings them back and doubles `limit`.

* `initializeGraph` -- sorts every node's edges, takes the heaviest weight, refuses `INT_MAX`
  and `INT_MIN`, and sets `inf` one above it;
* `findLightest`, `initializeOp`, `mergeOp`, `findOp` -- the operators `Initialize`, `Merge` and
  `Find`;
* `process` -- the rounds, with `limit *= 2` between them: `EdgeData` is an `int`, and a
  doubling past `INT_MAX` is undefined behaviour (`Outcome.limitOverflow`);
* **`process_limit_overflows`** -- two nodes joined by an edge of weight `2 ^ 31 - 2`: `Find`
  parks the edge in `pending` before it asks whether its ends are already merged, so the
  edge comes back after every round and `limit` doubles until it passes `INT_MAX`.

The operators run one after another in the order of their worklists, as one thread runs them;
the compare-and-swaps then succeed at their first try. A node is its id, a pointer to an edge
weight is the edge, as its source and its index among the source's edges, and `lightest =
none` is the pointer to `inf`.
-/

namespace Galois.Lonestar.Boruvka

open UnionFind

/-- `INT_MAX`. -/
def intMax : ℤ := 2 ^ 31 - 1

/-- `INT_MIN`. -/
def intMin : ℤ := -2 ^ 31

/-- `WorkItem`: the edge `src → dst`, the pointer to its weight, and `cur`, its index among the
edges of `src`. -/
structure WorkItem where
  src : ℕ
  dst : ℕ
  weight : ℕ × ℕ
  cur : ℕ
  deriving DecidableEq, Repr

/-- `Edge`: an edge of the forest, with the pointer to its weight. -/
structure Edge where
  src : ℕ
  dst : ℕ
  weight : ℕ × ℕ
  deriving DecidableEq, Repr

/-- The fields of `ParallelAlgo` and of its nodes that `process` uses: the union-find pointers,
each node's `lightest`, the three worklists, the forest and `limit`. -/
structure State where
  comp : List ℕ
  lightest : List (Option (ℕ × ℕ))
  current : List WorkItem
  next : List WorkItem
  pending : List WorkItem
  mst : List Edge
  limit : ℤ
  deriving DecidableEq, Repr

/-- How `process` ends: it returns, a doubling takes `limit` out of the range of `int`, or a
loop does not end within the fuel it was given. -/
inductive Outcome
  | returned (st : State)
  | limitOverflow (st : State)
  | diverges
  deriving DecidableEq, Repr

section Algo

-- the graph, as each node's edges with their destination and weight, and the value of `inf`
variable (g : List (List (ℕ × ℤ))) (inf : ℤ)

/-- The weight a pointer points to. -/
def weightOf (e : ℕ × ℕ) : ℤ :=
  ((g.getD e.1 []).getD e.2 (0, 0)).2

/-- `*lightest`: `inf` for the pointer to `inf`. -/
def valueOf : Option (ℕ × ℕ) → ℤ
  | none => inf
  | some e => weightOf g e

/-- The loop of `findLightest<useLimit>(src, cur)` over the edges of `src` from `cur` on: an edge
above `limit` is parked in `pending`; the first edge between two components is pushed to
`next`, and lowers its component's `lightest` when it is lighter. -/
def findLightestLoop (useLimit : Bool) (src : ℕ) :
    List (ℕ × ℤ) → ℕ → State → Option State
  | [], _, st => some st
  | (dst, weight) :: rest, cur, st =>
    if useLimit = true ∧ st.limit < weight then
      some { st with pending := st.pending ++ [⟨src, dst, (src, cur), cur⟩] }
    else do
      let (comp, rep) ← findAndCompress st.comp src
      let (comp, repDst) ← findAndCompress comp dst
      if rep ≠ repDst then
        let st := { st with comp := comp, next := st.next ++ [⟨src, dst, (src, cur), cur⟩] }
        -- the compare-and-swap loop `while (weight < *(old = rep->lightest))`
        if weight < valueOf g inf (st.lightest.getD rep none) then
          some { st with lightest := st.lightest.set rep (some (src, cur)) }
        else some st
      else findLightestLoop useLimit src rest (cur + 1) { st with comp := comp }

/-- `findLightest<useLimit>(self, src, cur, ctx, pending)`, with `next` as `ctx`. -/
def findLightest (useLimit : Bool) (st : State) (src cur : ℕ) : Option State :=
  findLightestLoop g inf useLimit src ((g.getD src []).drop cur) cur st

/-- `Initialize(src)`: `lightest` points to `inf`, then the first lightest edge, with no limit. -/
def initializeOp (st : State) (src : ℕ) : Option State :=
  findLightest g inf false { st with lightest := st.lightest.set src none } src 0

/-- `Merge(item)`: when the item's edge is still its component's lightest, the two ends merge,
the new representative's `lightest` goes back to `inf` and the edge joins the forest. -/
def mergeOp (st : State) (item : WorkItem) : Option State := do
  let (comp, rep) ← findAndCompress st.comp item.src
  let st := { st with comp := comp }
  if st.lightest.getD rep none = some item.weight then
    let (comp, merged) ← UnionFind.merge st.comp item.src item.dst
    let st := { st with comp := comp }
    match merged with
    | some rep => some { st with
        lightest := st.lightest.set rep none
        mst := st.mst ++ [⟨item.src, item.dst, item.weight⟩] }
    | none => some st
  else some st

/-- `Find(item)`: the next lightest edge from the item's position on, under `limit`. -/
def findOp (st : State) (item : WorkItem) : Option State :=
  findLightest g inf true st item.src item.cur

/-- The inner `while (true)` of `process`: swap `current` and `next`, `Merge` and `Find` over
`current`, clear it, and stop when `next` is empty. -/
def roundLoop : ℕ → State → Option State
  | 0, _ => none
  | fuel + 1, st => do
    let st := { st with current := st.next, next := st.current }
    let st ← st.current.foldlM mergeOp st
    let st ← st.current.foldlM (findOp g inf) st
    let st := { st with current := [] }
    if st.next.isEmpty then some st else roundLoop fuel st

/-- The outer `while (true)` of `process`: the rounds, then, while edges are pending, swap
`next` and `pending` and double `limit`. -/
def outerLoop : ℕ → State → Outcome
  | 0, _ => .diverges
  | fuel + 1, st =>
    match roundLoop g inf (fuel + 1) st with
    | none => .diverges
    | some st =>
      if st.pending.isEmpty then .returned st
      else
        let st := { st with next := st.pending, pending := st.next }
        -- `limit *= 2` on an `int`
        if intMax < 2 * st.limit ∨ 2 * st.limit < intMin then .limitOverflow st
        else outerLoop fuel { st with limit := 2 * st.limit }

end Algo

/-- `process()` on a graph whose heaviest edge weighs `heaviest`: `init()` sets `limit` to
`max(heaviest / 5, 1)`, `Initialize` runs over the nodes, then the rounds. -/
def process (g : List (List (ℕ × ℤ))) (heaviest : ℤ) (fuel : ℕ) : Outcome :=
  let inf := heaviest + 1
  let st : State :=
    { comp := List.range g.length
      lightest := List.replicate g.length none
      current := []
      next := []
      pending := []
      mst := []
      limit := max (heaviest.tdiv 5) 1 }
  match (List.range g.length).foldlM (initializeOp g inf) st with
  | none => .diverges
  | some st => outerLoop g inf fuel st

/-- `initializeGraph()` on a symmetric graph: `sortEdges` sorts every node's edges by weight (the
order of equal weights is `std::sort`'s to choose) and takes the heaviest weight, which must be
neither `INT_MAX` nor `INT_MIN`. -/
def initializeGraph (g : List (List (ℕ × ℤ))) : Option (List (List (ℕ × ℤ)) × ℤ) :=
  let sorted := g.map (List.insertionSort fun a b => a.2 ≤ b.2)
  let heaviest := sorted.foldl (fun h es => match es.getLast? with
    | some e => max h e.2
    | none => h) intMin
  if heaviest = intMax ∨ heaviest = intMin then none else some (sorted, heaviest)

/-- Two nodes joined by an edge of weight `2 ^ 31 - 2`, which `initializeGraph` accepts: whatever
the fuel, the first round merges the two nodes, and after it `Find` parks both directions of the
edge in `pending` as long as `limit` is below their weight. `limit` goes from `429496729` to
`858993458` and `1717986916`, and the next `limit *= 2` leaves `int`. -/
theorem process_limit_overflows (k : ℕ) :
    initializeGraph [[(1, 2147483646)], [(0, 2147483646)]] =
        some ([[(1, 2147483646)], [(0, 2147483646)]], 2147483646) ∧
      ∃ st, process [[(1, 2147483646)], [(0, 2147483646)]] 2147483646 (k + 3) =
          .limitOverflow st ∧ st.limit = 1717986916 ∧ intMax < 2 * st.limit := by
  refine ⟨by decide +kernel, ⟨{
      comp := [0, 0]
      lightest := [none, some (1, 0)]
      current := []
      next := [⟨0, 1, (0, 0), 0⟩, ⟨1, 0, (1, 0), 0⟩]
      pending := []
      mst := [⟨0, 1, (0, 0)⟩]
      limit := 1717986916 }, ?_, rfl, by decide⟩⟩
  -- the three passes of the outer loop unfold whatever `k` is
  rfl

end Galois.Lonestar.Boruvka
