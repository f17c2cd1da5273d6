import Galois.Lonestar.BFS.Async
import Galois.DynamicBitset

/-!
# `syncDOAlgo` of bfsDirectionOpt.cpp: the direction-optimizing BFS

`syncDOAlgo` labels every node it reaches with its parent on a BFS tree: it works layer by
layer, and for each layer chooses by `scout_count > edges_to_check / alpha` between

* a push phase: a loop over the items of `curr` that, for each edge to a node still at
  `DIST_INFINITY`, swaps the item in as the node's parent by a compare-and-swap and pushes the
  node into `next`; and
* a pull phase, a `do` loop that keeps pulling layer after layer while the layers grow (or stay
  above `numNodes / beta`): a loop over all nodes that gives a node still at `DIST_INFINITY` the
  first source of its in-edges that `front_bitset` holds, and sets its bit in `next_bitset`.

The graph is an `LC_CSR_CSC_Graph`, with in-edges beside the out-edges (`BiGraph`). The loops
run as `do_all` (or serially as `std::for_each`); the model takes each loop whole, with its tasks
in any order:

* in the pull loop, the task of `dst` writes only `dst`'s label and bit, and reads only them and
  `front_bitset`, so all orders give one result;
* in the push loop, an edge's read of `ddata` and its compare-and-swap act as one atomic
  test-and-set (the swap fails exactly when another task wrote first), and `next` and
  `work_items` are read only after the loop, so every interleaving is an order of the edges
  (`pushEdges`).

`work_items`, a `GAccumulator<uint32_t>`, counts modulo `2^32`; `edges_to_check` and
`scout_count` are `int64_t`, and `/` truncates. A division by a zero `alpha` or `beta` is
undefined: the machine does not step there.

* `pushEdge`, `pullNode`, `wlToBitset`, `bitsetToWl`, `Step`, `syncDOAlgo` -- the model;
* `foldl_pullNode_data`, `foldl_pullNode_nextBits`, `foldl_pushEdge` -- what the two loops
  leave, for every order;
* `LayerInv`, `Inv` -- after layer `L`, exactly the nodes at most `L` edges from the source are
  labelled, each other than the source by a parent one layer closer; the frontier is layer `L`,
  and `front_bitset` holds only labelled nodes;
* **`syncDOAlgo_bfs_tree`** -- whenever `syncDOAlgo` returns, on a graph of at most
  `DIST_INFINITY` nodes, every node reachable from the source, and no other, is labelled, the
  source with `0` and every other one with a parent one edge closer to the source.
-/

namespace Galois.Lonestar.BFS.DirectionOpt

open Cusp BFS_SSSP ShortestPaths

/-! ## 1. The graph -/

/-- `LC_CSR_CSC_Graph<unsigned, void>`: the out-edges `out` and the in-edges `inn`, each as the
arrays of an `LC_CSR_Graph`. -/
structure BiGraph where
  out : Graph
  inn : Graph

namespace BiGraph

/-- `size()`. -/
def size (G : BiGraph) : ℕ := G.out.edgeIndData.length

/-- `sizeEdges()`. -/
def sizeEdges (G : BiGraph) : ℕ := G.out.edgeDst.length

/-- `edge_end(n) - edge_begin(n)`: the out-degree of `n`. -/
def degree (G : BiGraph) (n : ℕ) : ℕ := G.out.edge_end n - G.out.edge_begin n

/-- The sources `getInEdgeDst(e)` of the edges `in_edges(dst)`, in order. -/
def inNeighbors (G : BiGraph) (dst : ℕ) : List ℕ := (edgeIds G.inn dst).map (getEdgeDst G.inn)

/-- What `readAndConstructBiGraphFromGRFile` builds: every destination is a node, and the
in-edges of `v` come from exactly the nodes with an out-edge to `v`. -/
structure WF (G : BiGraph) : Prop where
  dst_lt : ∀ u, ∀ e ∈ edgeIds G.out u, getEdgeDst G.out e < G.size
  mem_inNeighbors : ∀ u v, u ∈ G.inNeighbors v ↔ Hop G.out u v 1

end BiGraph

/-! ## 2. The loops -/

/-- What the push loop writes: the labels, the container `next` and `work_items`. -/
structure PushAcc where
  data : ℕ → ℕ
  next : List ℕ
  work : ℕ

/-- The edges `(src, e)` the push loop visits: every edge of every item of `curr`. -/
def pushEdges (G : BiGraph) (curr : List ℕ) : List (ℕ × ℕ) :=
  curr.flatMap fun src => (edgeIds G.out src).map (src, ·)

/-- The push loop on the edge `e` of `src`: a destination at `DIST_INFINITY` gets `src` by
`__sync_bool_compare_and_swap(&ddata, oldDist, src)`, then `next->push(dst)` and
`work_items += edge_end(dst) - edge_begin(dst)`. -/
def pushEdge (G : BiGraph) (acc : PushAcc) (edge : ℕ × ℕ) : PushAcc :=
  let dst := getEdgeDst G.out edge.2
  if acc.data dst = DIST_INFINITY then
    ⟨Function.update acc.data dst edge.1, acc.next ++ [dst], (acc.work + G.degree dst) % 2 ^ 32⟩
  else acc

/-- What the pull loop writes: the labels, `next_bitset` and `work_items`. -/
structure PullAcc where
  data : ℕ → ℕ
  nextBits : DynamicBitSet
  work : ℕ

/-- The pull loop on `dst`: at `DIST_INFINITY`, the first in-edge whose source `front_bitset`
holds gives `ddata = src`, `next_bitset.set(dst)` and `work_items += 1`, and ends the scan. -/
def pullNode (G : BiGraph) (front : DynamicBitSet) (acc : PullAcc) (dst : ℕ) : PullAcc :=
  if acc.data dst = DIST_INFINITY then
    match (G.inNeighbors dst).find? front.test with
    | some src => ⟨Function.update acc.data dst src, acc.nextBits.set dst, (acc.work + 1) % 2 ^ 32⟩
    | none => acc
  else acc

/-- `WlToBitset(wl, bitset)`: the bit of every item set. -/
def wlToBitset (wl : List ℕ) (bitset : DynamicBitSet) : DynamicBitSet :=
  wl.foldl DynamicBitSet.set bitset

/-- `BitsetToWl(graph, bitset, wl)`: after `wl.clear()`, the nodes whose bit is set. The
container's order matters to nothing: every loop over it is taken in any order. -/
def bitsetToWl (G : BiGraph) (bitset : DynamicBitSet) : List ℕ :=
  (List.range G.size).filter bitset.test

/-! ## 3. The machine -/

/-- Where `syncDOAlgo` is: at the test of `while (!next->empty())`, or at the top of the pull
phase's `do` body. -/
inductive Pc where
  | head
  | pull
  deriving DecidableEq, Repr

/-- The variables of `syncDOAlgo`: the labels (`graph.getData`), `front_bitset`,
`next_bitset`, `curr`, `next`, `work_items.reduce()`, `old_workItemNum`, `edges_to_check` and
`scout_count`. `nextLevel` is raised but never read. -/
structure State where
  data : ℕ → ℕ
  front : DynamicBitSet
  nextBits : DynamicBitSet
  curr : List ℕ
  next : List ℕ
  work : ℕ
  oldWorkItemNum : ℕ
  edgesToCheck : ℤ
  scoutCount : ℤ
  pc : Pc

/-- After the push loop left `acc`: `scout_count = work_items.reduce()`, with `curr` the old
`next` and `edges_to_check` lowered by the old `scout_count` before the loop. -/
def endPush (st : State) (acc : PushAcc) : State :=
  { st with data := acc.data, curr := st.next, next := acc.next, work := acc.work,
            edgesToCheck := st.edgesToCheck - st.scoutCount, scoutCount := acc.work }

/-- After the pull loop left `acc`: `std::swap(front_bitset, next_bitset);
next_bitset.reset();` and the test `work_items.reduce() >= old_workItemNum ||
work_items.reduce() > numNodes / beta` (`beta` converted to `uint64_t`), with `old_workItemNum`
the count before the pass; at the exit `BitsetToWl(graph, front_bitset, *next)` and
`scout_count = 1`. -/
def endPull (G : BiGraph) (beta : ℤ) (st : State) (acc : PullAcc) : State :=
  let st' : State :=
    { st with data := acc.data, front := acc.nextBits, nextBits := st.front.reset,
              oldWorkItemNum := st.work, work := acc.work }
  if st.work ≤ acc.work ∨ G.size / (beta % 2 ^ 64).toNat < acc.work then st'
  else { st' with next := bitsetToWl G acc.nextBits, scoutCount := 1, pc := .head }

/-- One pass of `syncDOAlgo`'s loops. -/
inductive Step (G : BiGraph) (alpha beta : ℤ) : State → State → Prop where
  /-- `std::swap(curr, next); next->clear();`, and `scout_count > edges_to_check / alpha`: the
  pull phase starts with `WlToBitset(*curr, front_bitset)` -/
  | pull (st : State) (hpc : st.pc = .head) (hne : st.next ≠ []) (halpha : alpha ≠ 0)
      (hdir : st.edgesToCheck.tdiv alpha < st.scoutCount) :
      Step G alpha beta st
        { st with curr := st.next, next := [], front := wlToBitset st.next st.front, pc := .pull }
  /-- a pass of the `do` loop: `old_workItemNum = work_items.reduce(); work_items.reset();`,
  the pull loop over the nodes in the order `order`, and the loop's test -/
  | pullPass (st : State) (hpc : st.pc = .pull) (hbeta : beta ≠ 0) (order : List ℕ)
      (hord : order.Perm (List.range G.size)) :
      Step G alpha beta st
        (endPull G beta st (order.foldl (pullNode G st.front) ⟨st.data, st.nextBits, 0⟩))
  /-- `std::swap(curr, next); next->clear();`, and the push phase: `edges_to_check -=
  scout_count; work_items.reset();` and the push loop over the edges in the order `order` -/
  | push (st : State) (hpc : st.pc = .head) (hne : st.next ≠ []) (halpha : alpha ≠ 0)
      (hdir : st.scoutCount ≤ st.edgesToCheck.tdiv alpha) (order : List (ℕ × ℕ))
      (hord : order.Perm (pushEdges G st.next)) :
      Step G alpha beta st (endPush st (order.foldl (pushEdge G) ⟨st.data, [], 0⟩))

/-- `galois::DynamicBitSet` as constructed, then `resize(graph.size())` and `reset()`. -/
def emptyBits (G : BiGraph) : DynamicBitSet := (DynamicBitSet.mk [] 0).resize G.size |>.reset

/-- The state `syncDOAlgo` enters its loop in, on the labels `main` set (`graph.getData(source)
= 0` writes the source's `0` again): `pushWrap(*next, source)` and `work_items += 1`,
`edges_to_check = graph.sizeEdges()` and `scout_count` the source's out-degree. -/
def init (G : BiGraph) (source : ℕ) : State where
  data := initDist source
  front := emptyBits G
  nextBits := emptyBits G
  curr := []
  next := [source]
  work := 1
  oldWorkItemNum := 0
  edgesToCheck := G.sizeEdges
  scoutCount := G.degree source
  pc := .head

/-- `syncDOAlgo<CONCURRENT>(graph, source, NodePushWrap(), ...)` can return leaving the labels
`d`: a run of its loops reaches the test of the `while` loop with `next` empty. -/
def syncDOAlgo (G : BiGraph) (source : ℕ) (alpha beta : ℤ) (d : ℕ → ℕ) : Prop :=
  ∃ st, Relation.ReflTransGen (Step G alpha beta) (init G source) st ∧ st.pc = .head ∧
    st.next = [] ∧ st.data = d

/-! ## 4. What the pull loop leaves -/

section Pull

variable (G : BiGraph) (front : DynamicBitSet)

/-- The source the pull loop gives `dst` on the labels `data`, if any. -/
def pulled (data : ℕ → ℕ) (dst : ℕ) : Option ℕ :=
  if data dst = DIST_INFINITY then (G.inNeighbors dst).find? front.test else none

/-- A task of the pull loop either leaves everything, or labels its node with the source
`pulled` finds, sets its bit and counts it. -/
theorem pullNode_cases (acc : PullAcc) (dst : ℕ) :
    (pulled G front acc.data dst = none ∧ pullNode G front acc dst = acc) ∨
      ∃ src, pulled G front acc.data dst = some src ∧
        pullNode G front acc dst =
          ⟨Function.update acc.data dst src, acc.nextBits.set dst, (acc.work + 1) % 2 ^ 32⟩ := by
  unfold pullNode pulled
  by_cases hinf : acc.data dst = DIST_INFINITY
  · rw [if_pos hinf, if_pos hinf]
    cases (G.inNeighbors dst).find? front.test with
    | none => exact .inl ⟨rfl, rfl⟩
    | some src => exact .inr ⟨src, rfl, rfl⟩
  · rw [if_neg hinf, if_neg hinf]
    exact .inl ⟨rfl, rfl⟩

/-- `pulled` reads only the label of its node. -/
theorem pulled_update {data : ℕ → ℕ} {x v : ℕ} (hvx : v ≠ x) (y : ℕ) :
    pulled G front (Function.update data x y) v = pulled G front data v := by
  simp only [pulled, Function.update_of_ne hvx]

/-- **The labels the pull loop leaves**: over a list of distinct nodes, each listed node gets
what `pulled` gives it on the labels before the loop. -/
theorem foldl_pullNode_data : ∀ (l : List ℕ) (acc : PullAcc), l.Nodup → ∀ v,
    (l.foldl (pullNode G front) acc).data v =
      if v ∈ l then (pulled G front acc.data v).getD (acc.data v) else acc.data v
  | [], acc, _, v => by simp
  | dst :: l, acc, hl, v => by
    obtain ⟨hdst, hl⟩ := List.nodup_cons.mp hl
    rw [List.foldl_cons, foldl_pullNode_data l _ hl v]
    rcases pullNode_cases G front acc dst with ⟨hp, he⟩ | ⟨src, hp, he⟩
    · rw [he]
      by_cases hv : v = dst
      · subst hv
        simp [hp, hdst]
      · simp [hv]
    · rw [he]
      by_cases hv : v = dst
      · subst hv
        simp [hp, hdst]
      · simp only [List.mem_cons, hv, false_or, pulled_update G front hv,
          Function.update_of_ne hv]

/-- **The bits the pull loop leaves**: `next_bitset` gains the listed nodes that `pulled`
labels. -/
theorem foldl_pullNode_nextBits {n : ℕ} : ∀ (l : List ℕ) (acc : PullAcc) {f : ℕ → Bool},
    l.Nodup → (∀ v ∈ l, v < n) → acc.nextBits.Holds n f →
      (l.foldl (pullNode G front) acc).nextBits.Holds n fun v =>
        f v || (decide (v ∈ l) && (pulled G front acc.data v).isSome)
  | [], acc, f, _, _, h => h.congr fun v _ => by simp
  | dst :: l, acc, f, hl, hlt, h => by
    obtain ⟨hdst, hl⟩ := List.nodup_cons.mp hl
    have hlt' : ∀ v ∈ l, v < n := fun v hv => hlt v (List.mem_cons_of_mem dst hv)
    rw [List.foldl_cons]
    rcases pullNode_cases G front acc dst with ⟨hp, he⟩ | ⟨src, hp, he⟩
    · rw [he]
      refine (foldl_pullNode_nextBits l acc hl hlt' h).congr fun v _ => ?_
      by_cases hv : v = dst
      · subst hv
        simp [hp, hdst]
      · simp [hv]
    · have h' := h.set (hlt dst List.mem_cons_self)
      rw [he]
      refine (foldl_pullNode_nextBits l _ hl hlt' h').congr fun v _ => ?_
      by_cases hv : v = dst
      · subst hv
        simp [hp, hdst]
      · simp [hv, beq_eq_false_iff_ne.mpr hv, pulled_update G front hv]

/-- **The count of the pull loop**: `work_items` adds one for each listed node that `pulled`
labels, modulo `2^32`. -/
theorem foldl_pullNode_work : ∀ (l : List ℕ) (acc : PullAcc), l.Nodup → acc.work < 2 ^ 32 →
    (l.foldl (pullNode G front) acc).work =
      (acc.work + l.countP fun v => (pulled G front acc.data v).isSome) % 2 ^ 32
  | [], acc, _, hw => by
    rw [List.foldl_nil, List.countP_nil, Nat.add_zero, Nat.mod_eq_of_lt hw]
  | dst :: l, acc, hl, hw => by
    obtain ⟨hdst, hl⟩ := List.nodup_cons.mp hl
    rw [List.foldl_cons, List.countP_cons]
    have hrest : ∀ acc' : PullAcc, (∀ v ∈ l, pulled G front acc'.data v =
        pulled G front acc.data v) → (l.countP fun v => (pulled G front acc'.data v).isSome) =
        l.countP fun v => (pulled G front acc.data v).isSome := fun acc' h =>
      List.countP_congr fun v hv => by rw [h v hv]
    rcases pullNode_cases G front acc dst with ⟨hp, he⟩ | ⟨src, hp, he⟩
    · rw [he, foldl_pullNode_work l acc hl hw, hp]
      rfl
    · rw [he, foldl_pullNode_work l _ hl (Nat.mod_lt _ (Nat.two_pow_pos 32)), hp,
        hrest _ fun v hv => pulled_update G front (by rintro rfl; exact hdst hv) src]
      simp only [Option.isSome_some, if_true, Nat.mod_add_mod]
      omega

/-- What `pulled` finds: a source of an in-edge that `front_bitset` holds, for a node at
`DIST_INFINITY`; it finds nothing only when no such source is there. -/
theorem pulled_eq_some_spec {data : ℕ → ℕ} {v src : ℕ} (h : pulled G front data v = some src) :
    data v = DIST_INFINITY ∧ src ∈ G.inNeighbors v ∧ front.test src = true := by
  unfold pulled at h
  split_ifs at h with hinf
  exact ⟨hinf, List.mem_of_find?_eq_some h, List.find?_some h⟩

theorem pulled_isSome_of_mem {data : ℕ → ℕ} {v src : ℕ} (hinf : data v = DIST_INFINITY)
    (hsrc : src ∈ G.inNeighbors v) (hf : front.test src = true) :
    (pulled G front data v).isSome := by
  rw [pulled, if_pos hinf, List.find?_isSome]
  exact ⟨src, hsrc, hf⟩

end Pull

/-! ## 5. What the push loop leaves -/

section Push

variable (G : BiGraph)

theorem mem_pushEdges {curr : List ℕ} {a : ℕ × ℕ} :
    a ∈ pushEdges G curr ↔ a.1 ∈ curr ∧ a.2 ∈ edgeIds G.out a.1 := by
  obtain ⟨u, e⟩ := a
  simp only [pushEdges, List.mem_flatMap, List.mem_map, Prod.mk.injEq]
  constructor
  · rintro ⟨src, hsrc, e', he', rfl, rfl⟩
    exact ⟨hsrc, he'⟩
  · rintro ⟨hu, he⟩
    exact ⟨u, hu, e, he, rfl, rfl⟩

/-- A task of the push loop either finds its destination labelled and leaves everything, or
labels it with its source, pushes it and counts its out-degree. -/
theorem pushEdge_cases (acc : PushAcc) (edge : ℕ × ℕ) :
    (acc.data (getEdgeDst G.out edge.2) ≠ DIST_INFINITY ∧ pushEdge G acc edge = acc) ∨
      (acc.data (getEdgeDst G.out edge.2) = DIST_INFINITY ∧
        pushEdge G acc edge =
          ⟨Function.update acc.data (getEdgeDst G.out edge.2) edge.1,
            acc.next ++ [getEdgeDst G.out edge.2],
            (acc.work + G.degree (getEdgeDst G.out edge.2)) % 2 ^ 32⟩) := by
  unfold pushEdge
  by_cases hinf : acc.data (getEdgeDst G.out edge.2) = DIST_INFINITY
  · exact .inr ⟨hinf, if_pos hinf⟩
  · exact .inl ⟨hinf, if_neg hinf⟩

/-- The push loop never changes a label it finds set. -/
theorem foldl_pushEdge_of_ne : ∀ (acts : List (ℕ × ℕ)) (acc : PushAcc) (v : ℕ),
    acc.data v ≠ DIST_INFINITY → (acts.foldl (pushEdge G) acc).data v = acc.data v
  | [], _, _, _ => rfl
  | edge :: acts, acc, v, hv => by
    rw [List.foldl_cons]
    rcases pushEdge_cases G acc edge with ⟨-, he⟩ | ⟨hinf, he⟩
    · rw [he]
      exact foldl_pushEdge_of_ne acts acc v hv
    · have hne : v ≠ getEdgeDst G.out edge.2 := fun h => hv (h ▸ hinf)
      rw [he, foldl_pushEdge_of_ne acts _ v (by simpa [Function.update_of_ne hne] using hv)]
      exact Function.update_of_ne hne _ _

variable {G}

section Sources

variable {acts : List (ℕ × ℕ)} (hsrc : ∀ a ∈ acts, a.1 ≠ DIST_INFINITY)
include hsrc

/-- **The nodes the push loop labels** are those labelled before and the destinations of its
edges, when no source is at `DIST_INFINITY`. -/
theorem foldl_pushEdge_ne_iff (acc : PushAcc) (v : ℕ) :
    (acts.foldl (pushEdge G) acc).data v ≠ DIST_INFINITY ↔
      acc.data v ≠ DIST_INFINITY ∨ ∃ a ∈ acts, getEdgeDst G.out a.2 = v := by
  induction acts generalizing acc with
  | nil => simp
  | cons edge acts ih =>
    have hsrc' : ∀ a ∈ acts, a.1 ≠ DIST_INFINITY := fun a ha => hsrc a (List.mem_cons_of_mem _ ha)
    rw [List.foldl_cons, ih hsrc']
    rcases pushEdge_cases G acc edge with ⟨hset, he⟩ | ⟨hinf, he⟩
    · rw [he]
      constructor
      · rintro (h | ⟨a, ha, rfl⟩)
        · exact .inl h
        · exact .inr ⟨a, List.mem_cons_of_mem _ ha, rfl⟩
      · rintro (h | ⟨a, ha, rfl⟩)
        · exact .inl h
        · rcases List.mem_cons.mp ha with rfl | ha
          · exact .inl hset
          · exact .inr ⟨a, ha, rfl⟩
    · rw [he]
      by_cases hv : v = getEdgeDst G.out edge.2
      · subst hv
        simp only [Function.update_self]
        exact iff_of_true (.inl (hsrc edge List.mem_cons_self))
          (.inr ⟨edge, List.mem_cons_self, rfl⟩)
      · simp only [Function.update_of_ne hv, List.mem_cons, exists_eq_or_imp, Ne.symm hv,
          false_or]

/-- **The label the push loop gives a node**: the source of one of its edges into the node. -/
theorem foldl_pushEdge_parent (acc : PushAcc) (v : ℕ) (hv : acc.data v = DIST_INFINITY)
    (hv' : (acts.foldl (pushEdge G) acc).data v ≠ DIST_INFINITY) :
    ∃ a ∈ acts, getEdgeDst G.out a.2 = v ∧ (acts.foldl (pushEdge G) acc).data v = a.1 := by
  induction acts generalizing acc with
  | nil => exact absurd hv hv'
  | cons edge acts ih =>
    have hsrc' : ∀ a ∈ acts, a.1 ≠ DIST_INFINITY := fun a ha => hsrc a (List.mem_cons_of_mem _ ha)
    rw [List.foldl_cons] at hv' ⊢
    rcases pushEdge_cases G acc edge with ⟨-, he⟩ | ⟨-, he⟩
    · rw [he] at hv' ⊢
      obtain ⟨a, ha, hdst, hd⟩ := ih hsrc' acc hv hv'
      exact ⟨a, List.mem_cons_of_mem _ ha, hdst, hd⟩
    · rw [he] at hv' ⊢
      by_cases hvd : v = getEdgeDst G.out edge.2
      · -- this edge labels the node, and the label stays
        subst hvd
        refine ⟨edge, List.mem_cons_self, rfl, ?_⟩
        rw [foldl_pushEdge_of_ne G acts _ _ (by simpa using hsrc edge List.mem_cons_self)]
        exact Function.update_self _ _ _
      · obtain ⟨a, ha, hdst, hd⟩ := ih hsrc' _ (by simpa [Function.update_of_ne hvd] using hv) hv'
        exact ⟨a, List.mem_cons_of_mem _ ha, hdst, hd⟩

/-- **What the push loop pushes**: each node it labels, once, with `work_items` adding up their
out-degrees modulo `2^32`. -/
theorem foldl_pushEdge_next (acc : PushAcc) (hw : acc.work < 2 ^ 32) :
    ∃ new, (acts.foldl (pushEdge G) acc).next = acc.next ++ new ∧ new.Nodup ∧
      (∀ v, v ∈ new ↔
        acc.data v = DIST_INFINITY ∧ (acts.foldl (pushEdge G) acc).data v ≠ DIST_INFINITY) ∧
      (acts.foldl (pushEdge G) acc).work = (acc.work + (new.map G.degree).sum) % 2 ^ 32 := by
  induction acts generalizing acc with
  | nil => exact ⟨[], by simp, List.nodup_nil, fun v => by simp,
      by rw [List.foldl_nil, List.map_nil, List.sum_nil, Nat.add_zero, Nat.mod_eq_of_lt hw]⟩
  | cons edge acts ih =>
    have hsrc' : ∀ a ∈ acts, a.1 ≠ DIST_INFINITY := fun a ha => hsrc a (List.mem_cons_of_mem _ ha)
    rw [List.foldl_cons]
    rcases pushEdge_cases G acc edge with ⟨-, he⟩ | ⟨hinf, he⟩
    · rw [he]
      exact ih hsrc' acc hw
    · rw [he]
      obtain ⟨new, hnext, hnd, hmem, hwork⟩ := ih hsrc'
        ⟨Function.update acc.data (getEdgeDst G.out edge.2) edge.1,
          acc.next ++ [getEdgeDst G.out edge.2],
          (acc.work + G.degree (getEdgeDst G.out edge.2)) % 2 ^ 32⟩
        (Nat.mod_lt _ (Nat.two_pow_pos 32))
      have hsrc0 := hsrc edge List.mem_cons_self
      have hdst := foldl_pushEdge_of_ne G acts
        ⟨Function.update acc.data (getEdgeDst G.out edge.2) edge.1,
          acc.next ++ [getEdgeDst G.out edge.2],
          (acc.work + G.degree (getEdgeDst G.out edge.2)) % 2 ^ 32⟩
        (getEdgeDst G.out edge.2) (by simpa using hsrc0)
      simp only [Function.update_self] at hdst
      refine ⟨getEdgeDst G.out edge.2 :: new,
        by rw [hnext, List.append_assoc, List.singleton_append], ?_, ?_, ?_⟩
      · refine List.nodup_cons.mpr ⟨fun hd => hsrc0 ?_, hnd⟩
        simpa using ((hmem _).mp hd).1
      · intro v
        by_cases hv : v = getEdgeDst G.out edge.2
        · rw [hv, hdst]
          simp only [List.mem_cons, true_or, true_iff]
          exact ⟨hinf, hsrc0⟩
        · simp only [List.mem_cons, hv, false_or, hmem, Function.update_of_ne hv]
      · rw [hwork]
        show ((acc.work + G.degree (getEdgeDst G.out edge.2)) % 2 ^ 32 +
          (new.map G.degree).sum) % 2 ^ 32 = _
        rw [Nat.mod_add_mod, List.map_cons, List.sum_cons, Nat.add_assoc]

end Sources

end Push

/-! ## 6. Layers -/

/-- At most `L + 1` and not at most `L` is `L + 1`. -/
theorem eq_succ_of_le_of_not_le {x : ℕ∞} {L : ℕ} (h1 : x ≤ (L + 1 : ℕ)) (h2 : ¬ x ≤ L) :
    x = (L + 1 : ℕ) := by
  induction x using ENat.recTopCoe with
  | top => exact absurd h1 (by simp)
  | coe k =>
    norm_cast at h1 h2 ⊢
    omega

/-- The labels after layer `L`: exactly the nodes at most `L` edges from the source are
labelled, the source with `0` and every other node with a parent one layer closer. -/
structure LayerInv (G : BiGraph) (source L : ℕ) (data : ℕ → ℕ) : Prop where
  labelled : ∀ v, data v ≠ DIST_INFINITY ↔ dist (Hop G.out) source v ≤ L
  source_eq : data source = 0
  parent : ∀ v, v ≠ source → data v ≠ DIST_INFINITY →
    Hop G.out (data v) v 1 ∧ dist (Hop G.out) source (data v) + 1 = dist (Hop G.out) source v

section Layers

variable {G : BiGraph} {source L : ℕ}

/-- A node with an out-edge is a node of the graph. -/
theorem lt_size_of_hop {u v : ℕ} (h : Hop G.out u v 1) : u < G.size := by
  obtain ⟨⟨e, he, -⟩, -⟩ := h
  exact lt_of_mem_edgeIds he

/-- A node reachable from the source is a node of the graph. -/
theorem lt_size_of_dist_ne_top (hG : G.WF) (hs : source < G.size) {v : ℕ}
    (hv : dist (Hop G.out) source v ≠ ⊤) : v < G.size := by
  obtain ⟨c, hw, -⟩ := exists_walk_dist hv
  cases hw with
  | nil => exact hs
  | snoc _ he =>
    obtain ⟨⟨e, he, rfl⟩, -⟩ := he
    exact hG.dst_lt _ e he

theorem lt_size_of_dist_eq (hG : G.WF) (hs : source < G.size) {v k : ℕ}
    (hv : dist (Hop G.out) source v = k) : v < G.size :=
  lt_size_of_dist_ne_top hG hs (by rw [hv]; exact ENat.natCast_ne_top k)

/-- **A pass that labels layer `L + 1` and nothing else keeps the layers**: every label is kept
but those given to nodes of layer `L + 1`, each a parent in layer `L`. Both phases are such a
pass. -/
theorem LayerInv.succ (hn : G.size ≤ DIST_INFINITY) {data data' : ℕ → ℕ}
    (h : LayerInv G source L data)
    (hlabel : ∀ v, (data' v = data v ∧ dist (Hop G.out) source v ≠ (L + 1 : ℕ)) ∨
      (data v = DIST_INFINITY ∧ dist (Hop G.out) source v = (L + 1 : ℕ) ∧
        Hop G.out (data' v) v 1 ∧ dist (Hop G.out) source (data' v) = L)) :
    LayerInv G source (L + 1) data' where
  labelled v := by
    rcases hlabel v with ⟨heq, hne⟩ | ⟨-, hv, hhop, -⟩
    · rw [heq, h.labelled]
      constructor
      · intro hle
        exact hle.trans (by exact_mod_cast Nat.le_succ L)
      · intro hle
        by_contra hgt
        exact hne (eq_succ_of_le_of_not_le hle hgt)
    · refine iff_of_true ?_ hv.le
      have := lt_size_of_hop hhop
      omega
  source_eq := by
    rcases hlabel source with ⟨heq, -⟩ | ⟨hinf, -⟩
    · rw [heq, h.source_eq]
    · rw [h.source_eq] at hinf
      exact absurd hinf (by decide)
  parent v hv hlab := by
    rcases hlabel v with ⟨heq, -⟩ | ⟨-, hdv, hhop, hdu⟩
    · rw [heq] at hlab ⊢
      exact h.parent v hv hlab
    · refine ⟨hhop, ?_⟩
      rw [hdu, hdv]
      norm_cast

/-- A node of layer `L + 1` is not labelled after layer `L`. -/
theorem LayerInv.eq_inf_of_dist_eq {data : ℕ → ℕ} (h : LayerInv G source L data) {v : ℕ}
    (hv : dist (Hop G.out) source v = (L + 1 : ℕ)) : data v = DIST_INFINITY := by
  by_contra hne
  have := (h.labelled v).mp hne
  rw [hv] at this
  exact absurd this (by norm_cast; omega)

/-- A node not labelled after layer `L` with an edge from a node within `L` edges of the source
is in layer `L + 1`. -/
theorem LayerInv.dist_eq_succ {data : ℕ → ℕ} (h : LayerInv G source L data) {u v : ℕ}
    (hinf : data v = DIST_INFINITY) (hhop : Hop G.out u v 1)
    (hu : dist (Hop G.out) source u ≤ L) : dist (Hop G.out) source v = (L + 1 : ℕ) := by
  have hv : ¬ dist (Hop G.out) source v ≤ L := fun hle => (h.labelled v).mpr hle hinf
  refine eq_succ_of_le_of_not_le ((dist_le_add_one hhop).trans ?_) hv
  push_cast
  exact add_le_add_left hu 1

/-- ... and the nodes it newly labels are layer `L + 1`. -/
theorem LayerInv.newly_iff {data data' : ℕ → ℕ} (h' : LayerInv G source (L + 1) data')
    (hlabel : ∀ v, (data' v = data v ∧ dist (Hop G.out) source v ≠ (L + 1 : ℕ)) ∨
      (data v = DIST_INFINITY ∧ dist (Hop G.out) source v = (L + 1 : ℕ) ∧
        Hop G.out (data' v) v 1 ∧ dist (Hop G.out) source (data' v) = L)) (v : ℕ) :
    (data v = DIST_INFINITY ∧ data' v ≠ DIST_INFINITY) ↔
      dist (Hop G.out) source v = (L + 1 : ℕ) := by
  rcases hlabel v with ⟨heq, hne⟩ | ⟨hinf, hdv, -, -⟩
  · rw [heq]
    exact iff_of_false (fun ⟨h1, h2⟩ => h2 h1) hne
  · exact iff_of_true ⟨hinf, (h'.labelled v).mpr hdv.le⟩ hdv

end Layers

/-! ## 7. The invariant over every run -/

/-- **The invariant of `syncDOAlgo`** after layer `L`: the labels of `LayerInv`;
`front_bitset` holds only labelled nodes and `next_bitset` none; at the `while` test `next` is
layer `L` without repetition, and in the pull phase `front_bitset` holds all of layer `L`. -/
structure Inv (G : BiGraph) (source L : ℕ) (st : State) : Prop where
  layers : LayerInv G source L st.data
  front : ∃ F, st.front.Holds G.size F ∧ ∀ v, F v = true → st.data v ≠ DIST_INFINITY
  nextBits : st.nextBits.Holds G.size fun _ => false
  next_nodup : st.pc = .head → st.next.Nodup
  mem_next : st.pc = .head → ∀ v, v ∈ st.next ↔ dist (Hop G.out) source v = L
  front_layer : st.pc = .pull → ∀ v, dist (Hop G.out) source v = L → st.front.test v = true

section Run

variable {G : BiGraph} {source : ℕ} (hG : G.WF) (hs : source < G.size)
  (hn : G.size ≤ DIST_INFINITY)

theorem holds_emptyBits (G : BiGraph) : (emptyBits G).Holds G.size fun _ => false :=
  (DynamicBitSet.holds_resize _ _).reset

theorem inv_init : Inv G source 0 (init G source) := by
  have hzero : ∀ v, dist (Hop G.out) source v = 0 ↔ v = source := fun _ =>
    dist_eq_zero_iff fun _ _ _ h => hop_unit h
  refine ⟨⟨fun v => ?_, by simp [init, initDist], fun v hv hlab => ?_⟩,
    ⟨_, holds_emptyBits G, fun _ h => absurd h Bool.false_ne_true⟩, holds_emptyBits G,
    fun _ => List.nodup_singleton source, fun _ v => ?_, (fun h => nomatch h)⟩
  · rw [Nat.cast_zero, nonpos_iff_eq_zero, hzero]
    by_cases hv : v = source
    · simp [init, initDist, hv, DIST_INFINITY]
    · simp [init, initDist, hv]
  · exact absurd (by simp [init, initDist, hv]) hlab
  · rw [Nat.cast_zero, hzero]
    exact List.mem_singleton

include hG hs hn

omit hn in
/-- Starting the pull phase keeps the invariant: `WlToBitset` adds layer `L`, all labelled, to
`front_bitset`. -/
theorem Inv.pull {L : ℕ} {st : State} (h : Inv G source L st) (hpc : st.pc = .head) :
    Inv G source L
      { st with curr := st.next, next := [],
                front := wlToBitset st.next st.front, pc := .pull } := by
  obtain ⟨F, hF, hFlab⟩ := h.front
  have hlt : ∀ v ∈ st.next, v < G.size := fun v hv =>
    lt_size_of_dist_eq hG hs ((h.mem_next hpc v).mp hv)
  have hF' := hF.set_foldl st.next hlt
  refine ⟨h.layers, ⟨_, hF', fun v hv => ?_⟩, h.nextBits, (fun h => nomatch h),
    (fun h => nomatch h), fun _ v hv => ?_⟩
  · rcases Bool.or_eq_true_iff.mp hv with hv | hv
    · exact hFlab v hv
    · exact (h.layers.labelled v).mpr ((h.mem_next hpc v).mp (List.contains_iff_mem.mp hv)).le
  · have hmem := (h.mem_next hpc v).mpr hv
    rw [wlToBitset, hF'.test, decide_eq_true (hlt v hmem), List.contains_iff_mem.mpr hmem,
      Bool.or_true, Bool.true_and]

omit hs hn in
/-- What a pull pass finds for a node: a parent in layer `L` of a node of layer `L + 1`. -/
theorem Inv.pulled_eq_some {L : ℕ} {st : State} (h : Inv G source L st) {v src : ℕ}
    (hp : pulled G st.front st.data v = some src) :
    dist (Hop G.out) source v = (L + 1 : ℕ) ∧ Hop G.out src v 1 ∧
      dist (Hop G.out) source src = L := by
  obtain ⟨hinf, hin, htest⟩ := pulled_eq_some_spec G st.front hp
  obtain ⟨F, hF, hFlab⟩ := h.front
  have hhop := (hG.mem_inNeighbors src v).mp hin
  have hsrc : dist (Hop G.out) source src ≤ L := by
    rw [hF.test, Bool.and_eq_true] at htest
    exact (h.layers.labelled src).mp (hFlab src htest.2)
  have hdv := h.layers.dist_eq_succ hinf hhop hsrc
  refine ⟨hdv, hhop, le_antisymm hsrc ?_⟩
  -- and the parent is not closer than layer `L`
  have hle : dist (Hop G.out) source v ≤ dist (Hop G.out) source src + 1 := dist_le_add_one hhop
  rw [hdv, Nat.cast_add, Nat.cast_one] at hle
  exact (ENat.add_le_add_iff_right ENat.one_ne_top).mp hle

omit hs hn in
/-- A pull pass finds a parent for every node of layer `L + 1`. -/
theorem Inv.pulled_isSome {L : ℕ} {st : State} (h : Inv G source L st) (hpc : st.pc = .pull)
    {v : ℕ} (hv : dist (Hop G.out) source v = (L + 1 : ℕ)) :
    (pulled G st.front st.data v).isSome := by
  have hinf := h.layers.eq_inf_of_dist_eq hv
  obtain ⟨u, hhop, hu⟩ := exists_pred_of_dist_eq (fun _ _ _ h => hop_unit h) hv
  exact pulled_isSome_of_mem G st.front hinf ((hG.mem_inNeighbors u v).mpr hhop)
    (h.front_layer hpc u hu)

omit hs hn in
/-- In the pull phase `pulled` finds a parent for exactly the nodes of layer `L + 1`. -/
theorem Inv.isSome_pulled {L : ℕ} {st : State} (h : Inv G source L st) (hpc : st.pc = .pull)
    (v : ℕ) :
    (pulled G st.front st.data v).isSome = decide (dist (Hop G.out) source v = (L + 1 : ℕ)) := by
  by_cases hdv : dist (Hop G.out) source v = (L + 1 : ℕ)
  · rw [decide_eq_true hdv]
    exact h.pulled_isSome hG hpc hdv
  · rw [decide_eq_false hdv, Option.isSome_eq_false_iff, Option.isNone_iff_eq_none]
    cases hp : pulled G st.front st.data v with
    | none => rfl
    | some src => exact absurd (h.pulled_eq_some hG hp).1 hdv

section Pass

variable {L : ℕ} {st : State} (h : Inv G source L st) {order : List ℕ}
  (hord : order.Perm (List.range G.size))
include h hord

omit hn in
/-- **The labels of a pull pass**: a node keeps its label, or is in layer `L + 1` and gets a
parent in layer `L`. -/
theorem Inv.pullPass_label (hpc : st.pc = .pull) (v : ℕ) :
    ((order.foldl (pullNode G st.front) ⟨st.data, st.nextBits, 0⟩).data v = st.data v ∧
        dist (Hop G.out) source v ≠ (L + 1 : ℕ)) ∨
      (st.data v = DIST_INFINITY ∧ dist (Hop G.out) source v = (L + 1 : ℕ) ∧
        Hop G.out ((order.foldl (pullNode G st.front) ⟨st.data, st.nextBits, 0⟩).data v) v 1 ∧
        dist (Hop G.out) source
          ((order.foldl (pullNode G st.front) ⟨st.data, st.nextBits, 0⟩).data v) = L) := by
  rw [foldl_pullNode_data G st.front order _ (hord.nodup_iff.mpr List.nodup_range) v]
  by_cases hv : v ∈ order
  · rw [if_pos hv]
    cases hp : pulled G st.front st.data v with
    | none =>
      refine .inl ⟨rfl, fun hdv => ?_⟩
      have := h.pulled_isSome hG hpc hdv
      rw [hp] at this
      exact absurd this (by decide)
    | some src =>
      obtain ⟨hdv, hhop, hsrc⟩ := h.pulled_eq_some hG hp
      exact .inr ⟨(pulled_eq_some_spec G st.front hp).1, hdv, hhop, hsrc⟩
  · -- a node past the last one is in no layer
    rw [if_neg hv]
    refine .inl ⟨rfl, fun hdv => hv ?_⟩
    rw [hord.mem_iff, List.mem_range]
    exact lt_size_of_dist_eq hG hs hdv

omit hs hn in
/-- **The bits of a pull pass**: `next_bitset` holds exactly layer `L + 1`. -/
theorem Inv.pullPass_nextBits (hpc : st.pc = .pull) :
    (order.foldl (pullNode G st.front) ⟨st.data, st.nextBits, 0⟩).nextBits.Holds G.size
      fun v => decide (dist (Hop G.out) source v = (L + 1 : ℕ)) := by
  have hlt : ∀ v ∈ order, v < G.size := fun v hv => List.mem_range.mp (hord.subset hv)
  refine (foldl_pullNode_nextBits G st.front order _ (hord.nodup_iff.mpr List.nodup_range) hlt
    h.nextBits).congr fun v hv => ?_
  have hmem : v ∈ order := hord.mem_iff.mpr (List.mem_range.mpr hv)
  rw [Bool.false_or, decide_eq_true hmem, Bool.true_and]
  exact h.isSome_pulled hG hpc v

/-- **A pull pass keeps the invariant**, one layer further, whether the `do` loop goes on or
ends with `BitsetToWl`. -/
theorem Inv.pullPass (hpc : st.pc = .pull) (beta : ℤ) :
    Inv G source (L + 1)
      (endPull G beta st (order.foldl (pullNode G st.front) ⟨st.data, st.nextBits, 0⟩)) := by
  have hL := h.layers.succ hn (h.pullPass_label hG hs hord hpc)
  have hbits := h.pullPass_nextBits hG hord hpc
  obtain ⟨F, hF, -⟩ := h.front
  have hfront : ∀ v, decide (dist (Hop G.out) source v = (L + 1 : ℕ)) = true →
      (order.foldl (pullNode G st.front) ⟨st.data, st.nextBits, 0⟩).data v ≠ DIST_INFINITY :=
    fun v hv => (hL.labelled v).mpr (of_decide_eq_true hv).le
  unfold endPull
  split_ifs
  · -- the `do` loop goes on
    refine ⟨hL, ⟨_, hbits, hfront⟩, hF.reset, fun hpc' => by simp [hpc] at hpc',
      fun hpc' => by simp [hpc] at hpc', fun _ v hv => ?_⟩
    rw [hbits.test, decide_eq_true hv, Bool.and_true, decide_eq_true]
    exact lt_size_of_dist_eq hG hs hv
  · -- the `do` loop ends: `next` gets layer `L + 1`
    refine ⟨hL, ⟨_, hbits, hfront⟩, hF.reset, fun _ => List.nodup_range.filter _,
      fun _ v => ?_, (fun h => nomatch h)⟩
    simp only [bitsetToWl, List.mem_filter, List.mem_range, hbits.test, Bool.and_eq_true,
      decide_eq_true_eq]
    exact ⟨fun hv => hv.2.2, fun hv => ⟨lt_size_of_dist_eq hG hs hv,
      lt_size_of_dist_eq hG hs hv, hv⟩⟩

end Pass

section PushPass

variable {L : ℕ} {st : State} (h : Inv G source L st) (hpc : st.pc = .head)
  {order : List (ℕ × ℕ)} (hord : order.Perm (pushEdges G st.next))
include h hpc hord

/-- Every edge the push loop visits leaves a node of layer `L`, never at `DIST_INFINITY`. -/
theorem Inv.push_src {a : ℕ × ℕ} (ha : a ∈ order) :
    a.1 ∈ st.next ∧ a.2 ∈ edgeIds G.out a.1 ∧ dist (Hop G.out) source a.1 = L ∧
      a.1 ≠ DIST_INFINITY := by
  obtain ⟨hmem, he⟩ := (mem_pushEdges G).mp (hord.subset ha)
  have hd := (h.mem_next hpc _).mp hmem
  have := lt_size_of_dist_eq hG hs hd
  exact ⟨hmem, he, hd, by omega⟩

/-- **The labels of a push pass**: a node keeps its label, or is in layer `L + 1` and gets a
parent in layer `L`, whatever order the edges take. -/
theorem Inv.push_label (v : ℕ) :
    ((order.foldl (pushEdge G) ⟨st.data, [], 0⟩).data v = st.data v ∧
        dist (Hop G.out) source v ≠ (L + 1 : ℕ)) ∨
      (st.data v = DIST_INFINITY ∧ dist (Hop G.out) source v = (L + 1 : ℕ) ∧
        Hop G.out ((order.foldl (pushEdge G) ⟨st.data, [], 0⟩).data v) v 1 ∧
        dist (Hop G.out) source ((order.foldl (pushEdge G) ⟨st.data, [], 0⟩).data v) = L) := by
  have hsrc : ∀ a ∈ order, a.1 ≠ DIST_INFINITY := fun a ha =>
    (h.push_src hG hs hn hpc hord ha).2.2.2
  by_cases hinf : st.data v = DIST_INFINITY
  · by_cases hacc : (order.foldl (pushEdge G) ⟨st.data, [], 0⟩).data v = DIST_INFINITY
    · -- still unlabelled, so no edge of layer `L` leads to it
      refine .inl ⟨hacc.trans hinf.symm, fun hdv => ?_⟩
      obtain ⟨u, ⟨⟨e, he, hdst⟩, -⟩, hu⟩ :=
        exists_pred_of_dist_eq (fun _ _ _ h => hop_unit h) hdv
      have hue : (u, e) ∈ order :=
        hord.mem_iff.mpr ((mem_pushEdges G).mpr ⟨(h.mem_next hpc u).mpr hu, he⟩)
      exact (foldl_pushEdge_ne_iff hsrc _ v).mpr (.inr ⟨(u, e), hue, hdst⟩) hacc
    · obtain ⟨a, ha, hdst, hd⟩ := foldl_pushEdge_parent hsrc _ v hinf hacc
      obtain ⟨-, he, hu, -⟩ := h.push_src hG hs hn hpc hord ha
      have hhop : Hop G.out a.1 v 1 := hdst ▸ hop_of_mem he
      rw [hd]
      exact .inr ⟨hinf, h.layers.dist_eq_succ hinf hhop hu.le, hhop, hu⟩
  · exact .inl ⟨foldl_pushEdge_of_ne G order _ v hinf,
      fun hdv => hinf (h.layers.eq_inf_of_dist_eq hdv)⟩

/-- **A push pass keeps the invariant**, one layer further: `next` gets layer `L + 1`, each
node once. -/
theorem Inv.push :
    Inv G source (L + 1) (endPush st (order.foldl (pushEdge G) ⟨st.data, [], 0⟩)) := by
  have hsrc : ∀ a ∈ order, a.1 ≠ DIST_INFINITY := fun a ha =>
    (h.push_src hG hs hn hpc hord ha).2.2.2
  have hlabel := h.push_label hG hs hn hpc hord
  have hL := h.layers.succ hn hlabel
  obtain ⟨F, hF, hFlab⟩ := h.front
  obtain ⟨new, hnext, hnd, hmem, -⟩ :=
    foldl_pushEdge_next (G := G) hsrc ⟨st.data, [], 0⟩ (by norm_num)
  rw [List.nil_append] at hnext
  refine ⟨hL, ⟨F, hF, fun v hv => ?_⟩, h.nextBits, fun _ => ?_, fun _ v => ?_,
    fun hpc' => by simp [endPush, hpc] at hpc'⟩
  · show (order.foldl (pushEdge G) ⟨st.data, [], 0⟩).data v ≠ DIST_INFINITY
    rw [foldl_pushEdge_of_ne G order ⟨st.data, [], 0⟩ v (hFlab v hv)]
    exact hFlab v hv
  · simpa [endPush, hnext] using hnd
  · simp only [endPush, hnext, hmem]
    exact hL.newly_iff hlabel v

end PushPass

/-- **Every pass keeps the invariant**, one layer further when it runs a loop. -/
theorem Inv.step {alpha beta : ℤ} {L : ℕ} {st st' : State} (h : Inv G source L st)
    (hstep : Step G alpha beta st st') : ∃ L', Inv G source L' st' := by
  cases hstep with
  | pull hpc => exact ⟨L, h.pull hG hs hpc⟩
  | pullPass hpc _ order hord => exact ⟨L + 1, h.pullPass hG hs hn hord hpc beta⟩
  | push hpc _ _ _ order hord => exact ⟨L + 1, h.push hG hs hn hpc hord⟩

/-- **The invariant holds along every run** from the start of the loop. -/
theorem inv_run {alpha beta : ℤ} {st : State}
    (hrun : Relation.ReflTransGen (Step G alpha beta) (init G source) st) :
    ∃ L, Inv G source L st := by
  induction hrun with
  | refl => exact ⟨0, inv_init⟩
  | tail _ hstep ih =>
    obtain ⟨L, h⟩ := ih
    exact h.step hG hs hn hstep

end Run

/-- **`syncDOAlgo` computes a BFS tree**: whenever it returns, on a graph of at most
`DIST_INFINITY` nodes from a source among them, whatever the direction choices and the order
of every loop, the labelled nodes are exactly those reachable from the source; the source has
`0`, and every other labelled node is labelled with a parent: a node with an edge to it, one
edge closer to the source. -/
theorem syncDOAlgo_bfs_tree {G : BiGraph} {source : ℕ} (hG : G.WF) (hs : source < G.size)
    (hn : G.size ≤ DIST_INFINITY) {alpha beta : ℤ} {d : ℕ → ℕ}
    (hd : syncDOAlgo G source alpha beta d) :
    d source = 0 ∧ (∀ v, d v ≠ DIST_INFINITY ↔ dist (Hop G.out) source v ≠ ⊤) ∧
      ∀ v, v ≠ source → d v ≠ DIST_INFINITY →
        Hop G.out (d v) v 1 ∧ dist (Hop G.out) source (d v) + 1 = dist (Hop G.out) source v := by
  obtain ⟨st, hrun, hpc, hnext, rfl⟩ := hd
  obtain ⟨L, h⟩ := inv_run hG hs hn hrun
  -- `next` is empty, so layer `L` is, and every reachable node lies below it
  have hempty : ∀ u, dist (Hop G.out) source u ≠ L := fun u hu => by
    have := (h.mem_next hpc u).mpr hu
    rw [hnext] at this
    exact List.not_mem_nil this
  refine ⟨h.layers.source_eq, fun v => ?_, h.layers.parent⟩
  rw [h.layers.labelled]
  exact ⟨fun hle => ne_top_of_le_ne_top (ENat.natCast_ne_top L) hle,
    fun hv => (dist_lt_of_layer_empty (fun _ _ _ h => hop_unit h) hempty hv).le⟩

/-- One edge, `0 → 1`, with its in-edge. -/
def oneEdge : BiGraph where
  out := ⟨[1, 1], [1], [()]⟩
  inn := ⟨[0, 1], [0], [()]⟩

theorem wf_oneEdge : oneEdge.WF := by
  constructor
  · intro u e he
    have hu := lt_of_mem_edgeIds he
    simp only [oneEdge, List.length_cons, List.length_nil] at hu
    interval_cases u <;>
      simp_all [oneEdge, edgeIds, CSRGraph.edge_begin, CSRGraph.edge_end, getEdgeDst, BiGraph.size]
  · intro u v
    constructor
    · intro h
      obtain ⟨e, he, rfl⟩ := List.mem_map.mp h
      have hv := lt_of_mem_edgeIds he
      simp only [oneEdge, List.length_cons, List.length_nil] at hv
      interval_cases v <;>
        simp_all [oneEdge, edgeIds, CSRGraph.edge_begin, CSRGraph.edge_end, getEdgeDst, Hop]
    · rintro ⟨⟨e, he, rfl⟩, -⟩
      have hu := lt_of_mem_edgeIds he
      simp only [oneEdge, List.length_cons, List.length_nil] at hu
      interval_cases u <;>
        simp_all [oneEdge, edgeIds, CSRGraph.edge_begin, CSRGraph.edge_end, getEdgeDst,
          BiGraph.inNeighbors]

/-- On `oneEdge` from `0` with the default `alpha` and `beta`, the loop pulls: one pass labels
`1` with `0` and the `do` loop goes on, a second labels nothing and `next` is empty. -/
theorem syncDOAlgo_oneEdge : ∃ d, syncDOAlgo oneEdge 0 15 18 d ∧ d 1 = 0 := by
  refine ⟨_, ⟨_, .tail (.tail (.single (Step.pull _ rfl (by decide) (by decide) (by decide)))
    (Step.pullPass _ rfl (by decide) [0, 1] (by decide)))
    (Step.pullPass _ (by decide) (by decide) [0, 1] (by decide)), by decide, by decide, rfl⟩,
    by decide⟩

theorem syncDOAlgo_bfs_tree_oneEdge : oneEdge.WF ∧ 0 < oneEdge.size ∧
    oneEdge.size ≤ DIST_INFINITY ∧ ∃ d, syncDOAlgo oneEdge 0 15 18 d ∧ d 1 = 0 ∧
      d 0 = 0 ∧ (∀ v, d v ≠ DIST_INFINITY ↔ dist (Hop oneEdge.out) 0 v ≠ ⊤) ∧
        ∀ v, v ≠ 0 → d v ≠ DIST_INFINITY → Hop oneEdge.out (d v) v 1 ∧
          dist (Hop oneEdge.out) 0 (d v) + 1 = dist (Hop oneEdge.out) 0 v := by
  obtain ⟨d, hd, h1⟩ := syncDOAlgo_oneEdge
  exact ⟨wf_oneEdge, by decide, by decide, d, hd, h1,
    syncDOAlgo_bfs_tree wf_oneEdge (by decide) (by decide) hd⟩

end Galois.Lonestar.BFS.DirectionOpt
