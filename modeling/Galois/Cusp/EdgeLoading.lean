import Galois.Cusp.NodeMapping

/-!
# CuSP: building the local CSR graph (NewGeneric.h, loadEdges)

After node mapping a host allocates its `LC_CSR_Graph`, sets every node's edge end from the
prefix sum (`fixEndEdge`), and fills the edge arrays:

* `CSRGraph` -- `edgeIndData`, `edgeDst` and `edgeData`, with `edge_begin`, `edge_end` and
  `constructEdge` as `LC_CSR_Graph` has them;
* `sendEdgesNode` -- `sendEdges`' body for a node it read: the edges kept here are constructed
  from the node's `edge_begin`, the others gathered per host and sent as one `EdgeItem` each;
* `processEdgeItem` -- `processReceivedEdgeBuffer` for one item: the node's edges from its
  `edge_begin` to its `edge_end`, from the received vectors;
* `loadEdges` -- the two, as `LoadEvent`s in the order the threads and the network run them.

`G2L` is `globalToLocalMap.at`, which throws for a node with no local id: the phases return
`Option`. Every event writes one node's edges as a run of the edge arrays, so the order of the
events does not matter (`Compaction.getD_foldl_writeRun`); `loadEdges_spec` says that, in any
order, every local node ends up with the edges of the input graph this host keeps.
-/

namespace Galois.Cusp

open Compaction

variable {E : Type}

/-! ## 1. The CSR graph -/

/-- `LC_CSR_Graph`'s arrays: where every node's edges end, and every edge's destination and data.
-/
structure CSRGraph (E : Type) where
  edgeIndData : List ℕ
  edgeDst : List ℕ
  edgeData : List E

namespace CSRGraph

/-- `allocateFrom(nNodes, nEdges)`: the arrays, not yet written. -/
def allocateFrom [Inhabited E] (nNodes nEdges : ℕ) : CSRGraph E where
  edgeIndData := List.replicate nNodes 0
  edgeDst := List.replicate nEdges 0
  edgeData := List.replicate nEdges default

/-- `fixEndEdge(n, e)`: node `n`'s edges end at `e`. -/
def fixEndEdge (g : CSRGraph E) (n e : ℕ) : CSRGraph E :=
  { g with edgeIndData := g.edgeIndData.set n e }

/-- `edge_begin(n)`: where the previous node's edges end, or 0 for node 0. -/
def edge_begin (g : CSRGraph E) (n : ℕ) : ℕ :=
  if n = 0 then 0 else g.edgeIndData.getD (n - 1) 0

/-- `edge_end(n)`. -/
def edge_end (g : CSRGraph E) (n : ℕ) : ℕ :=
  g.edgeIndData.getD n 0

/-- `constructEdge(e, dst, val)`. -/
def constructEdge (g : CSRGraph E) (e dst : ℕ) (val : E) : CSRGraph E :=
  { g with edgeDst := g.edgeDst.set e dst, edgeData := g.edgeData.set e val }

/-- The out-edges of node `n`, destination and data, as an iteration from `edge_begin(n)` to
`edge_end(n)` reads them. -/
def edges [Inhabited E] (g : CSRGraph E) (n : ℕ) : List (ℕ × E) :=
  (List.range' (g.edge_begin n) (g.edge_end n - g.edge_begin n)).map fun e =>
    (g.edgeDst.getD e 0, g.edgeData.getD e default)

end CSRGraph

/-- The constructor's `allocateFrom(numNodes, numEdges)` and its `fixEndEdge` loop: node `n`'s
edges end at `prefixSumOfEdges[n]`. -/
def allocateGraph [Inhabited E] (numNodes numEdges : ℕ) (prefixSumOfEdges : List ℕ) :
    CSRGraph E :=
  (List.range numNodes).foldl (fun g n => g.fixEndEdge n (prefixSumOfEdges.getD n 0))
    (CSRGraph.allocateFrom numNodes numEdges)

/-! ## 2. Sending -/

/-- The state of `sendEdges`' loop over the edges of one node: the next edge to construct here,
the graph, and per host the destinations and data of the edges it keeps. -/
structure SendState (E : Type) where
  curEdge : ℕ
  graph : CSRGraph E
  gdst_vec : List (List ℕ)
  gdata_vec : List (List E)

/-- What `sendEdges` serializes for one node and one host: the node, and the destinations and
data of the node's edges that host keeps. -/
structure EdgeItem (E : Type) where
  src : ℕ
  gdst_vec : List ℕ
  gdata_vec : List E

/-- The body of `sendEdges`' loop for the edge `e` of `src`, a node with `numEdgesL` edges: an
edge kept here is constructed at `curEdge` with its local destination, any other is appended to
its host's vectors. -/
def sendEdge (P : Policy) (g2l : ℕ → Option ℕ) (id src numEdgesL : ℕ) (st : SendState E)
    (e : ℕ × E) : Option (SendState E) :=
  let hostBelongs := P.getEdgeOwner src e.1 numEdgesL
  if hostBelongs = id then
    -- edge belongs here, construct on self
    (g2l e.1).map fun ldst =>
      { st with curEdge := st.curEdge + 1, graph := st.graph.constructEdge st.curEdge ldst e.2 }
  else
    some { st with
      gdst_vec := st.gdst_vec.modify hostBelongs (· ++ [e.1])
      gdata_vec := st.gdata_vec.modify hostBelongs (· ++ [e.2]) }

/-- `sendEdges`' body for a node `src` this host read: its edges kept here are constructed from
its `edge_begin` (if it has a local id), and every other host with edges of it gets one item. -/
def sendEdgesNode (G : InputGraph E) (P : Policy) (g2l : ℕ → Option ℕ) (numHosts id : ℕ)
    (graph : CSRGraph E) (src : ℕ) : Option (CSRGraph E × List (ℕ × EdgeItem E)) := do
  let curEdge := match g2l src with
    | some lsrc => graph.edge_begin lsrc
    | none => 0
  let st ← (G.edges src).foldlM (sendEdge P g2l id src (G.edges src).length)
    ⟨curEdge, graph, List.replicate numHosts [], List.replicate numHosts []⟩
  pure (st.graph, ((List.range numHosts).filter fun h =>
      h != id && decide ((st.gdst_vec.getD h []).length > 0)).map fun h =>
    (h, ⟨src, st.gdst_vec.getD h [], st.gdata_vec.getD h []⟩))

/-! ## 3. Receiving -/

/-- `deserializeEdges`: construct the edges `cur, …, cur_end - 1` from the received vectors. -/
def deserializeEdges [Inhabited E] (g2l : ℕ → Option ℕ) (graph : CSRGraph E) (item : EdgeItem E)
    (cur cur_end : ℕ) : Option (CSRGraph E) :=
  (List.range (cur_end - cur)).foldlM (fun g i =>
    (g2l (item.gdst_vec.getD i 0)).map fun ldst =>
      g.constructEdge (cur + i) ldst (item.gdata_vec.getD i default)) graph

/-- `processReceivedEdgeBuffer` for one item: the node's edges, from its `edge_begin` to its
`edge_end`. -/
def processEdgeItem [Inhabited E] (g2l : ℕ → Option ℕ) (graph : CSRGraph E) (item : EdgeItem E) :
    Option (CSRGraph E) := do
  let lsrc ← g2l item.src
  deserializeEdges g2l graph item (graph.edge_begin lsrc) (graph.edge_end lsrc)

/-! ## 4. The events of edge loading -/

/-- What a host does during edge loading, in the order its threads run it: the body of
`sendEdges` for a node it read, or one received item. -/
inductive LoadEvent (E : Type) where
  | send (src : ℕ)
  | recv (item : EdgeItem E)

/-- The graph, the items sent, and `receivedNodes`. -/
structure LoadState (E : Type) where
  graph : CSRGraph E
  sent : List (ℕ × EdgeItem E)
  receivedNodes : ℕ

/-- One event of edge loading. -/
def loadStep [Inhabited E] (G : InputGraph E) (P : Policy) (g2l : ℕ → Option ℕ)
    (numHosts id : ℕ) (st : LoadState E) : LoadEvent E → Option (LoadState E)
  | .send src => (sendEdgesNode G P g2l numHosts id st.graph src).map fun r =>
      { st with graph := r.1, sent := st.sent ++ r.2 }
  | .recv item => (processEdgeItem g2l st.graph item).map fun g =>
      { st with graph := g, receivedNodes := st.receivedNodes + 1 }

/-- `loadEdges`: the events in the order they run, from the allocated graph. -/
def loadEdges [Inhabited E] (G : InputGraph E) (P : Policy) (g2l : ℕ → Option ℕ)
    (numHosts id : ℕ) (graph : CSRGraph E) (events : List (LoadEvent E)) :
    Option (LoadState E) :=
  events.foldlM (loadStep G P g2l numHosts id) ⟨graph, [], 0⟩

/-! ## 5. Writing one node's edges -/

namespace CSRGraph

/-- Construct the edges `es` (local destination, data) at `pos, pos + 1, …`: what both the
sender and the receiver of a node's edges do. -/
def writeEdges (g : CSRGraph E) (pos : ℕ) (es : List (ℕ × E)) : CSRGraph E :=
  { g with
    edgeDst := writeRun g.edgeDst pos (es.map Prod.fst)
    edgeData := writeRun g.edgeData pos (es.map Prod.snd) }

@[simp] theorem writeEdges_nil (g : CSRGraph E) (pos : ℕ) : g.writeEdges pos [] = g := rfl

theorem writeEdges_cons (g : CSRGraph E) (pos : ℕ) (x : ℕ × E) (es : List (ℕ × E)) :
    g.writeEdges pos (x :: es) = (g.constructEdge pos x.1 x.2).writeEdges (pos + 1) es := rfl

theorem writeEdges_singleton (g : CSRGraph E) (pos : ℕ) (x : ℕ × E) :
    g.writeEdges pos [x] = g.constructEdge pos x.1 x.2 := rfl

theorem writeEdges_append (g : CSRGraph E) (pos : ℕ) (xs ys : List (ℕ × E)) :
    g.writeEdges pos (xs ++ ys) = (g.writeEdges pos xs).writeEdges (pos + xs.length) ys := by
  simp only [writeEdges, List.map_append, writeRun_append, List.length_map]

theorem edge_begin_congr {g g' : CSRGraph E} (h : g.edgeIndData = g'.edgeIndData) (n : ℕ) :
    g.edge_begin n = g'.edge_begin n := by
  unfold edge_begin
  rw [h]

theorem edge_end_congr {g g' : CSRGraph E} (h : g.edgeIndData = g'.edgeIndData) (n : ℕ) :
    g.edge_end n = g'.edge_end n := by
  unfold edge_end
  rw [h]

theorem edgeIndData_foldl_writeEdges (runs : List (ℕ × List (ℕ × E))) (g : CSRGraph E) :
    (runs.foldl (fun g r => g.writeEdges r.1 r.2) g).edgeIndData = g.edgeIndData := by
  induction runs generalizing g with
  | nil => rfl
  | cons r runs ih => exact ih (g.writeEdges r.1 r.2)

@[simp] theorem edgeIndData_writeEdges (g : CSRGraph E) (pos : ℕ) (es : List (ℕ × E)) :
    (g.writeEdges pos es).edgeIndData = g.edgeIndData := rfl

@[simp] theorem edge_begin_writeEdges (g : CSRGraph E) (pos : ℕ) (es : List (ℕ × E)) (n : ℕ) :
    (g.writeEdges pos es).edge_begin n = g.edge_begin n := rfl

@[simp] theorem edge_end_writeEdges (g : CSRGraph E) (pos : ℕ) (es : List (ℕ × E)) (n : ℕ) :
    (g.writeEdges pos es).edge_end n = g.edge_end n := rfl

/-- **Runs of edges that agree with a target, written in any order**: both arrays hold the
target at every position some run covers. -/
theorem foldl_writeEdges_getD (t : ℕ → ℕ × E) (d : E) (runs : List (ℕ × List (ℕ × E)))
    (g : CSRGraph E)
    (hfit : ∀ r ∈ runs, r.1 + r.2.length ≤ g.edgeDst.length ∧ r.1 + r.2.length ≤ g.edgeData.length)
    (hagree : ∀ r ∈ runs, ∀ j (hj : j < r.2.length), r.2[j] = t (r.1 + j))
    {p : ℕ} (hp : ∃ r ∈ runs, r.1 ≤ p ∧ p < r.1 + r.2.length) :
    (runs.foldl (fun g r => g.writeEdges r.1 r.2) g).edgeDst.getD p 0 = (t p).1 ∧
      (runs.foldl (fun g r => g.writeEdges r.1 r.2) g).edgeData.getD p d = (t p).2 := by
  -- the two arrays are written by the runs of destinations and of data
  have hsplit : ∀ (rs : List (ℕ × List (ℕ × E))) (g : CSRGraph E),
      (rs.foldl (fun g r => g.writeEdges r.1 r.2) g).edgeDst =
          (rs.map fun r => (r.1, r.2.map Prod.fst)).foldl (fun a r => writeRun a r.1 r.2) g.edgeDst ∧
        (rs.foldl (fun g r => g.writeEdges r.1 r.2) g).edgeData =
          (rs.map fun r => (r.1, r.2.map Prod.snd)).foldl (fun a r => writeRun a r.1 r.2)
            g.edgeData := by
    intro rs
    induction rs with
    | nil => intro g; exact ⟨rfl, rfl⟩
    | cons r rs ih => intro g; exact ih (g.writeEdges r.1 r.2)
  obtain ⟨r, hr, hpr⟩ := hp
  rw [(hsplit runs g).1, (hsplit runs g).2]
  constructor
  · rw [getD_foldl_writeRun (fun p => (t p).1) 0 _ g.edgeDst
      (fun r' hr' => by
        obtain ⟨r'', hr'', rfl⟩ := List.mem_map.mp hr'
        simpa using (hfit r'' hr'').1)
      (fun r' hr' j hj => by
        obtain ⟨r'', hr'', rfl⟩ := List.mem_map.mp hr'
        simp only [List.length_map] at hj
        simp [List.getD_eq_getElem?_getD, hj, hagree r'' hr'' j hj])]
    exact if_pos ⟨(r.1, r.2.map Prod.fst), List.mem_map_of_mem hr, by simpa using hpr⟩
  · rw [getD_foldl_writeRun (fun p => (t p).2) d _ g.edgeData
      (fun r' hr' => by
        obtain ⟨r'', hr'', rfl⟩ := List.mem_map.mp hr'
        simpa using (hfit r'' hr'').2)
      (fun r' hr' j hj => by
        obtain ⟨r'', hr'', rfl⟩ := List.mem_map.mp hr'
        simp only [List.length_map] at hj
        simp [List.getD_eq_getElem?_getD, hj, hagree r'' hr'' j hj])]
    exact if_pos ⟨(r.1, r.2.map Prod.snd), List.mem_map_of_mem hr, by simpa using hpr⟩

end CSRGraph

/-- The edges of `src` host `id` keeps, as it constructs them: local destination and data. -/
def localEdges (G : InputGraph E) (P : Policy) (g2l : ℕ → Option ℕ) (id src : ℕ) :
    List (ℕ × E) :=
  (ownedEdges G P id src).map fun e => ((g2l e.1).getD 0, e.2)

/-- The item for host `h` and node `src`: the destinations and data of the edges `h` keeps. -/
def edgeItem (G : InputGraph E) (P : Policy) (h src : ℕ) : EdgeItem E :=
  ⟨src, (ownedEdges G P h src).map Prod.fst, (ownedEdges G P h src).map Prod.snd⟩

/-! ## 6. What one node's send does -/

section Send

variable (P : Policy) (g2l : ℕ → Option ℕ) (id src n : ℕ)

/-- What `sendEdges`' loop has done after the edges `es`, from `st`: the edges kept here are
constructed from `curEdge` on, every other edge is appended to its host's vectors. -/
structure SendDone (st : SendState E) (es : List (ℕ × E)) (st' : SendState E) : Prop where
  curEdge : st'.curEdge = st.curEdge + (es.filter fun e => P.getEdgeOwner src e.1 n == id).length
  graph : st'.graph = st.graph.writeEdges st.curEdge
    ((es.filter fun e => P.getEdgeOwner src e.1 n == id).map fun e => ((g2l e.1).getD 0, e.2))
  length_gdst : st'.gdst_vec.length = st.gdst_vec.length
  length_gdata : st'.gdata_vec.length = st.gdata_vec.length
  gdst : ∀ h < st.gdst_vec.length, h ≠ id → st'.gdst_vec.getD h [] =
    st.gdst_vec.getD h [] ++ (es.filter fun e => P.getEdgeOwner src e.1 n == h).map Prod.fst
  gdata : ∀ h < st.gdata_vec.length, h ≠ id → st'.gdata_vec.getD h [] =
    st.gdata_vec.getD h [] ++ (es.filter fun e => P.getEdgeOwner src e.1 n == h).map Prod.snd

variable {P g2l id src n}

/-- An edge kept elsewhere goes to its host's vectors. -/
theorem sendEdge_other {st : SendState E} {e : ℕ × E} (hown : P.getEdgeOwner src e.1 n ≠ id) :
    sendEdge P g2l id src n st e = some { st with
      gdst_vec := st.gdst_vec.modify (P.getEdgeOwner src e.1 n) (· ++ [e.1])
      gdata_vec := st.gdata_vec.modify (P.getEdgeOwner src e.1 n) (· ++ [e.2]) } := by
  simp only [sendEdge, if_neg hown]

/-- An edge kept here, to a local node, is constructed at `curEdge`. -/
theorem sendEdge_here {st : SendState E} {e : ℕ × E} (hown : P.getEdgeOwner src e.1 n = id)
    {ldst : ℕ} (hldst : g2l e.1 = some ldst) :
    sendEdge P g2l id src n st e = some { st with
      curEdge := st.curEdge + 1, graph := st.graph.constructEdge st.curEdge ldst e.2 } := by
  simp only [sendEdge, if_pos hown, hldst, Option.map_some]

/-- **The loop over a node's edges**, by induction on the edges still to process: it succeeds
when every edge kept here points at a local node, and does what `SendDone` says. -/
theorem sendEdge_foldlM (es : List (ℕ × E))
    (hloc : ∀ e ∈ es, P.getEdgeOwner src e.1 n = id → (g2l e.1).isSome) (st : SendState E) :
    ∃ st', es.foldlM (sendEdge P g2l id src n) st = some st' ∧
      SendDone P g2l id src n st es st' := by
  induction es generalizing st with
  | nil =>
    refine ⟨st, rfl, ⟨by simp, rfl, rfl, rfl, fun h _ _ => ?_, fun h _ _ => ?_⟩⟩
    · simp
    · simp
  | cons e es ih =>
    have hloc' : ∀ e' ∈ es, P.getEdgeOwner src e'.1 n = id → (g2l e'.1).isSome :=
      fun e' he' => hloc e' (List.mem_cons_of_mem _ he')
    rw [List.foldlM_cons]
    by_cases hown : P.getEdgeOwner src e.1 n = id
    · -- kept here: constructed at `curEdge`, the vectors unchanged
      obtain ⟨ldst, hldst⟩ := Option.isSome_iff_exists.mp (hloc e List.mem_cons_self hown)
      obtain ⟨st', hst', hdone⟩ := ih hloc' { st with
        curEdge := st.curEdge + 1, graph := st.graph.constructEdge st.curEdge ldst e.2 }
      have hin : (P.getEdgeOwner src e.1 n == id) = true := beq_iff_eq.mpr hown
      have hout : ∀ h, h ≠ id → (P.getEdgeOwner src e.1 n == h) = false :=
        fun h hh => beq_eq_false_iff_ne.mpr (hown ▸ Ne.symm hh)
      refine ⟨st', by rw [sendEdge_here hown hldst, Option.bind_eq_bind, Option.bind_some]; exact hst',
        ⟨?_, ?_, hdone.length_gdst, hdone.length_gdata, fun h hh hid => ?_, fun h hh hid => ?_⟩⟩
      · rw [hdone.curEdge, List.filter_cons]
        simp only [hin, if_true, List.length_cons]
        omega
      · rw [hdone.graph, List.filter_cons]
        simp only [hin, if_true, List.map_cons, CSRGraph.writeEdges_cons, hldst, Option.getD_some]
      · rw [hdone.gdst h hh hid, List.filter_cons]
        simp only [hout h hid, Bool.false_eq_true, if_false]
      · rw [hdone.gdata h hh hid, List.filter_cons]
        simp only [hout h hid, Bool.false_eq_true, if_false]
    · -- kept elsewhere: appended to its host's vectors
      obtain ⟨st', hst', hdone⟩ := ih hloc' { st with
        gdst_vec := st.gdst_vec.modify (P.getEdgeOwner src e.1 n) (· ++ [e.1])
        gdata_vec := st.gdata_vec.modify (P.getEdgeOwner src e.1 n) (· ++ [e.2]) }
      have hnot : (P.getEdgeOwner src e.1 n == id) = false := beq_eq_false_iff_ne.mpr hown
      refine ⟨st', by rw [sendEdge_other hown, Option.bind_eq_bind, Option.bind_some]; exact hst',
        ⟨?_, ?_, ?_, ?_, fun h hh hid => ?_, fun h hh hid => ?_⟩⟩
      · rw [hdone.curEdge, List.filter_cons]
        simp only [hnot, Bool.false_eq_true, if_false]
      · rw [hdone.graph, List.filter_cons]
        simp only [hnot, Bool.false_eq_true, if_false]
      · rw [hdone.length_gdst, List.length_modify]
      · rw [hdone.length_gdata, List.length_modify]
      · rw [hdone.gdst h (by rw [List.length_modify]; exact hh) hid, getD_modify hh, List.filter_cons]
        by_cases hh' : P.getEdgeOwner src e.1 n = h
        · simp only [hh', if_true, beq_self_eq_true, List.map_cons, List.append_assoc,
            List.singleton_append]
        · have hf : (P.getEdgeOwner src e.1 n == h) = false := beq_eq_false_iff_ne.mpr hh'
          simp only [hh', hf, if_false, Bool.false_eq_true]
      · rw [hdone.gdata h (by rw [List.length_modify]; exact hh) hid, getD_modify hh, List.filter_cons]
        by_cases hh' : P.getEdgeOwner src e.1 n = h
        · simp only [hh', if_true, beq_self_eq_true, List.map_cons, List.append_assoc,
            List.singleton_append]
        · have hf : (P.getEdgeOwner src e.1 n == h) = false := beq_eq_false_iff_ne.mpr hh'
          simp only [hh', hf, if_false, Bool.false_eq_true]

/-- Where `sendEdges` starts constructing a node's edges: its `edge_begin` if it has a local id,
and 0 (node 0's `edge_begin`) if not. -/
theorem curEdge_eq (graph : CSRGraph E) (g2l : ℕ → Option ℕ) (src : ℕ) :
    (match g2l src with
      | some lsrc => graph.edge_begin lsrc
      | none => 0) = graph.edge_begin ((g2l src).getD 0) := by
  cases g2l src with
  | some l => rfl
  | none => rfl

end Send

section SendNode

variable (G : InputGraph E) (P : Policy) (g2l : ℕ → Option ℕ) (numHosts id : ℕ)
  (graph : CSRGraph E) (src : ℕ)

/-- **`sendEdges` for one node**: when the destinations of its edges kept here have local ids, it
constructs those edges from the node's `edge_begin`, and sends every other host with edges of
the node one item. -/
theorem sendEdgesNode_spec (hdst : ∀ e ∈ ownedEdges G P id src, (g2l e.1).isSome) :
    sendEdgesNode G P g2l numHosts id graph src = some
      (graph.writeEdges (graph.edge_begin ((g2l src).getD 0)) (localEdges G P g2l id src),
        ((List.range numHosts).filter fun h =>
          h != id && decide ((ownedEdges G P h src).length > 0)).map fun h =>
            (h, edgeItem G P h src)) := by
  obtain ⟨st', hst', hdone⟩ := @sendEdge_foldlM E P g2l id src (G.edges src).length (G.edges src)
    (fun e he hown => hdst e (List.mem_filter.mpr ⟨he, by simp [owner, hown]⟩))
    ⟨graph.edge_begin ((g2l src).getD 0), graph, List.replicate numHosts [],
      List.replicate numHosts []⟩
  unfold sendEdgesNode
  rw [curEdge_eq]
  dsimp only
  rw [hst']
  simp only [Option.bind_eq_bind, Option.bind_some, Option.pure_def, Option.some.injEq,
    Prod.mk.injEq]
  refine ⟨hdone.graph, ?_⟩
  -- every other host's vectors hold the destinations and data of its edges
  have hgdst : ∀ h < numHosts, h ≠ id → st'.gdst_vec.getD h [] = (ownedEdges G P h src).map Prod.fst :=
    fun h hh hid => by
      rw [hdone.gdst h (by rw [List.length_replicate]; exact hh) hid]
      simp [ownedEdges, owner, hh]
  have hgdata : ∀ h < numHosts, h ≠ id → st'.gdata_vec.getD h [] = (ownedEdges G P h src).map Prod.snd :=
    fun h hh hid => by
      rw [hdone.gdata h (by rw [List.length_replicate]; exact hh) hid]
      simp [ownedEdges, owner, hh]
  have hfilter : ((List.range numHosts).filter fun h =>
      h != id && decide ((st'.gdst_vec.getD h []).length > 0)) =
      (List.range numHosts).filter fun h => h != id && decide ((ownedEdges G P h src).length > 0) := by
    refine List.filter_congr fun h hh => ?_
    by_cases hid : h = id
    · simp [hid]
    · rw [hgdst h (List.mem_range.mp hh) hid, List.length_map]
  rw [hfilter]
  refine List.map_congr_left fun h hh => ?_
  obtain ⟨hh, hq⟩ := List.mem_filter.mp hh
  have hid : h ≠ id := by
    simp only [Bool.and_eq_true, bne_iff_ne] at hq
    exact hq.1
  rw [hgdst h (List.mem_range.mp hh) hid, hgdata h (List.mem_range.mp hh) hid]
  rfl

end SendNode

/-! ## 7. What one received item does -/

section Recv

variable [Inhabited E]

/-- `deserializeEdges`' loop over the first `k` received edges writes them as a run. -/
theorem deserializeEdges_foldlM (g2l : ℕ → Option ℕ) (graph : CSRGraph E) (es : List (ℕ × E))
    (hloc : ∀ e ∈ es, (g2l e.1).isSome) (cur : ℕ) {k : ℕ} (hk : k ≤ es.length) :
    (List.range k).foldlM (fun g i => (g2l ((es.map Prod.fst).getD i 0)).map fun ldst =>
        g.constructEdge (cur + i) ldst ((es.map Prod.snd).getD i default)) graph =
      some (graph.writeEdges cur ((es.map fun e => ((g2l e.1).getD 0, e.2)).take k)) := by
  induction k with
  | zero => rfl
  | succ k ih =>
    have hlt : k < es.length := by omega
    obtain ⟨ldst, hldst⟩ := Option.isSome_iff_exists.mp (hloc es[k] (List.getElem_mem hlt))
    have hfst : (es.map Prod.fst).getD k 0 = es[k].1 := by
      rw [getD_map_of_lt hlt _ es[k], List.getD_eq_getElem?_getD, List.getElem?_eq_getElem hlt,
        Option.getD_some]
    have hsnd : (es.map Prod.snd).getD k default = es[k].2 := by
      rw [getD_map_of_lt hlt _ es[k], List.getD_eq_getElem?_getD, List.getElem?_eq_getElem hlt,
        Option.getD_some]
    -- the first `k` edges, then edge `k` at `cur + k`
    have htake : (es.map fun e => ((g2l e.1).getD 0, e.2)).take (k + 1) =
        (es.map fun e => ((g2l e.1).getD 0, e.2)).take k ++ [(ldst, es[k].2)] := by
      simp only [List.take_add_one, List.getElem?_map, List.getElem?_eq_getElem hlt,
        Option.map_some, hldst, Option.getD_some, Option.toList_some]
    have hpos : ((es.map fun e => ((g2l e.1).getD 0, e.2)).take k).length = k := by
      rw [List.length_take, List.length_map]
      omega
    rw [List.range_succ, List.foldlM_append, ih (by omega)]
    simp only [Option.bind_eq_bind, Option.bind_some, List.foldlM_cons, List.foldlM_nil, hfst,
      hsnd, hldst, Option.map_some, Option.pure_def]
    rw [htake, CSRGraph.writeEdges_append, hpos, CSRGraph.writeEdges_singleton]

variable (G : InputGraph E) (P : Policy) (g2l : ℕ → Option ℕ) (id src : ℕ) (graph : CSRGraph E)

/-- **One received item**: when the node has local id `l`, its edges kept here have local
destinations and `l`'s edge range has room for exactly them, they are constructed from `l`'s
`edge_begin`. -/
theorem processEdgeItem_spec {l : ℕ} (hl : g2l src = some l)
    (hloc : ∀ e ∈ ownedEdges G P id src, (g2l e.1).isSome)
    (hlen : graph.edge_end l - graph.edge_begin l = (ownedEdges G P id src).length) :
    processEdgeItem g2l graph (edgeItem G P id src) =
      some (graph.writeEdges (graph.edge_begin l) (localEdges G P g2l id src)) := by
  unfold processEdgeItem deserializeEdges edgeItem
  dsimp only
  rw [hl, Option.bind_eq_bind, Option.bind_some, hlen,
    deserializeEdges_foldlM g2l graph _ hloc _ (Nat.le_refl _),
    List.take_of_length_le (Nat.le_of_eq (List.length_map _))]
  rfl

end Recv

/-! ## 8. A run of events -/

namespace LoadEvent

/-- The node whose edges an event writes. -/
def node : LoadEvent E → ℕ
  | .send src => src
  | .recv item => item.src

/-- Whether an event is a received item, which `receivedNodes` counts. -/
def isRecv : LoadEvent E → Bool
  | .send _ => false
  | .recv _ => true

end LoadEvent

section Run

variable [Inhabited E] (G : InputGraph E) (P : Policy) (g2l : ℕ → Option ℕ) (numHosts id : ℕ)
  (graph0 : CSRGraph E)

/-- The items an event sends: for a node read here, one per other host with edges of it. -/
def sentItems : LoadEvent E → List (ℕ × EdgeItem E)
  | .send src => ((List.range numHosts).filter fun h =>
      h != id && decide ((ownedEdges G P h src).length > 0)).map fun h => (h, edgeItem G P h src)
  | .recv _ => []

/-- The run an event writes: the node's edges kept here, from the node's `edge_begin`. -/
def eventRun (ev : LoadEvent E) : ℕ × List (ℕ × E) :=
  (graph0.edge_begin ((g2l ev.node).getD 0), localEdges G P g2l id ev.node)

/-- What lets an event run on the graph `graph0` was allocated as: the destinations of the node's
edges kept here have local ids, and a received item is the one the node's reader sends, for a
node with a local id whose edge range has room for exactly those edges. -/
structure LoadReady (ev : LoadEvent E) : Prop where
  dst : ∀ e ∈ ownedEdges G P id ev.node, (g2l e.1).isSome
  recv : ∀ item, ev = .recv item → item = edgeItem G P id item.src ∧
    ∃ l, g2l item.src = some l ∧
      graph0.edge_end l - graph0.edge_begin l = (ownedEdges G P id item.src).length

variable {G P g2l numHosts id graph0}

/-- **One event**: it writes its run, and adds its items to those sent and a received item to
`receivedNodes`; the edge ends stay as allocated. -/
theorem loadStep_spec {ev : LoadEvent E} (hr : LoadReady G P g2l id graph0 ev) (st : LoadState E)
    (hind : st.graph.edgeIndData = graph0.edgeIndData) :
    loadStep G P g2l numHosts id st ev = some
      { graph := st.graph.writeEdges (eventRun G P g2l id graph0 ev).1
          (eventRun G P g2l id graph0 ev).2
        sent := st.sent ++ sentItems G P numHosts id ev
        receivedNodes := st.receivedNodes + if ev.isRecv then 1 else 0 } := by
  cases ev with
  | send src =>
    rw [loadStep, sendEdgesNode_spec G P g2l numHosts id st.graph src hr.dst, Option.map_some,
      CSRGraph.edge_begin_congr hind]
    rfl
  | recv item =>
    obtain ⟨hitem, l, hl, hlen⟩ := hr.recv item rfl
    have hproc : processEdgeItem g2l st.graph item =
        some (st.graph.writeEdges (st.graph.edge_begin l) (localEdges G P g2l id item.src)) := by
      nth_rewrite 1 [hitem]
      exact processEdgeItem_spec G P g2l id item.src st.graph hl hr.dst
        (by rw [CSRGraph.edge_end_congr hind, CSRGraph.edge_begin_congr hind]; exact hlen)
    rw [loadStep, hproc, Option.map_some, CSRGraph.edge_begin_congr hind]
    simp only [eventRun, LoadEvent.node, hl, Option.getD_some, sentItems, List.append_nil,
      LoadEvent.isRecv, if_true]

/-- **A run of events**, by induction on the events still to run: each writes its run, in the
order of the run. -/
theorem foldlM_loadStep (events : List (LoadEvent E))
    (hready : ∀ ev ∈ events, LoadReady G P g2l id graph0 ev) (st : LoadState E)
    (hind : st.graph.edgeIndData = graph0.edgeIndData) :
    events.foldlM (loadStep G P g2l numHosts id) st = some
      { graph := (events.map (eventRun G P g2l id graph0)).foldl (fun g r => g.writeEdges r.1 r.2)
          st.graph
        sent := st.sent ++ events.flatMap (sentItems G P numHosts id)
        receivedNodes := st.receivedNodes + (events.filter LoadEvent.isRecv).length } := by
  induction events generalizing st with
  | nil => simp
  | cons ev evs ih =>
    rw [List.foldlM_cons, loadStep_spec (hready ev List.mem_cons_self) st hind,
      Option.bind_eq_bind, Option.bind_some,
      ih (fun ev' hev' => hready ev' (List.mem_cons_of_mem _ hev')) _
        (by rw [CSRGraph.edgeIndData_writeEdges]; exact hind)]
    simp only [List.map_cons, List.foldl_cons, List.flatMap_cons, List.append_assoc,
      List.filter_cons]
    cases hrv : ev.isRecv
    · simp
    · simp only [if_true, List.length_cons, Nat.add_assoc, Nat.add_comm 1]

/-- `loadEdges` from the allocated graph. -/
theorem loadEdges_eq (events : List (LoadEvent E))
    (hready : ∀ ev ∈ events, LoadReady G P g2l id graph0 ev) :
    loadEdges G P g2l numHosts id graph0 events = some
      { graph := (events.map (eventRun G P g2l id graph0)).foldl (fun g r => g.writeEdges r.1 r.2)
          graph0
        sent := events.flatMap (sentItems G P numHosts id)
        receivedNodes := (events.filter LoadEvent.isRecv).length } := by
  rw [loadEdges, foldlM_loadStep events hready _ rfl, List.nil_append, Nat.zero_add]

end Run

/-! ## 9. Runs over an allocated graph

The graph allocated for nodes `L`, where node `L[l]` is to get the edges `K L[l]`, and runs that
write `K g` from `g`'s `edge_begin`: once every node of `L` with edges has its run, every node has
its edges. Loading from messages and the edge-cut load are both such runs. -/

section Allocated

variable [Inhabited E]

omit [Inhabited E] in
theorem fixEndEdge_foldl_edgeDst (v : ℕ → ℕ) (ns : List ℕ) (g : CSRGraph E) :
    (ns.foldl (fun g n => g.fixEndEdge n (v n)) g).edgeDst = g.edgeDst ∧
      (ns.foldl (fun g n => g.fixEndEdge n (v n)) g).edgeData = g.edgeData := by
  induction ns generalizing g with
  | nil => exact ⟨rfl, rfl⟩
  | cons n ns ih => exact ih (g.fixEndEdge n (v n))

/-- The `fixEndEdge` loop over a prefix sum with one entry per node sets the edge ends to it. -/
theorem allocateGraph_edgeIndData (n m : ℕ) {pre : List ℕ} (hpre : pre.length = n) :
    (allocateGraph n m pre : CSRGraph E).edgeIndData = pre := by
  have hlen : ∀ (ns : List ℕ) (g : CSRGraph E),
      (ns.foldl (fun g k => g.fixEndEdge k (pre.getD k 0)) g).edgeIndData =
        ns.foldl (fun c k => c.set k (pre.getD k 0)) g.edgeIndData := by
    intro ns
    induction ns with
    | nil => intro g; rfl
    | cons k ns ih => intro g; exact ih (g.fixEndEdge k (pre.getD k 0))
  rw [allocateGraph, hlen]
  refine List.ext_getElem (by rw [length_foldl_set]; simp [CSRGraph.allocateFrom, hpre])
    fun j h1 h2 => ?_
  have hj : j < (CSRGraph.allocateFrom n m : CSRGraph E).edgeIndData.length := by
    simp [CSRGraph.allocateFrom]
    omega
  have hget := getD_foldl_set (fun k => pre.getD k 0) (List.range n) hj 0
  rw [if_pos (List.mem_range.mpr (by omega)), List.getD_eq_getElem?_getD,
    List.getElem?_eq_getElem h1, Option.getD_some, List.getD_eq_getElem?_getD,
    List.getElem?_eq_getElem h2, Option.getD_some] at hget
  exact hget

/-- The number of edges each node of `L` gets from `K`. -/
def runCounts (K : ℕ → List (ℕ × E)) (L : List ℕ) : List ℕ :=
  L.map fun g => (K g).length

/-- The graph allocated for the nodes `L` with the edges `K` gives each: room for all of them, and
every node's edges ending at the running sum of the counts. -/
def allocatedFor (K : ℕ → List (ℕ × E)) (L : List ℕ) : CSRGraph E :=
  allocateGraph L.length (runCounts K L).sum (prefixSumInPlace (runCounts K L))

/-- The run node `src` writes on a graph allocated as `graph0`: `K src` from its `edge_begin`. -/
def nodeRun (graph0 : CSRGraph E) (g2l : ℕ → Option ℕ) (K : ℕ → List (ℕ × E)) (src : ℕ) :
    ℕ × List (ℕ × E) :=
  (graph0.edge_begin ((g2l src).getD 0), K src)

variable {K : ℕ → List (ℕ × E)} {L : List ℕ}

omit [Inhabited E] in
@[simp] theorem length_runCounts : (runCounts K L).length = L.length := List.length_map _

theorem allocatedFor_edgeIndData :
    (allocatedFor K L).edgeIndData = prefixSumInPlace (runCounts K L) :=
  allocateGraph_edgeIndData _ _ (by rw [length_prefixSumInPlace, length_runCounts])

theorem length_allocatedFor_edgeDst : (allocatedFor K L).edgeDst.length = (runCounts K L).sum := by
  rw [allocatedFor, allocateGraph, (fixEndEdge_foldl_edgeDst _ _ _).1]
  simp [CSRGraph.allocateFrom]

theorem length_allocatedFor_edgeData :
    (allocatedFor K L).edgeData.length = (runCounts K L).sum := by
  rw [allocatedFor, allocateGraph, (fixEndEdge_foldl_edgeDst _ _ _).2]
  simp [CSRGraph.allocateFrom]

omit [Inhabited E] in
/-- The nodes before `l` get as many edges as `l`'s edges start after. -/
theorem sum_take_runCounts (l : ℕ) :
    ((L.take l).map fun x => (K x).length).sum = ((runCounts K L).take l).sum := by
  rw [runCounts, List.map_take]

/-- Node `l`'s edges start after the edges of the nodes before it. -/
theorem allocatedFor_edge_begin {l : ℕ} (hl : l < L.length) :
    (allocatedFor K L).edge_begin l = ((runCounts K L).take l).sum := by
  rw [CSRGraph.edge_begin, allocatedFor_edgeIndData]
  rcases Nat.eq_zero_or_pos l with rfl | hpos
  · rfl
  · rw [if_neg (by omega), getD_prefixSumInPlace _ _ (by rw [length_runCounts]; omega),
      Nat.sub_add_cancel hpos]

/-- Node `l`'s edges end after its own. -/
theorem allocatedFor_edge_end {l : ℕ} (hl : l < L.length) :
    (allocatedFor K L).edge_end l = ((runCounts K L).take l).sum + (K L[l]).length := by
  rw [CSRGraph.edge_end, allocatedFor_edgeIndData,
    getD_prefixSumInPlace _ _ (by rw [length_runCounts]; exact hl),
    List.sum_take_succ _ _ (by rw [length_runCounts]; exact hl)]
  simp [runCounts]

/-- Every node's edges start within the edge arrays. -/
theorem allocatedFor_edge_begin_le (n : ℕ) :
    (allocatedFor K L).edge_begin n ≤ (runCounts K L).sum := by
  by_cases hn : n < L.length
  · rw [allocatedFor_edge_begin hn]
    have := List.sum_take_add_sum_drop (runCounts K L) n
    omega
  · rw [CSRGraph.edge_begin, allocatedFor_edgeIndData]
    split
    · exact Nat.zero_le _
    · by_cases hn' : n - 1 < L.length
      · rw [getD_prefixSumInPlace _ _ (by rw [length_runCounts]; exact hn')]
        have := List.sum_take_add_sum_drop (runCounts K L) (n - 1 + 1)
        omega
      · rw [getD_of_le (by rw [length_prefixSumInPlace, length_runCounts]; omega)]
        exact Nat.zero_le _

section Covered

variable {g2l : ℕ → Option ℕ}
  (hg2l : ∀ g l, g2l g = some l ↔ l < L.length ∧ L.getD l 0 = g)
include hg2l

theorem g2l_getElem {l : ℕ} (hl : l < L.length) : g2l L[l] = some l :=
  (hg2l _ l).mpr ⟨hl, by rw [List.getD_eq_getElem?_getD, List.getElem?_eq_getElem hl,
    Option.getD_some]⟩

theorem exists_g2l_of_mem {g : ℕ} (hg : g ∈ L) :
    ∃ l, ∃ hl : l < L.length, L[l] = g ∧ g2l g = some l := by
  obtain ⟨l, hl, rfl⟩ := List.getElem_of_mem hg
  exact ⟨l, hl, rfl, g2l_getElem hg2l hl⟩

variable (hsrc : ∀ g, K g ≠ [] → g ∈ L)
include hsrc

/-- A node's run writes its edges where the edges of the nodes of `L`, end to end, have them; a
node with none writes nothing. -/
theorem nodeRun_agree (src : ℕ) :
    ∀ j (hj : j < (nodeRun (allocatedFor K L) g2l K src).2.length),
      (nodeRun (allocatedFor K L) g2l K src).2[j] =
        (L.flatMap K).getD ((nodeRun (allocatedFor K L) g2l K src).1 + j) (0, default) := by
  by_cases hne : K src = []
  · intro j hj
    simp [nodeRun, hne] at hj
  · obtain ⟨l, hl, rfl, hg⟩ := exists_g2l_of_mem hg2l (hsrc _ hne)
    rw [nodeRun, hg, Option.getD_some, allocatedFor_edge_begin hl, ← sum_take_runCounts]
    intro j hj
    rw [getD_flatMap_sum L _ _ hl hj, List.getD_eq_getElem?_getD, List.getElem?_eq_getElem hj,
      Option.getD_some]

/-- Every node's run lies within the edge arrays. -/
theorem nodeRun_fit (src : ℕ) :
    (nodeRun (allocatedFor K L) g2l K src).1 + (nodeRun (allocatedFor K L) g2l K src).2.length ≤
      (runCounts K L).sum := by
  by_cases hne : K src = []
  · rw [nodeRun, hne, List.length_nil, Nat.add_zero]
    exact allocatedFor_edge_begin_le _
  · obtain ⟨l, hl, rfl, hg⟩ := exists_g2l_of_mem hg2l (hsrc _ hne)
    rw [nodeRun, hg, Option.getD_some, allocatedFor_edge_begin hl]
    have hsucc := List.sum_take_succ (runCounts K L) l (by rw [length_runCounts]; exact hl)
    have hdrop := List.sum_take_add_sum_drop (runCounts K L) (l + 1)
    simp only [runCounts, List.getElem_map] at hsucc hdrop ⊢
    omega

/-- **Runs that cover the nodes build their edges**: after the runs of a list of nodes in which
every node of `L` with edges appears, in any order, every node of `L` holds exactly its edges. -/
theorem edges_foldl_nodeRun {nodes : List ℕ} (hcover : ∀ g ∈ L, K g ≠ [] → g ∈ nodes) {l : ℕ}
    (hl : l < L.length) :
    ((nodes.map (nodeRun (allocatedFor K L) g2l K)).foldl (fun g r => g.writeEdges r.1 r.2)
        (allocatedFor K L)).edges l = K L[l] := by
  set runs := nodes.map (nodeRun (allocatedFor K L) g2l K) with hruns
  have hind := CSRGraph.edgeIndData_foldl_writeEdges runs (allocatedFor K L)
  rw [CSRGraph.edges, CSRGraph.edge_begin_congr hind, CSRGraph.edge_end_congr hind,
    allocatedFor_edge_end hl, allocatedFor_edge_begin hl, Nat.add_sub_cancel_left,
    List.range'_eq_map_range, List.map_map]
  -- every position of `l`'s range is written by `l`'s run, with `l`'s edges
  refine (map_range_eq_map (K L[l]) ((0, default) : ℕ × E) _ (fun x => x) fun j hj => ?_).trans
    (List.map_id' _)
  have hne : K L[l] ≠ [] := List.ne_nil_of_length_pos (Nat.lt_of_le_of_lt (Nat.zero_le j) hj)
  have hrun : nodeRun (allocatedFor K L) g2l K L[l] = (((runCounts K L).take l).sum, K L[l]) := by
    rw [nodeRun, g2l_getElem hg2l hl, Option.getD_some, allocatedFor_edge_begin hl]
  have hread := CSRGraph.foldl_writeEdges_getD (fun p => (L.flatMap K).getD p (0, default))
    default runs (allocatedFor K L)
    (fun r hr => by
      obtain ⟨src, -, rfl⟩ := List.mem_map.mp hr
      have := nodeRun_fit hg2l hsrc src
      rw [length_allocatedFor_edgeDst, length_allocatedFor_edgeData]
      exact ⟨this, this⟩)
    (fun r hr => by
      obtain ⟨src, -, rfl⟩ := List.mem_map.mp hr
      exact nodeRun_agree hg2l hsrc src)
    (p := ((runCounts K L).take l).sum + j)
    ⟨_, List.mem_map_of_mem (hcover L[l] (List.getElem_mem hl) hne), by
      rw [hrun]
      exact ⟨Nat.le_add_right _ _, Nat.add_lt_add_left hj _⟩⟩
  -- the target at `l`'s range is `l`'s edges
  have htarget := getD_flatMap_sum L K (0, default) hl hj
  rw [sum_take_runCounts] at htarget
  rw [htarget] at hread
  rw [Function.comp_apply, hread.1, hread.2]

end Covered

end Allocated

/-! ## 10. The local graph after edge loading -/

section Graph

variable [Inhabited E] (G : InputGraph E) (P : Policy) (id : ℕ)

/-- The number of edges of each local node that host `id` keeps. -/
def keptCounts (L : List ℕ) : List ℕ :=
  L.map fun g => (ownedEdges G P id g).length

/-- The graph the constructor allocates for the local nodes `L`: room for their kept edges, and
every node's edges ending at the running sum of the counts. -/
def allocatedGraph (L : List ℕ) : CSRGraph E :=
  allocateGraph L.length (keptCounts G P id L).sum (prefixSumInPlace (keptCounts G P id L))

variable {G P id} {L : List ℕ}

/-- The allocated graph is the one for the kept edges with local destinations. -/
theorem allocatedGraph_eq (g2l : ℕ → Option ℕ) :
    allocatedGraph G P id L = allocatedFor (localEdges G P g2l id) L := by
  have hc : keptCounts G P id L = runCounts (localEdges G P g2l id) L :=
    List.map_congr_left fun g _ => (List.length_map _).symm
  rw [allocatedGraph, allocatedFor, hc]

omit [Inhabited E] in
/-- An event's run is its node's run of kept edges. -/
theorem map_eventRun (g2l : ℕ → Option ℕ) (graph0 : CSRGraph E) (events : List (LoadEvent E)) :
    events.map (eventRun G P g2l id graph0) =
      (events.map LoadEvent.node).map (nodeRun graph0 g2l (localEdges G P g2l id)) := by
  rw [List.map_map]
  rfl

section Loaded

variable {g2l : ℕ → Option ℕ}
  (hg2l : ∀ g l, g2l g = some l ↔ l < L.length ∧ L.getD l 0 = g)
  (hsrc : ∀ g, ownedEdges G P id g ≠ [] → g ∈ L)
include hg2l hsrc

/-- **Edge loading builds every local node's edges**: for local nodes `L` with `g2l` their
inverse, where every node with kept edges and every destination of a kept edge is local, any
order of the events in which every received item is the one its node's reader sends and every
local node with kept edges has an event gives every local node exactly its kept edges, in input
order, with local destinations; the items sent are those of the send events, and
`receivedNodes` counts the received ones. -/
theorem loadEdges_spec (numHosts : ℕ) (hdst : ∀ g, ∀ e ∈ ownedEdges G P id g, e.1 ∈ L)
    {events : List (LoadEvent E)}
    (hrecv : ∀ item, LoadEvent.recv item ∈ events →
      item = edgeItem G P id item.src ∧ ownedEdges G P id item.src ≠ [])
    (hcover : ∀ g ∈ L, ownedEdges G P id g ≠ [] → ∃ ev ∈ events, ev.node = g) :
    ∃ st, loadEdges G P g2l numHosts id (allocatedGraph G P id L) events = some st ∧
      (∀ l (hl : l < L.length), st.graph.edges l = localEdges G P g2l id L[l]) ∧
      st.sent = events.flatMap (sentItems G P numHosts id) ∧
      st.receivedNodes = (events.filter LoadEvent.isRecv).length := by
  rw [allocatedGraph_eq g2l]
  -- a node has local kept edges exactly when it has kept edges
  have hne : ∀ g, localEdges G P g2l id g ≠ [] → ownedEdges G P id g ≠ [] :=
    fun g h h0 => h (by rw [localEdges, h0, List.map_nil])
  -- every event can run
  have hready : ∀ ev ∈ events, LoadReady G P g2l id (allocatedFor (localEdges G P g2l id) L) ev := by
    intro ev hev
    refine ⟨fun e he => ?_, fun item hitem => ?_⟩
    · obtain ⟨l, -, -, hg⟩ := exists_g2l_of_mem hg2l (hdst _ e he)
      rw [hg]
      rfl
    · subst hitem
      obtain ⟨hit, hkept⟩ := hrecv item hev
      obtain ⟨l, hl, hnode, hg⟩ := exists_g2l_of_mem hg2l (hsrc _ hkept)
      refine ⟨hit, l, hg, ?_⟩
      rw [allocatedFor_edge_end hl, allocatedFor_edge_begin hl, hnode, localEdges, List.length_map]
      omega
  refine ⟨_, loadEdges_eq events hready, fun l hl => ?_, rfl, rfl⟩
  rw [map_eventRun]
  refine edges_foldl_nodeRun hg2l (fun g h => hsrc g (hne g h)) (fun g hg hK => ?_) hl
  obtain ⟨ev, hev, rfl⟩ := hcover g hg (hne g hK)
  exact List.mem_map_of_mem hev

end Loaded

end Graph

end Galois.Cusp
