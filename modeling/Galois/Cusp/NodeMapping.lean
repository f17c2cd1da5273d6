import Galois.Cusp.InspectionData
import Galois.Gluon.Message

/-!
# CuSP: numbering the local nodes (NewGeneric.h, nodeMapping)

From the counts every reader sent (`numOutgoingEdges[h]`, one entry per node `h` read) and the
mirror bits, a host numbers its local nodes in three runs and builds the edge prefix sum:

* `inspectMasterNodes` -- per reader in host order, the nodes it read whose master is this host,
  with their edge counts (zeroed in `numOutgoingEdges` so they are not taken twice);
* `inspectOutgoingNodes` -- per reader, the remaining nodes with edges here (outgoing proxies);
* `createIntermediateMetadata` -- the prefix sum and the global-to-local map of these nodes;
* `inspectIncomingNodes` -- the nodes with a mirror bit and no local id yet, with no edges;
* `finalizeInspection` -- the rest of the prefix sum and of the map, and `numEdges`.

Each run appends through the two `on_each` passes of `Galois.Gstl`. `nodeMapping_spec` says what
the numbering is, for any counts of the right shape and any mirror bits: the masters in id order,
then the outgoing proxies, then the incoming mirrors (`localNodes`), the map its inverse, and the
prefix sum the running sums of the counts.
-/

namespace Galois.Cusp

open Compaction Galois.Gluon

/-! ## 1. The state -/

/-- The `DistGraph` fields node mapping fills, and the counts it consumes. The global-to-local
map (`std::unordered_map`) is a partial function: `G2L[k] = v` is an update, `count(k)` is
`isSome`. -/
structure MapState where
  numOutgoingEdges : List (List ℕ)
  prefixSumOfEdges : List ℕ
  localToGlobalVector : List ℕ
  globalToLocalMap : ℕ → Option ℕ
  numNodes : ℕ
  numOwned : ℕ
  numNodesWithEdges : ℕ
  numEdges : ℕ
  nodesToReceive : ℕ

/-- The state before node mapping: empty vectors and map, zero counters. -/
def MapState.init (numOutgoingEdges : List (List ℕ)) : MapState where
  numOutgoingEdges := numOutgoingEdges
  prefixSumOfEdges := []
  localToGlobalVector := []
  globalToLocalMap := fun _ => none
  numNodes := 0
  numOwned := 0
  numNodesWithEdges := 0
  numEdges := 0
  nodesToReceive := 0

/-! ## 2. The five phases -/

/-- One reader `h` in `inspectMasterNodes`: count the nodes it read that this host masters,
grow the prefix sum and the map vector, and write each such node with its edge count (zero if
`h` sent none); the second component accumulates `toReceive`, the nodes with edges from another
reader. -/
def inspectMasterNodesHost (P : Policy) (gid2host : ℕ → ℕ × ℕ) (myHID nthreads : ℕ)
    (acc : MapState × ℕ) (h : ℕ) : MapState × ℕ :=
  let s := acc.1
  let startNode := (gid2host h).1
  let hostSize := (gid2host h).2 - startNode
  let isMaster : ℕ → Bool := fun i => P.retrieveMaster (i + startNode) == myHID
  let threadPrefixSums := onEachCount nthreads hostSize isMaster
  let newMasterNodes := threadPrefixSums.getD (nthreads - 1) 0
  let counts := s.numOutgoingEdges.getD h []
  let myEdges : ℕ → ℕ := fun i => if counts.length > 0 then counts.getD i 0 else 0
  let prefixSumOfEdges := resizeArr s.prefixSumOfEdges (s.numNodes + newMasterNodes)
  let localToGlobalVector := resizeArr s.localToGlobalVector (s.numNodes + newMasterNodes)
  if newMasterNodes > 0 then
    ({ s with
        numOutgoingEdges :=
          if counts.length > 0 then
            s.numOutgoingEdges.set h (counts.mapIdx fun i c => if isMaster i then 0 else c)
          else s.numOutgoingEdges
        prefixSumOfEdges :=
          onEachWrite nthreads hostSize isMaster myEdges threadPrefixSums s.numNodes
            prefixSumOfEdges
        localToGlobalVector :=
          onEachWrite nthreads hostSize isMaster (· + startNode) threadPrefixSums s.numNodes
            localToGlobalVector
        numNodes := s.numNodes + newMasterNodes },
      acc.2 + ((List.range hostSize).filter fun i =>
        isMaster i && (decide (myEdges i > 0) && h != myHID)).length)
  else ({ s with prefixSumOfEdges, localToGlobalVector }, acc.2)

/-- `inspectMasterNodes`: every reader in host order; the masters are the first `numOwned`
local nodes. -/
def inspectMasterNodes (P : Policy) (gid2host : ℕ → ℕ × ℕ) (numHosts myHID nthreads : ℕ)
    (s : MapState) : MapState :=
  let r := (List.range numHosts).foldl (inspectMasterNodesHost P gid2host myHID nthreads) (s, 0)
  { r.1 with nodesToReceive := r.1.nodesToReceive + r.2, numOwned := r.1.numNodes }

/-- One reader `h` in `inspectOutgoingNodes`: if it sent counts, append the nodes with a
non-zero count left (the masters were zeroed) and their counts, then clear its counts. -/
def inspectOutgoingNodesHost (gid2host : ℕ → ℕ × ℕ) (myHID nthreads : ℕ) (acc : MapState × ℕ)
    (h : ℕ) : MapState × ℕ :=
  let s := acc.1
  let counts := s.numOutgoingEdges.getD h []
  let hostSize := counts.length
  -- if i got no outgoing info from this host, safely continue to next one
  if hostSize = 0 then acc
  else
    let hasEdges : ℕ → Bool := fun i => decide (counts.getD i 0 > 0)
    let threadPrefixSums := onEachCount nthreads hostSize hasEdges
    let newOutgoingNodes := threadPrefixSums.getD (nthreads - 1) 0
    let prefixSumOfEdges := resizeArr s.prefixSumOfEdges (s.numNodes + newOutgoingNodes)
    let localToGlobalVector := resizeArr s.localToGlobalVector (s.numNodes + newOutgoingNodes)
    let startNode := (gid2host h).1
    let s : MapState :=
      if newOutgoingNodes > 0 then
        { s with
          prefixSumOfEdges :=
            onEachWrite nthreads hostSize hasEdges (counts.getD · 0) threadPrefixSums s.numNodes
              prefixSumOfEdges
          localToGlobalVector :=
            onEachWrite nthreads hostSize hasEdges (startNode + ·) threadPrefixSums s.numNodes
              localToGlobalVector
          numNodes := s.numNodes + newOutgoingNodes }
      else { s with prefixSumOfEdges, localToGlobalVector }
    ({ s with numOutgoingEdges := s.numOutgoingEdges.set h [] },
      acc.2 + ((List.range hostSize).filter fun i => hasEdges i && h != myHID).length)

/-- `inspectOutgoingNodes`: every reader in host order; the nodes so far are those with edges. -/
def inspectOutgoingNodes (gid2host : ℕ → ℕ × ℕ) (numHosts myHID nthreads : ℕ) (s : MapState) :
    MapState :=
  let r := (List.range numHosts).foldl (inspectOutgoingNodesHost gid2host myHID nthreads) (s, 0)
  { r.1 with nodesToReceive := r.1.nodesToReceive + r.2, numNodesWithEdges := r.1.numNodes }

/-- One round of the prefix sum and of the map: `prefixSumOfEdges[i] += prefixSumOfEdges[i - 1]`
and `globalToLocalMap[localToGlobalVector[i]] = i`. The code reads index `i - 1` of an unsigned
`i`; the rounds start at 1, or at `numNodesWithEdges`, which is 0 only when no node has edges
(then every entry is 0 and the round changes nothing). -/
def mapRound (l2g : List ℕ) (acc : List ℕ × (ℕ → Option ℕ)) (i : ℕ) :
    List ℕ × (ℕ → Option ℕ) :=
  (acc.1.set i (acc.1.getD i 0 + acc.1.getD (i - 1) 0),
    Function.update acc.2 (l2g.getD i 0) (some i))

/-- `createIntermediateMetadata`: map the first node, then prefix-sum and map the rest of the
nodes with edges. -/
def createIntermediateMetadata (s : MapState) : MapState :=
  if s.numNodes = 0 then s
  else
    let g2l := Function.update s.globalToLocalMap (s.localToGlobalVector.getD 0 0) (some 0)
    let r := (List.range' 1 (s.numNodesWithEdges - 1)).foldl (mapRound s.localToGlobalVector)
      (s.prefixSumOfEdges, g2l)
    { s with prefixSumOfEdges := r.1, globalToLocalMap := r.2 }

/-- `inspectIncomingNodes`: the nodes below `numGlobalNodes` with a mirror bit and no local id
yet, appended with no edges. -/
def inspectIncomingNodes (numGlobalNodes nthreads : ℕ) (hasIncomingEdge : DynamicBitSet)
    (s : MapState) : MapState :=
  let isNew : ℕ → Bool := fun i => hasIncomingEdge.test i && (s.globalToLocalMap i).isNone
  let threadPrefixSums := onEachCount nthreads numGlobalNodes isNew
  let newIncomingNodes := threadPrefixSums.getD (nthreads - 1) 0
  let prefixSumOfEdges := resizeArr s.prefixSumOfEdges (s.numNodes + newIncomingNodes)
  let localToGlobalVector := resizeArr s.localToGlobalVector (s.numNodes + newIncomingNodes)
  if newIncomingNodes > 0 then
    { s with
      prefixSumOfEdges :=
        onEachWrite nthreads numGlobalNodes isNew (fun _ => 0) threadPrefixSums s.numNodes
          prefixSumOfEdges
      localToGlobalVector :=
        onEachWrite nthreads numGlobalNodes isNew id threadPrefixSums s.numNodes
          localToGlobalVector
      numNodes := s.numNodes + newIncomingNodes }
  else { s with prefixSumOfEdges, localToGlobalVector }

/-- `finalizeInspection`: prefix-sum and map the incoming nodes, and read `numEdges` off the
last prefix sum. -/
def finalizeInspection (s : MapState) : MapState :=
  let r := (List.range' s.numNodesWithEdges (s.numNodes - s.numNodesWithEdges)).foldl
    (mapRound s.localToGlobalVector) (s.prefixSumOfEdges, s.globalToLocalMap)
  { s with
    prefixSumOfEdges := r.1
    globalToLocalMap := r.2
    numEdges := if r.1.length ≠ 0 then r.1.getLast?.getD 0 else 0 }

/-- `nodeMapping` on host `myHID`, from the counts every reader sent and the mirror bits. -/
def nodeMapping (P : Policy) (gid2host : ℕ → ℕ × ℕ) (numHosts myHID numGlobalNodes nthreads : ℕ)
    (numOutgoingEdges : List (List ℕ)) (hasIncomingEdge : DynamicBitSet) : MapState :=
  let s := inspectMasterNodes P gid2host numHosts myHID nthreads (MapState.init numOutgoingEdges)
  let s := inspectOutgoingNodes gid2host numHosts myHID nthreads s
  let s := createIntermediateMetadata s
  let s := inspectIncomingNodes numGlobalNodes nthreads hasIncomingEdge s
  finalizeInspection s

/-! ## 3. Appending a run -/

/-- `resize` to the old length plus `k` pads with `k` defaults. -/
theorem resizeArr_add {α : Type} [Inhabited α] (a : List α) (k : ℕ) :
    resizeArr a (a.length + k) = a ++ List.replicate k default := by
  simp [resizeArr]

section Run

variable {α : Type} [Inhabited α] {nthreads : ℕ} (hT : 0 < nthreads) (n : ℕ) (p : ℕ → Bool)
  (g : ℕ → α) (a : List α)
include hT

/-- A phase with hits grows the vector by their number and writes them there: it appends them. -/
theorem onEachWrite_resizeArr :
    onEachWrite nthreads n p g (onEachCount nthreads n p) a.length
        (resizeArr a (a.length + (onEachCount nthreads n p).getD (nthreads - 1) 0)) =
      a ++ ((List.range n).filter p).map g := by
  rw [onEachCount_last hT, resizeArr_add, onEachWrite_append hT]

/-- A phase without hits only resizes to the same length: it appends nothing. -/
theorem resizeArr_of_no_hits (h0 : ¬ (onEachCount nthreads n p).getD (nthreads - 1) 0 > 0) :
    resizeArr a (a.length + (onEachCount nthreads n p).getD (nthreads - 1) 0) =
      a ++ ((List.range n).filter p).map g := by
  rw [onEachCount_last hT] at h0 ⊢
  have hnil : (List.range n).filter p = [] := List.eq_nil_of_length_eq_zero (by omega)
  rw [hnil, List.length_nil, Nat.add_zero, resizeArr_length, List.map_nil, List.append_nil]

end Run

/-- The nodes numbered so far are `L`, and the prefix-sum vector holds `pre`, one entry each. -/
structure Numbered (s : MapState) (L pre : List ℕ) : Prop where
  l2g : s.localToGlobalVector = L
  sums : s.prefixSumOfEdges = pre
  numNodes : s.numNodes = L.length
  length : pre.length = L.length

/-! ## 4. The masters -/

section Masters

variable (P : Policy) (gid2host : ℕ → ℕ × ℕ) (myHID : ℕ)

/-- Reader `h`'s count for node `g`: entry `g - gid2host[h].first` of what it sent, zero if it
sent nothing. -/
def countAt (counts : List (List ℕ)) (h g : ℕ) : ℕ :=
  (counts.getD h []).getD (g - (gid2host h).1) 0

/-- The nodes reader `h` read whose master is this host. -/
def hostMasters (h : ℕ) : List ℕ :=
  (hostRange gid2host h).filter fun g => P.retrieveMaster g == myHID

/-- Reader `h`'s counts with this host's masters zeroed, as `inspectMasterNodes` leaves them. -/
def zeroMasters (h : ℕ) (c : List ℕ) : List ℕ :=
  c.mapIdx fun i x => if P.retrieveMaster (i + (gid2host h).1) == myHID then 0 else x

/-- Counts of the right shape: none, or one per node the reader read. -/
def CountsShape (counts : List (List ℕ)) (h : ℕ) : Prop :=
  (counts.getD h []).length = 0 ∨
    (counts.getD h []).length = (gid2host h).2 - (gid2host h).1

variable {P gid2host myHID}

theorem zeroMasters_eq_self {h : ℕ} {c : List ℕ}
    (hno : ∀ i < c.length, (P.retrieveMaster (i + (gid2host h).1) == myHID) = false) :
    zeroMasters P gid2host myHID h c = c := by
  refine List.ext_getElem (by simp [zeroMasters]) fun i h1 h2 => ?_
  simp only [zeroMasters, List.getElem_mapIdx, hno i h2, Bool.false_eq_true, if_false]

/-- **One reader's turn in `inspectMasterNodes`**: its masters are appended with their counts,
its counts lose their masters' entries, and `toReceive` counts the masters with edges from
another reader. -/
theorem inspectMasterNodesHost_spec (hT : 0 < nthreads) {acc : MapState × ℕ} {L pre : List ℕ}
    (hnum : Numbered acc.1 L pre) (h : ℕ)
    (hshape : CountsShape gid2host acc.1.numOutgoingEdges h) :
    Numbered (inspectMasterNodesHost P gid2host myHID nthreads acc h).1
        (L ++ hostMasters P gid2host myHID h)
        (pre ++ (hostMasters P gid2host myHID h).map
          (countAt gid2host acc.1.numOutgoingEdges h)) ∧
      (∀ h', (inspectMasterNodesHost P gid2host myHID nthreads acc h).1.numOutgoingEdges.getD
          h' [] = if h' = h then zeroMasters P gid2host myHID h (acc.1.numOutgoingEdges.getD h [])
            else acc.1.numOutgoingEdges.getD h' []) ∧
      (inspectMasterNodesHost P gid2host myHID nthreads acc h).2 = acc.2 +
        ((hostMasters P gid2host myHID h).filter fun g =>
          decide (countAt gid2host acc.1.numOutgoingEdges h g > 0) && h != myHID).length ∧
      (inspectMasterNodesHost P gid2host myHID nthreads acc h).1.globalToLocalMap =
        acc.1.globalToLocalMap ∧
      (inspectMasterNodesHost P gid2host myHID nthreads acc h).1.nodesToReceive =
        acc.1.nodesToReceive := by
  obtain ⟨s, toReceive⟩ := acc
  obtain ⟨hl2g, hpre, hnn, hlen⟩ := hnum
  dsimp only at hl2g hpre hnn hshape ⊢
  unfold inspectMasterNodesHost
  dsimp only
  unfold CountsShape at hshape
  generalize hc : s.numOutgoingEdges.getD h [] = c at hshape ⊢
  -- the masters among the offsets are the masters among the nodes
  have hM : ((List.range ((gid2host h).2 - (gid2host h).1)).filter fun i =>
      P.retrieveMaster (i + (gid2host h).1) == myHID).map (· + (gid2host h).1) =
        hostMasters P gid2host myHID h :=
    map_filter_range_add _ _ fun g => P.retrieveMaster g == myHID
  have hcount : ∀ i, (if c.length > 0 then c.getD i 0 else 0) = c.getD i 0 := by
    intro i
    rcases Nat.eq_zero_or_pos c.length with hc0 | hc0
    · rw [if_neg (by omega), List.eq_nil_of_length_eq_zero hc0]
      rfl
    · exact if_pos hc0
  have hE : ((List.range ((gid2host h).2 - (gid2host h).1)).filter fun i =>
        P.retrieveMaster (i + (gid2host h).1) == myHID).map
        (fun i => if c.length > 0 then c.getD i 0 else 0) =
      (hostMasters P gid2host myHID h).map (countAt gid2host s.numOutgoingEdges h) := by
    rw [map_filter_range_shift (gid2host h).1 _ (fun g => P.retrieveMaster g == myHID),
      hostMasters, hostRange]
    refine List.map_congr_left fun g _ => ?_
    rw [countAt, hc, hcount]
  have hR : ((List.range ((gid2host h).2 - (gid2host h).1)).filter fun i =>
        (P.retrieveMaster (i + (gid2host h).1) == myHID) &&
          (decide ((if c.length > 0 then c.getD i 0 else 0) > 0) && h != myHID)).length =
      ((hostMasters P gid2host myHID h).filter fun g =>
        decide (countAt gid2host s.numOutgoingEdges h g > 0) && h != myHID).length := by
    rw [← hM, List.filter_map, List.length_map, List.filter_filter]
    refine congrArg List.length (List.filter_congr fun i _ => ?_)
    rw [Function.comp_apply, countAt, hc, Nat.add_sub_cancel, hcount, Bool.and_comm]
  by_cases hk : (onEachCount nthreads ((gid2host h).2 - (gid2host h).1) fun i =>
      P.retrieveMaster (i + (gid2host h).1) == myHID).getD (nthreads - 1) 0 > 0
  · rw [if_pos hk]
    refine ⟨⟨?_, ?_, ?_, ?_⟩, fun h' => ?_, ?_, rfl, rfl⟩
    · rw [hl2g, hnn, onEachWrite_resizeArr hT, hM]
    · rw [hpre, hnn, ← hlen, onEachWrite_resizeArr hT, hE]
    · rw [hnn, onEachCount_last hT, ← hM, List.length_append, List.length_map]
    · simp [hlen]
    · -- the reader's counts lose their masters' entries
      by_cases hh' : h' = h
      · rw [if_pos hh', hh']
        rcases Nat.eq_zero_or_pos c.length with hc0 | hc0
        · rw [if_neg (by omega), hc, List.eq_nil_of_length_eq_zero hc0]
          rfl
        · have hlt : h < s.numOutgoingEdges.length := by
            by_contra hge
            rw [← hc, getD_of_le (by omega)] at hc0
            exact absurd hc0 (by simp)
          rw [if_pos hc0, getD_set_of_lt hlt, if_pos rfl]
          rfl
      · rw [if_neg hh']
        split
        · rw [List.getD_eq_getElem?_getD, List.getElem?_set_ne (Ne.symm hh'),
            ← List.getD_eq_getElem?_getD]
        · rfl
    · rw [hR]
  · rw [if_neg hk]
    have hnil : (List.range ((gid2host h).2 - (gid2host h).1)).filter
        (fun i => P.retrieveMaster (i + (gid2host h).1) == myHID) = [] := by
      rw [onEachCount_last hT] at hk
      exact List.eq_nil_of_length_eq_zero (by omega)
    have hM0 : hostMasters P gid2host myHID h = [] := by rw [← hM, hnil, List.map_nil]
    refine ⟨⟨?_, ?_, ?_, ?_⟩, fun h' => ?_, ?_, rfl, rfl⟩
    · rw [hl2g, hnn, resizeArr_of_no_hits hT _ _ (· + (gid2host h).1) L hk, hM]
    · rw [hpre, hnn, ← hlen, resizeArr_of_no_hits hT _ _
        (fun i => if c.length > 0 then c.getD i 0 else 0) pre hk, hE]
    · rw [hM0, List.append_nil]
      exact hnn
    · simp [hlen]
    · -- no master here: the counts stay as they are
      by_cases hh' : h' = h
      · rw [if_pos hh', hh', hc, zeroMasters_eq_self fun i hi => ?_]
        have hin : i ∉ (List.range ((gid2host h).2 - (gid2host h).1)).filter
            (fun i => P.retrieveMaster (i + (gid2host h).1) == myHID) := by
          rw [hnil]
          exact List.not_mem_nil
        rw [List.mem_filter, not_and, List.mem_range] at hin
        rcases hshape with h0 | hn
        · omega
        · simpa using hin (by omega)
      · rw [if_neg hh']
    · rw [hM0]
      rfl

theorem countAt_congr {counts counts' : List (List ℕ)} {h : ℕ}
    (hc : counts.getD h [] = counts'.getD h []) :
    countAt gid2host counts h = countAt gid2host counts' h := by
  funext g
  rw [countAt, countAt, hc]

/-- **`inspectMasterNodes`' loop numbers the masters reader by reader**: the step lemma, by
induction on the readers still to visit, whose counts are still the ones received. -/
theorem inspectMasterNodes_foldl (hT : 0 < nthreads) (counts : List (List ℕ)) (hs : List ℕ)
    (hnd : hs.Nodup) (hshape : ∀ h ∈ hs, CountsShape gid2host counts h)
    {acc : MapState × ℕ} {L pre : List ℕ} (hnum : Numbered acc.1 L pre)
    (hcounts : ∀ h ∈ hs, acc.1.numOutgoingEdges.getD h [] = counts.getD h []) :
    Numbered (hs.foldl (inspectMasterNodesHost P gid2host myHID nthreads) acc).1
        (L ++ hs.flatMap (hostMasters P gid2host myHID))
        (pre ++ hs.flatMap fun h =>
          (hostMasters P gid2host myHID h).map (countAt gid2host counts h)) ∧
      (∀ h', (hs.foldl (inspectMasterNodesHost P gid2host myHID nthreads) acc).1.numOutgoingEdges.getD
          h' [] = if h' ∈ hs then zeroMasters P gid2host myHID h' (counts.getD h' [])
            else acc.1.numOutgoingEdges.getD h' []) ∧
      (hs.foldl (inspectMasterNodesHost P gid2host myHID nthreads) acc).2 = acc.2 +
        (hs.flatMap fun h => (hostMasters P gid2host myHID h).filter fun g =>
          decide (countAt gid2host counts h g > 0) && h != myHID).length ∧
      (hs.foldl (inspectMasterNodesHost P gid2host myHID nthreads) acc).1.globalToLocalMap =
        acc.1.globalToLocalMap ∧
      (hs.foldl (inspectMasterNodesHost P gid2host myHID nthreads) acc).1.nodesToReceive =
        acc.1.nodesToReceive := by
  induction hs generalizing acc L pre with
  | nil => exact ⟨by simpa using hnum, fun h' => by simp, by simp, rfl, rfl⟩
  | cons h hs ih =>
    obtain ⟨hh, hnd⟩ := List.nodup_cons.mp hnd
    have hc := hcounts h List.mem_cons_self
    obtain ⟨hnum', hcnt', hrecv', hg2l', hntr'⟩ := inspectMasterNodesHost_spec hT hnum h
      (by unfold CountsShape; rw [hc]; exact hshape h List.mem_cons_self)
    rw [countAt_congr hc] at hnum' hrecv'
    -- the readers after `h` still hold the counts they sent
    have hcounts' : ∀ h'' ∈ hs, (inspectMasterNodesHost P gid2host myHID nthreads acc h).1.numOutgoingEdges.getD h'' [] = counts.getD h'' [] := by
      intro h'' hh''
      rw [hcnt' h'', if_neg (fun e : h'' = h => hh (e ▸ hh'')), hcounts h'' (List.mem_cons_of_mem _ hh'')]
    obtain ⟨hnum'', hcnt'', hrecv'', hg2l'', hntr''⟩ :=
      ih hnd (fun h' hh' => hshape h' (List.mem_cons_of_mem _ hh')) hnum' hcounts'
    rw [List.foldl_cons]
    refine ⟨?_, fun h' => ?_, ?_, hg2l''.trans hg2l', hntr''.trans hntr'⟩
    · rw [List.flatMap_cons, List.flatMap_cons, ← List.append_assoc, ← List.append_assoc]
      exact hnum''
    · rw [hcnt'' h', hcnt' h']
      by_cases hin : h' ∈ hs
      · rw [if_pos hin, if_pos (List.mem_cons_of_mem _ hin)]
      · rw [if_neg hin]
        by_cases hh' : h' = h
        · rw [if_pos hh', if_pos (hh' ▸ List.mem_cons_self), hh', hc]
        · rw [if_neg hh', if_neg (by simp [hh', hin])]
    · rw [hrecv'', hrecv', List.flatMap_cons, List.length_append, Nat.add_assoc]

/-- **`inspectMasterNodes`**: from the counts received, the masters of every reader in host
order, with their counts; `numOwned` is their number. -/
theorem inspectMasterNodes_spec (hT : 0 < nthreads) (numHosts : ℕ) (counts : List (List ℕ))
    (hshape : ∀ h < numHosts, CountsShape gid2host counts h) :
    let s := inspectMasterNodes P gid2host numHosts myHID nthreads (MapState.init counts)
    Numbered s ((List.range numHosts).flatMap (hostMasters P gid2host myHID))
        ((List.range numHosts).flatMap fun h =>
          (hostMasters P gid2host myHID h).map (countAt gid2host counts h)) ∧
      (∀ h < numHosts, s.numOutgoingEdges.getD h [] =
        zeroMasters P gid2host myHID h (counts.getD h [])) ∧
      s.nodesToReceive = ((List.range numHosts).flatMap fun h =>
        (hostMasters P gid2host myHID h).filter fun g =>
          decide (countAt gid2host counts h g > 0) && h != myHID).length ∧
      s.numOwned = ((List.range numHosts).flatMap (hostMasters P gid2host myHID)).length ∧
      s.globalToLocalMap = fun _ => none := by
  intro s
  obtain ⟨hnum, hcnt, hrecv, hg2l, hntr⟩ := inspectMasterNodes_foldl hT counts
    (List.range numHosts) List.nodup_range (fun h hh => hshape h (List.mem_range.mp hh))
    (show Numbered (MapState.init counts, 0).1 [] [] from ⟨rfl, rfl, rfl, rfl⟩) fun _ _ => rfl
  refine ⟨?_, fun h hh => ?_, ?_, ?_, hg2l⟩
  · exact ⟨hnum.l2g, hnum.sums, hnum.numNodes, hnum.length⟩
  · exact (hcnt h).trans (if_pos (List.mem_range.mpr hh))
  · show _ + _ = _
    rw [hntr, hrecv]
    simp [MapState.init]
  · exact hnum.numNodes

end Masters

/-! ## 5. The outgoing proxies -/

section Outgoing

variable (gid2host : ℕ → ℕ × ℕ)

/-- The nodes reader `h` read that have a non-zero entry in the counts `c`. -/
def hostOutgoing (h : ℕ) (c : List ℕ) : List ℕ :=
  (hostRange gid2host h).filter fun g => decide (c.getD (g - (gid2host h).1) 0 > 0)

variable {gid2host} {myHID nthreads : ℕ}

/-- **One reader's turn in `inspectOutgoingNodes`**: the nodes with a count left are appended
with their counts, and `toReceive` counts them if another host read them. -/
theorem inspectOutgoingNodesHost_spec (hT : 0 < nthreads) {acc : MapState × ℕ}
    {L pre : List ℕ} (hnum : Numbered acc.1 L pre) (h : ℕ)
    (hshape : CountsShape gid2host acc.1.numOutgoingEdges h) :
    Numbered (inspectOutgoingNodesHost gid2host myHID nthreads acc h).1
        (L ++ hostOutgoing gid2host h (acc.1.numOutgoingEdges.getD h []))
        (pre ++ (hostOutgoing gid2host h (acc.1.numOutgoingEdges.getD h [])).map fun g =>
          (acc.1.numOutgoingEdges.getD h []).getD (g - (gid2host h).1) 0) ∧
      (∀ h', h' ≠ h → (inspectOutgoingNodesHost gid2host myHID nthreads acc h).1.numOutgoingEdges.getD
          h' [] = acc.1.numOutgoingEdges.getD h' []) ∧
      (inspectOutgoingNodesHost gid2host myHID nthreads acc h).2 = acc.2 +
        ((hostOutgoing gid2host h (acc.1.numOutgoingEdges.getD h [])).filter fun _ =>
          h != myHID).length ∧
      (inspectOutgoingNodesHost gid2host myHID nthreads acc h).1.globalToLocalMap =
        acc.1.globalToLocalMap ∧
      (inspectOutgoingNodesHost gid2host myHID nthreads acc h).1.nodesToReceive =
        acc.1.nodesToReceive ∧
      (inspectOutgoingNodesHost gid2host myHID nthreads acc h).1.numOwned = acc.1.numOwned := by
  obtain ⟨s, toReceive⟩ := acc
  obtain ⟨hl2g, hpre, hnn, hlen⟩ := hnum
  dsimp only at hl2g hpre hnn hshape ⊢
  unfold inspectOutgoingNodesHost CountsShape at *
  dsimp only
  generalize hc : s.numOutgoingEdges.getD h [] = c at hshape ⊢
  rcases Nat.eq_zero_or_pos c.length with hc0 | hc0
  · -- nothing received from `h`: nothing to append
    have hnil : hostOutgoing gid2host h c = [] := by
      rw [List.eq_nil_of_length_eq_zero hc0, hostOutgoing]
      simp
    rw [if_pos hc0, hnil]
    exact ⟨by simpa using (⟨hl2g, hpre, hnn, hlen⟩ : Numbered s L pre), fun _ _ => rfl, by simp,
      rfl, rfl, rfl⟩
  have hn : c.length = (gid2host h).2 - (gid2host h).1 := by omega
  rw [if_neg (by omega)]
  -- the offsets with a count are the nodes with a count
  have hq : ∀ i, decide (c.getD i 0 > 0) =
      (fun g => decide (c.getD (g - (gid2host h).1) 0 > 0)) (i + (gid2host h).1) := by
    intro i
    simp only [Nat.add_sub_cancel]
  have hN : ((List.range c.length).filter fun i => decide (c.getD i 0 > 0)).map
      ((gid2host h).1 + ·) = hostOutgoing gid2host h c := by
    rw [hostOutgoing, hostRange, ← hn, ← map_filter_range_add, List.filter_congr fun i _ => hq i]
    exact List.map_congr_left fun i _ => Nat.add_comm _ _
  have hP : ((List.range c.length).filter fun i => decide (c.getD i 0 > 0)).map (c.getD · 0) =
      (hostOutgoing gid2host h c).map fun g => c.getD (g - (gid2host h).1) 0 := by
    rw [List.filter_congr fun i _ => hq i]
    exact (map_filter_range_shift (gid2host h).1 c.length
      (fun g => decide (c.getD (g - (gid2host h).1) 0 > 0)) (c.getD · 0)).trans
      (by rw [hostOutgoing, hostRange, ← hn])
  have hR : ((List.range c.length).filter fun i => decide (c.getD i 0 > 0) && h != myHID).length =
      ((hostOutgoing gid2host h c).filter fun _ => h != myHID).length := by
    rw [← hN, List.filter_map, List.length_map, List.filter_filter]
    exact congrArg List.length (List.filter_congr fun i _ => Bool.and_comm _ _)
  have hframe : ∀ h', h' ≠ h → (s.numOutgoingEdges.set h []).getD h' [] = s.numOutgoingEdges.getD h' [] :=
    fun h' hh' => by
      rw [List.getD_eq_getElem?_getD, List.getElem?_set_ne (Ne.symm hh'),
        ← List.getD_eq_getElem?_getD]
  by_cases hk : (onEachCount nthreads c.length fun i => decide (c.getD i 0 > 0)).getD
      (nthreads - 1) 0 > 0
  · rw [if_pos hk]
    refine ⟨⟨?_, ?_, ?_, ?_⟩, hframe, by rw [hR], rfl, rfl, rfl⟩
    · rw [hl2g, hnn, onEachWrite_resizeArr hT, hN]
    · rw [hpre, hnn, ← hlen, onEachWrite_resizeArr hT, hP]
    · rw [hnn, onEachCount_last hT, ← hN, List.length_append, List.length_map]
    · simp [hlen]
  · rw [if_neg hk]
    have hnil : (List.range c.length).filter (fun i => decide (c.getD i 0 > 0)) = [] := by
      rw [onEachCount_last hT] at hk
      exact List.eq_nil_of_length_eq_zero (by omega)
    have hN0 : hostOutgoing gid2host h c = [] := by rw [← hN, hnil, List.map_nil]
    refine ⟨⟨?_, ?_, ?_, ?_⟩, hframe, by rw [hR], rfl, rfl, rfl⟩
    · rw [hl2g, hnn, resizeArr_of_no_hits hT _ _ ((gid2host h).1 + ·) L hk, hN]
    · rw [hpre, hnn, ← hlen, resizeArr_of_no_hits hT _ _ (c.getD · 0) pre hk, hP]
    · rw [hN0, List.append_nil]
      exact hnn
    · simp [hlen]

/-- **`inspectOutgoingNodes`' loop appends every reader's nodes with a count left**: the step
lemma, by induction on the readers still to visit. -/
theorem inspectOutgoingNodes_foldl (hT : 0 < nthreads) (cs : List (List ℕ)) (hs : List ℕ)
    (hnd : hs.Nodup) (hshape : ∀ h ∈ hs, CountsShape gid2host cs h) {acc : MapState × ℕ}
    {L pre : List ℕ} (hnum : Numbered acc.1 L pre)
    (hcounts : ∀ h ∈ hs, acc.1.numOutgoingEdges.getD h [] = cs.getD h []) :
    Numbered (hs.foldl (inspectOutgoingNodesHost gid2host myHID nthreads) acc).1
        (L ++ hs.flatMap fun h => hostOutgoing gid2host h (cs.getD h []))
        (pre ++ hs.flatMap fun h => (hostOutgoing gid2host h (cs.getD h [])).map fun g =>
          (cs.getD h []).getD (g - (gid2host h).1) 0) ∧
      (hs.foldl (inspectOutgoingNodesHost gid2host myHID nthreads) acc).2 = acc.2 +
        (hs.flatMap fun h => (hostOutgoing gid2host h (cs.getD h [])).filter fun _ =>
          h != myHID).length ∧
      (hs.foldl (inspectOutgoingNodesHost gid2host myHID nthreads) acc).1.globalToLocalMap =
        acc.1.globalToLocalMap ∧
      (hs.foldl (inspectOutgoingNodesHost gid2host myHID nthreads) acc).1.nodesToReceive =
        acc.1.nodesToReceive ∧
      (hs.foldl (inspectOutgoingNodesHost gid2host myHID nthreads) acc).1.numOwned =
        acc.1.numOwned := by
  induction hs generalizing acc L pre with
  | nil => exact ⟨by simpa using hnum, by simp, rfl, rfl, rfl⟩
  | cons h hs ih =>
    obtain ⟨hh, hnd⟩ := List.nodup_cons.mp hnd
    have hc := hcounts h List.mem_cons_self
    obtain ⟨hnum', hcnt', hrecv', hg2l', hntr', hown'⟩ := inspectOutgoingNodesHost_spec hT hnum h
      (by unfold CountsShape; rw [hc]; exact hshape h List.mem_cons_self)
    rw [hc] at hnum' hrecv'
    have hcounts' : ∀ h'' ∈ hs, (inspectOutgoingNodesHost gid2host myHID nthreads acc h).1.numOutgoingEdges.getD h'' [] = cs.getD h'' [] :=
      fun h'' hh'' => (hcnt' h'' fun e => hh (e ▸ hh'')).trans
        (hcounts h'' (List.mem_cons_of_mem _ hh''))
    obtain ⟨hnum'', hrecv'', hg2l'', hntr'', hown''⟩ :=
      ih hnd (fun h' hh' => hshape h' (List.mem_cons_of_mem _ hh')) hnum' hcounts'
    rw [List.foldl_cons]
    refine ⟨?_, ?_, hg2l''.trans hg2l', hntr''.trans hntr', hown''.trans hown'⟩
    · rw [List.flatMap_cons, List.flatMap_cons, ← List.append_assoc, ← List.append_assoc]
      exact hnum''
    · rw [hrecv'', hrecv', List.flatMap_cons, List.length_append, Nat.add_assoc]

/-- **`inspectOutgoingNodes`**: after the masters, every reader's nodes with a count left, in
host order; `numNodesWithEdges` is the number of nodes so far. -/
theorem inspectOutgoingNodes_spec (hT : 0 < nthreads) (numHosts : ℕ) {s0 : MapState}
    {L pre : List ℕ} (hnum : Numbered s0 L pre) (cs : List (List ℕ))
    (hcs : ∀ h < numHosts, s0.numOutgoingEdges.getD h [] = cs.getD h [])
    (hshape : ∀ h < numHosts, CountsShape gid2host cs h) :
    let s := inspectOutgoingNodes gid2host numHosts myHID nthreads s0
    Numbered s (L ++ (List.range numHosts).flatMap fun h => hostOutgoing gid2host h (cs.getD h []))
        (pre ++ (List.range numHosts).flatMap fun h =>
          (hostOutgoing gid2host h (cs.getD h [])).map fun g =>
            (cs.getD h []).getD (g - (gid2host h).1) 0) ∧
      s.numNodesWithEdges =
        (L ++ (List.range numHosts).flatMap fun h => hostOutgoing gid2host h (cs.getD h [])).length ∧
      s.nodesToReceive = s0.nodesToReceive + ((List.range numHosts).flatMap fun h =>
        (hostOutgoing gid2host h (cs.getD h [])).filter fun _ => h != myHID).length ∧
      s.globalToLocalMap = s0.globalToLocalMap ∧ s.numOwned = s0.numOwned := by
  intro s
  obtain ⟨hnum', hrecv, hg2l, hntr, hown⟩ := inspectOutgoingNodes_foldl hT cs (List.range numHosts)
    List.nodup_range (fun h hh => hshape h (List.mem_range.mp hh))
    (show Numbered (s0, 0).1 L pre from hnum) fun h hh => hcs h (List.mem_range.mp hh)
  refine ⟨⟨hnum'.l2g, hnum'.sums, hnum'.numNodes, hnum'.length⟩, hnum'.numNodes, ?_, hg2l, hown⟩
  show _ + _ = _
  rw [hntr, hrecv, Nat.zero_add]

end Outgoing

/-! ## 6. The map and the prefix sum -/

/-- The prefix-sum rounds `a[i] += a[i - 1]` at the indices `is`. -/
def sumRounds (is a : List ℕ) : List ℕ :=
  is.foldl (fun a i => a.set i (a.getD i 0 + a.getD (i - 1) 0)) a

/-- The map writes `m[l2g[i]] = i` at the indices `is`. -/
def mapWrites (l2g is : List ℕ) (m : ℕ → Option ℕ) : ℕ → Option ℕ :=
  is.foldl (fun m i => Function.update m (l2g.getD i 0) (some i)) m

theorem foldl_mapRound (l2g is a : List ℕ) (m : ℕ → Option ℕ) :
    is.foldl (mapRound l2g) (a, m) = (sumRounds is a, mapWrites l2g is m) := by
  have hround : mapRound l2g = fun p i => (p.1.set i (p.1.getD i 0 + p.1.getD (i - 1) 0),
      Function.update p.2 (l2g.getD i 0) (some i)) := rfl
  rw [hround, sumRounds, mapWrites]
  exact foldl_prod_mk (fun a i => a.set i (a.getD i 0 + a.getD (i - 1) 0))
    (fun m i => Function.update m (l2g.getD i 0) (some i)) is a m

@[simp] theorem length_sumRounds (is a : List ℕ) : (sumRounds is a).length = a.length := by
  induction is generalizing a with
  | nil => rfl
  | cons i is ih =>
    rw [sumRounds, List.foldl_cons, ← sumRounds, ih, List.length_set]

theorem map_getD_range (l : List ℕ) : (List.range l.length).map (fun i => l.getD i 0) = l := by
  have h := map_range_getD l 0 id (Nat.le_refl _)
  simpa using h

/-- Writes read the map vector only at their indices. -/
theorem mapWrites_congr {l2g l2g' is : List ℕ} (h : ∀ i ∈ is, l2g.getD i 0 = l2g'.getD i 0)
    (m : ℕ → Option ℕ) : mapWrites l2g is m = mapWrites l2g' is m := by
  induction is generalizing m with
  | nil => rfl
  | cons i is ih =>
    rw [mapWrites, List.foldl_cons, h i List.mem_cons_self]
    exact ih (fun j hj => h j (List.mem_cons_of_mem _ hj)) _

/-- **The map written for every index of a vector without duplicates is its inverse.** -/
theorem mapWrites_range_iff {l2g : List ℕ} (hnd : l2g.Nodup) (g l : ℕ) :
    mapWrites l2g (List.range l2g.length) (fun _ => none) g = some l ↔
      l < l2g.length ∧ l2g.getD l 0 = g := by
  have hnd' : ((List.range l2g.length).map fun i => l2g.getD i 0).Nodup := by
    rw [map_getD_range]
    exact hnd
  constructor
  · intro hg
    by_cases hmem : g ∈ (List.range l2g.length).map fun i => l2g.getD i 0
    · obtain ⟨i, hi, rfl⟩ := List.mem_map.mp hmem
      rw [mapWrites, foldl_update_of_mem _ _ hnd' _ hi, Option.some.injEq] at hg
      subst hg
      exact ⟨List.mem_range.mp hi, rfl⟩
    · rw [mapWrites, foldl_update_of_not_mem _ _ _ hmem] at hg
      exact absurd hg (by simp)
  · rintro ⟨hl, rfl⟩
    exact foldl_update_of_mem _ _ hnd' _ (List.mem_range.mpr hl)

theorem mapWrites_range_isNone {l2g : List ℕ} (hnd : l2g.Nodup) (g : ℕ) :
    (mapWrites l2g (List.range l2g.length) (fun _ => none) g).isNone = !decide (g ∈ l2g) := by
  by_cases hg : g ∈ l2g
  · obtain ⟨l, hl, rfl⟩ := List.getElem_of_mem hg
    have := (mapWrites_range_iff hnd (l2g[l]) l).mpr ⟨hl, by rw [List.getD_eq_getElem?_getD,
      List.getElem?_eq_getElem hl, Option.getD_some]⟩
    rw [this, decide_eq_true hg]
    rfl
  · rw [mapWrites, foldl_update_of_not_mem _ _ _ (by rw [map_getD_range]; exact hg),
      decide_eq_false hg]
    rfl

/-- `createIntermediateMetadata` maps the nodes so far and sums their counts. -/
theorem createIntermediateMetadata_spec {s : MapState} {L pre : List ℕ} (hnum : Numbered s L pre)
    (hwe : s.numNodesWithEdges = L.length) :
    Numbered (createIntermediateMetadata s) L (sumRounds (List.range' 1 (L.length - 1)) pre) ∧
      (createIntermediateMetadata s).globalToLocalMap =
        mapWrites L (List.range L.length) s.globalToLocalMap ∧
      (createIntermediateMetadata s).numNodesWithEdges = s.numNodesWithEdges ∧
      (createIntermediateMetadata s).numOwned = s.numOwned ∧
      (createIntermediateMetadata s).nodesToReceive = s.nodesToReceive := by
  unfold createIntermediateMetadata
  by_cases h0 : L.length = 0
  · rw [if_pos (hnum.numNodes.trans h0), h0]
    exact ⟨hnum, rfl, rfl, rfl, rfl⟩
  · rw [if_neg (by rw [hnum.numNodes]; exact h0)]
    dsimp only
    rw [foldl_mapRound, hwe, hnum.l2g, hnum.sums]
    have hrange : List.range L.length = 0 :: List.range' 1 (L.length - 1) := by
      have e := @List.range'_succ 0 (L.length - 1) 1
      rw [Nat.sub_add_cancel (by omega), Nat.zero_add] at e
      rw [List.range_eq_range', e]
    refine ⟨⟨rfl, rfl, hnum.numNodes, by rw [length_sumRounds, hnum.length]⟩, ?_, rfl, rfl, rfl⟩
    rw [hrange]
    rfl

/-- `inspectIncomingNodes` appends the nodes with a mirror bit and no local id, with no edges. -/
theorem inspectIncomingNodes_spec (hT : 0 < nthreads) (N : ℕ) (bits : DynamicBitSet)
    {s : MapState} {L pre : List ℕ} (hnum : Numbered s L pre) :
    Numbered (inspectIncomingNodes N nthreads bits s)
        (L ++ (List.range N).filter fun d => bits.test d && (s.globalToLocalMap d).isNone)
        (pre ++ List.replicate ((List.range N).filter fun d =>
          bits.test d && (s.globalToLocalMap d).isNone).length 0) ∧
      (inspectIncomingNodes N nthreads bits s).globalToLocalMap = s.globalToLocalMap ∧
      (inspectIncomingNodes N nthreads bits s).numNodesWithEdges = s.numNodesWithEdges ∧
      (inspectIncomingNodes N nthreads bits s).numOwned = s.numOwned ∧
      (inspectIncomingNodes N nthreads bits s).nodesToReceive = s.nodesToReceive := by
  obtain ⟨hl2g, hpre, hnn, hlen⟩ := hnum
  have hzero : ∀ l : List ℕ, l.map (fun _ => 0) = List.replicate l.length 0 := fun _ =>
    List.map_const'
  unfold inspectIncomingNodes
  dsimp only
  by_cases hk : (onEachCount nthreads N fun d => bits.test d && (s.globalToLocalMap d).isNone).getD
      (nthreads - 1) 0 > 0
  · rw [if_pos hk]
    refine ⟨⟨?_, ?_, ?_, ?_⟩, rfl, rfl, rfl, rfl⟩
    · rw [hl2g, hnn, onEachWrite_resizeArr hT, List.map_id]
    · rw [hpre, hnn, ← hlen, onEachWrite_resizeArr hT, hzero]
    · rw [hnn, onEachCount_last hT, List.length_append]
    · simp [hlen]
  · rw [if_neg hk]
    refine ⟨⟨?_, ?_, ?_, ?_⟩, rfl, rfl, rfl, rfl⟩
    · rw [hl2g, hnn, resizeArr_of_no_hits hT _ _ id L hk, List.map_id]
    · rw [hpre, hnn, ← hlen, resizeArr_of_no_hits hT _ _ (fun _ => 0) pre hk, hzero]
    · rw [onEachCount_last hT] at hk
      rw [List.length_append, hnn]
      omega
    · simp [hlen]

/-- `finalizeInspection` sums and maps the nodes after those with edges, and reads `numEdges`. -/
theorem finalizeInspection_spec (s : MapState) :
    (finalizeInspection s).prefixSumOfEdges =
        sumRounds (List.range' s.numNodesWithEdges (s.numNodes - s.numNodesWithEdges))
          s.prefixSumOfEdges ∧
      (finalizeInspection s).globalToLocalMap = mapWrites s.localToGlobalVector
        (List.range' s.numNodesWithEdges (s.numNodes - s.numNodesWithEdges))
          s.globalToLocalMap ∧
      (finalizeInspection s).numEdges =
        (if (finalizeInspection s).prefixSumOfEdges.length ≠ 0 then
          (finalizeInspection s).prefixSumOfEdges.getLast?.getD 0 else 0) ∧
      (finalizeInspection s).localToGlobalVector = s.localToGlobalVector ∧
      (finalizeInspection s).numNodes = s.numNodes ∧
      (finalizeInspection s).numNodesWithEdges = s.numNodesWithEdges ∧
      (finalizeInspection s).numOwned = s.numOwned ∧
      (finalizeInspection s).nodesToReceive = s.nodesToReceive := by
  unfold finalizeInspection
  rw [foldl_mapRound]
  exact ⟨rfl, rfl, rfl, rfl, rfl, rfl, rfl, rfl⟩

/-- The prefix-sum rounds of `createIntermediateMetadata`, then zeros appended, then the rounds
of `finalizeInspection`: together the in-place prefix sum of the whole vector. -/
theorem sumRounds_append_replicate (a : List ℕ) (k : ℕ) :
    sumRounds (List.range' a.length k) (prefixSumInPlace a ++ List.replicate k 0) =
      prefixSumInPlace (a ++ List.replicate k 0) := by
  unfold prefixSumInPlace sumRounds
  rcases Nat.eq_zero_or_pos a.length with h0 | h0
  · -- no node with edges: every round runs over zeros
    rw [List.eq_nil_of_length_eq_zero h0]
    simp only [List.length_nil, Nat.zero_sub, List.range'_zero, List.foldl_nil, List.nil_append,
      prefixRounds_replicate]
  · have hsplit : List.range' 1 ((a ++ List.replicate k 0).length - 1) =
        List.range' 1 (a.length - 1) ++ List.range' a.length k := by
      have happ := @List.range'_append_1 1 (a.length - 1) k
      rw [Nat.add_sub_cancel' h0] at happ
      rw [happ, List.length_append, List.length_replicate]
      congr 1
      omega
    have hin : ∀ i ∈ List.range' 1 (a.length - 1), i < a.length := by
      intro i hi
      rw [List.mem_range'_1] at hi
      omega
    rw [hsplit, List.foldl_append, prefixRounds_append _ _ _ hin]

/-- The last running sum is the total. -/
theorem lastSum_prefixSumInPlace (c : List ℕ) :
    (if (prefixSumInPlace c).length ≠ 0 then (prefixSumInPlace c).getLast?.getD 0 else 0) =
      c.sum := by
  have hlen : (prefixSumInPlace c).length = c.length := length_sumRounds _ c
  rcases Nat.eq_zero_or_pos c.length with h0 | h0
  · rw [if_neg (by omega), List.eq_nil_of_length_eq_zero h0, List.sum_nil]
  · rw [if_pos (by omega), List.getLast?_eq_getElem?, ← List.getD_eq_getElem?_getD, hlen,
      getD_prefixSumInPlace c _ (by omega), Nat.sub_add_cancel h0, List.take_length]

/-- The map of the first nodes, then of the rest: the map of all of them. -/
theorem mapWrites_range_append (W I : List ℕ) :
    mapWrites (W ++ I) (List.range' W.length I.length)
        (mapWrites W (List.range W.length) fun _ => none) =
      mapWrites (W ++ I) (List.range (W ++ I).length) fun _ => none := by
  have hW : mapWrites W (List.range W.length) (fun _ => none) =
      mapWrites (W ++ I) (List.range W.length) fun _ => none :=
    mapWrites_congr (fun i hi => by
      rw [List.getD_eq_getElem?_getD, List.getD_eq_getElem?_getD,
        List.getElem?_append_left (List.mem_range.mp hi)]) _
  have hrange := @List.range'_append_1 0 W.length I.length
  rw [Nat.zero_add] at hrange
  rw [hW, mapWrites, mapWrites, mapWrites, ← List.foldl_append, List.length_append,
    List.range_eq_range', List.range_eq_range', hrange]

/-- What node mapping leaves on a host: the local nodes `L` without duplicates, the map their
inverse, and the prefix sum the running sums of the local nodes' edge counts `cnt`. -/
structure Mapped (s : MapState) (L : List ℕ) (cnt : ℕ → ℕ) : Prop where
  l2g : s.localToGlobalVector = L
  nodup : L.Nodup
  g2l : ∀ g l, s.globalToLocalMap g = some l ↔ l < L.length ∧ L.getD l 0 = g
  numNodes : s.numNodes = L.length
  sums : s.prefixSumOfEdges = prefixSumInPlace (L.map cnt)
  numEdges : s.numEdges = (L.map cnt).sum

/-- **`finalizeInspection` completes the numbering**: from the nodes with edges `W`, mapped and
summed, followed by the nodes `I` without edges, it gives the map and the prefix sum of all. -/
theorem finalizeInspection_mapped {s : MapState} {W I : List ℕ} {cnt : ℕ → ℕ}
    (hnum : Numbered s (W ++ I) (prefixSumInPlace (W.map cnt) ++ List.replicate I.length 0))
    (hwe : s.numNodesWithEdges = W.length)
    (hg2l : s.globalToLocalMap = mapWrites W (List.range W.length) fun _ => none)
    (hnd : (W ++ I).Nodup) (hI : I.map cnt = List.replicate I.length 0) :
    Mapped (finalizeInspection s) (W ++ I) cnt := by
  obtain ⟨hpre, hg2l', hne, hl2g, hnn, -, -, -⟩ := finalizeInspection_spec s
  have hk : s.numNodes - s.numNodesWithEdges = I.length := by
    rw [hnum.numNodes, hwe, List.length_append]
    omega
  -- the sums: the rounds after the nodes with edges run over the zeros of the others
  have hsums : (finalizeInspection s).prefixSumOfEdges = prefixSumInPlace ((W ++ I).map cnt) := by
    have hlen : (W.map cnt).length = W.length := List.length_map _
    rw [hpre, hk, hwe, hnum.sums, ← hlen, sumRounds_append_replicate, List.map_append, hI]
  refine ⟨hl2g.trans hnum.l2g, hnd, fun g l => ?_, hnn.trans hnum.numNodes, hsums, ?_⟩
  · rw [hg2l', hnum.l2g, hk, hwe, hg2l, mapWrites_range_append]
    exact mapWrites_range_iff hnd g l
  · rw [hne, hsums]
    exact lastSum_prefixSumInPlace _

/-! ## 7. What node mapping computes -/

section Spec

variable (P : Policy) (gid2host : ℕ → ℕ × ℕ) (numHosts myHID N : ℕ) (counts : List (List ℕ))
  (bits : DynamicBitSet)

/-- The edge count node `g` has here, as the host that read it sent it. -/
def countOf (g : ℕ) : ℕ :=
  countAt gid2host counts (readMaster gid2host numHosts g) g

/-- The nodes this host masters, in id order. -/
def masterNodes : List ℕ :=
  (List.range N).filter fun g => P.retrieveMaster g == myHID

/-- The nodes of another master with edges here (outgoing proxies), in id order. -/
def outgoingNodes : List ℕ :=
  (List.range N).filter fun g =>
    P.retrieveMaster g != myHID && decide (countOf gid2host numHosts counts g > 0)

/-- The nodes with a mirror bit, neither mastered here nor with edges here (incoming mirrors),
in id order. -/
def incomingNodes : List ℕ :=
  (List.range N).filter fun g =>
    bits.test g &&
      !(P.retrieveMaster g == myHID || decide (countOf gid2host numHosts counts g > 0))

/-- The local nodes by local id: the masters, the outgoing proxies, the incoming mirrors. -/
def localNodes : List ℕ :=
  masterNodes P myHID N ++ outgoingNodes P gid2host numHosts myHID N counts ++
    incomingNodes P gid2host numHosts myHID N counts bits

variable {P gid2host numHosts myHID N counts bits} {nthreads : ℕ}

theorem getD_zeroMasters (h : ℕ) (c : List ℕ) (i : ℕ) :
    (zeroMasters P gid2host myHID h c).getD i 0 =
      if P.retrieveMaster (i + (gid2host h).1) == myHID then 0 else c.getD i 0 := by
  by_cases hi : i < c.length
  · rw [List.getD_eq_getElem?_getD, zeroMasters, List.getElem?_mapIdx,
      List.getD_eq_getElem?_getD, List.getElem?_eq_getElem hi]
    rfl
  · have hlen : (zeroMasters P gid2host myHID h c).length = c.length := List.length_mapIdx
    have h1 : (zeroMasters P gid2host myHID h c).getD i 0 = 0 := getD_of_le (by omega) 0
    have h2 : c.getD i 0 = 0 := getD_of_le (by omega) 0
    rw [h1, h2, ite_self]

/-- A reader's nodes with a count left after `inspectMasterNodes` are its nodes of another
master with a count. -/
theorem hostOutgoing_zeroMasters (h : ℕ) (c : List ℕ) :
    hostOutgoing gid2host h (zeroMasters P gid2host myHID h c) =
      (hostRange gid2host h).filter fun g =>
        P.retrieveMaster g != myHID && decide (c.getD (g - (gid2host h).1) 0 > 0) := by
  refine List.filter_congr fun g hg => ?_
  rw [getD_zeroMasters, Nat.sub_add_cancel (ReaderSplit.mem_hostRange.mp hg).1]
  by_cases hm : P.retrieveMaster g = myHID
  · simp [hm]
  · simp [hm]

theorem mem_withEdges_iff {g : ℕ} :
    g ∈ masterNodes P myHID N ++ outgoingNodes P gid2host numHosts myHID N counts ↔
      g < N ∧ (P.retrieveMaster g = myHID ∨ 0 < countOf gid2host numHosts counts g) := by
  by_cases hm : P.retrieveMaster g = myHID
  · simp [masterNodes, outgoingNodes, hm]
  · simp [masterNodes, outgoingNodes, hm]

/-- **No node gets two local ids**: the three runs are filters of the node ids by disjoint
conditions. -/
theorem nodup_localNodes : (localNodes P gid2host numHosts myHID N counts bits).Nodup := by
  have hmo : (masterNodes P myHID N ++ outgoingNodes P gid2host numHosts myHID N counts).Nodup := by
    refine (List.nodup_range.filter _).append (List.nodup_range.filter _) fun g hm ho => ?_
    -- a master here is no outgoing proxy
    simp only [outgoingNodes, List.mem_filter, beq_iff_eq, Bool.and_eq_true, bne_iff_ne] at hm ho
    exact ho.2.1 hm.2
  refine hmo.append (List.nodup_range.filter _) fun g hwe hin => ?_
  -- an incoming mirror is neither mastered here nor has edges here
  obtain ⟨-, hwe⟩ := mem_withEdges_iff.mp hwe
  simp only [incomingNodes, List.mem_filter, Bool.and_eq_true, Bool.not_eq_true',
    Bool.or_eq_false_iff, beq_eq_false_iff_ne, decide_eq_false_iff_not] at hin
  rcases hwe with hm | hc
  · exact hin.2.2.1 hm
  · exact hin.2.2.2 hc

/-- The incoming mirrors have no edges here. -/
theorem map_countOf_incomingNodes :
    (incomingNodes P gid2host numHosts myHID N counts bits).map (countOf gid2host numHosts counts) =
      List.replicate (incomingNodes P gid2host numHosts myHID N counts bits).length 0 := by
  refine List.eq_replicate_iff.mpr ⟨List.length_map _, fun c hc => ?_⟩
  obtain ⟨g, hg, rfl⟩ := List.mem_map.mp hc
  simp only [incomingNodes, List.mem_filter, Bool.and_eq_true, Bool.not_eq_true',
    Bool.or_eq_false_iff, decide_eq_false_iff_not] at hg
  omega

/-- The nodes `inspectIncomingNodes` finds, once the nodes with edges are mapped, are the
incoming mirrors. -/
theorem filter_isNone_mapWrites :
    (List.range N).filter (fun d => bits.test d &&
        (mapWrites (masterNodes P myHID N ++ outgoingNodes P gid2host numHosts myHID N counts)
          (List.range (masterNodes P myHID N ++
            outgoingNodes P gid2host numHosts myHID N counts).length) (fun _ => none) d).isNone) =
      incomingNodes P gid2host numHosts myHID N counts bits := by
  have hnd := List.nodup_append.mp (@nodup_localNodes P gid2host numHosts myHID N counts bits)
  refine List.filter_congr fun d hd => ?_
  rw [mapWrites_range_isNone hnd.1]
  have hiff := @mem_withEdges_iff P gid2host numHosts myHID N counts d
  by_cases hm : P.retrieveMaster d = myHID
  · simp [hiff, List.mem_range.mp hd, hm]
  · have hb : (P.retrieveMaster d == myHID) = false := beq_eq_false_iff_ne.mpr hm
    simp [hiff, List.mem_range.mp hd, hm, hb]

section Readers

variable (hs : ReaderSplit N numHosts gid2host)
include hs

theorem flatMap_hostMasters :
    (List.range numHosts).flatMap (hostMasters P gid2host myHID) = masterNodes P myHID N :=
  hs.flatMap_hostRange_filter fun _ g => P.retrieveMaster g == myHID

theorem flatMap_hostMasters_countAt :
    ((List.range numHosts).flatMap fun h =>
        (hostMasters P gid2host myHID h).map (countAt gid2host counts h)) =
      (masterNodes P myHID N).map (countOf gid2host numHosts counts) :=
  hs.flatMap_hostRange_filter_map (fun _ g => P.retrieveMaster g == myHID) (countAt gid2host counts)

/-- The masters with edges read by another host, reader by reader. -/
theorem flatMap_hostMasters_received :
    ((List.range numHosts).flatMap fun h => (hostMasters P gid2host myHID h).filter fun g =>
        decide (countAt gid2host counts h g > 0) && h != myHID) =
      (List.range N).filter fun g => (P.retrieveMaster g == myHID) &&
        (decide (countOf gid2host numHosts counts g > 0) && readMaster gid2host numHosts g != myHID) :=
  calc _ = (List.range numHosts).flatMap (fun h => (hostRange gid2host h).filter fun g =>
          (P.retrieveMaster g == myHID) && (decide (countAt gid2host counts h g > 0) && h != myHID)) :=
        List.flatMap_congr fun h _ => by
          rw [hostMasters, List.filter_filter]
          exact List.filter_congr fun g _ => Bool.and_comm _ _
    _ = _ := hs.flatMap_hostRange_filter fun h g =>
        (P.retrieveMaster g == myHID) && (decide (countAt gid2host counts h g > 0) && h != myHID)

section CountsLeft

variable {cs : List (List ℕ)}
  (hcs : ∀ h < numHosts, cs.getD h [] = zeroMasters P gid2host myHID h (counts.getD h []))
include hcs

theorem flatMap_hostOutgoing :
    ((List.range numHosts).flatMap fun h => hostOutgoing gid2host h (cs.getD h [])) =
      outgoingNodes P gid2host numHosts myHID N counts :=
  calc _ = (List.range numHosts).flatMap (fun h => (hostRange gid2host h).filter fun g =>
          P.retrieveMaster g != myHID && decide (countAt gid2host counts h g > 0)) :=
        List.flatMap_congr fun h hh => by
          rw [hcs h (List.mem_range.mp hh), hostOutgoing_zeroMasters]
          rfl
    _ = _ := hs.flatMap_hostRange_filter fun h g =>
        P.retrieveMaster g != myHID && decide (countAt gid2host counts h g > 0)

theorem flatMap_hostOutgoing_counts :
    ((List.range numHosts).flatMap fun h => (hostOutgoing gid2host h (cs.getD h [])).map fun g =>
        (cs.getD h []).getD (g - (gid2host h).1) 0) =
      (outgoingNodes P gid2host numHosts myHID N counts).map (countOf gid2host numHosts counts) :=
  calc _ = (List.range numHosts).flatMap (fun h => ((hostRange gid2host h).filter fun g =>
          P.retrieveMaster g != myHID && decide (countAt gid2host counts h g > 0)).map
            (countAt gid2host counts h)) :=
        List.flatMap_congr fun h hh => by
          rw [hcs h (List.mem_range.mp hh), hostOutgoing_zeroMasters]
          refine List.map_congr_left fun g hg => ?_
          obtain ⟨hg, hq⟩ := List.mem_filter.mp hg
          have hm : ¬ (P.retrieveMaster g == myHID) = true := by
            simp only [Bool.and_eq_true, bne_iff_ne, ne_eq] at hq
            simpa using hq.1
          rw [getD_zeroMasters, Nat.sub_add_cancel (ReaderSplit.mem_hostRange.mp hg).1, if_neg hm]
          rfl
    _ = _ := hs.flatMap_hostRange_filter_map (fun h g =>
        P.retrieveMaster g != myHID && decide (countAt gid2host counts h g > 0))
          (countAt gid2host counts)

/-- The outgoing proxies read by another host, reader by reader. -/
theorem flatMap_hostOutgoing_received :
    ((List.range numHosts).flatMap fun h =>
        (hostOutgoing gid2host h (cs.getD h [])).filter fun _ => h != myHID) =
      (List.range N).filter fun g => !(P.retrieveMaster g == myHID) &&
        (decide (countOf gid2host numHosts counts g > 0) && readMaster gid2host numHosts g != myHID) :=
  calc _ = (List.range numHosts).flatMap (fun h => (hostRange gid2host h).filter fun g =>
          !(P.retrieveMaster g == myHID) && (decide (countAt gid2host counts h g > 0) && h != myHID)) :=
        List.flatMap_congr fun h hh => by
          rw [hcs h (List.mem_range.mp hh), hostOutgoing_zeroMasters, List.filter_filter]
          exact List.filter_congr fun g _ => by
            simp only [bne, countAt, Bool.and_comm, Bool.and_assoc]
            rfl
    _ = _ := hs.flatMap_hostRange_filter fun h g =>
        !(P.retrieveMaster g == myHID) && (decide (countAt gid2host counts h g > 0) && h != myHID)

end CountsLeft

variable (P myHID) in
/-- **The first two phases number the nodes with edges here**: the masters, then the outgoing
proxies, each with its count; `toReceive` counts those whose edges another host read. -/
theorem withEdges_spec (hT : 0 < nthreads)
    (hshape : ∀ h < numHosts, CountsShape gid2host counts h) :
    let s := inspectOutgoingNodes gid2host numHosts myHID nthreads
      (inspectMasterNodes P gid2host numHosts myHID nthreads (MapState.init counts))
    Numbered s (masterNodes P myHID N ++ outgoingNodes P gid2host numHosts myHID N counts)
        ((masterNodes P myHID N ++ outgoingNodes P gid2host numHosts myHID N counts).map
          (countOf gid2host numHosts counts)) ∧
      s.numNodesWithEdges =
        (masterNodes P myHID N ++ outgoingNodes P gid2host numHosts myHID N counts).length ∧
      s.numOwned = (masterNodes P myHID N).length ∧
      s.globalToLocalMap = (fun _ => none) ∧
      s.nodesToReceive = ((List.range N).filter fun g =>
        decide (countOf gid2host numHosts counts g > 0) &&
          readMaster gid2host numHosts g != myHID).length := by
  intro s
  obtain ⟨hnum1, hcnt1, hrecv1, hown1, hg2l1⟩ :=
    @inspectMasterNodes_spec P gid2host myHID nthreads hT numHosts counts hshape
  -- the counts left after the masters have the shape of those received
  have hshape1 : ∀ h < numHosts, CountsShape gid2host
      (inspectMasterNodes P gid2host numHosts myHID nthreads
        (MapState.init counts)).numOutgoingEdges h := by
    intro h hh
    unfold CountsShape
    rw [hcnt1 h hh, zeroMasters, List.length_mapIdx]
    exact hshape h hh
  obtain ⟨hnum2, hwe2, hrecv2, hg2l2, hown2⟩ := @inspectOutgoingNodes_spec gid2host myHID nthreads
    hT numHosts _ _ _ hnum1 _ (fun _ _ => rfl) hshape1
  rw [flatMap_hostMasters hs, flatMap_hostMasters_countAt hs, flatMap_hostOutgoing hs hcnt1,
    flatMap_hostOutgoing_counts hs hcnt1, ← List.map_append] at hnum2
  refine ⟨hnum2, ?_, ?_, hg2l2.trans hg2l1, ?_⟩
  · rw [hwe2, flatMap_hostMasters hs, flatMap_hostOutgoing hs hcnt1]
  · rw [hown2, hown1, flatMap_hostMasters hs]
  · -- those read by another host: the masters among them, then the others
    rw [hrecv2, hrecv1, flatMap_hostMasters_received hs, flatMap_hostOutgoing_received hs hcnt1,
      List.length_eq_length_filter_add (l := (List.range N).filter fun g =>
        decide (countOf gid2host numHosts counts g > 0) && readMaster gid2host numHosts g != myHID)
        (fun g => P.retrieveMaster g == myHID), List.filter_filter, List.filter_filter]

end Readers

theorem sumRounds_map_eq_prefixSumInPlace (W : List ℕ) (f : ℕ → ℕ) :
    sumRounds (List.range' 1 (W.length - 1)) (W.map f) = prefixSumInPlace (W.map f) := by
  rw [prefixSumInPlace, List.length_map]
  rfl

/-- **Node mapping numbers the local nodes**: for counts of the shape every reader sends and any
mirror bits, the local nodes are the masters in id order, then the outgoing proxies, then the
incoming mirrors, each once; the map is their inverse, the prefix sum runs over their edge
counts, `numOwned` counts the masters, `numNodesWithEdges` the nodes with edges here, and
`nodesToReceive` those whose edges another host read. -/
theorem nodeMapping_spec (hT : 0 < nthreads) (hs : ReaderSplit N numHosts gid2host)
    (hshape : ∀ h < numHosts, CountsShape gid2host counts h) :
    let s := nodeMapping P gid2host numHosts myHID N nthreads counts bits
    Mapped s (localNodes P gid2host numHosts myHID N counts bits)
        (countOf gid2host numHosts counts) ∧
      s.numOwned = (masterNodes P myHID N).length ∧
      s.numNodesWithEdges =
        (masterNodes P myHID N ++ outgoingNodes P gid2host numHosts myHID N counts).length ∧
      s.nodesToReceive = ((List.range N).filter fun g =>
        decide (countOf gid2host numHosts counts g > 0) &&
          readMaster gid2host numHosts g != myHID).length := by
  intro s
  obtain ⟨hnum2, hwe2, hown2, hg2l2, hntr2⟩ := withEdges_spec P myHID hs hT hshape
  obtain ⟨hnum3, hg2l3, hwe3, hown3, hntr3⟩ := createIntermediateMetadata_spec hnum2 hwe2
  rw [sumRounds_map_eq_prefixSumInPlace] at hnum3
  rw [hg2l2] at hg2l3
  obtain ⟨hnum4, hg2l4, hwe4, hown4, hntr4⟩ := inspectIncomingNodes_spec hT N bits hnum3
  rw [hg2l3, filter_isNone_mapWrites] at hnum4
  refine ⟨finalizeInspection_mapped hnum4 (hwe4.trans (hwe3.trans hwe2)) (hg2l4.trans hg2l3)
    nodup_localNodes map_countOf_incomingNodes, ?_, ?_, ?_⟩
  · exact hown4.trans (hown3.trans hown2)
  · exact hwe4.trans (hwe3.trans hwe2)
  · exact hntr4.trans (hntr3.trans hntr2)

end Spec

end Galois.Cusp
