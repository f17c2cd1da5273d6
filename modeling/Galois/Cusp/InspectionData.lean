import Galois.Cusp.Inspection

/-!
# CuSP: the inspection messages (NewGeneric.h)

After `assignEdges`, `edgeInspection` ships every other host what the reader found for it and
folds in what the others found for this host:

* `inspectionData`, `sendInspectionData` -- the message for host `h`: a token and the edge counts
  if the reader has any edge for `h`, then the mirror bitset as nothing, as its set bits
  (`getOffsets`) or whole, whichever is smaller; the loop clears what it has sent;
* `recvInspectionMsg`, `recvInspectionData` -- the receiver stores the counts under the sender
  and ors the bits into its own bitset, dying on a token it does not know;
* `edgeInspection` -- the host's whole inspection, from its read range to the counts of every
  reader and the nodes it must mirror.

`edgeInspection_spec` says what the host holds once every other host's message has arrived, in
any order, on a graph of fewer than 2^32 nodes (on a larger one `getOffsets` never returns): the counts each reader sends it (`countsFor`) and the mirrors its edges need
(`mirrorsOf`). Messages are the values the sender serializes; the byte encoding is
Serialize.h's subject, not this file's.
-/

namespace Galois.Cusp

open Compaction

variable {E : Type}

/-! ## 1. Sending -/

/-- What reader `h` holds after `assignEdges` over its range `gid2host h`. -/
def readerInspection (G : InputGraph E) (P : Policy) (gid2host : ℕ → ℕ × ℕ) (numHosts h : ℕ) :
    InspectState :=
  assignEdges G P (gid2host h).1 (gid2host h).2
    (InspectState.init numHosts ((gid2host h).2 - (gid2host h).1))

/-- The content of one inspection message, as `sendInspectionData` serializes it: the token
saying whether edge counts follow (`1`) or not (`0`) and the counts, then the form of the mirror
bitset (`0` nothing, `2` its set bits as offsets, `1` the whole bitset) and its content. -/
structure InspectionData where
  outgoingExists : ℕ
  numOutgoingEdges : List ℕ
  bitsetMetaMode : ℕ
  offsets : List ℕ
  bitset : DynamicBitSet

/-- The message for host `h`: the counts only if `hostHasOutgoing` says the reader has an edge
for `h`, and the bitset's offsets when 32 bits per set bit is no more than the bitset's size. -/
def inspectionData (nthreads : ℕ) (st : InspectState) (h : ℕ) : InspectionData :=
  let curBitset := st.hasIncomingEdge.getD h ⟨[], 0⟩
  let bitsetSize := curBitset.size
  let onlyOffsetsSize := curBitset.count * 32
  let bitsetMetaMode := if bitsetSize = 0 then 0 else if onlyOffsetsSize ≤ bitsetSize then 2 else 1
  { outgoingExists := if st.hostHasOutgoing.test h then 1 else 0
    numOutgoingEdges := if st.hostHasOutgoing.test h then st.numOutgoingEdges.getD h [] else []
    bitsetMetaMode
    -- the loops of `getOffsets` end within `bitsetSize + 1` rounds on a bitset of fewer than
    -- 2^32 bits (`getOffsets_eq`) and never on a larger one (`getOffsets_wraps`); the results
    -- below assume fewer
    offsets := if bitsetMetaMode = 2 then (curBitset.getOffsets nthreads (bitsetSize + 1)).getD []
      else []
    bitset := if bitsetMetaMode = 1 then curBitset else ⟨[], 0⟩ }

/-- The body of `sendInspectionData`'s loop at host `h`: keep this host's own counts if it has
edges for itself, otherwise send `h` its message; clear the counts and the bitset sent. -/
def sendInspectionStep (id nthreads : ℕ) (acc : InspectState × List (ℕ × InspectionData))
    (h : ℕ) : InspectState × List (ℕ × InspectionData) :=
  if h = id then
    (if acc.1.hostHasOutgoing.test h then acc.1
      else { acc.1 with numOutgoingEdges := acc.1.numOutgoingEdges.set h [] }, acc.2)
  else
    ({ acc.1 with
        numOutgoingEdges := acc.1.numOutgoingEdges.set h []
        hasIncomingEdge := acc.1.hasIncomingEdge.modify h fun b => b.resize 0 },
      acc.2 ++ [(h, inspectionData nthreads acc.1 h)])

/-- `sendInspectionData`: the loop over the hosts, with the messages sent in order. -/
def sendInspectionData (numHosts id nthreads : ℕ) (st : InspectState) :
    InspectState × List (ℕ × InspectionData) :=
  (List.range numHosts).foldl (sendInspectionStep id nthreads) (st, [])

/-! ## 2. Receiving -/

/-- One iteration of `recvInspectionData`'s loop on the message `p` from host `p.1`: store the
counts under the sender (or clear them), then or in the mirror bits. -/
def recvInspectionMsg (acc : List (List ℕ) × DynamicBitSet) (p : ℕ × InspectionData) :
    Except String (List (List ℕ) × DynamicBitSet) := do
  let sendingHost := p.1
  let numOutgoingEdges ←
    if p.2.outgoingExists = 1 then pure (acc.1.set sendingHost p.2.numOutgoingEdges)
    else if p.2.outgoingExists = 0 then pure (acc.1.set sendingHost [])
    else throw "invalid recv inspection data metadata mode, outgoing"
  if p.2.bitsetMetaMode = 1 then pure (numOutgoingEdges, acc.2.bitwise_or p.2.bitset)
  else if p.2.bitsetMetaMode = 2 then
    pure (numOutgoingEdges, p.2.offsets.foldl (fun b i => b.set i) acc.2)
  else if p.2.bitsetMetaMode = 0 then pure (numOutgoingEdges, acc.2)
  else throw "invalid recv inspection data metadata mode"

/-- `recvInspectionData`: the messages in the order they arrive. -/
def recvInspectionData (msgs : List (ℕ × InspectionData)) (numOutgoingEdges : List (List ℕ))
    (hasIncomingEdge : DynamicBitSet) : Except String (List (List ℕ) × DynamicBitSet) :=
  msgs.foldlM recvInspectionMsg (numOutgoingEdges, hasIncomingEdge)

/-- `edgeInspection` on host `id`: inspect the read range, send, give this host's bitset its
size if no edge allocated it, and receive `msgs`. The result is `numOutgoingEdges` (per reader,
the counts it sent this host) and `hasIncomingEdge[id]`. -/
def edgeInspection (G : InputGraph E) (P : Policy) (gid2host : ℕ → ℕ × ℕ)
    (numHosts id nthreads : ℕ) (msgs : List (ℕ × InspectionData)) :
    Except String (List (List ℕ) × DynamicBitSet) :=
  let st := (sendInspectionData numHosts id nthreads (readerInspection G P gid2host numHosts id)).1
  let own := st.hasIncomingEdge.getD id ⟨[], 0⟩
  let finalIncoming := if own.size = 0 then (own.resize G.size).reset else own
  recvInspectionData msgs st.numOutgoingEdges finalIncoming

/-- The inspection messages host `id` receives: from every other host, what its
`sendInspectionData` addressed to `id`, tagged with the sender. -/
def inspectionSent (G : InputGraph E) (P : Policy) (gid2host : ℕ → ℕ × ℕ)
    (numHosts nthreads id : ℕ) : List (ℕ × InspectionData) :=
  ((List.range numHosts).filter (· ≠ id)).flatMap fun r =>
    (((sendInspectionData numHosts r nthreads (readerInspection G P gid2host numHosts r)).2.filter
      fun m => m.1 == id).map fun m => (r, m.2))

/-! ## 3. What the sender sends -/

/-- Two inspection states agree on host `j`'s counts and bitset. -/
structure SameAt (a b : InspectState) (j : ℕ) : Prop where
  counts : a.numOutgoingEdges.getD j [] = b.numOutgoingEdges.getD j []
  bits : a.hasIncomingEdge.getD j ⟨[], 0⟩ = b.hasIncomingEdge.getD j ⟨[], 0⟩

theorem SameAt.trans {a b c : InspectState} {j : ℕ} (hab : SameAt a b j) (hbc : SameAt b c j) :
    SameAt a c j :=
  ⟨hab.counts.trans hbc.counts, hab.bits.trans hbc.bits⟩

theorem inspectionData_congr {a b : InspectState} {h : ℕ} (hsame : SameAt a b h)
    (hout : a.hostHasOutgoing = b.hostHasOutgoing) (nthreads : ℕ) :
    inspectionData nthreads a h = inspectionData nthreads b h := by
  simp only [inspectionData, hsame.counts, hsame.bits, hout]

section Step

variable (id nthreads : ℕ) (acc : InspectState × List (ℕ × InspectionData)) (h : ℕ)

theorem sendInspectionStep_hostHasOutgoing :
    (sendInspectionStep id nthreads acc h).1.hostHasOutgoing = acc.1.hostHasOutgoing := by
  unfold sendInspectionStep
  split
  · split <;> rfl
  · rfl

theorem sendInspectionStep_sent :
    (sendInspectionStep id nthreads acc h).2 =
      if h = id then acc.2 else acc.2 ++ [(h, inspectionData nthreads acc.1 h)] := by
  unfold sendInspectionStep
  split <;> rfl

/-- A step changes only its own host's entries. -/
theorem sendInspectionStep_sameAt {j : ℕ} (hj : j ≠ h) :
    SameAt (sendInspectionStep id nthreads acc h).1 acc.1 j := by
  have hne : h ≠ j := Ne.symm hj
  unfold sendInspectionStep
  split
  · split
    · exact ⟨rfl, rfl⟩
    · refine ⟨?_, rfl⟩
      simp [List.getD_eq_getElem?_getD, hne]
  · refine ⟨?_, ?_⟩
    · simp [List.getD_eq_getElem?_getD, hne]
    · simp [List.getD_eq_getElem?_getD, hne]

/-- At its own index the loop keeps the counts only if the host has edges for itself, and
never touches the bitset. -/
theorem sendInspectionStep_own (hid : h = id) :
    (sendInspectionStep id nthreads acc h).1.numOutgoingEdges.getD id [] =
        (if acc.1.hostHasOutgoing.test id then acc.1.numOutgoingEdges.getD id [] else []) ∧
      (sendInspectionStep id nthreads acc h).1.hasIncomingEdge.getD id ⟨[], 0⟩ =
        acc.1.hasIncomingEdge.getD id ⟨[], 0⟩ := by
  subst hid
  unfold sendInspectionStep
  rw [if_pos rfl]
  by_cases ht : acc.1.hostHasOutgoing.test h = true
  · rw [if_pos ht, if_pos ht]
    exact ⟨rfl, rfl⟩
  · rw [if_neg ht, if_neg ht]
    refine ⟨?_, rfl⟩
    by_cases hlen : h < acc.1.numOutgoingEdges.length
    · rw [getD_set_of_lt (by simpa using hlen), if_pos rfl]
    · rw [getD_of_le (by simp; omega)]

theorem length_sendInspectionStep :
    (sendInspectionStep id nthreads acc h).1.numOutgoingEdges.length =
      acc.1.numOutgoingEdges.length := by
  unfold sendInspectionStep
  split
  · split
    · rfl
    · exact List.length_set
  · exact List.length_set

end Step

theorem length_sendInspectionData (numHosts id nthreads : ℕ) (st : InspectState) :
    (sendInspectionData numHosts id nthreads st).1.numOutgoingEdges.length =
      st.numOutgoingEdges.length := by
  unfold sendInspectionData
  generalize List.range numHosts = hs
  suffices ∀ acc : InspectState × List (ℕ × InspectionData),
      (hs.foldl (sendInspectionStep id nthreads) acc).1.numOutgoingEdges.length =
        acc.1.numOutgoingEdges.length from this (st, [])
  induction hs with
  | nil => intro acc; rfl
  | cons h hs ih =>
    intro acc
    rw [List.foldl_cons, ih, length_sendInspectionStep]

/-- **The send loop sends every other host the message of the state it started from**, and
leaves this host's own entries as `edgeInspection` reads them: by induction on the hosts still
to visit, carrying that the entries not yet visited are the original ones. -/
theorem sendInspection_foldl (id nthreads : ℕ) (st : InspectState) (hs : List ℕ)
    (hnd : hs.Nodup) (acc : InspectState × List (ℕ × InspectionData))
    (hout : acc.1.hostHasOutgoing = st.hostHasOutgoing) (hsame : ∀ j ∈ hs, SameAt acc.1 st j) :
    (hs.foldl (sendInspectionStep id nthreads) acc).1.hostHasOutgoing = st.hostHasOutgoing ∧
      (hs.foldl (sendInspectionStep id nthreads) acc).2 =
        acc.2 ++ (hs.filter (· ≠ id)).map (fun h => (h, inspectionData nthreads st h)) ∧
      (∀ j ∉ hs, SameAt (hs.foldl (sendInspectionStep id nthreads) acc).1 acc.1 j) ∧
      (id ∈ hs →
        (hs.foldl (sendInspectionStep id nthreads) acc).1.numOutgoingEdges.getD id [] =
            (if st.hostHasOutgoing.test id then st.numOutgoingEdges.getD id [] else []) ∧
          (hs.foldl (sendInspectionStep id nthreads) acc).1.hasIncomingEdge.getD id ⟨[], 0⟩ =
            st.hasIncomingEdge.getD id ⟨[], 0⟩) := by
  induction hs generalizing acc with
  | nil => exact ⟨hout, by simp, fun _ _ => ⟨rfl, rfl⟩, fun h => absurd h List.not_mem_nil⟩
  | cons h hs ih =>
    obtain ⟨hh, hnd⟩ := List.nodup_cons.mp hnd
    set acc' := sendInspectionStep id nthreads acc h with hacc'
    have hout' : acc'.1.hostHasOutgoing = st.hostHasOutgoing :=
      (sendInspectionStep_hostHasOutgoing id nthreads acc h).trans hout
    -- the hosts after `h` still hold their original entries
    have hsame' : ∀ j ∈ hs, SameAt acc'.1 st j := fun j hj =>
      (sendInspectionStep_sameAt id nthreads acc h (fun e => hh (e ▸ hj))).trans
        (hsame j (List.mem_cons_of_mem _ hj))
    obtain ⟨ihout, ihsent, ihsame, ihown⟩ := ih hnd acc' hout' hsame'
    refine ⟨ihout, ?_, fun j hj => ?_, fun hid => ?_⟩
    · rw [List.foldl_cons, ihsent, hacc', sendInspectionStep_sent, List.filter_cons]
      by_cases hid : h = id
      · rw [if_pos hid, if_neg (by simp [hid])]
      · rw [if_neg hid, if_pos (by simpa using hid), List.map_cons, List.append_assoc,
          inspectionData_congr (hsame h List.mem_cons_self) hout]
        rfl
    · rw [List.mem_cons, not_or] at hj
      exact (ihsame j hj.2).trans (sendInspectionStep_sameAt id nthreads acc h hj.1)
    · rw [List.foldl_cons]
      by_cases hhid : h = id
      · -- this host is visited now and never again
        subst hhid
        have hlast := ihsame h hh
        obtain ⟨hc, hb⟩ := sendInspectionStep_own h nthreads acc h rfl
        have hst := hsame h List.mem_cons_self
        refine ⟨hlast.counts.trans (hc.trans ?_), hlast.bits.trans (hb.trans hst.bits)⟩
        rw [hout, hst.counts]
      · exact ihown ((List.mem_cons.mp hid).resolve_left (Ne.symm hhid))

/-- **`sendInspectionData` sends each other host its message**, keeps this host's counts only
if it has edges for itself, and keeps this host's bitset. -/
theorem sendInspectionData_spec (numHosts id nthreads : ℕ) (st : InspectState)
    (hid : id < numHosts) :
    (sendInspectionData numHosts id nthreads st).2 =
        ((List.range numHosts).filter (· ≠ id)).map (fun h => (h, inspectionData nthreads st h)) ∧
      (sendInspectionData numHosts id nthreads st).1.numOutgoingEdges.getD id [] =
        (if st.hostHasOutgoing.test id then st.numOutgoingEdges.getD id [] else []) ∧
      (sendInspectionData numHosts id nthreads st).1.hasIncomingEdge.getD id ⟨[], 0⟩ =
        st.hasIncomingEdge.getD id ⟨[], 0⟩ := by
  obtain ⟨-, hsent, -, hown⟩ := sendInspection_foldl id nthreads st (List.range numHosts)
    List.nodup_range (st, []) rfl fun _ _ => ⟨rfl, rfl⟩
  exact ⟨hsent.trans (List.nil_append _), hown (List.mem_range.mpr hid)⟩

/-! ## 4. What a receiver gets -/

section Receive

variable (G : InputGraph E) (P : Policy) (gid2host : ℕ → ℕ × ℕ)

/-- The counts reader `r` ships host `h`: the number of `h`'s edges of every node it read, or
nothing if it has no edge for `h`. -/
def countsFor (r h : ℕ) : List ℕ :=
  if (List.range' (gid2host r).1 ((gid2host r).2 - (gid2host r).1)).any
      (fun src => !(ownedEdges G P h src).isEmpty) then
    (List.range' (gid2host r).1 ((gid2host r).2 - (gid2host r).1)).map fun src =>
      (ownedEdges G P h src).length
  else []

/-- The nodes host `h` must mirror: some reader read an edge that `h` keeps, to a node whose
master is another host. -/
def mirrorsOf (numHosts h d : ℕ) : Bool :=
  (List.range numHosts).any fun r => mirrorBit G P (gid2host r).1 (gid2host r).2 h d

variable {G P gid2host}

/-- A reader's message to `h`, read back through `Inspected`: the token and the counts. -/
theorem inspectionData_counts {numHosts r h : ℕ} (nthreads : ℕ) {st : InspectState}
    (hI : Inspected G P numHosts (gid2host r).1 (gid2host r).2 st) (hh : h < numHosts) :
    ((inspectionData nthreads st h).outgoingExists = 1 ∧
        (inspectionData nthreads st h).numOutgoingEdges = countsFor G P gid2host r h) ∨
      ((inspectionData nthreads st h).outgoingExists = 0 ∧ countsFor G P gid2host r h = []) := by
  have htest := hI.outgoing.test h
  rw [decide_eq_true hh, Bool.true_and] at htest
  by_cases hany : (List.range' (gid2host r).1 ((gid2host r).2 - (gid2host r).1)).any
      (fun src => !(ownedEdges G P h src).isEmpty) = true
  · refine Or.inl ⟨by simp [inspectionData, htest, hany], ?_⟩
    simp only [inspectionData, htest, hany, if_true, hI.counts h hh, countsFor]
  · rw [Bool.not_eq_true] at hany
    refine Or.inr ⟨by simp [inspectionData, htest, hany], ?_⟩
    simp only [countsFor, hany, Bool.false_eq_true, if_false]

/-- The receiver on a message whose count token is valid: the counts are stored, and the bitset
token decides what is or-ed in. -/
theorem recvInspectionMsg_eq (acc : List (List ℕ) × DynamicBitSet) (p : ℕ × InspectionData)
    (cnts : List ℕ) (hcnt : (p.2.outgoingExists = 1 ∧ p.2.numOutgoingEdges = cnts) ∨
      (p.2.outgoingExists = 0 ∧ cnts = [])) :
    recvInspectionMsg acc p =
      if p.2.bitsetMetaMode = 1 then .ok (acc.1.set p.1 cnts, acc.2.bitwise_or p.2.bitset)
      else if p.2.bitsetMetaMode = 2 then
        .ok (acc.1.set p.1 cnts, p.2.offsets.foldl (fun b i => b.set i) acc.2)
      else if p.2.bitsetMetaMode = 0 then .ok (acc.1.set p.1 cnts, acc.2)
      else .error "invalid recv inspection data metadata mode" := by
  rcases hcnt with ⟨h1, rfl⟩ | ⟨h0, rfl⟩
  · simp only [recvInspectionMsg, h1, if_true, pure_bind]
    rfl
  · simp only [recvInspectionMsg, h0, if_true, Nat.zero_ne_one, if_false, pure_bind]
    rfl

/-- The bitset part of a message: nothing if the bitset was never allocated, else its offsets
or the bitset itself, whichever is smaller. -/
theorem inspectionData_bits (nthreads : ℕ) (st : InspectState) (h : ℕ) :
    ((st.hasIncomingEdge.getD h ⟨[], 0⟩).size = 0 ∧
        (inspectionData nthreads st h).bitsetMetaMode = 0) ∨
      ((st.hasIncomingEdge.getD h ⟨[], 0⟩).size ≠ 0 ∧
        (inspectionData nthreads st h).bitsetMetaMode = 2 ∧
        (inspectionData nthreads st h).offsets =
          ((st.hasIncomingEdge.getD h ⟨[], 0⟩).getOffsets nthreads
            ((st.hasIncomingEdge.getD h ⟨[], 0⟩).size + 1)).getD []) ∨
      ((st.hasIncomingEdge.getD h ⟨[], 0⟩).size ≠ 0 ∧
        (inspectionData nthreads st h).bitsetMetaMode = 1 ∧
        (inspectionData nthreads st h).bitset = st.hasIncomingEdge.getD h ⟨[], 0⟩) := by
  unfold inspectionData
  dsimp only
  by_cases h0 : (st.hasIncomingEdge.getD h ⟨[], 0⟩).size = 0
  · exact Or.inl ⟨h0, by rw [if_pos h0]⟩
  · by_cases hoff : (st.hasIncomingEdge.getD h ⟨[], 0⟩).count * 32 ≤
        (st.hasIncomingEdge.getD h ⟨[], 0⟩).size
    · refine Or.inr (Or.inl ⟨h0, by rw [if_neg h0, if_pos hoff], ?_⟩)
      rw [if_neg h0, if_pos hoff, if_pos rfl]
    · refine Or.inr (Or.inr ⟨h0, by rw [if_neg h0, if_neg hoff], ?_⟩)
      rw [if_neg h0, if_neg hoff, if_pos rfl]

/-- **A receiver stores a reader's counts and ors in its mirror bits**, whatever form the
bitset took on the wire. -/
theorem recvInspectionMsg_spec {numHosts r h nthreads : ℕ} {st : InspectState}
    (hI : Inspected G P numHosts (gid2host r).1 (gid2host r).2 st) (hh : h < numHosts)
    (hN : G.size < 2 ^ 32) (hT : 0 < nthreads) (hT32 : nthreads < 2 ^ 32)
    (counts : List (List ℕ)) {bits : DynamicBitSet} {f : ℕ → Bool}
    (hbits : bits.Holds G.size f) :
    ∃ bits', recvInspectionMsg (counts, bits) (r, inspectionData nthreads st h) =
        .ok (counts.set r (countsFor G P gid2host r h), bits') ∧
      bits'.Holds G.size fun d => f d || mirrorBit G P (gid2host r).1 (gid2host r).2 h d := by
  rw [recvInspectionMsg_eq _ _ _ (inspectionData_counts nthreads hI hh)]
  dsimp only
  -- an allocated bitset holds the mirror bits
  have hholds : (st.hasIncomingEdge.getD h ⟨[], 0⟩).size ≠ 0 →
      (st.hasIncomingEdge.getD h ⟨[], 0⟩).Holds G.size
        (mirrorBit G P (gid2host r).1 (gid2host r).2 h) := by
    intro h0
    rcases hI.incoming h hh with ⟨hnil, -⟩ | hhold
    · exact absurd (by rw [hnil]; rfl) h0
    · exact hhold
  rcases inspectionData_bits nthreads st h with ⟨h0, hm⟩ | ⟨h0, hm, hoffs⟩ | ⟨h0, hm, hb⟩
  · -- nothing was allocated, or nothing can be set
    have hnone : ∀ d < G.size, mirrorBit G P (gid2host r).1 (gid2host r).2 h d = false := by
      intro d hd
      rcases hI.incoming h hh with ⟨-, hnone⟩ | hhold
      · exact hnone d
      · have hN : G.size = 0 := by rw [← hhold.num_bits]; exact h0
        omega
    refine ⟨bits, by rw [hm]; rfl, hbits.congr fun d hd => by rw [hnone d hd, Bool.or_false]⟩
  · -- the set bits as offsets, set one by one
    have hgot : (st.hasIncomingEdge.getD h ⟨[], 0⟩).getOffsets nthreads
        ((st.hasIncomingEdge.getD h ⟨[], 0⟩).size + 1) =
        some ((List.range G.size).filter (mirrorBit G P (gid2host r).1 (gid2host r).2 h)) :=
      (hholds h0).getOffsets hN hT hT32 (Nat.lt_succ_of_le (Nat.le_of_eq (hholds h0).num_bits.symm))
    refine ⟨((List.range G.size).filter (mirrorBit G P (gid2host r).1 (gid2host r).2 h)).foldl
      (fun b i => b.set i) bits, by rw [hm, hoffs, hgot]; rfl, ?_⟩
    refine (hbits.set_foldl _ fun i hi => ?_).congr fun d hd => ?_
    · exact List.mem_range.mp (List.mem_of_mem_filter hi)
    · simp [List.contains_eq_mem, List.mem_filter, hd]
  · -- the whole bitset, or-ed in
    refine ⟨bits.bitwise_or (st.hasIncomingEdge.getD h ⟨[], 0⟩), by rw [hm, hb]; rfl,
      hbits.bitwise_or (hholds h0)⟩

/-- **The receive loop stores every reader's counts and ors in every reader's mirror bits**,
one `recvInspectionMsg_spec` per message, by induction on the messages in arrival order. -/
theorem recvInspectionData_spec {numHosts h nthreads : ℕ} (sts : ℕ → InspectState)
    (hh : h < numHosts) (hN : G.size < 2 ^ 32) (hT : 0 < nthreads) (hT32 : nthreads < 2 ^ 32)
    (rs : List ℕ)
    (hI : ∀ r ∈ rs, Inspected G P numHosts (gid2host r).1 (gid2host r).2 (sts r))
    (counts : List (List ℕ)) {bits : DynamicBitSet} {f : ℕ → Bool}
    (hbits : bits.Holds G.size f) :
    ∃ bits', recvInspectionData (rs.map fun r => (r, inspectionData nthreads (sts r) h))
          counts bits =
        .ok (rs.foldl (fun c r => c.set r (countsFor G P gid2host r h)) counts, bits') ∧
      bits'.Holds G.size fun d =>
        f d || rs.any fun r => mirrorBit G P (gid2host r).1 (gid2host r).2 h d := by
  induction rs generalizing counts bits f with
  | nil => exact ⟨bits, rfl, hbits.congr fun d _ => by simp⟩
  | cons r rs ih =>
    obtain ⟨b1, hr, hb1⟩ := recvInspectionMsg_spec (hI r List.mem_cons_self) hh hN hT hT32 counts
      hbits
    obtain ⟨b2, hrest, hb2⟩ :=
      ih (fun r' hr' => hI r' (List.mem_cons_of_mem _ hr')) (counts.set r _) hb1
    refine ⟨b2, ?_, hb2.congr fun d _ => ?_⟩
    · rw [List.map_cons, recvInspectionData, List.foldlM_cons, hr]
      exact hrest
    · simp [Bool.or_assoc]

/-- A reader's inspection, from `assignEdges_spec`: its range lies in the graph and the policy
gives every edge a host. -/
theorem readerInspection_spec {numHosts r : ℕ} (hs : ReaderSplit G.size numHosts gid2host)
    (hown : ∀ src < G.size, ∀ e ∈ G.edges src, owner G P src e.1 < numHosts)
    (hr : r < numHosts) :
    Inspected G P numHosts (gid2host r).1 (gid2host r).2
      (readerInspection G P gid2host numHosts r) :=
  assignEdges_spec (hs.snd_le hr) fun src _ hsrc e he =>
    hown src (Nat.lt_of_lt_of_le hsrc (hs.snd_le hr)) e he

/-- Host `id` receives one message from every other host: the one `inspectionData` makes. -/
theorem inspectionSent_eq {numHosts nthreads id : ℕ} (hid : id < numHosts) :
    inspectionSent G P gid2host numHosts nthreads id =
      ((List.range numHosts).filter (· ≠ id)).map fun r =>
        (r, inspectionData nthreads (readerInspection G P gid2host numHosts r) id) := by
  rw [inspectionSent, List.map_eq_flatMap]
  refine List.flatMap_congr fun r hr => ?_
  have hne : id ≠ r := Ne.symm (by simpa using (List.mem_filter.mp hr).2)
  rw [(sendInspectionData_spec numHosts r nthreads _ (List.mem_range.mp
    (List.mem_of_mem_filter hr))).1, List.filter_map, List.filter_filter]
  -- of the hosts `r` sends to, only `id` is `id`
  have hsel : ∀ q : ℕ → Bool, (∀ x, q x = (x == id)) → (List.range numHosts).filter q = [id] := by
    intro q hq
    rw [List.filter_congr fun x _ => hq x, List.filter_beq, List.count_range, if_pos hid]
    rfl
  rw [hsel _ fun x => ?_]
  · rfl
  · by_cases hx : x = id
    · subst hx
      simp [hne]
    · simp [hx]

theorem any_range_split {numHosts id : ℕ} (hid : id < numHosts) (p : ℕ → Bool) :
    (List.range numHosts).any p = (p id || ((List.range numHosts).filter (· ≠ id)).any p) := by
  rw [Bool.eq_iff_iff, Bool.or_eq_true, List.any_eq_true, List.any_eq_true]
  constructor
  · rintro ⟨r, hr, hp⟩
    by_cases hri : r = id
    · exact Or.inl (hri ▸ hp)
    · exact Or.inr ⟨r, List.mem_filter.mpr ⟨hr, by simpa using hri⟩, hp⟩
  · rintro (hp | ⟨r, hr, hp⟩)
    · exact ⟨id, List.mem_range.mpr hid, hp⟩
    · exact ⟨r, List.mem_of_mem_filter hr, hp⟩

/-- This host's own part before the messages: its counts for itself, and its bitset sized for
the whole graph with the mirrors its own edges need. -/
theorem edgeInspection_own {numHosts id : ℕ} (nthreads : ℕ) (hs : ReaderSplit G.size numHosts gid2host)
    (hown : ∀ src < G.size, ∀ e ∈ G.edges src, owner G P src e.1 < numHosts)
    (hid : id < numHosts) :
    let st := (sendInspectionData numHosts id nthreads (readerInspection G P gid2host numHosts id)).1
    let own := st.hasIncomingEdge.getD id ⟨[], 0⟩
    st.numOutgoingEdges.length = numHosts ∧
      st.numOutgoingEdges.getD id [] = countsFor G P gid2host id id ∧
      (if own.size = 0 then (own.resize G.size).reset else own).Holds G.size
        (mirrorBit G P (gid2host id).1 (gid2host id).2 id) := by
  intro st own
  have hI := readerInspection_spec hs hown hid
  obtain ⟨-, hcounts, hbits⟩ := sendInspectionData_spec numHosts id nthreads
    (readerInspection G P gid2host numHosts id) hid
  refine ⟨(length_sendInspectionData _ _ _ _).trans hI.counts_length, ?_, ?_⟩
  · rcases inspectionData_counts nthreads hI hid with ⟨h1, hc⟩ | ⟨h0, hc⟩
    · have htest : (readerInspection G P gid2host numHosts id).hostHasOutgoing.test id = true := by
        by_contra ht
        simp [inspectionData, ht] at h1
      rw [hcounts, if_pos htest, ← hc]
      simp [inspectionData, htest]
    · have htest : (readerInspection G P gid2host numHosts id).hostHasOutgoing.test id = false := by
        by_contra ht
        simp [inspectionData, ht] at h0
      rw [hcounts, if_neg (by simp [htest]), hc]
  · have hown' : own = (readerInspection G P gid2host numHosts id).hasIncomingEdge.getD id ⟨[], 0⟩ :=
      hbits
    rcases hI.incoming id hid with ⟨hnil, hnone⟩ | hhold
    · -- never allocated: sized now, and no bit is needed
      have h0 : own.size = 0 := by rw [hown', hnil]; rfl
      rw [if_pos h0]
      exact (DynamicBitSet.holds_resize own G.size).reset.congr fun d _ => (hnone d).symm
    · by_cases h0 : own.size = 0
      · rw [if_pos h0]
        have hN : G.size = 0 := by rw [← hhold.num_bits, ← hown']; exact h0
        exact (DynamicBitSet.holds_resize own G.size).reset.congr fun d hd => absurd hd (by omega)
      · rw [if_neg h0, hown']
        exact hhold

/-- **After `edgeInspection`, a host holds every reader's counts for it and the mirrors its
edges need**, whatever the order in which the other hosts' messages arrive. -/
theorem edgeInspection_spec {numHosts id nthreads : ℕ} (hs : ReaderSplit G.size numHosts gid2host)
    (hown : ∀ src < G.size, ∀ e ∈ G.edges src, owner G P src e.1 < numHosts)
    (hid : id < numHosts) (hN : G.size < 2 ^ 32) (hT : 0 < nthreads) (hT32 : nthreads < 2 ^ 32)
    {msgs : List (ℕ × InspectionData)}
    (hmsgs : msgs.Perm (inspectionSent G P gid2host numHosts nthreads id)) :
    ∃ counts bits, edgeInspection G P gid2host numHosts id nthreads msgs = .ok (counts, bits) ∧
      counts.length = numHosts ∧ (∀ r < numHosts, counts.getD r [] = countsFor G P gid2host r id) ∧
      bits.Holds G.size (mirrorsOf G P gid2host numHosts id) := by
  obtain ⟨hlen, hcnt, hbits⟩ := edgeInspection_own nthreads hs hown hid
  rw [inspectionSent_eq hid] at hmsgs
  -- the messages are those of the other hosts, in some order
  set rs := msgs.map Prod.fst with hrs
  have hrsperm : rs.Perm ((List.range numHosts).filter (· ≠ id)) := by
    simpa [hrs, List.map_map, Function.comp_def] using hmsgs.map Prod.fst
  have hmsgs' : msgs = rs.map fun r =>
      (r, inspectionData nthreads (readerInspection G P gid2host numHosts r) id) := by
    rw [hrs, List.map_map]
    refine (List.map_id msgs).symm.trans (List.map_congr_left fun m hm => ?_)
    obtain ⟨r, -, rfl⟩ := List.mem_map.mp (hmsgs.subset hm)
    rfl
  have hmem : ∀ r, r ∈ rs ↔ r < numHosts ∧ r ≠ id := fun r => by
    rw [hrsperm.mem_iff, List.mem_filter, List.mem_range, decide_eq_true_iff]
  obtain ⟨bits', hrecv, hbits'⟩ := recvInspectionData_spec
    (readerInspection G P gid2host numHosts) hid hN hT hT32 rs
    (fun r hr => readerInspection_spec hs hown ((hmem r).mp hr).1) _ hbits
  refine ⟨_, bits', by rw [edgeInspection, hmsgs']; exact hrecv, ?_, fun r hr => ?_, ?_⟩
  · rw [length_foldl_set, hlen]
  · rw [getD_foldl_set _ _ (by rw [hlen]; exact hr)]
    by_cases hri : r = id
    · subst hri
      rw [if_neg fun h => ((hmem r).mp h).2 rfl, hcnt]
    · rw [if_pos ((hmem r).mpr ⟨hr, hri⟩)]
  · refine hbits'.congr fun d _ => ?_
    rw [mirrorsOf, any_range_split hid, hrsperm.any_eq]

end Receive

end Galois.Cusp
