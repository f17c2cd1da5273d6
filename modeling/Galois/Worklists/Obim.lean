import Mathlib.Order.BoundedOrder.Basic
import Mathlib.Order.Nat
import Mathlib.Algebra.BigOperators.Group.List.Basic
import Galois.FlatMap
import Galois.PriorityBag
import Galois.Worklists.Chunk

/-!
# Obim.h: `OrderedByIntegerMetric`

`OrderedByIntegerMetric` (OBIM) schedules items by the index `indexer` gives them. Each index
has its bucket, a chunked worklist (`ChunkMaster`); each thread maps indices to buckets in its
`flat_map` `local`, works from the bucket `current` at `curIndex`, and rescans its map from
`scanStart` in `slowPop` (back-scan prevention, `BSP`). A new bucket is made under the master
lock and logged in `masterLog`, which every thread replays into its map in `updateLocal`.

The model is of one active thread, without `UseBarrier` (whose stored items and `empty()` are
then not compiled) and without `UseMonotonic`, for every `BSP` and `BlockPeriod`. The indices are
ordered by the comparator: `std::less` is a linear order whose bottom is `earliest`, and
`std::greater` its dual. The buckets `new CTy()` makes are the list `heap`, and a `CTy*` is a
position in it (`none` is null), so `local`, `current` and `masterLog` hold pointers as the code
does.

* `push`, `pop`, with `updateLocal`, `slowPop`, `slowUpdateLocalOrCreate` and
  `updateLocalOrCreate`; `run` -- a sequence of pushes and pops;
* `contents`, `Inv` -- the items of all buckets; the invariant: every bucket has one entry in
  `local`, at the index of its items; `current` is the bucket at `curIndex`; no item is below
  `curIndex`; with `BSP`, `scanStart` is not above `curIndex`;
* `push_spec`, `pop_spec` -- `push` adds its item; `pop` returns an item of least index and
  takes it out, or nothing when there is none;
* `run_refines_trace` -- every run refines `PriorityBag.Trace`.
-/

namespace Galois.Worklists

/-- `ThreadData`: the map `local` from indices to buckets, `curIndex`, `scanStart`, the bucket
`current`, `lastMasterVersion` and `numPops`. -/
structure ThreadData (ι : Type) where
  localMap : List (ι × Option ℕ)
  curIndex : ι
  scanStart : ι
  current : Option ℕ
  lastMasterVersion : ℕ
  numPops : UInt32

/-- `OrderedByIntegerMetric` with one active thread: its `ThreadData`, `masterLog`,
`masterVersion`, and the buckets. -/
structure OrderedByIntegerMetric (T ι : Type) where
  data : ThreadData ι
  masterLog : List (ι × Option ℕ)
  masterVersion : ℕ
  heap : List (ChunkMaster T)

namespace OrderedByIntegerMetric

open FlatMap

variable {T ι : Type} [LinearOrder ι] [OrderBot ι]

/-! ## 1. The model -/

section Model

variable (indexer : T → ι) (ChunkSize : ℕ) (IsStack : Bool) (BlockPeriod : ℕ) (BSP : Bool)

/-- The constructor: `curIndex` and `scanStart` at `earliest`, no bucket. -/
def init : OrderedByIntegerMetric T ι := ⟨⟨[], ⊥, ⊥, none, 0, 0⟩, [], 0, []⟩

/-- The loop of `updateLocal`: `local[e.first] = e.second` for the `n` entries of `masterLog`
from `v` on, each asserted to be a bucket. -/
def replay (log : List (ι × Option ℕ)) (localMap : List (ι × Option ℕ)) (v : ℕ) :
    ℕ → Option (List (ι × Option ℕ))
  | 0 => some localMap
  | n + 1 => do
    let e ← log[v]?
    if e.2.isNone then none
    else replay log (FlatMap.apply localMap (.assign e.1 e.2)) (v + 1) n

/-- `updateLocal(p)`: the entries of `masterLog` the thread has not seen go into its map. -/
def updateLocal (st : OrderedByIntegerMetric T ι) : Option (OrderedByIntegerMetric T ι × Bool) :=
  if st.data.lastMasterVersion ≠ st.masterVersion then do
    let m ← replay st.masterLog st.data.localMap st.data.lastMasterVersion
      (st.masterVersion - st.data.lastMasterVersion)
    some ({ st with
      data := { st.data with
        localMap := m
        lastMasterVersion := max st.data.lastMasterVersion st.masterVersion } }, true)
  else some (st, false)

/-- `C->pop()` on the bucket at `j`. -/
def popAt (st : OrderedByIntegerMetric T ι) (j : ℕ) :
    Option (OrderedByIntegerMetric T ι × Option T) := do
  let c ← st.heap[j]?
  let r := ChunkMaster.pop ChunkSize IsStack c
  some ({ st with heap := st.heap.set j r.1 }, r.2)

/-- `C->push(val)` on the bucket at `j`. -/
def pushAt (st : OrderedByIntegerMetric T ι) (j : ℕ) (val : T) :
    Option (OrderedByIntegerMetric T ι) := do
  let c ← st.heap[j]?
  let c' ← ChunkMaster.push ChunkSize IsStack c val
  some { st with heap := st.heap.set j c' }

/-- The loop of `slowPop` over the entries of `local` from `lower_bound(msS)`: the first bucket
that pops an item becomes `current`, and its index `curIndex` and `scanStart`. -/
def scan (st : OrderedByIntegerMetric T ι) :
    List (ι × Option ℕ) → Option (OrderedByIntegerMetric T ι × Option T)
  | [] => some (st, none)
  | (k, C) :: rest => do
    let j ← C
    let (st, item) ← popAt ChunkSize IsStack st j
    match item with
    | some x =>
      some ({ st with data := { st.data with current := some j, curIndex := k, scanStart := k } },
        some x)
    | none => scan st rest

/-- `slowPop(p)`. With `BSP` the scan starts at `scanStart`, the least one of the threads': the
leader's loop over the one active thread reads its own. -/
def slowPop (st : OrderedByIntegerMetric T ι) : Option (OrderedByIntegerMetric T ι × Option T) := do
  let (st, _) ← updateLocal st
  let msS := if BSP then st.data.scanStart else ⊥
  scan ChunkSize IsStack st
    (st.data.localMap.drop (lowerBound st.data.localMap st.data.localMap.length msS))

/-- `it->second` for `it = local.find(i)`, and `none` for `end()`. -/
def findBucket (localMap : List (ι × Option ℕ)) (i : ι) : Option (Option ℕ) :=
  (find localMap i).bind fun pos => localMap[pos]?.map Prod.snd

/-- `slowUpdateLocalOrCreate(p, i)`. With one thread `masterLock.try_lock()` succeeds, so the
loop runs once; a new bucket is logged, and `lastMasterVersion` passes its entry. -/
def slowUpdateLocalOrCreate (st : OrderedByIntegerMetric T ι) (i : ι) :
    Option (OrderedByIntegerMetric T ι × Option ℕ) := do
  let (st, _) ← updateLocal st
  match findBucket st.data.localMap i with
  | some C => some (st, C)
  | none => do
    let (st, _) ← updateLocal st
    match (findBucket st.data.localMap i).getD none with
    | some C2 => some (st, some C2)
    | none =>
      let C2 := st.heap.length
      some ({ st with
        data := { st.data with
          localMap := FlatMap.apply st.data.localMap (.assign i (some C2))
          lastMasterVersion := st.masterVersion + 1 }
        masterLog := st.masterLog ++ [(i, some C2)]
        masterVersion := st.masterVersion + 1
        heap := st.heap ++ [ChunkMaster.empty] }, some C2)

/-- `updateLocalOrCreate(p, i)`: the bucket of `local`, or the slow path. -/
def updateLocalOrCreate (st : OrderedByIntegerMetric T ι) (i : ι) :
    Option (OrderedByIntegerMetric T ι × Option ℕ) :=
  match findBucket st.data.localMap i with
  | some C => some (st, C)
  | none => slowUpdateLocalOrCreate st i

/-- `push(val)`: into `current` when it is at the item's index; otherwise into the item's
bucket, lowering `scanStart` (with `BSP`) and moving `current` to a better index. -/
def push (st : OrderedByIntegerMetric T ι) (val : T) : Option (OrderedByIntegerMetric T ι) :=
  let index := indexer val
  if index = st.data.curIndex ∧ st.data.current.isSome then do
    let j ← st.data.current
    pushAt ChunkSize IsStack st j val
  else do
    let (st, C) ← updateLocalOrCreate st index
    let st := if BSP ∧ index < st.data.scanStart then
      { st with data := { st.data with scanStart := index } } else st
    let st := if index < st.data.curIndex then
      { st with data := { st.data with curIndex := index, current := C } } else st
    let j ← C
    pushAt ChunkSize IsStack st j val

/-- `pop()`: every `2^BlockPeriod`-th call goes to `slowPop`; otherwise `current`, then
`slowPop`. `numPops` counts only when `BlockPeriod` is not `0`. -/
def pop (st : OrderedByIntegerMetric T ι) : Option (OrderedByIntegerMetric T ι × Option T) :=
  let C := st.data.current
  let periodic := BlockPeriod ≠ 0 ∧
    (st.data.numPops &&& ((1 <<< BlockPeriod.toUInt32) - 1)) = 0
  let st := if BlockPeriod ≠ 0 then
    { st with data := { st.data with numPops := st.data.numPops + 1 } } else st
  if periodic then slowPop ChunkSize IsStack BSP st
  else
    match C with
    | some j => do
      let (st, item) ← popAt ChunkSize IsStack st j
      match item with
      | some x => some (st, some x)
      | none => slowPop ChunkSize IsStack BSP st
    | none => slowPop ChunkSize IsStack BSP st

/-- A sequence of pushes and pops, and what the pops return. -/
def run (st : OrderedByIntegerMetric T ι) :
    List (PriorityBag.Op T) → Option (OrderedByIntegerMetric T ι × List (Option T))
  | [] => some (st, [])
  | .push x :: ops => (push indexer ChunkSize IsStack BSP st x).bind fun st => run st ops
  | .pop :: ops => do
    let (st, r) ← pop ChunkSize IsStack BlockPeriod BSP st
    let (st, outs) ← run st ops
    some (st, r :: outs)

end Model

/-! ## 2. The items and the invariant -/

section Spec

variable {indexer : T → ι} {ChunkSize : ℕ} {IsStack : Bool} {BlockPeriod : ℕ} {BSP : Bool}

variable (ChunkSize) in
/-- The items of all buckets. -/
def contents (st : OrderedByIntegerMetric T ι) : Multiset T :=
  (st.heap.map (ChunkMaster.items ChunkSize)).sum

variable (indexer ChunkSize IsStack BSP) in
/-- `local` is sorted and maps indices to buckets, one entry for each bucket, at the index of
its items, and no two entries to one bucket; every bucket keeps the chunk invariant; the thread has seen the whole log; `current`
is the bucket at `curIndex`, below every item; with `BSP`, `scanStart` is not above
`curIndex`. -/
structure Inv (st : OrderedByIntegerMetric T ι) : Prop where
  sorted : Sorted st.data.localMap
  bucket : ∀ k C, toRef st.data.localMap k = some C → ∃ j, C = some j ∧ j < st.heap.length
  keyed : ∀ k j c, toRef st.data.localMap k = some (some j) → st.heap[j]? = some c →
    ∀ x ∈ ChunkMaster.items ChunkSize c, indexer x = k
  covers : ∀ j < st.heap.length, ∃ k, toRef st.data.localMap k = some (some j)
  inj : ∀ k k' j, toRef st.data.localMap k = some (some j) →
    toRef st.data.localMap k' = some (some j) → k = k'
  chunks : ∀ c ∈ st.heap, ChunkMaster.Inv ChunkSize IsStack c
  version : st.data.lastMasterVersion = st.masterVersion
  current : ∀ j, st.data.current = some j → toRef st.data.localMap st.data.curIndex = some (some j)
  curMin : ∀ x ∈ contents ChunkSize st, st.data.curIndex ≤ indexer x
  scanLe : BSP = true → st.data.scanStart ≤ st.data.curIndex

theorem inv_init : Inv indexer ChunkSize IsStack BSP (init : OrderedByIntegerMetric T ι) where
  sorted := List.Pairwise.nil
  bucket _ _ h := nomatch h
  keyed _ _ _ h := nomatch h
  covers _ h := absurd h (Nat.not_lt_zero _)
  inj _ _ _ h := nomatch h
  chunks _ h := nomatch h
  version := rfl
  current _ h := nomatch h
  curMin _ h := nomatch h
  scanLe _ := le_refl _

theorem contents_init : contents ChunkSize (init : OrderedByIntegerMetric T ι) = 0 := rfl

/-- The thread's data holds no item. -/
@[simp] theorem contents_with_data (st : OrderedByIntegerMetric T ι) (d : ThreadData ι) :
    contents ChunkSize { st with data := d } = contents ChunkSize st := rfl

theorem mem_list_sum {x : T} {l : List (Multiset T)} : x ∈ l.sum ↔ ∃ m ∈ l, x ∈ m := by
  induction l with
  | nil => simp
  | cons m l ih => simp [List.sum_cons, Multiset.mem_add, ih]

/-- An item of a bucket is an item of the worklist. -/
theorem mem_contents {st : OrderedByIntegerMetric T ι} {j : ℕ} {c : ChunkMaster T}
    (hc : st.heap[j]? = some c) {x : T} (hx : x ∈ ChunkMaster.items ChunkSize c) :
    x ∈ contents ChunkSize st :=
  mem_list_sum.mpr ⟨_, List.mem_map_of_mem (List.mem_of_getElem? hc), hx⟩

/-- An item of the worklist is in a bucket. -/
theorem exists_of_mem_contents {st : OrderedByIntegerMetric T ι} {x : T}
    (hx : x ∈ contents ChunkSize st) :
    ∃ (j : ℕ) (c : ChunkMaster T), st.heap[j]? = some c ∧ x ∈ ChunkMaster.items ChunkSize c := by
  obtain ⟨m, hm, hxm⟩ := mem_list_sum.mp hx
  obtain ⟨c, hc, rfl⟩ := List.mem_map.mp hm
  obtain ⟨j, hj, rfl⟩ := List.getElem_of_mem hc
  exact ⟨j, _, List.getElem?_eq_getElem hj, hxm⟩

variable (ChunkSize) in
/-- Replacing a bucket replaces its items in the worklist. -/
theorem contents_set {heap : List (ChunkMaster T)} {j : ℕ} {c : ChunkMaster T}
    (hc : heap[j]? = some c) (c' : ChunkMaster T) :
    ((heap.set j c').map (ChunkMaster.items ChunkSize)).sum + ChunkMaster.items ChunkSize c =
      (heap.map (ChunkMaster.items ChunkSize)).sum + ChunkMaster.items ChunkSize c' := by
  have hj : j < heap.length := (List.getElem?_eq_some_iff.mp hc).1
  have hjm : j < (heap.map (ChunkMaster.items ChunkSize)).length := by simpa using hj
  have hget : (heap.map (ChunkMaster.items ChunkSize))[j] = ChunkMaster.items ChunkSize c := by
    simp [List.getElem_map, (List.getElem?_eq_some_iff.mp hc).2]
  rw [List.map_set, List.sum_set, if_pos hjm]
  conv_rhs => rw [← List.sum_take_add_sum_drop (heap.map (ChunkMaster.items ChunkSize)) j,
    List.drop_eq_getElem_cons hjm, List.sum_cons, hget]
  abel

/-- With the whole log seen, `updateLocal` changes nothing. -/
theorem updateLocal_of_inv {st : OrderedByIntegerMetric T ι}
    (h : Inv indexer ChunkSize IsStack BSP st) : updateLocal st = some (st, false) := by
  rw [updateLocal, if_neg (not_not.mpr h.version)]

/-- On a sorted map `findBucket` reads the finite map. -/
theorem findBucket_eq {m : List (ι × Option ℕ)} (hs : Sorted m) (i : ι) :
    findBucket m i = toRef m i := by
  rw [findBucket, find_spec hs]
  rcases head_cases hs i with ⟨y, hy, -, hr⟩ | ⟨hr, -⟩
  · rw [hr, Option.isSome_some, if_pos rfl, Option.bind_some, getElem?_length_takeWhile, hy,
      Option.map_some]
  · rw [hr, Option.isSome_none, if_neg Bool.false_ne_true, Option.bind_none]

/-- The bucket `local` gives an index is in the heap. -/
theorem Inv.lt_length {st : OrderedByIntegerMetric T ι} (h : Inv indexer ChunkSize IsStack BSP st)
    {k : ι} {j : ℕ} (hk : toRef st.data.localMap k = some (some j)) : j < st.heap.length := by
  obtain ⟨j', hj', hlt⟩ := h.bucket k _ hk
  rw [Option.some.inj hj']
  exact hlt

theorem Inv.exists_bucket {st : OrderedByIntegerMetric T ι}
    (h : Inv indexer ChunkSize IsStack BSP st) {k : ι} {j : ℕ}
    (hk : toRef st.data.localMap k = some (some j)) : ∃ c, st.heap[j]? = some c :=
  ⟨_, List.getElem?_eq_getElem (h.lt_length hk)⟩

/-- **A bucket may be replaced** by one that keeps the chunk invariant, whose items have the
bucket's index and are not below `curIndex`. -/
theorem Inv.set {st : OrderedByIntegerMetric T ι} (h : Inv indexer ChunkSize IsStack BSP st)
    {j : ℕ} {c c' : ChunkMaster T} (hc : st.heap[j]? = some c)
    (hc' : ChunkMaster.Inv ChunkSize IsStack c')
    (hkey : ∀ k, toRef st.data.localMap k = some (some j) →
      ∀ x ∈ ChunkMaster.items ChunkSize c', indexer x = k)
    (hmin : ∀ x ∈ ChunkMaster.items ChunkSize c', st.data.curIndex ≤ indexer x) :
    Inv indexer ChunkSize IsStack BSP { st with heap := st.heap.set j c' } where
  sorted := h.sorted
  bucket k C hk := by
    obtain ⟨j', rfl, hj'⟩ := h.bucket k C hk
    exact ⟨j', rfl, by simpa using hj'⟩
  keyed k j' c'' hk hc'' := by
    rw [List.getElem?_set] at hc''
    by_cases hjj : j = j'
    · subst hjj
      rw [if_pos rfl, if_pos (List.getElem?_eq_some_iff.mp hc).1, Option.some.injEq] at hc''
      subst hc''
      exact hkey k hk
    · rw [if_neg hjj] at hc''
      exact h.keyed k j' c'' hk hc''
  covers j' hj' := h.covers j' (by simpa using hj')
  inj := h.inj
  chunks c'' hc'' := by
    rcases List.mem_or_eq_of_mem_set hc'' with hc'' | rfl
    · exact h.chunks c'' hc''
    · exact hc'
  version := h.version
  current := h.current
  curMin x hx := by
    have hx' : x ∈ contents ChunkSize st + ChunkMaster.items ChunkSize c' := by
      rw [contents, ← contents_set ChunkSize hc c']
      exact Multiset.mem_add.mpr (Or.inl hx)
    rcases Multiset.mem_add.mp hx' with hx' | hx'
    · exact h.curMin x hx'
    · exact hmin x hx'
  scanLe := h.scanLe

/-- **`C->pop()` on a bucket** takes out what it returns, an item of the bucket's index, and
returns nothing only from an empty bucket; nothing else changes. -/
theorem popAt_spec {st : OrderedByIntegerMetric T ι} (h : Inv indexer ChunkSize IsStack BSP st)
    {j : ℕ} {c : ChunkMaster T} (hc : st.heap[j]? = some c) :
    ∃ st' r, popAt ChunkSize IsStack st j = some (st', r) ∧
      Inv indexer ChunkSize IsStack BSP st' ∧ st'.data = st.data ∧
      contents ChunkSize st = ↑r.toList + contents ChunkSize st' ∧
      (∀ x, r = some x → ∀ k, toRef st.data.localMap k = some (some j) → indexer x = k) ∧
      (r = none → ∃ c', st'.heap[j]? = some c' ∧ ChunkMaster.items ChunkSize c' = 0) ∧
      ∀ j', j' ≠ j → st'.heap[j']? = st.heap[j']? := by
  have hj : j < st.heap.length := (List.getElem?_eq_some_iff.mp hc).1
  obtain ⟨hinv', hitems, hnone⟩ :=
    ChunkMaster.pop_spec (h.chunks c (List.mem_of_getElem? hc))
  rcases hp : ChunkMaster.pop ChunkSize IsStack c with ⟨c', r⟩
  rw [hp] at hinv' hitems hnone
  -- what is left in the bucket was in it
  have hsub : ∀ x ∈ ChunkMaster.items ChunkSize c', x ∈ ChunkMaster.items ChunkSize c :=
    fun x hx => by rw [hitems]; exact Multiset.mem_add.mpr (Or.inr hx)
  refine ⟨{ st with heap := st.heap.set j c' }, r, by simp [popAt, hc, hp], ?_, rfl, ?_, ?_, ?_,
    fun j' hne => List.getElem?_set_ne (Ne.symm hne)⟩
  · exact h.set hc hinv' (fun k hk x hx => h.keyed k j c hk hc x (hsub x hx))
      fun x hx => h.curMin x (mem_contents hc (hsub x hx))
  · have hset := contents_set ChunkSize hc c'
    rw [hitems, ← add_assoc] at hset
    show (st.heap.map _).sum = _ + ((st.heap.set j c').map _).sum
    rw [← add_right_cancel hset, add_comm]
  · intro x hx k hk
    refine h.keyed k j c hk hc x ?_
    rw [hitems, hx]
    exact Multiset.mem_add.mpr (Or.inl (Multiset.mem_singleton_self x))
  · intro hrn
    have h0 := hnone hrn
    refine ⟨c', by simp [hj], ?_⟩
    rw [hitems, hrn] at h0
    simpa using h0

/-- The thread may move `curIndex` to an index below every item, with `current` its bucket and,
under `BSP`, `scanStart` not above it. -/
theorem Inv.cursor {st : OrderedByIntegerMetric T ι} (h : Inv indexer ChunkSize IsStack BSP st)
    {ci ss : ι} {cur : Option ℕ}
    (hcur : ∀ j, cur = some j → toRef st.data.localMap ci = some (some j))
    (hmin : ∀ x ∈ contents ChunkSize st, ci ≤ indexer x) (hscan : BSP = true → ss ≤ ci) :
    Inv indexer ChunkSize IsStack BSP
      { st with data := { st.data with curIndex := ci, scanStart := ss, current := cur } } where
  sorted := h.sorted
  bucket := h.bucket
  keyed := h.keyed
  covers := h.covers
  inj := h.inj
  chunks := h.chunks
  version := h.version
  current := hcur
  curMin := hmin
  scanLe := hscan

/-- An entry of `local` gives its index's bucket. -/
theorem Inv.toRef_of_mem {st : OrderedByIntegerMetric T ι}
    (h : Inv indexer ChunkSize IsStack BSP st) {e : ι × Option ℕ} (he : e ∈ st.data.localMap) :
    ∃ j, e.2 = some j ∧ toRef st.data.localMap e.1 = some (some j) := by
  have hr := FlatMap.toRef_of_mem h.sorted (k := e.1) (v := e.2) he
  obtain ⟨j, hj, -⟩ := h.bucket _ _ hr
  exact ⟨j, hj, hj ▸ hr⟩

variable (ChunkSize IsStack) in
/-- **`C->push(val)` on the bucket of the item's index** adds the item. -/
theorem pushAt_spec (hpos : 0 < ChunkSize) {st : OrderedByIntegerMetric T ι}
    (h : Inv indexer ChunkSize IsStack BSP st) {k : ι} {j : ℕ}
    (hk : toRef st.data.localMap k = some (some j)) {x : T} (hx : indexer x = k)
    (hmin : st.data.curIndex ≤ indexer x) :
    ∃ st', pushAt ChunkSize IsStack st j x = some st' ∧ Inv indexer ChunkSize IsStack BSP st' ∧
      st'.data = st.data ∧ contents ChunkSize st' = x ::ₘ contents ChunkSize st := by
  obtain ⟨c, hc⟩ := h.exists_bucket hk
  obtain ⟨c', hpush, hinv', hitems⟩ :=
    ChunkMaster.push_spec ChunkSize IsStack hpos (h.chunks c (List.mem_of_getElem? hc)) x
  refine ⟨{ st with heap := st.heap.set j c' }, by simp [pushAt, hc, hpush], ?_, rfl, ?_⟩
  · refine h.set hc hinv' (fun k' hk' y hy => ?_) fun y hy => ?_
    · rw [hitems] at hy
      rcases Multiset.mem_cons.mp hy with rfl | hy
      · rw [hx]
        exact h.inj k k' j hk hk'
      · exact h.keyed k' j c hk' hc y hy
    · rw [hitems] at hy
      rcases Multiset.mem_cons.mp hy with rfl | hy
      · exact hmin
      · exact h.curMin y (mem_contents hc hy)
  · have hset := contents_set ChunkSize hc c'
    rw [hitems, Multiset.add_cons, ← Multiset.cons_add] at hset
    exact add_right_cancel hset

/-! ## 3. Finding or making a bucket -/

/-- The state after `slowUpdateLocalOrCreate` makes the bucket of `i`. -/
theorem inv_create {st : OrderedByIntegerMetric T ι} (h : Inv indexer ChunkSize IsStack BSP st)
    {i : ι} (hr : toRef st.data.localMap i = none) :
    Inv indexer ChunkSize IsStack BSP { st with
      data := { st.data with
        localMap := FlatMap.apply st.data.localMap (.assign i (some st.heap.length))
        lastMasterVersion := st.masterVersion + 1 }
      masterLog := st.masterLog ++ [(i, some st.heap.length)]
      masterVersion := st.masterVersion + 1
      heap := st.heap ++ [ChunkMaster.empty] } := by
  obtain ⟨hsorted, href⟩ := apply_spec h.sorted (.assign i (some st.heap.length))
  rw [refApply] at href
  -- the old buckets keep their positions, and the new one is after them
  have hget : ∀ j, j < st.heap.length → (st.heap ++ [ChunkMaster.empty])[j]? = st.heap[j]? :=
    fun j hj => List.getElem?_append_left hj
  have hne : ∀ k C, toRef st.data.localMap k = some C → k ≠ i := fun k C hk hki => by
    rw [hki, hr] at hk
    cases hk
  refine ⟨hsorted, fun k C hk => ?_, fun k j c hk hc x hx => ?_, fun j hj => ?_,
    fun k k' j hk hk' => ?_, fun c hc => ?_, rfl, fun j hj => ?_, fun x hx => ?_, h.scanLe⟩
  all_goals simp only [href] at *
  · by_cases hki : k = i
    · rw [hki, Function.update_self, Option.some.injEq] at hk
      exact ⟨_, hk.symm, by simp⟩
    · rw [Function.update_of_ne hki] at hk
      obtain ⟨j, hj, hlt⟩ := h.bucket k C hk
      exact ⟨j, hj, by simp; omega⟩
  · by_cases hki : k = i
    · -- the new bucket has no item
      rw [hki, Function.update_self, Option.some.injEq, Option.some.injEq] at hk
      rw [← hk, List.getElem?_append_right (Nat.le_refl _), Nat.sub_self] at hc
      cases hc
      exact absurd hx (Multiset.notMem_zero x)
    · rw [Function.update_of_ne hki] at hk
      rw [hget j (h.lt_length hk)] at hc
      exact h.keyed k j c hk hc x hx
  · rcases Nat.lt_succ_iff_lt_or_eq.mp (by simpa using hj) with hj | rfl
    · obtain ⟨k, hk⟩ := h.covers j hj
      exact ⟨k, by rw [Function.update_of_ne (hne k _ hk)]; exact hk⟩
    · exact ⟨i, Function.update_self ..⟩
  · -- the new bucket is at no old index
    by_cases hki : k = i <;> by_cases hki' : k' = i
    · rw [hki, hki']
    · rw [hki, Function.update_self] at hk
      rw [Function.update_of_ne hki'] at hk'
      have hlt := h.lt_length hk'
      rw [← Option.some.inj (Option.some.inj hk)] at hlt
      exact absurd hlt (Nat.lt_irrefl _)
    · rw [hki', Function.update_self] at hk'
      rw [Function.update_of_ne hki] at hk
      have hlt := h.lt_length hk
      rw [← Option.some.inj (Option.some.inj hk')] at hlt
      exact absurd hlt (Nat.lt_irrefl _)
    · rw [Function.update_of_ne hki] at hk
      rw [Function.update_of_ne hki'] at hk'
      exact h.inj k k' j hk hk'
  · rcases List.mem_append.mp hc with hc | hc
    · exact h.chunks c hc
    · rw [List.mem_singleton.mp hc]
      exact ChunkMaster.inv_empty
  · have hcur := h.current j hj
    rw [Function.update_of_ne (hne _ _ hcur)]
    exact hcur
  · refine h.curMin x ?_
    simpa [contents, ChunkMaster.items_empty] using hx

/-- **`updateLocalOrCreate` gives the bucket of `i`**, made if there was none; the items and
the cursor stay. -/
theorem updateLocalOrCreate_spec {st : OrderedByIntegerMetric T ι}
    (h : Inv indexer ChunkSize IsStack BSP st) (i : ι) :
    ∃ st' j, updateLocalOrCreate st i = some (st', some j) ∧
      Inv indexer ChunkSize IsStack BSP st' ∧ toRef st'.data.localMap i = some (some j) ∧
      contents ChunkSize st' = contents ChunkSize st ∧ st'.data.curIndex = st.data.curIndex ∧
      st'.data.scanStart = st.data.scanStart ∧ st'.data.current = st.data.current := by
  cases hr : toRef st.data.localMap i with
  | some C =>
    obtain ⟨j, rfl, -⟩ := h.bucket i C hr
    exact ⟨st, j, by rw [updateLocalOrCreate, findBucket_eq h.sorted, hr], h, hr, rfl, rfl, rfl,
      rfl⟩
  | none =>
    refine ⟨_, st.heap.length, ?_, inv_create h hr, ?_, ?_, rfl, rfl, rfl⟩
    · rw [updateLocalOrCreate, findBucket_eq h.sorted, hr, slowUpdateLocalOrCreate,
        updateLocal_of_inv h]
      simp [findBucket_eq h.sorted, hr, updateLocal_of_inv h]
    · rw [(apply_spec h.sorted _).2, refApply, Function.update_self]
    · simp [contents, ChunkMaster.items_empty]

/-! ## 4. `slowPop` -/

/-- **The scan of `slowPop` pops an item of least index**, or nothing when every bucket is
empty. It runs over entries of `local` in the order of their indices; every bucket with items
has an entry ahead, so the first bucket that pops has the least index, and a bucket that pops
nothing is empty. Induction on the entries ahead. -/
theorem scan_spec (L : List (ι × Option ℕ)) :
    ∀ {st : OrderedByIntegerMetric T ι}, Inv indexer ChunkSize IsStack BSP st →
      (∀ e ∈ L, e ∈ st.data.localMap) → L.Pairwise (fun a b => a.1 < b.1) →
      (∀ (j : ℕ) (c : ChunkMaster T) y, st.heap[j]? = some c →
        y ∈ ChunkMaster.items ChunkSize c → ∃ e ∈ L, e.2 = some j) →
      ∃ st' r, scan ChunkSize IsStack st L = some (st', r) ∧
        Inv indexer ChunkSize IsStack BSP st' ∧
        PriorityBag.PopStep indexer (contents ChunkSize st) r (contents ChunkSize st') := by
  induction L with
  | nil =>
    intro st h _ _ hcov
    -- no bucket has an item
    have h0 : contents ChunkSize st = 0 := Multiset.eq_zero_of_forall_notMem fun y hy => by
      obtain ⟨j, c, hc, hy⟩ := exists_of_mem_contents hy
      obtain ⟨e, he, -⟩ := hcov j c y hc hy
      cases he
    exact ⟨st, none, rfl, h, h0, h0⟩
  | cons e rest ih =>
    intro st h hL hsort hcov
    obtain ⟨k, C⟩ := e
    obtain ⟨j, rfl, hk⟩ := h.toRef_of_mem (hL _ (List.mem_cons_self ..))
    obtain ⟨c, hc⟩ := h.exists_bucket hk
    obtain ⟨hhead, hrest⟩ := List.pairwise_cons.mp hsort
    obtain ⟨st₁, r, hpop, h₁, hdata, hcont, hkey, hnone, hframe⟩ := popAt_spec h hc
    -- an item of another bucket has an entry in `rest`, so its index is above `k`
    have hother : ∀ (j' : ℕ) (c' : ChunkMaster T) y, j' ≠ j → st₁.heap[j']? = some c' →
        y ∈ ChunkMaster.items ChunkSize c' → ∃ e ∈ rest, e.2 = some j' := by
      intro j' c' y hne hc' hy
      rw [hframe j' hne] at hc'
      obtain ⟨e, he, hej⟩ := hcov j' c' y hc' hy
      rcases List.mem_cons.mp he with rfl | he
      · exact absurd (Option.some.inj hej) (Ne.symm hne)
      · exact ⟨e, he, hej⟩
    cases r with
    | some x =>
      -- the bucket popped: its index is the least
      have hmin : ∀ y ∈ contents ChunkSize st₁, k ≤ indexer y := by
        intro y hy
        obtain ⟨j', c', hc', hy⟩ := exists_of_mem_contents hy
        by_cases hne : j' = j
        · subst hne
          exact le_of_eq (h₁.keyed k j' c' (hdata ▸ hk) hc' y hy).symm
        · obtain ⟨e, he, hej⟩ := hother j' c' y hne hc' hy
          obtain ⟨j'', hj'', hr⟩ := h.toRef_of_mem (hL e (List.mem_cons_of_mem _ he))
          rw [hj''] at hej
          obtain rfl := Option.some.inj hej
          rw [hframe j'' hne] at hc'
          rw [h.keyed e.1 j'' c' hr hc' y hy]
          exact le_of_lt (hhead e he)
      refine ⟨{ st₁ with data := { st₁.data with curIndex := k, scanStart := k, current := some j } },
        some x, by simp [scan, hpop], h₁.cursor (fun j' hj' => ?_) hmin fun _ => le_refl k, ?_, ?_⟩
      · rw [← Option.some.inj hj', hdata]
        exact hk
      · rw [hcont, Option.toList_some, Multiset.coe_singleton, Multiset.singleton_add]
        rfl
      · rw [← hkey x rfl k hk] at hmin
        exact hmin
    | none =>
      -- the bucket is empty: on to the next entry
      obtain ⟨c₁, hc₁, h0⟩ := hnone rfl
      obtain ⟨st', r', hscan, h', hstep⟩ := ih h₁ (fun e he => hdata ▸ hL e (List.mem_cons_of_mem _ he))
        hrest fun j' c' y hc' hy => by
          by_cases hne : j' = j
          · subst hne
            rw [hc₁, Option.some.injEq] at hc'
            subst hc'
            rw [h0] at hy
            exact absurd hy (Multiset.notMem_zero y)
          · exact hother j' c' y hne hc' hy
      refine ⟨st', r', by simp [scan, hpop, hscan], h', ?_⟩
      rw [hcont, Option.toList_none, Multiset.coe_nil, zero_add]
      exact hstep

/-- **`slowPop` pops an item of least index, or nothing from an empty worklist.** It scans
`local` from `lower_bound(msS)`, and no item is below `msS`: with `BSP` that is `scanStart`,
not above `curIndex`, else `earliest`. -/
theorem slowPop_spec {st : OrderedByIntegerMetric T ι} (h : Inv indexer ChunkSize IsStack BSP st) :
    ∃ st' r, slowPop ChunkSize IsStack BSP st = some (st', r) ∧
      Inv indexer ChunkSize IsStack BSP st' ∧
      PriorityBag.PopStep indexer (contents ChunkSize st) r (contents ChunkSize st') := by
  set msS : ι := if BSP then st.data.scanStart else ⊥ with hmsS
  have hms : ∀ y ∈ contents ChunkSize st, msS ≤ indexer y := by
    intro y hy
    cases hb : BSP
    · simp [hmsS, hb]
    · rw [hmsS, hb, if_pos rfl]
      exact le_trans (h.scanLe hb) (h.curMin y hy)
  have hL : st.data.localMap.drop (lowerBound st.data.localMap st.data.localMap.length msS) =
      st.data.localMap.dropWhile (Below msS) := drop_lowerBound h.sorted
  obtain ⟨st', r, hscan, h', hstep⟩ := scan_spec _ h
    (fun e he => (List.dropWhile_subset _) (hL ▸ he))
    (hL ▸ h.sorted.sublist (List.dropWhile_sublist _)) fun j c y hc hy => by
      -- the bucket's entry is at the index of its items, not below `msS`
      obtain ⟨k, hk⟩ := h.covers j (List.getElem?_eq_some_iff.mp hc).1
      refine ⟨(k, some j), hL ▸ mem_dropWhile_of_le (mem_of_toRef hk) ?_, rfl⟩
      rw [← h.keyed k j c hk hc y hy]
      exact hms y (mem_contents hc hy)
  refine ⟨st', r, ?_, h', hstep⟩
  rw [slowPop, updateLocal_of_inv h]
  exact hscan

/-! ## 5. `push` and `pop` -/

/-- The slow path of `push`: the cursor moves in one step, `curIndex` and `current` down to the
item's bucket when its index is lower, and under `BSP` `scanStart` down to the item's index. -/
theorem push_slow {st st₁ : OrderedByIntegerMetric T ι} {x : T} {C : Option ℕ}
    (hfast : ¬(indexer x = st.data.curIndex ∧ st.data.current.isSome))
    (hget : updateLocalOrCreate st (indexer x) = some (st₁, C)) :
    push indexer ChunkSize IsStack BSP st x = C.bind fun j => pushAt ChunkSize IsStack
      { st₁ with data := { st₁.data with
          curIndex := if indexer x < st₁.data.curIndex then indexer x else st₁.data.curIndex
          scanStart := if BSP ∧ indexer x < st₁.data.scanStart then indexer x
            else st₁.data.scanStart
          current := if indexer x < st₁.data.curIndex then C else st₁.data.current } } j x := by
  simp only [push, if_neg hfast, hget]
  by_cases hs : BSP = true ∧ indexer x < st₁.data.scanStart <;>
    by_cases hc : indexer x < st₁.data.curIndex <;> simp [hs, hc]

/-- The cursor move of `push`'s slow path keeps the invariant, for the bucket `j` of the index
`i`. -/
theorem Inv.moveCursor {st : OrderedByIntegerMetric T ι} (h : Inv indexer ChunkSize IsStack BSP st)
    {i : ι} {j : ℕ} (hk : toRef st.data.localMap i = some (some j)) :
    Inv indexer ChunkSize IsStack BSP { st with data := { st.data with
      curIndex := if i < st.data.curIndex then i else st.data.curIndex
      scanStart := if BSP ∧ i < st.data.scanStart then i else st.data.scanStart
      current := if i < st.data.curIndex then some j else st.data.current } } := by
  refine h.cursor (fun j' hj' => ?_) (fun y hy => ?_) fun hb => ?_
  · split_ifs at hj' ⊢ with hlt
    · cases hj'
      exact hk
    · exact h.current j' hj'
  · split_ifs with hlt
    · exact le_of_lt (lt_of_lt_of_le hlt (h.curMin y hy))
    · exact h.curMin y hy
  · -- `scanStart` goes down to `i` whenever `curIndex` does
    split_ifs with hs hlt hlt
    · exact le_rfl
    · exact le_of_lt (lt_of_lt_of_le hs.2 (h.scanLe hb))
    · exact le_of_not_gt fun hi => hs ⟨hb, hi⟩
    · exact h.scanLe hb

variable (ChunkSize IsStack) in
/-- **`push` adds its item.** On the fast path `current` is the bucket at `curIndex`, the item's
index; on the slow path the cursor moves to the item's bucket when that is lower, so the item
is not below `curIndex`. -/
theorem push_spec (hpos : 0 < ChunkSize) {st : OrderedByIntegerMetric T ι}
    (h : Inv indexer ChunkSize IsStack BSP st) (x : T) :
    ∃ st', push indexer ChunkSize IsStack BSP st x = some st' ∧
      Inv indexer ChunkSize IsStack BSP st' ∧ contents ChunkSize st' = x ::ₘ contents ChunkSize st := by
  by_cases hfast : indexer x = st.data.curIndex ∧ st.data.current.isSome
  · obtain ⟨hi, hcur⟩ := hfast
    obtain ⟨j, hj⟩ := Option.isSome_iff_exists.mp hcur
    obtain ⟨st', hpush, h', -, hcont⟩ :=
      pushAt_spec ChunkSize IsStack hpos h (h.current j hj) hi (le_of_eq hi.symm)
    exact ⟨st', by simp [push, hi, hj, hpush], h', hcont⟩
  · obtain ⟨st₁, j, hget, h₁, hk, hcont, -, -, -⟩ := updateLocalOrCreate_spec h (indexer x)
    have hle : (if indexer x < st₁.data.curIndex then indexer x else st₁.data.curIndex) ≤
        indexer x := by
      split_ifs with hlt
      · exact le_rfl
      · exact le_of_not_gt hlt
    obtain ⟨st', hpush, h', -, hc'⟩ :=
      pushAt_spec ChunkSize IsStack hpos (h₁.moveCursor hk) hk rfl hle
    refine ⟨st', ?_, h', by rw [hc', contents_with_data, hcont]⟩
    rw [push_slow hfast hget, Option.bind_some]
    exact hpush

/-- `numPops` is no part of the invariant. -/
theorem Inv.numPops {st : OrderedByIntegerMetric T ι} (h : Inv indexer ChunkSize IsStack BSP st)
    (n : UInt32) :
    Inv indexer ChunkSize IsStack BSP { st with data := { st.data with numPops := n } } where
  sorted := h.sorted
  bucket := h.bucket
  keyed := h.keyed
  covers := h.covers
  inj := h.inj
  chunks := h.chunks
  version := h.version
  current := h.current
  curMin := h.curMin
  scanLe := h.scanLe

variable (BlockPeriod) in
/-- **`pop` returns an item of least index and takes it out, or nothing from an empty
worklist.** A periodic pop and a pop without `current` are `slowPop`'s; otherwise `current` is
the bucket at `curIndex`, below every item, and when it pops nothing `slowPop` follows. -/
theorem pop_spec {st : OrderedByIntegerMetric T ι} (h : Inv indexer ChunkSize IsStack BSP st) :
    ∃ st' r, pop ChunkSize IsStack BlockPeriod BSP st = some (st', r) ∧
      Inv indexer ChunkSize IsStack BSP st' ∧
      PriorityBag.PopStep indexer (contents ChunkSize st) r (contents ChunkSize st') := by
  simp only [pop]
  set st₀ := if BlockPeriod ≠ 0 then
    { st with data := { st.data with numPops := st.data.numPops + 1 } } else st with hst₀
  -- counting the pop changes no bucket and no cursor
  have h₀ : Inv indexer ChunkSize IsStack BSP st₀ := by
    rw [hst₀]
    split_ifs
    · exact h.numPops _
    · exact h
  have hc₀ : contents ChunkSize st₀ = contents ChunkSize st := by rw [hst₀]; split_ifs <;> rfl
  have hcur₀ : st₀.data.current = st.data.current := by rw [hst₀]; split_ifs <;> rfl
  have hslow : ∃ st' r, slowPop ChunkSize IsStack BSP st₀ = some (st', r) ∧
      Inv indexer ChunkSize IsStack BSP st' ∧
      PriorityBag.PopStep indexer (contents ChunkSize st) r (contents ChunkSize st') :=
    hc₀ ▸ slowPop_spec h₀
  split_ifs with hp
  · exact hslow
  cases hC : st.data.current with
  | none => exact hslow
  | some j =>
    have hk := h₀.current j (hcur₀.trans hC)
    obtain ⟨c, hc⟩ := h₀.exists_bucket hk
    obtain ⟨st₁, r, hpop, h₁, hdata, hcont, hkey, -, -⟩ := popAt_spec h₀ hc
    dsimp only
    rw [hpop]
    cases r with
    | some x =>
      -- `current` is the bucket at `curIndex`, and no item is below `curIndex`
      refine ⟨st₁, some x, rfl, h₁, ?_, fun y hy => ?_⟩
      · rw [← hc₀, hcont, Option.toList_some, Multiset.coe_singleton, Multiset.singleton_add]
      · rw [hkey x rfl _ hk, ← hdata]
        exact h₁.curMin y hy
    | none =>
      obtain ⟨st', r', hs, h', hstep⟩ := slowPop_spec h₁
      refine ⟨st', r', hs, h', ?_⟩
      rw [← hc₀, hcont, Option.toList_none, Multiset.coe_nil, zero_add]
      exact hstep

/-! ## 6. Runs -/

variable (ChunkSize IsStack BlockPeriod) in
/-- **Every run refines `PriorityBag.Trace`**: from a state that keeps the invariant, any pushes
and pops run to the end, and the items of the worklist go through the multisets of a trace.
Induction on the operations, with `push_spec` and `pop_spec` for one step. -/
theorem run_refines_trace (hpos : 0 < ChunkSize) (ops : List (PriorityBag.Op T)) :
    ∀ {st : OrderedByIntegerMetric T ι}, Inv indexer ChunkSize IsStack BSP st →
      ∃ st' outs, run indexer ChunkSize IsStack BlockPeriod BSP st ops = some (st', outs) ∧
        Inv indexer ChunkSize IsStack BSP st' ∧
        PriorityBag.Trace indexer (contents ChunkSize st) ops outs (contents ChunkSize st') := by
  induction ops with
  | nil => exact fun {st} h => ⟨st, [], rfl, h, .nil _⟩
  | cons op ops ih =>
    intro st h
    cases op with
    | push x =>
      obtain ⟨st₁, hpush, h₁, hc₁⟩ := push_spec ChunkSize IsStack hpos h x
      obtain ⟨st', outs, hrun, h', htr⟩ := ih h₁
      refine ⟨st', outs, by rw [run, hpush, Option.bind_some]; exact hrun, h', .push ?_⟩
      rw [← hc₁]
      exact htr
    | pop =>
      obtain ⟨st₁, r, hpop, h₁, hstep⟩ := pop_spec BlockPeriod h
      obtain ⟨st', outs, hrun, h', htr⟩ := ih h₁
      exact ⟨st', r :: outs, by simp [run, hpop, hrun], h', .pop hstep htr⟩

end Spec

variable (indexer : T → ι) (ChunkSize : ℕ) (IsStack : Bool) (BlockPeriod : ℕ)

/-- From the constructor, with `BSP` and any `BlockPeriod`, every pop returns an item of least
index among the items in the worklist, returns nothing only from an empty worklist, and the
pushed items are the popped ones and those left. -/
theorem run_pops_least_index (hpos : 0 < ChunkSize) (ops : List (PriorityBag.Op T)) :
    ∃ st outs, run indexer ChunkSize IsStack BlockPeriod true init ops = some (st, outs) ∧
      PriorityBag.Trace indexer 0 ops outs (contents ChunkSize st) ∧
      PriorityBag.pushed ops = PriorityBag.popped outs + contents ChunkSize st := by
  have h₀ : Inv indexer ChunkSize IsStack true (init : OrderedByIntegerMetric T ι) := inv_init
  obtain ⟨st, outs, hrun, -, htr⟩ := run_refines_trace ChunkSize IsStack BlockPeriod hpos ops h₀
  rw [contents_init] at htr
  refine ⟨st, outs, hrun, htr, ?_⟩
  rw [← zero_add (PriorityBag.pushed ops), htr.conserves, add_comm]

theorem run_pops_least_index_push_pop : 0 < 2 ∧
    ∃ st outs, run (id : ℕ → ℕ) 2 false 1 true init
        [.push 3, .push 1, .pop, .push 2, .pop, .pop, .pop] = some (st, outs) ∧
      PriorityBag.Trace id 0 [.push 3, .push 1, .pop, .push 2, .pop, .pop, .pop] outs
        (contents 2 st) ∧
      PriorityBag.pushed [.push 3, .push 1, .pop, .push 2, .pop, .pop, .pop] =
        PriorityBag.popped outs + contents 2 st :=
  ⟨by decide, run_pops_least_index id 2 false 1 (by decide) _⟩

end OrderedByIntegerMetric

end Galois.Worklists
