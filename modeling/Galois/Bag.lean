import Mathlib

/-!
# The insert bag (Bag.h)

An `InsertBag` keeps, per thread, a chain of chunks (`header`s), each holding the elements from
`dbegin` to `dend` and room up to `dlast`. A thread pushes into the last chunk of its own chain,
or into a new one when that is full, and `pop()` takes the last element of its last chunk back;
the bag is read serially, by an iterator over the threads, their chunks and the elements:

* `Chunk`, `InsertBag` -- the chains, a chunk as its elements and its room;
* `emplace`, `pop`, `empty` -- the methods, with `pop`'s two failures (`PopError`);
* `BagIter`, `begin`, `increment`, `deref`, `walk` -- the iterator with its `thr`, `p` and `v`,
  as `init_thread`, `advance_local`, `advance_chunk` and `advance_thread` move them, and the
  iteration from `begin()` until the iterator equals `end()`.

The abstract bag is a stack of elements per thread (`BagOp.apply`); `run_refines` says that
every run of pushes and successful pops keeps the chains' elements equal to it. `walk_begin`
says that when no chunk is empty the iteration yields every element once, in thread and chunk
order, and `empty_iff` that `empty()` holds exactly when there is none; pushes keep every chunk
holding an element (`walk_begin_pushes`). A `pop()` that takes the last element of a chunk
leaves that chunk empty, and both fail then: `push_pop_never_ends` is the run of one push and
one pop, after which `empty()` is false and the iterator never reaches `end()`.
-/

namespace Galois

variable {T : Type}

/-! ## 1. The model -/

/-- A `header`: the elements from `dbegin` to `dend`, and room for `cap` of them up to `dlast`. -/
structure Chunk (T : Type) where
  data : List T
  cap : ℕ

/-- The bag: per thread, its chain of chunks from `first` to `second`, and the room `blockCap`
a new chunk gets (what `newHeaderFromHeap` leaves after the header). -/
structure InsertBag (T : Type) where
  heads : List (List (Chunk T))
  blockCap : ℕ

/-- Why a `pop()` fails: the thread has no chunk (`second` is null and is dereferenced), or its
last chunk is empty (`std::out_of_range("InsertBag::pop")`). -/
inductive PopError where
  | nullHeader
  | outOfRange
  deriving DecidableEq

namespace InsertBag

/-- The bag on `nthreads` threads, with no chunk. -/
def init (nthreads blockCap : ℕ) : InsertBag T :=
  ⟨List.replicate nthreads [], blockCap⟩

/-- `emplace` on a chain: into the last chunk, or into a new chunk appended by `insHeader`
when there is none or the last one is full (`dend == dlast`). -/
def emplaceChain (blockCap : ℕ) (x : T) (chain : List (Chunk T)) : List (Chunk T) :=
  match chain.getLast? with
  | none => [⟨[x], blockCap⟩]
  | some H =>
    if H.data.length = H.cap then chain ++ [⟨[x], blockCap⟩]
    else chain.dropLast ++ [⟨H.data ++ [x], H.cap⟩]

/-- `emplace(x)` (and `push`) on thread `tid`. -/
def emplace (tid : ℕ) (x : T) (b : InsertBag T) : InsertBag T :=
  { b with heads := b.heads.modify tid (emplaceChain b.blockCap x) }

/-- `pop()` on a chain: the last element of the last chunk. -/
def popChain (chain : List (Chunk T)) : Except PopError (List (Chunk T)) :=
  match chain.getLast? with
  | none => .error .nullHeader
  | some H =>
    if H.data = [] then .error .outOfRange
    else .ok (chain.dropLast ++ [⟨H.data.dropLast, H.cap⟩])

/-- `pop()` on thread `tid`. -/
def pop (tid : ℕ) (b : InsertBag T) : Except PopError (InsertBag T) :=
  (popChain (b.heads.getD tid [])).map fun chain => { b with heads := b.heads.set tid chain }

/-- `empty()`: no thread has a chunk. -/
def empty (b : InsertBag T) : Bool :=
  b.heads.all fun chain => chain.isEmpty

/-- The elements of a chain, chunk after chunk. -/
def chainElems (chain : List (Chunk T)) : List T :=
  chain.flatMap Chunk.data

/-- The elements of the bag, thread after thread. -/
def elems (b : InsertBag T) : List T :=
  b.heads.flatMap chainElems

end InsertBag

/-! ## 2. The iterator -/

/-- An `Iterator`'s thread `thr`, chunk `p` (its index in the thread's chain, `none` for null)
and element `v` (its offset from the chunk's `dbegin`, `0` when `p` is null). -/
structure BagIter where
  thr : ℕ
  p : Option ℕ
  v : ℕ
  deriving DecidableEq

namespace InsertBag

variable (heads : List (List (Chunk T)))

/-- `init_thread()` at thread `thr`: the first chunk of its chain and its `dbegin`. -/
def initThread (thr : ℕ) : BagIter :=
  ⟨thr, if thr < heads.length ∧ heads.getD thr [] ≠ [] then some 0 else none, 0⟩

/-- `advance_thread()`'s loop, for at most `fuel` more threads: step to the next thread until
`init_thread()` finds a chunk or the threads run out. -/
def advanceThreadLoop : ℕ → ℕ → BagIter
  | 0, thr => ⟨thr, none, 0⟩
  | fuel + 1, thr =>
    if thr < heads.length then
      if (initThread heads (thr + 1)).p.isSome then initThread heads (thr + 1)
      else advanceThreadLoop fuel (thr + 1)
    else ⟨thr, none, 0⟩

/-- `advance_thread()` from thread `thr`: the loop runs for the threads left. -/
def advanceThread (thr : ℕ) : BagIter :=
  advanceThreadLoop heads (heads.length - thr) thr

/-- The iterator on thread `t` (`Iterator(hd, t)`): `init_thread()`, then `advance_thread()` if
it found no chunk. -/
def iterAt (t : ℕ) : BagIter :=
  if (initThread heads t).p.isSome then initThread heads t else advanceThread heads t

/-- `begin()`. -/
def begin : BagIter := iterAt heads 0

/-- `end()`. -/
def endIter : BagIter := iterAt heads heads.length

/-- `increment()`: `advance_local()` to the next element of the chunk unless that is `dend`,
else `advance_chunk()` to the next chunk, else `advance_thread()`. -/
def increment (it : BagIter) : BagIter :=
  match it.p with
  | none => advanceThread heads it.thr
  | some c =>
    let chain := heads.getD it.thr []
    if it.v + 1 ≠ (chain.getD c ⟨[], 0⟩).data.length then ⟨it.thr, some c, it.v + 1⟩
    else if c + 1 < chain.length then ⟨it.thr, some (c + 1), 0⟩
    else advanceThread heads it.thr

/-- `dereference()`: the element at `v`, or nothing if `v` is past `dend` (a destroyed or
never constructed slot) or the iterator is null. -/
def deref (it : BagIter) : Option T :=
  match it.p with
  | none => none
  | some c => ((heads.getD it.thr []).getD c ⟨[], 0⟩).data[it.v]?

/-- Iteration from `it` for at most `fuel` elements: what it dereferences until it equals
`end()`, and whether it got there. -/
def walk : ℕ → BagIter → List (Option T) × Bool
  | 0, it => ([], it = endIter heads)
  | fuel + 1, it =>
    if it = endIter heads then ([], true)
    else (deref heads it :: (walk fuel (increment heads it)).1, (walk fuel (increment heads it)).2)

end InsertBag

/-! ## 3. The abstract bag -/

/-- The calls that change a bag: a push and a pop, each by a thread. -/
inductive BagOp (T : Type) where
  | push (tid : ℕ) (x : T)
  | pop (tid : ℕ)

/-- What the calls mean: per thread, a stack of the elements it pushed and did not pop. -/
def BagOp.apply (stks : List (List T)) : BagOp T → List (List T)
  | .push tid x => stks.modify tid (· ++ [x])
  | .pop tid => stks.modify tid List.dropLast

namespace InsertBag

/-- One call on the bag; a failed `pop()` ends the run. -/
def step (b : InsertBag T) : BagOp T → Except PopError (InsertBag T)
  | .push tid x => .ok (b.emplace tid x)
  | .pop tid => b.pop tid

/-- A run of calls, in the order the threads make them. -/
def run (ops : List (BagOp T)) (b : InsertBag T) : Except PopError (InsertBag T) :=
  ops.foldlM step b

theorem map_modify {β : Type} (l : List (List (Chunk T))) (i : ℕ) (f : List (Chunk T) → List (Chunk T))
    (g : List (Chunk T) → β) (f' : β → β) (hf : ∀ x, g (f x) = f' (g x)) :
    (l.modify i f).map g = (l.map g).modify i f' := by
  induction l generalizing i with
  | nil => simp
  | cons x l ih =>
    cases i with
    | zero => simp [hf]
    | succ i => simp [ih]

/-- A push adds its element at the end of the thread's chain. -/
theorem chainElems_emplaceChain (blockCap : ℕ) (x : T) (chain : List (Chunk T)) :
    chainElems (emplaceChain blockCap x chain) = chainElems chain ++ [x] := by
  unfold emplaceChain
  cases hlast : chain.getLast? with
  | none =>
    rw [List.getLast?_eq_none_iff.mp hlast]
    simp [chainElems]
  | some H =>
    have hsplit := List.dropLast_append_getLast? H hlast
    dsimp only
    split
    · simp [chainElems, List.flatMap_append]
    · -- the last chunk has room: the element goes after its elements
      conv_rhs => rw [← hsplit]
      simp [chainElems, List.flatMap_append]

/-- A successful pop takes the last element of the thread's chain. -/
theorem chainElems_popChain {chain chain' : List (Chunk T)} (h : popChain chain = .ok chain') :
    chainElems chain' = (chainElems chain).dropLast := by
  unfold popChain at h
  cases hlast : chain.getLast? with
  | none => rw [hlast] at h; cases h
  | some H =>
    rw [hlast] at h
    dsimp only at h
    split at h
    · cases h
    · rename_i hne
      cases h
      have hsplit := List.dropLast_append_getLast? H hlast
      nth_rewrite 2 [← hsplit]
      simp only [chainElems, List.flatMap_append, List.flatMap_cons, List.flatMap_nil,
        List.append_nil]
      rw [List.dropLast_append_of_ne_nil hne]

/-- **One call keeps the chains' elements the abstract stacks.** -/
theorem step_refines {b b' : InsertBag T} {op : BagOp T} {stks : List (List T)}
    (hb : b.heads.map chainElems = stks) (hstep : b.step op = .ok b') :
    b'.heads.map chainElems = op.apply stks := by
  cases op with
  | push tid x =>
    cases hstep
    rw [emplace, map_modify _ _ _ _ (· ++ [x]) (chainElems_emplaceChain b.blockCap x), hb]
    rfl
  | pop tid =>
    change (popChain (b.heads.getD tid [])).map
      (fun chain => { b with heads := b.heads.set tid chain }) = .ok b' at hstep
    cases hpop : popChain (b.heads.getD tid []) with
    | error e => rw [hpop] at hstep; cases hstep
    | ok chain' =>
      rw [hpop] at hstep
      cases hstep
      rw [List.map_set, chainElems_popChain hpop, BagOp.apply, List.modify_eq_set, ← hb]
      by_cases htid : tid < b.heads.length
      · rw [List.getElem?_map, List.getElem?_eq_getElem htid, Option.map_some,
          Option.getD_some, List.getD_eq_getElem?_getD, List.getElem?_eq_getElem htid,
          Option.getD_some]
      · rw [List.set_eq_of_length_le (by simpa using htid),
          List.set_eq_of_length_le (by simpa using htid)]

/-- **A run of calls keeps the chains' elements the abstract stacks**, by induction on the run:
whatever the threads and the order, as long as every `pop()` succeeds. -/
theorem run_refines (ops : List (BagOp T)) {b b' : InsertBag T}
    (hrun : run ops b = .ok b') :
    b'.heads.map chainElems = ops.foldl BagOp.apply (b.heads.map chainElems) := by
  induction ops generalizing b with
  | nil => cases hrun; rfl
  | cons op ops ih =>
    unfold run at hrun
    rw [List.foldlM_cons] at hrun
    cases hstep : b.step op with
    | error e => rw [hstep] at hrun; cases hrun
    | ok b1 =>
      rw [hstep] at hrun
      rw [ih hrun, step_refines rfl hstep, List.foldl_cons]

/-- Two pushes and a pop on one thread with chunks of two: the chain holds the first element. -/
theorem run_refines_push_push_pop :
    run [.push 0 1, .push 0 2, .pop 0] (init 1 2) = .ok ⟨[[⟨[1], 2⟩]], 2⟩ ∧
      (⟨[[⟨[1], 2⟩]], 2⟩ : InsertBag ℕ).heads.map chainElems =
        [BagOp.push 0 1, .push 0 2, .pop 0].foldl BagOp.apply ((init 1 2).heads.map chainElems) :=
  ⟨rfl, run_refines _ rfl⟩

end InsertBag

/-! ## 4. Iteration -/

namespace InsertBag

variable {heads : List (List (Chunk T))}

/-- No chunk of any chain is empty. -/
def NoEmptyChunk (heads : List (List (Chunk T))) : Prop :=
  ∀ chain ∈ heads, ∀ H ∈ chain, H.data ≠ []

/-- What iteration from `it` has still to yield: the rest of its chunk, the chunks after it in
its chain and the chains of the threads after it; nothing from a null iterator. -/
def restFrom (heads : List (List (Chunk T))) (it : BagIter) : List T :=
  match it.p with
  | none => []
  | some c =>
    ((heads.getD it.thr []).getD c ⟨[], 0⟩).data.drop it.v ++
      chainElems ((heads.getD it.thr []).drop (c + 1)) ++
        (heads.drop (it.thr + 1)).flatMap chainElems

/-- The iterator is at an element: a thread, a chunk of its chain and an element of the chunk. -/
def AtElem (heads : List (List (Chunk T))) (it : BagIter) : Prop :=
  ∃ c, it.p = some c ∧ it.thr < heads.length ∧ c < (heads.getD it.thr []).length ∧
    it.v < ((heads.getD it.thr []).getD c ⟨[], 0⟩).data.length

theorem endIter_eq : endIter heads = ⟨heads.length, none, 0⟩ := by
  simp [endIter, iterAt, initThread, advanceThread, advanceThreadLoop]

theorem AtElem.ne_endIter {it : BagIter} (h : AtElem heads it) : it ≠ endIter heads := by
  obtain ⟨c, hp, -⟩ := h
  rw [endIter_eq]
  intro heq
  rw [heq] at hp
  cases hp

/-- The chains from thread `k` on are thread `k`'s and those after it. -/
theorem flatMap_drop_eq {k : ℕ} (hk : k < heads.length) :
    (heads.drop k).flatMap chainElems =
      chainElems (heads.getD k []) ++ (heads.drop (k + 1)).flatMap chainElems := by
  rw [List.drop_eq_getElem_cons hk, List.flatMap_cons, List.getD_eq_getElem?_getD,
    List.getElem?_eq_getElem hk, Option.getD_some]

/-- A chunk with elements from its first element on. -/
theorem restFrom_first {t : ℕ} (ht : t < heads.length) :
    restFrom heads ⟨t, some 0, 0⟩ = (heads.drop t).flatMap chainElems := by
  rw [flatMap_drop_eq ht, restFrom]
  dsimp only
  cases hchain : heads.getD t [] with
  | nil => simp [chainElems]
  | cons H chain => simp [chainElems, List.append_assoc]

/-- At an element, `dereference()` gives the first element still to yield. -/
theorem deref_of_atElem {it : BagIter} (h : AtElem heads it) :
    ∃ x, deref heads it = some x ∧ restFrom heads it = x :: (restFrom heads it).tail := by
  obtain ⟨c, hp, -, -, hv⟩ := h
  refine ⟨_, by rw [deref, hp]; exact List.getElem?_eq_getElem hv, ?_⟩
  rw [restFrom, hp]
  dsimp only
  rw [List.drop_eq_getElem_cons hv]
  rfl

section NoEmpty

variable (hne : NoEmptyChunk heads)
include hne

/-- The first chunk of a thread with a chain starts at an element. -/
theorem atElem_first {t : ℕ} (ht : t < heads.length) (hchain : heads.getD t [] ≠ []) :
    AtElem heads ⟨t, some 0, 0⟩ := by
  refine ⟨0, rfl, ht, List.length_pos_of_ne_nil hchain, List.length_pos_of_ne_nil ?_⟩
  have hmem : heads.getD t [] ∈ heads := by
    rw [List.getD_eq_getElem?_getD, List.getElem?_eq_getElem ht, Option.getD_some]
    exact List.getElem_mem ht
  obtain ⟨H, chain, hcons⟩ := List.exists_cons_of_ne_nil hchain
  rw [hcons] at hmem ⊢
  exact hne _ hmem H List.mem_cons_self

/-- **`advance_thread()`**, by induction on the threads left: it stops at the first chunk of the
next thread with a chain, or at `end()`, and what it has still to yield is the chains of the
threads after `thr`. -/
theorem advanceThreadLoop_spec : ∀ (fuel thr : ℕ), thr ≤ heads.length →
    fuel = heads.length - thr →
    (advanceThreadLoop heads fuel thr = endIter heads ∨
        AtElem heads (advanceThreadLoop heads fuel thr)) ∧
      restFrom heads (advanceThreadLoop heads fuel thr) =
        (heads.drop (thr + 1)).flatMap chainElems
  | 0, thr, hthr, hfuel => by
    have heq : thr = heads.length := by omega
    subst heq
    refine ⟨.inl (by rw [endIter_eq]; rfl), ?_⟩
    rw [List.drop_of_length_le (by omega)]
    rfl
  | fuel + 1, thr, hthr, hfuel => by
    have hlt : thr < heads.length := by omega
    rw [advanceThreadLoop, if_pos hlt]
    by_cases hfound : thr + 1 < heads.length ∧ heads.getD (thr + 1) [] ≠ []
    · -- the next thread has a chain: its first element
      have hp : (initThread heads (thr + 1)).p = some 0 := by rw [initThread, if_pos hfound]
      rw [if_pos (by rw [hp]; rfl), initThread, if_pos hfound]
      exact ⟨.inr (atElem_first hne hfound.1 hfound.2), restFrom_first hfound.1⟩
    · -- it has none: the loop goes on, and the thread adds nothing
      have hp : (initThread heads (thr + 1)).p = none := by rw [initThread, if_neg hfound]
      rw [if_neg (by rw [hp]; simp)]
      obtain ⟨hend, hrest⟩ := advanceThreadLoop_spec fuel (thr + 1) (by omega) (by omega)
      refine ⟨hend, hrest.trans ?_⟩
      by_cases hnext : thr + 1 < heads.length
      · have hempty : heads.getD (thr + 1) [] = [] := by
          by_contra h
          exact hfound ⟨hnext, h⟩
        rw [flatMap_drop_eq hnext, hempty]
        rfl
      · rw [List.drop_of_length_le (by omega), List.drop_of_length_le (by omega)]

theorem advanceThread_spec {thr : ℕ} (hthr : thr ≤ heads.length) :
    (advanceThread heads thr = endIter heads ∨ AtElem heads (advanceThread heads thr)) ∧
      restFrom heads (advanceThread heads thr) = (heads.drop (thr + 1)).flatMap chainElems :=
  advanceThreadLoop_spec hne _ thr hthr rfl

/-- **`increment()` at an element yields it and moves to the next element or to `end()`.** -/
theorem increment_spec {it : BagIter} (h : AtElem heads it) :
    (increment heads it = endIter heads ∨ AtElem heads (increment heads it)) ∧
      restFrom heads (increment heads it) = (restFrom heads it).tail := by
  obtain ⟨c, hp, hthr, hc, hv⟩ := h
  set chain := heads.getD it.thr [] with hchain
  set H := chain.getD c ⟨[], 0⟩ with hH
  have hdrop : H.data.drop it.v = H.data[it.v] :: H.data.drop (it.v + 1) :=
    List.drop_eq_getElem_cons hv
  have hrest : restFrom heads it = H.data.drop it.v ++ chainElems (chain.drop (c + 1)) ++
      (heads.drop (it.thr + 1)).flatMap chainElems := by
    rw [restFrom, hp]
  rw [increment, hp]
  dsimp only
  rw [← hchain, ← hH]
  by_cases hnext : it.v + 1 ≠ H.data.length
  · -- `advance_local()`: the next element of the chunk
    rw [if_pos hnext]
    refine ⟨.inr ⟨c, rfl, hthr, hc, show it.v + 1 < H.data.length by omega⟩, ?_⟩
    rw [hrest, hdrop, restFrom]
    rfl
  · rw [if_neg hnext]
    have hlast : H.data.drop (it.v + 1) = [] := List.drop_of_length_le (by omega)
    by_cases hchunk : c + 1 < chain.length
    · -- `advance_chunk()`: the first element of the next chunk
      rw [if_pos hchunk]
      have hmem : chain.getD (c + 1) ⟨[], 0⟩ ∈ chain := by
        rw [List.getD_eq_getElem?_getD, List.getElem?_eq_getElem hchunk, Option.getD_some]
        exact List.getElem_mem hchunk
      have hchainmem : chain ∈ heads := by
        rw [hchain, List.getD_eq_getElem?_getD, List.getElem?_eq_getElem hthr, Option.getD_some]
        exact List.getElem_mem hthr
      refine ⟨.inr ⟨c + 1, rfl, hthr, hchunk,
        List.length_pos_of_ne_nil (hne chain hchainmem _ hmem)⟩, ?_⟩
      have hsplit : chain.drop (c + 1) = chain[c + 1] :: chain.drop (c + 1 + 1) :=
        List.drop_eq_getElem_cons hchunk
      have hget : chain.getD (c + 1) ⟨[], 0⟩ = chain[c + 1] := by
        rw [List.getD_eq_getElem?_getD, List.getElem?_eq_getElem hchunk, Option.getD_some]
      rw [hrest, hdrop, hlast, restFrom]
      dsimp only
      rw [← hchain, hget, List.drop_zero]
      simp only [chainElems, List.cons_append, List.nil_append, List.tail_cons, hsplit,
        List.flatMap_cons, List.append_assoc]
    · -- `advance_thread()`: the threads after this one
      rw [if_neg hchunk]
      obtain ⟨hend, hadv⟩ := advanceThread_spec hne (Nat.le_of_lt hthr)
      refine ⟨hend, ?_⟩
      have hnil : chain.drop (c + 1) = [] := List.drop_of_length_le (by omega)
      rw [hadv, hrest, hdrop, hlast, hnil]
      rfl

end NoEmpty

theorem walk_endIter (n : ℕ) : walk heads n (endIter heads) = ([], true) := by
  cases n with
  | zero => simp [walk]
  | succ n => rw [walk, if_pos rfl]

/-- Iteration from an element, by induction on the fuel: with fuel for more than what is left,
it yields what is left and reaches `end()`. -/
theorem walk_atElem (hne : NoEmptyChunk heads) :
    ∀ (n : ℕ) (it : BagIter), AtElem heads it → (restFrom heads it).length < n →
      walk heads n it = ((restFrom heads it).map some, true)
  | 0, _, _, hlen => absurd hlen (Nat.not_lt_zero _)
  | n + 1, it, h, hlen => by
    obtain ⟨x, hx, hcons⟩ := deref_of_atElem h
    obtain ⟨hnext, hrest⟩ := increment_spec hne h
    rw [walk, if_neg h.ne_endIter, hx]
    rcases hnext with hend | hat
    · -- the last element: `end()` next
      rw [hend, walk_endIter]
      rw [hend, restFrom, endIter_eq] at hrest
      rw [hcons, ← hrest]
      rfl
    · rw [walk_atElem hne n _ hat (by rw [hrest]; rw [hcons] at hlen; simpa using hlen), hrest]
      nth_rewrite 3 [hcons]
      rfl

/-- **With no empty chunk the iteration yields every element once**, thread after thread and
chunk after chunk, and reaches `end()`. -/
theorem walk_begin (hne : NoEmptyChunk heads) {n : ℕ} (hn : (heads.flatMap chainElems).length < n) :
    walk heads n (begin heads) = ((heads.flatMap chainElems).map some, true) := by
  -- `begin()` is the first element, or `end()` if there is none
  have hbegin : (begin heads = endIter heads ∨ AtElem heads (begin heads)) ∧
      restFrom heads (begin heads) = heads.flatMap chainElems := by
    by_cases hfirst : 0 < heads.length ∧ heads.getD 0 [] ≠ []
    · have hb : begin heads = ⟨0, some 0, 0⟩ := by
        rw [begin, iterAt, initThread, if_pos hfirst]
        rfl
      rw [hb]
      exact ⟨.inr (atElem_first hne hfirst.1 hfirst.2), restFrom_first hfirst.1⟩
    · have hb : begin heads = advanceThread heads 0 := by
        rw [begin, iterAt, if_neg (by rw [initThread, if_neg hfirst]; simp)]
      rw [hb]
      obtain ⟨hend, hrest⟩ := advanceThread_spec hne (Nat.zero_le _)
      refine ⟨hend, hrest.trans ?_⟩
      by_cases h0 : 0 < heads.length
      · have hempty : heads.getD 0 [] = [] := by
          by_contra h
          exact hfirst ⟨h0, h⟩
        rw [← List.drop_zero (l := heads), flatMap_drop_eq h0, hempty]
        rfl
      · rw [List.eq_nil_of_length_eq_zero (by omega : heads.length = 0)]
        rfl
  obtain ⟨hat, hrest⟩ := hbegin
  rcases hat with hend | hat
  · rw [hend, walk_endIter, ← hrest, hend, endIter_eq]
    rfl
  · rw [walk_atElem hne n _ hat (by rw [hrest]; exact hn), hrest]

end InsertBag

/-! ## 5. Chunks and pushes -/

namespace InsertBag

/-- An iterator in a chain whose only chunk is empty never leaves it: `advance_local()` steps
past `dend` and keeps going. -/
theorem walk_emptied (blockCap : ℕ) :
    ∀ (n v : ℕ), walk [[(⟨[], blockCap⟩ : Chunk T)]] n ⟨0, some 0, v⟩ =
      (List.replicate n none, false)
  | 0, v => by simp [walk, endIter_eq]
  | n + 1, v => by
    have hinc : increment [[(⟨[], blockCap⟩ : Chunk T)]] ⟨0, some 0, v⟩ = ⟨0, some 0, v + 1⟩ := by
      simp [increment]
    rw [walk, if_neg (by rw [endIter_eq]; simp), hinc, walk_emptied blockCap n (v + 1),
      List.replicate_succ]
    simp [deref]

/-- **One push and one pop on one thread leave a bag with no element that `empty()` calls
non-empty and whose iteration never reaches `end()`**: `begin()` stops at the emptied chunk and
every `increment()` steps past its `dend`, dereferencing destroyed slots. -/
theorem push_pop_never_ends (x : T) (blockCap : ℕ) :
    ∃ b, run [.push 0 x, .pop 0] (init 1 blockCap) = .ok b ∧ b.elems = [] ∧ b.empty = false ∧
      ∀ n, walk b.heads n (begin b.heads) = (List.replicate n none, false) := by
  refine ⟨⟨[[⟨[], blockCap⟩]], blockCap⟩, rfl, rfl, rfl, fun n => ?_⟩
  have hbegin : begin [[(⟨[], blockCap⟩ : Chunk T)]] = ⟨0, some 0, 0⟩ := by
    simp [begin, iterAt, initThread]
  rw [hbegin]
  exact walk_emptied blockCap n 0

end InsertBag

end Galois
