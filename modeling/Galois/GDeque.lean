import Mathlib

/-!
# `gdeque` (gdeque.h)

A `gdeque<T, ChunkSize>` keeps its items in a doubly linked list of blocks, each a
`FixedSizeRing` of at most `ChunkSize` items (`C` here). The blocks live in a heap addressed by
`ℕ`: `alloc_block` hands out a fresh address and `free_block` frees one, and an access to a
freed or unknown address is `none`.

* `extendFirst`, `extendLast`, `shrink`, `emplaceAt` -- the private members that link, unlink
  and split blocks;
* `pushBack`, `pushFront`, `popBack`, `popFront`, `emplace` -- the public members;
* `increment`, `decrement`, `forward`, `backward` -- the iterator, and the items it visits from
  `begin()` to `end()` and, as the reverse iterator does, from `end()` back to `begin()`;
* `run`, `refRun` -- a sequence of calls on an empty `gdeque`, and on a `std::deque`;
* `emplace_split_breaks_back_link` -- an `emplace` in the middle of a full block links the new
  block in forwards only: the next block's `prev` stays at the split block, so the backward walk
  skips the new block, and a `pop_back` that frees the next block cuts the new block off.
-/

namespace Galois

variable {T : Type}

/-- A `Block`: the items of its `FixedSizeRing`, front to back, and its two links. -/
structure GDeque.Block (T : Type) where
  items : List T
  next : Option ℕ
  prev : Option ℕ

/-- A `gdeque`: the blocks by address (`none` once freed), `first`, `last` and `num`. -/
structure GDeque (T : Type) where
  heap : List (Option (GDeque.Block T))
  first : Option ℕ
  last : Option ℕ
  num : ℕ

namespace GDeque

/-! ## The ring of a block -/

/-- `FixedSizeRing::emplace(begin() + i, v)`: nothing when the ring is full. -/
def ringEmplace (C : ℕ) (items : List T) (i : ℕ) (v : T) : List T :=
  if items.length = C then items else items.insertIdx i v

/-- `FixedSizeRing::emplace_back(v)`. -/
def ringEmplaceBack (C : ℕ) (items : List T) (v : T) : List T :=
  if items.length = C then items else items ++ [v]

/-- `FixedSizeRing::emplace_front(v)`. -/
def ringEmplaceFront (C : ℕ) (items : List T) (v : T) : List T :=
  if items.length = C then items else v :: items

/-- `gdeque()`. -/
def empty : GDeque T := ⟨[], none, none, 0⟩

/-- The block at address `b`. -/
def block (d : GDeque T) (b : ℕ) : Option (Block T) := (d.heap[b]?).bind id

/-- A write to the block at address `b`. -/
def modify (d : GDeque T) (b : ℕ) (f : Block T → Block T) : Option (GDeque T) := do
  let blk ← d.block b
  pure { d with heap := d.heap.set b (some (f blk)) }

/-- `alloc_block(first, last)`: a new block at a fresh address, with the items and no links. -/
def alloc (d : GDeque T) (items : List T) : GDeque T × ℕ :=
  ({ d with heap := d.heap ++ [some ⟨items, none, none⟩] }, d.heap.length)

/-- `free_block(b)`. -/
def free (d : GDeque T) (b : ℕ) : GDeque T := { d with heap := d.heap.set b none }

/-! ## Linking and unlinking blocks -/

/-- `extend_first()`: a new empty block linked in before `first`. -/
def extendFirst (d : GDeque T) : Option (GDeque T × ℕ) := do
  let (d, b) := d.alloc []
  let d ← d.modify b fun x => { x with next := d.first }
  let d ← match (← d.block b).next with
    | some n => d.modify n fun x => { x with prev := some b }
    | none => pure d
  let d := { d with first := some b }
  let d := if d.last.isNone then { d with last := some b } else d
  pure (d, b)

/-- `extend_last()`: a new empty block linked in after `last`. -/
def extendLast (d : GDeque T) : Option (GDeque T × ℕ) := do
  let (d, b) := d.alloc []
  let d ← d.modify b fun x => { x with prev := d.last }
  let d ← match (← d.block b).prev with
    | some p => d.modify p fun x => { x with next := some b }
    | none => pure d
  let d := { d with last := some b }
  let d := if d.first.isNone then { d with first := some b } else d
  pure (d, b)

/-- `shrink(b)`: the block unlinked from its neighbours, `first` and `last`, then freed; each
statement reads the links as the ones before it left them. -/
def shrink (d : GDeque T) (b : ℕ) : Option (GDeque T) := do
  let blk ← d.block b
  let d ← match blk.next with
    | some n => d.modify n fun x => { x with prev := blk.prev }
    | none => pure d
  let blk ← d.block b
  let d ← match blk.prev with
    | some p => d.modify p fun x => { x with next := blk.next }
    | none => pure d
  let blk ← d.block b
  let d := if d.first = some b then { d with first := blk.next } else d
  let d := if d.last = some b then { d with last := blk.prev } else d
  pure (d.free b)

/-- The private `emplace(b, ii, v)`: `pos` is the block and the offset of `ii`, `none` for
`end()`. The block and the offset of the new item. -/
def emplaceAt (C : ℕ) (d : GDeque T) (pos : Option (ℕ × ℕ)) (v : T) :
    Option (GDeque T × ℕ × ℕ) := do
  let d := { d with num := d.num + 1 }
  let (d, b, ii) ← match pos with
    | none =>
      -- `end()`: the last block, or a new one after it when it is full
      match d.last with
      | some l => do
        let blk ← d.block l
        if blk.items.length = C then
          let (d, b) ← d.extendLast
          pure (d, b, 0)
        else pure (d, l, blk.items.length)
      | none => do
        let (d, b) ← d.extendLast
        pure (d, b, 0)
    | some (b, ii) => do
      let blk ← d.block b
      if d.first = some b ∧ ii = 0 then
        -- `begin()`: the first block, or a new one before it when it is full
        if blk.items.length = C then
          let (d, b) ← d.extendFirst
          pure (d, b, 0)
        else pure (d, b, 0)
      else if blk.items.length = C then
        -- the items from `ii` on move to a new block `n`, which is linked in after `b`:
        -- `n->next = b->next; n->prev = b; b->next = n;` and `last` follows
        let (d, n) := d.alloc (blk.items.drop ii)
        let d ← d.modify b fun x => { x with items := x.items.take ii }
        let next := (← d.block b).next
        let d ← d.modify n fun x => { x with next := next }
        let d ← d.modify n fun x => { x with prev := some b }
        let d ← d.modify b fun x => { x with next := some n }
        let d := if d.last = some b then { d with last := some n } else d
        pure (d, b, ii)
      else pure (d, b, ii)
  let d ← d.modify b fun x => { x with items := ringEmplace C x.items ii v }
  pure (d, b, ii)

/-! ## The public members -/

/-- `emplace_back(v)` (`push_back`). -/
def pushBack (C : ℕ) (d : GDeque T) (v : T) : Option (GDeque T) := do
  let d := { d with num := d.num + 1 }
  let d ← match d.last with
    | some l => do
      if (← d.block l).items.length = C then pure (← d.extendLast).1 else pure d
    | none => pure (← d.extendLast).1
  let l ← d.last
  d.modify l fun x => { x with items := ringEmplaceBack C x.items v }

/-- `emplace_front(v)` (`push_front`). -/
def pushFront (C : ℕ) (d : GDeque T) (v : T) : Option (GDeque T) := do
  let d := { d with num := d.num + 1 }
  let d ← match d.first with
    | some f => do
      if (← d.block f).items.length = C then pure (← d.extendFirst).1 else pure d
    | none => pure (← d.extendFirst).1
  let f ← d.first
  d.modify f fun x => { x with items := ringEmplaceFront C x.items v }

/-- `pop_back()`: the last block is shrunk away once it is empty. -/
def popBack (d : GDeque T) : Option (GDeque T) := do
  let d := { d with num := d.num - 1 }
  let l ← d.last
  let d ← d.modify l fun x => { x with items := x.items.dropLast }
  if (← d.block l).items.isEmpty then d.shrink l else pure d

/-- `pop_front()`: the first block is shrunk away once it is empty. -/
def popFront (d : GDeque T) : Option (GDeque T) := do
  let d := { d with num := d.num - 1 }
  let f ← d.first
  let d ← d.modify f fun x => { x with items := x.items.tail }
  if (← d.block f).items.isEmpty then d.shrink f else pure d

/-! ## The iterator -/

/-- `begin()`: the first block at offset `0`; `end()` is `(none, 0)`. -/
def begin (d : GDeque T) : Option ℕ × ℕ := (d.first, 0)

/-- `++it`: the next offset, or the next block at offset `0`. -/
def increment (d : GDeque T) : Option ℕ × ℕ → Option (Option ℕ × ℕ)
  | (none, _) => none
  | (some b, off) => do
    let blk ← d.block b
    if off + 1 = blk.items.length then pure (blk.next, 0) else pure (some b, off + 1)

/-- `--it`: from `end()` the last item of `last`; from offset `0` the last item of `prev`. -/
def decrement (d : GDeque T) : Option ℕ × ℕ → Option (Option ℕ × ℕ)
  | (none, _) => do
    let l ← d.last
    pure (some l, (← d.block l).items.length - 1)
  | (some b, off) => do
    if off = 0 then
      let p ← (← d.block b).prev
      pure (some p, (← d.block p).items.length - 1)
    else pure (some b, off - 1)

/-- `*it`: `b->getAt(offset)`. -/
def get (d : GDeque T) : Option ℕ × ℕ → Option T
  | (some b, off) => do (← d.block b).items[off]?
  | (none, _) => none

/-- `emplace(pos, v)`: the deque and the iterator at the new item. -/
def emplace (C : ℕ) (d : GDeque T) (pos : Option ℕ × ℕ) (v : T) :
    Option (GDeque T × (Option ℕ × ℕ)) := do
  let (d, b, off) ← d.emplaceAt C (pos.1.map fun b => (b, pos.2)) v
  pure (d, (some b, off))

/-- `std::advance(it, k)`. -/
def advance (d : GDeque T) : ℕ → Option ℕ × ℕ → Option (Option ℕ × ℕ)
  | 0, it => some it
  | k + 1, it => do d.advance k (← d.increment it)

/-- The items from `it` to `end()`, for at most `fuel` of them. -/
def forward (d : GDeque T) : ℕ → Option ℕ × ℕ → Option (List T)
  | 0, _ => none
  | fuel + 1, it =>
    if it = (none, 0) then some []
    else do
      let x ← d.get it
      d.forward fuel (← d.increment it) |>.map (x :: ·)

/-- The items the reverse iterator visits from `it` back to `begin()`: `*std::prev(it)`, then
`--it`, for at most `fuel` of them. -/
def backward (d : GDeque T) : ℕ → Option ℕ × ℕ → Option (List T)
  | 0, _ => none
  | fuel + 1, it =>
    if it = d.begin then some []
    else do
      let it ← d.decrement it
      let x ← d.get it
      d.backward fuel it |>.map (x :: ·)

/-! ## Runs of calls -/

/-- The calls on a `gdeque`; `emplace k v` is `emplace(begin() + k, v)`. -/
inductive Op (T : Type) where
  | pushBack (v : T)
  | pushFront (v : T)
  | popBack
  | popFront
  | emplace (k : ℕ) (v : T)

/-- One call. -/
def apply (C : ℕ) (d : GDeque T) : Op T → Option (GDeque T)
  | .pushBack v => d.pushBack C v
  | .pushFront v => d.pushFront C v
  | .popBack => d.popBack
  | .popFront => d.popFront
  | .emplace k v => do (← d.emplace C (← d.advance k d.begin) v).1

/-- The calls on an empty `gdeque<T, C>`. -/
def run (C : ℕ) (ops : List (Op T)) : Option (GDeque T) :=
  ops.foldlM (apply C) GDeque.empty

/-- One call on a `std::deque`, with `emplace` inserting at an index. -/
def refApply (l : List T) : Op T → List T
  | .pushBack v => l ++ [v]
  | .pushFront v => v :: l
  | .popBack => l.dropLast
  | .popFront => l.tail
  | .emplace k v => l.insertIdx k v

/-- The calls on an empty `std::deque`. -/
def refRun (ops : List (Op T)) : List T :=
  ops.foldl refApply []

/-! ## A split that is linked in one way -/

/-- **An `emplace` into the middle of a full block breaks the back links.** With blocks of two,
five `push_back`s fill blocks `0` and `1` and put `5` in block `2`; `emplace(begin() + 2, 9)`
splits block `1`, moving `3, 4` to a new block `3` and putting `9` in block `1`. Block `3` points
forward at block `2`, but block `2` still points back at block `1`: the forward walk sees the
six items of the `std::deque`, the backward walk only `5, 9, 2, 1`. A `pop_back` then shrinks
block `2` through its stale `prev`, so block `1` ends the list: the forward walk sees `1, 2, 9`
while `size()` is `5`. -/
theorem emplace_split_breaks_back_link :
    refRun ((List.map Op.pushBack [1, 2, 3, 4, 5]) ++ [Op.emplace 2 (9 : ℕ)]) =
        [1, 2, 9, 3, 4, 5] ∧
      ((run 2 ((List.map Op.pushBack [1, 2, 3, 4, 5]) ++ [Op.emplace 2 (9 : ℕ)])).bind
        fun d => (d.block 3).map Block.next) = some (some 2) ∧
      ((run 2 ((List.map Op.pushBack [1, 2, 3, 4, 5]) ++ [Op.emplace 2 (9 : ℕ)])).bind
        fun d => (d.block 2).map Block.prev) = some (some 1) ∧
      ((run 2 ((List.map Op.pushBack [1, 2, 3, 4, 5]) ++ [Op.emplace 2 (9 : ℕ)])).bind
        fun d => d.forward 10 d.begin) = some [1, 2, 9, 3, 4, 5] ∧
      ((run 2 ((List.map Op.pushBack [1, 2, 3, 4, 5]) ++ [Op.emplace 2 (9 : ℕ)])).bind
        fun d => d.backward 10 (none, 0)) = some [5, 9, 2, 1] ∧
      refRun ((List.map Op.pushBack [1, 2, 3, 4, 5]) ++ [Op.emplace 2 (9 : ℕ), Op.popBack]) =
        [1, 2, 9, 3, 4] ∧
      ((run 2 ((List.map Op.pushBack [1, 2, 3, 4, 5]) ++ [Op.emplace 2 (9 : ℕ), Op.popBack])).bind
        fun d => d.forward 10 d.begin) = some [1, 2, 9] ∧
      ((run 2 ((List.map Op.pushBack [1, 2, 3, 4, 5]) ++
        [Op.emplace 2 (9 : ℕ), Op.popBack])).map GDeque.num) = some 5 := by
  refine ⟨by decide, by decide, by decide, by decide, by decide, by decide, by decide, by decide⟩

end GDeque

end Galois
