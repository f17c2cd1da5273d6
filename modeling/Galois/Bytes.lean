import Mathlib

/-!
# Little-endian words in byte buffers

A binary file format is a byte string in which fixed-width integers are stored least
significant byte first, and a program that writes one fills a buffer of a size it computed in
advance. This file gives the two sides of that:

* `leBytes w x` / `leValue`, the `w` little-endian bytes of a number and back, with the round
  trip `leValue_leBytes` (as `x % 256 ^ w`, hence exact below `256 ^ w`);
* `leArray w xs`, an array of `w`-byte words, and `readLE_leArray`: the word at index `i` reads
  back as `xs[i]`, also with bytes before and after the array;
* `readBytes`, a read of `n` bytes at an offset, with its laws on appended buffers and on a
  read out of what was read;
* `writeBytes`, a store into a buffer that must stay inside the buffer (`none` when it would
  not), and `writeBytes_append_zeros`: a store right after what is already written, into a
  zero-filled rest, appends the bytes.

Nothing here names a program: the file is about lists of bytes.
-/

namespace Galois.Bytes

/-! ## 1. Little-endian words -/

/-- The `w` little-endian bytes of `x`; the bits above `8 * w` are dropped, as a store through
a `w`-byte integer type drops them. -/
def leBytes : ℕ → ℕ → List UInt8
  | 0, _ => []
  | w + 1, x => UInt8.ofNat x :: leBytes w (x / 256)

/-- The number that little-endian bytes hold. -/
def leValue : List UInt8 → ℕ
  | [] => 0
  | b :: bs => b.toNat + 256 * leValue bs

@[simp] theorem length_leBytes (w x : ℕ) : (leBytes w x).length = w := by
  induction w generalizing x with
  | zero => rfl
  | succ w ih => rw [leBytes, List.length_cons, ih]

theorem leValue_leBytes (w x : ℕ) : leValue (leBytes w x) = x % 256 ^ w := by
  induction w generalizing x with
  | zero => rw [Nat.pow_zero, Nat.mod_one]; rfl
  | succ w ih =>
    have h256 : (2 : ℕ) ^ 8 = 256 := rfl
    rw [leBytes, leValue, ih, UInt8.toNat_ofNat', h256, Nat.pow_succ', Nat.mod_mul]

theorem leValue_leBytes_of_lt {w x : ℕ} (h : x < 256 ^ w) : leValue (leBytes w x) = x := by
  rw [leValue_leBytes, Nat.mod_eq_of_lt h]

/-- An array of `w`-byte words, each stored little-endian. -/
def leArray (w : ℕ) (xs : List ℕ) : List UInt8 :=
  xs.flatMap (leBytes w)

@[simp] theorem leArray_nil (w : ℕ) : leArray w [] = [] := rfl

theorem leArray_cons (w x : ℕ) (xs : List ℕ) :
    leArray w (x :: xs) = leBytes w x ++ leArray w xs := rfl

@[simp] theorem length_leArray (w : ℕ) (xs : List ℕ) : (leArray w xs).length = w * xs.length := by
  induction xs with
  | nil => rfl
  | cons x xs ih => rw [leArray_cons, List.length_append, ih, length_leBytes, List.length_cons,
      Nat.mul_succ, Nat.add_comm]

/-! ## 2. Reads -/

/-- The `n` bytes of `mem` from offset `off`; fewer where `mem` ends first. -/
def readBytes (mem : List UInt8) (off n : ℕ) : List UInt8 :=
  (mem.drop off).take n

/-- The `w`-byte little-endian word at offset `off`. -/
def readLE (mem : List UInt8) (off w : ℕ) : ℕ :=
  leValue (readBytes mem off w)

/-- A read that ends inside the first buffer does not see the second. -/
theorem readBytes_append_left {a : List UInt8} (b : List UInt8) {off n : ℕ}
    (h : off + n ≤ a.length) : readBytes (a ++ b) off n = readBytes a off n := by
  have hoff : off ≤ a.length := by omega
  have hn : n ≤ (a.drop off).length := by rw [List.length_drop]; omega
  rw [readBytes, readBytes, List.drop_append_of_le_length hoff, List.take_append_of_le_length hn]

/-- A read past the first buffer reads the second. -/
theorem readBytes_append_right (a b : List UInt8) (off n : ℕ) :
    readBytes (a ++ b) (a.length + off) n = readBytes b off n := by
  rw [readBytes, readBytes, List.drop_append, List.drop_eq_nil_of_le (by omega), List.nil_append,
    Nat.add_sub_cancel_left]

/-- A read that ends before a cut does not see the cut. -/
theorem readBytes_take (mem : List UInt8) {off n k : ℕ} (h : off + n ≤ k) :
    readBytes (mem.take k) off n = readBytes mem off n := by
  rw [readBytes, readBytes, List.drop_take, List.take_take, Nat.min_eq_left (by omega)]

/-- **The word at index `i` of an array reads back as the `i`th element**, as its `w` bytes. -/
theorem readBytes_leArray (w : ℕ) {xs : List ℕ} {i : ℕ} (hi : i < xs.length) :
    readBytes (leArray w xs) (w * i) w = leBytes w xs[i] := by
  induction xs generalizing i with
  | nil => exact absurd hi (Nat.not_lt_zero _)
  | cons x xs ih =>
    rw [leArray_cons]
    cases i with
    | zero =>
      have hlen : 0 + w ≤ (leBytes w x).length := by rw [length_leBytes]; omega
      rw [Nat.mul_zero, readBytes_append_left _ hlen, readBytes, List.drop_zero,
        List.take_of_length_le (Nat.le_of_eq (length_leBytes w x)), List.getElem_cons_zero]
    | succ i =>
      have hi' : i < xs.length := by rw [List.length_cons] at hi; omega
      have hoff : w * (i + 1) = (leBytes w x).length + w * i := by
        rw [length_leBytes, Nat.mul_succ, Nat.add_comm]
      rw [hoff, readBytes_append_right, ih hi', List.getElem_cons_succ]

/-- The word at index `i` of an array stored at offset `pre.length` of a buffer, with `post`
after it: the element, when it fits the width. -/
theorem readLE_leArray (pre post : List UInt8) (w : ℕ) {xs : List ℕ} {i : ℕ}
    (hi : i < xs.length) (hx : xs[i] < 256 ^ w) :
    readLE (pre ++ leArray w xs ++ post) (pre.length + w * i) w = xs[i] := by
  have hend : w * i + w ≤ (leArray w xs).length := by
    rw [length_leArray, ← Nat.mul_succ]
    exact Nat.mul_le_mul_left w hi
  rw [readLE, List.append_assoc, readBytes_append_right, readBytes_append_left _ hend,
    readBytes_leArray w hi, leValue_leBytes_of_lt hx]

/-- The part of a buffer between what comes before it and what comes after it. -/
theorem readBytes_middle (pre mid post : List UInt8) :
    readBytes (pre ++ mid ++ post) pre.length mid.length = mid := by
  rw [List.append_assoc, ← Nat.add_zero pre.length, readBytes_append_right,
    readBytes_append_left _ (by omega), readBytes, List.drop_zero, List.take_length]

/-- A read inside a buffer that was itself read out of a larger one. -/
theorem readBytes_readBytes (mem : List UInt8) (pos len : ℕ) {off n : ℕ} (h : off + n ≤ len) :
    readBytes (readBytes mem pos len) off n = readBytes mem (pos + off) n := by
  rw [readBytes, readBytes, readBytes, List.drop_take, List.take_take, List.drop_drop,
    Nat.min_eq_left (by omega)]

theorem readLE_readBytes (mem : List UInt8) (pos len : ℕ) {off w : ℕ} (h : off + w ≤ len) :
    readLE (readBytes mem pos len) off w = readLE mem (pos + off) w := by
  rw [readLE, readLE, readBytes_readBytes mem pos len h]

theorem length_readBytes (mem : List UInt8) (off n : ℕ) :
    (readBytes mem off n).length = min n (mem.length - off) := by
  rw [readBytes, List.length_take, List.length_drop]

/-- **Chunk `i` of chunks of `n` bytes each**, laid one after the other. -/
theorem readBytes_flatMap_range {f : ℕ → List UInt8} {n : ℕ} :
    ∀ {m : ℕ}, (∀ j, j < m → (f j).length = n) → ∀ {i : ℕ}, i < m →
      readBytes ((List.range m).flatMap f) (n * i) n = f i
  | 0, _, _, hi => absurd hi (Nat.not_lt_zero _)
  | m + 1, hf, i, hi => by
    have hlen : ((List.range m).flatMap f).length = n * m := by
      rw [List.length_flatMap, List.map_congr_left fun j hj => hf j (by simp at hj; omega),
        List.map_const', List.length_range, List.sum_replicate_nat, Nat.mul_comm]
    rw [List.range_succ, List.flatMap_append, List.flatMap_singleton]
    rcases Nat.lt_succ_iff_lt_or_eq.mp hi with hi | rfl
    · -- an earlier chunk ends before the last one starts
      have hend : n * i + n ≤ ((List.range m).flatMap f).length := by
        rw [hlen, ← Nat.mul_succ]
        exact Nat.mul_le_mul_left n hi
      rw [readBytes_append_left _ hend, readBytes_flatMap_range (fun j hj => hf j (by omega)) hi]
    · rw [← hlen, ← Nat.add_zero ((List.range i).flatMap f).length, readBytes_append_right,
        readBytes, List.drop_zero, List.take_of_length_le (Nat.le_of_eq (hf i (by omega)))]

/-- The first `n` words of `w` bytes of a buffer, as an array of `w`-byte integers holds them. -/
def readWords (mem : List UInt8) (w n : ℕ) : List ℕ :=
  (List.range n).map fun i => readLE mem (w * i) w

/-- The first `n` elements of `s` bytes of a buffer. -/
def readChunks (mem : List UInt8) (s n : ℕ) : List (List UInt8) :=
  (List.range n).map fun i => readBytes mem (s * i) s

/-- **An array of words reads back as its elements**, when they fit the width. -/
theorem readWords_leArray (w : ℕ) {xs : List ℕ} (hx : ∀ x ∈ xs, x < 256 ^ w) :
    readWords (leArray w xs) w xs.length = xs := by
  apply List.ext_getElem
  · rw [readWords, List.length_map, List.length_range]
  · intro i hi hi'
    have h := readLE_leArray [] [] w hi' (hx _ (List.getElem_mem hi'))
    rw [List.nil_append, List.append_nil, List.length_nil, Nat.zero_add] at h
    simp only [readWords, List.getElem_map, List.getElem_range]
    exact h

/-! ## 3. Stores into a buffer of fixed size -/

/-- A store of `src` at offset `off` into a buffer of `mem.length` bytes, as a `memcpy` into an
allocation of that size: `none` when it would write past the end. A store of nothing writes
nothing, wherever it points. -/
def writeBytes (mem : List UInt8) (off : ℕ) (src : List UInt8) : Option (List UInt8) :=
  if src = [] ∨ off + src.length ≤ mem.length then
    some (mem.take off ++ src ++ mem.drop (off + src.length))
  else none

theorem writeBytes_eq_none {mem src : List UInt8} {off : ℕ} (hsrc : src ≠ [])
    (h : mem.length < off + src.length) : writeBytes mem off src = none := by
  rw [writeBytes, if_neg]
  rintro (hnil | hle)
  · exact hsrc hnil
  · omega

theorem writeBytes_nil (mem : List UInt8) (off : ℕ) : writeBytes mem off [] = some mem := by
  rw [writeBytes, if_pos (Or.inl rfl), List.append_nil, List.length_nil, Nat.add_zero,
    List.take_append_drop]

/-- **A store right after what is written, into a zero-filled rest that has room for it,
appends it.** -/
theorem writeBytes_append_zeros (a src : List UInt8) {k : ℕ} (h : src.length ≤ k) :
    writeBytes (a ++ List.replicate k 0) a.length src =
      some (a ++ src ++ List.replicate (k - src.length) 0) := by
  have hfit : a.length + src.length ≤ (a ++ List.replicate k 0).length := by
    rw [List.length_append, List.length_replicate]
    omega
  rw [writeBytes, if_pos (Or.inr hfit), List.take_left' rfl, List.drop_append,
    List.drop_eq_nil_of_le (by omega), List.nil_append, Nat.add_sub_cancel_left,
    List.drop_replicate]

/-- A store that fills a buffer of its own size. -/
theorem writeBytes_zeros_of_length {src : List UInt8} {n : ℕ} (h : src.length = n) :
    writeBytes (List.replicate n 0) 0 src = some src := by
  subst h
  have h := writeBytes_append_zeros [] src (Nat.le_refl src.length)
  rw [List.nil_append, List.length_nil, List.nil_append, Nat.sub_self, List.replicate_zero,
    List.append_nil] at h
  exact h

end Galois.Bytes
