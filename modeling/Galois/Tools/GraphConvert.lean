import Mathlib

/-!
# `convertEdgelist` of graph-convert

`-edgelist2gr` (and `-csv2gr`, with the delimiter `,` and the first line skipped) reads a text
file of lines `src dst [value]` three times with the same parse: the first pass counts the
accepted lines and takes the largest id, `numNodes` is that id plus one, the second pass counts
each source's edges (`incrementDegree`), `phase2` turns the counts into running sums, and the
third pass gives each edge the next free slot of its source (`addNeighbor`).

* `readSize`, `readChar` -- `iss >> x` for a `size_t` and for a `char`. For `size_t`, `num_get`
  skips whitespace, reads the digits of a decimal numeral, and fails on no digit and on a value
  that is not below `2 ^ 64`; a numeral with a sign, which `num_get` also accepts, is left out;
* `parseLine` -- the parse all three passes make of one line;
* `FileGraphWriter` -- the writer's arrays, with `incrementDegree`, `phase2` and `addNeighbor`;
  an access past an array is `none`;
* `convertEdgelist` -- the three passes, up to the arrays `finish` hands to `fromArrays`;
* `convertEdgelist_max_id` -- a line naming the id `2 ^ 64 - 1` makes `numNodes++` wrap to `0`,
  and the second pass then counts a degree past the end of `outIdx`.
-/

namespace Galois.GraphConvert

variable {D : Type}

/-! ## 1. Reading a line -/

/-- `isspace`: what `operator>>` skips before a value. -/
def isSpace (c : Char) : Bool :=
  c = ' ' || c = '\t' || c = '\n' || c = '\r' || c.toNat = 11 || c.toNat = 12

/-- The value of a decimal numeral. -/
def decimalValue (ds : List Char) : ℕ :=
  ds.foldl (fun n c => 10 * n + (c.toNat - '0'.toNat)) 0

/-- `iss >> x` for a `size_t` `x`: whitespace is skipped, then a decimal numeral is read, all its
digits; it fails on no digit, and on a value of `2 ^ 64` or more. -/
def readSize (s : List Char) : Option (ℕ × List Char) :=
  let s := s.dropWhile isSpace
  let ds := s.takeWhile Char.isDigit
  if ds = [] ∨ 2 ^ 64 ≤ decimalValue ds then none
  else some (decimalValue ds, s.dropWhile Char.isDigit)

/-- `iss >> readDelim` for a `char`: whitespace is skipped, then one character is read. -/
def readChar (s : List Char) : Option (Char × List Char) :=
  match s.dropWhile isSpace with
  | c :: rest => some (c, rest)
  | [] => none

/-- `if (hasDelim) { if (!(iss >> readDelim) || readDelim != delim) continue; }`. -/
def readDelim (delim : Option Char) (s : List Char) : Option (List Char) :=
  match delim with
  | none => some s
  | some d => match readChar s with
    | some (c, rest) => if c = d then some rest else none
    | none => none

/-- The parse every pass of `convertEdgelist` makes of a line: `src`, the delimiter, `dst`, and
for an edge type with a value (`readData`, `iss >> data`) the delimiter again and the value.
`none` is a line the pass skips with `continue`; what follows the last field is not read. -/
def parseLine (delim : Option Char) (readData : Option (List Char → Option (D × List Char)))
    (line : List Char) : Option (ℕ × ℕ × Option D) := do
  let (src, s) ← readSize line
  let s ← readDelim delim s
  let (dst, s) ← readSize s
  match readData with
  | none => some (src, dst, none)
  | some rd => do
    let s ← readDelim delim s
    let (v, _) ← rd s
    some (src, dst, some v)

/-! ## 2. The writer -/

/-- `FileGraphWriter`'s arrays: the degrees, then their running sums (`outIdx`), each node's
next free slot (`starts`) and the destinations (`outs`), with the counts it was given. -/
structure FileGraphWriter where
  numNodes : ℕ
  numEdges : ℕ
  outIdx : List ℕ
  starts : List ℕ
  outs : List ℕ

namespace FileGraphWriter

/-- `setNumNodes(n)`, `setNumEdges(m)` and `phase1()`: `outIdx.resize(numNodes)`. -/
def phase1 (numNodes numEdges : ℕ) : FileGraphWriter :=
  ⟨numNodes, numEdges, List.replicate numNodes 0, [], []⟩

/-- `incrementDegree(id)`: `outIdx[id] += 1`, past the end of `outIdx` when `id` is not below
`numNodes` (the `assert` is not compiled in a release build). -/
def incrementDegree (w : FileGraphWriter) (id : ℕ) : Option FileGraphWriter :=
  if id < w.outIdx.length then some { w with outIdx := w.outIdx.modify id (· + 1) } else none

/-- `phase2()`: for at least one node, the counts become running sums (`*ii += *prev` from the
second entry on), and `starts` and `outs` are sized. -/
def phase2 (w : FileGraphWriter) : FileGraphWriter :=
  if w.numNodes = 0 then w
  else
    { w with
      outIdx := w.outIdx.tail.scanl (· + ·) (w.outIdx.headD 0)
      starts := List.replicate w.numNodes 0
      outs := List.replicate w.numEdges 0 }

/-- `addNeighbor(src, dst)`: slot `idx = outIdx[src - 1] + starts[src]++` (from `0` for node
`0`) gets `dst`; the slot, and `none` for a write past `starts` or `outs`. -/
def addNeighbor (w : FileGraphWriter) (src dst : ℕ) : Option (FileGraphWriter × ℕ) :=
  let base := if src = 0 then 0 else w.outIdx.getD (src - 1) 0
  let idx := base + w.starts.getD src 0
  if src < w.starts.length ∧ idx < w.outs.length then
    some ({ w with starts := w.starts.modify src (· + 1), outs := w.outs.set idx dst }, idx)
  else none

end FileGraphWriter

/-! ## 3. The three passes -/

/-- The lines the passes read: all of them, or all after the first with `skipFirstLine`. -/
def passLines (skipFirstLine : Bool) (lines : List (List Char)) : List (List Char) :=
  if skipFirstLine then lines.drop 1 else lines

/-- The first pass: the largest id the accepted lines name and their number. -/
def countPass (delim : Option Char) (readData : Option (List Char → Option (D × List Char)))
    (lines : List (List Char)) : ℕ × ℕ :=
  lines.foldl (fun acc line => match parseLine delim readData line with
    | some (src, dst, _) => (max (max acc.1 src) dst, acc.2 + 1)
    | none => acc) (0, 0)

/-- The second pass: `incrementDegree(src)` for each accepted line. -/
def degreePass (delim : Option Char) (readData : Option (List Char → Option (D × List Char)))
    (lines : List (List Char)) (w : FileGraphWriter) : Option FileGraphWriter :=
  lines.foldlM (fun w line => match parseLine delim readData line with
    | some (src, _, _) => w.incrementDegree src
    | none => some w) w

/-- The third pass: `edgeData.set(addNeighbor(src, dst), data)` for each accepted line. -/
def neighborPass (delim : Option Char) (readData : Option (List Char → Option (D × List Char)))
    (lines : List (List Char)) (w : FileGraphWriter × List (Option D)) :
    Option (FileGraphWriter × List (Option D)) :=
  lines.foldlM (fun acc line => match parseLine delim readData line with
    | some (src, dst, v) => (acc.1.addNeighbor src dst).map fun r => (r.1, acc.2.set r.2 v)
    | none => some acc) w

/-- `convertEdgelist(infilename, outfilename, skipFirstLine, delim)` up to `finish`: `numNodes`
is the largest id plus one, a `size_t` increment; the arrays `finish` hands to `fromArrays`,
with the edge values. -/
def convertEdgelist (skipFirstLine : Bool) (delim : Option Char)
    (readData : Option (List Char → Option (D × List Char))) (lines : List (List Char)) :
    Option (FileGraphWriter × List (Option D)) := do
  let lines := passLines skipFirstLine lines
  let (maxId, numEdges) := countPass delim readData lines
  let numNodes := (maxId + 1) % 2 ^ 64
  let w ← degreePass delim readData lines (FileGraphWriter.phase1 numNodes numEdges)
  neighborPass delim readData lines (w.phase2, List.replicate numEdges none)

/-! ## 4. The largest id -/

/-- **A line naming the id `2 ^ 64 - 1` breaks the conversion**: `istream >> size_t` accepts
it, so the first pass takes it as the largest id and `numNodes++` wraps to `0`; `outIdx` is
sized to no node, and the second pass's `incrementDegree(2 ^ 64 - 1)` writes past its end. -/
theorem convertEdgelist_max_id :
    countPass (D := Unit) none none ["18446744073709551615 0".toList] = (2 ^ 64 - 1, 1) ∧
      (2 ^ 64 - 1 + 1) % 2 ^ 64 = 0 ∧
      convertEdgelist (D := Unit) false none none ["18446744073709551615 0".toList] = none := by
  refine ⟨by decide, by decide, ?_⟩
  decide

end Galois.GraphConvert
