import Galois.FloatRounding
import Galois.Reduction
import Galois.Lonestar.IndependentSet.Pull
import Galois.Lonestar.IndependentSet.EdgeTiled

/-!
# IndependentSet.cpp: `init-prio`, and what the six algorithms return

`prio` and `edge-tiled prio` write every node's priority byte before their rounds. `cal_degree`
adds each node's degree into a `GAccumulator<float> nedges`, and `init-prio` computes, in
`float`,

  `avg_degree = nedges / size`, `scale_avg = 126 * avg_degree`,
  `x = degree - hash(src) * 2^-32`, `res = round(scale_avg / (avg_degree + x))`,

and writes `(res + res) | 1` (`prio`) or `(res + res) | 0x03` (`edge-tiled prio`). Every
`float` operation rounds with one `Binary32Rounding`.

* `hash`, `calDegree`, `prioRes`, `initPrioFlag` -- the two loops; `PrioAlgo.initPrio` and
  `EdgeTiledPrioAlgo.initPrio` are `initPrioFlag` at `1` and at `0x03`;
* `le_calDegree` -- `nedges` is at least each node's degree as a `float`, for every assignment
  of the `+=` calls to threads and every order of them;
* `prioRes_le` -- a node with an edge gets `0 ≤ res ≤ 126`: there `x ≥ 0`, so the quotient is
  at most `126` up to two roundings;
* `PrioAlgo.initPrio_le_fd` -- so `prio` gives such a node an odd byte of at most `0xfd`, and no
  edge joins two `0xff` bytes;
* **`independentSet_algorithms`** -- on every symmetric graph without self-loops, `serial`
  returns the lexicographically-first maximal independent set and `pull` its flags whenever it
  returns; `nondet` and `detBase` return a maximal independent set in every order; `prio` and
  `edge-tiled prio`, from the bytes `init-prio` writes, return one under every interleaving
  whenever their loop ends.
-/

namespace Galois.Lonestar.IndependentSet

open Cusp BFS_SSSP IndependentSets Binary32Rounding

/-! ## 1. The model -/

/-- `hash(val)`, in `unsigned int`. -/
def hash (val : UInt32) : UInt32 :=
  let val := ((val >>> 16) ^^^ val) * 0x45d9f3b
  let val := ((val >>> 16) ^^^ val) * 0x45d9f3b
  (val >>> 16) ^^^ val

/-- `std::distance(edge_begin(src), edge_end(src))`. -/
def degree (g : Graph) (src : ℕ) : ℕ := (edgeIds g src).length

/-- `cal_degree` and `nedges.reduce()`: thread `tid src` makes `nedges += degree` for each node
`src` of `order`. The `ptrdiff_t` degree becomes a `float` at the call, and `nedges` is a
`Reducible` under `float` addition with identity `0`. -/
def calDegree (fl : ℚ → ℚ) (g : Graph) (nthreads : ℕ) (tid : ℕ → ℕ) (order : List ℕ) : ℚ :=
  (((order.map fun src => ReduceOp.update (tid src) (fl (degree g src))).foldl
      (Reducible.step (fadd fl) 0) (Reducible.init 0 nthreads)).reduce (fadd fl) 0 0).1

/-- `init-prio` at `src` up to `int res = round(...)`, every `float` operation rounded by `fl`.
`in = ~1` is the `unsigned char` `254`, `(in / 2) - 1` the `int` `126`, and the literal
`0.00000000023283064365386962890625f` is `2 ^ -32`. A node without edges can divide by zero or
by a negative number, where the `float` quotient is infinite or NaN and `int res` cannot hold it;
the model divides as `ℚ` does, and only the low bits of such a node's byte are used. -/
def prioRes (fl : ℚ → ℚ) (g : Graph) (nedges : ℚ) (src : ℕ) : ℤ :=
  let avg_degree := fl (nedges / fl (size g))
  let «in» : UInt8 := ~~~1
  let scale_avg := fl (fl ((«in».toNat / 2 - 1 : ℕ) : ℚ) * avg_degree)
  let degree := fl (degree g src)
  let x := fl (degree - fl (fl ((hash (UInt32.ofNat src)).toNat : ℚ) * (1 / 2 ^ 32)))
  cRound (fl (scale_avg / fl (avg_degree + x)))

/-- `unsigned char val = (res + res) | low`: the `| low` sets bits of the `int`'s low byte, which
the conversion to `unsigned char` keeps. -/
def initPrioFlag (fl : ℚ → ℚ) (g : Graph) (nedges : ℚ) (low : UInt8) (src : ℕ) : UInt8 :=
  let res := prioRes fl g nedges src
  UInt8.ofNat ((res + res) % 256).toNat ||| low

/-- `prio`'s `init-prio`: `(res + res) | 1`. -/
def PrioAlgo.initPrio (fl : ℚ → ℚ) (g : Graph) (nedges : ℚ) : ℕ → UInt8 :=
  initPrioFlag fl g nedges 1

/-- `edge-tiled prio`'s `init-prio`: `(res + res) | 0x03`. -/
def EdgeTiledPrioAlgo.initPrio (fl : ℚ → ℚ) (g : Graph) (nedges : ℚ) : ℕ → UInt8 :=
  initPrioFlag fl g nedges 0x03

/-! ## 2. `nedges` -/

/-- What the slots of `nedges` keep under `+=` of non-negative floats: each slot is a
non-negative float, and each value added so far is below some slot. -/
structure Slots (fl : ℚ → ℚ) (d added : List ℚ) : Prop where
  float : ∀ y ∈ d, NonnegFloat fl y
  dominate : ∀ x ∈ added, ∃ j, ∃ hj : j < d.length, x ≤ d[j]

variable {fl : ℚ → ℚ} {g : Graph}

/-- A slot of a list after `modify` at index `t` is the slot it replaced or the new value. -/
theorem mem_modify {d : List ℚ} {t : ℕ} {f : ℚ → ℚ} {y : ℚ} (hy : y ∈ d.modify t f) :
    y ∈ d ∨ ∃ ht : t < d.length, y = f d[t] := by
  obtain ⟨j, hj, rfl⟩ := List.getElem_of_mem hy
  rw [List.length_modify] at hj
  rw [List.getElem_modify]
  split_ifs with htj
  · subst htj
    exact .inr ⟨hj, rfl⟩
  · exact .inl (List.getElem_mem hj)

/-- **One `+=` keeps `Slots`**: the slot it merges into only grows, and ends above the value. -/
theorem Slots.update (hfl : Binary32Rounding fl) {d added : List ℚ} (hs : Slots fl d added)
    {t : ℕ} (ht : t < d.length) {rhs : ℚ} (hr : NonnegFloat fl rhs) :
    Slots fl (d.modify t fun lhs => fadd fl lhs rhs) (rhs :: added) where
  float y hy := by
    rcases mem_modify hy with hy | ⟨ht, rfl⟩
    · exact hs.float y hy
    · exact hfl.nonnegFloat_fadd (hs.float _ (List.getElem_mem ht)) hr
  dominate x hx := by
    rcases List.mem_cons.mp hx with rfl | hx
    · refine ⟨t, by rwa [List.length_modify], ?_⟩
      rw [List.getElem_modify_eq]
      exact hfl.le_fadd_right (hs.float _ (List.getElem_mem ht)) hr
    · obtain ⟨j, hj, hxj⟩ := hs.dominate x hx
      refine ⟨j, by rwa [List.length_modify], hxj.trans ?_⟩
      rw [List.getElem_modify]
      split_ifs with htj
      · subst htj
        exact hfl.le_fadd_left (hs.float _ (List.getElem_mem hj)) hr
      · exact le_rfl

/-- The `+=` calls of `cal_degree` keep `Slots`; induction on the nodes left. -/
theorem slots_run (hfl : Binary32Rounding fl) {nthreads : ℕ} {tid : ℕ → ℕ}
    (htid : ∀ v, tid v < nthreads) (order : List ℕ) :
    ∀ (r : Reducible ℚ) (added : List ℚ), r.data.length = nthreads → Slots fl r.data added →
      let r' := (order.map fun src => ReduceOp.update (tid src) (fl (degree g src))).foldl
        (Reducible.step (fadd fl) 0) r
      r'.data.length = nthreads ∧
        Slots fl r'.data ((order.map fun src => fl (degree g src)).reverse ++ added) := by
  induction order with
  | nil => exact fun r added hlen hs => ⟨hlen, hs⟩
  | cons v order ih =>
    intro r added hlen hs
    have hstep := hs.update hfl (hlen ▸ htid v) (hfl.nonnegFloat_fl (Nat.cast_nonneg (degree g v)))
    obtain ⟨hlen', hs'⟩ := ih (r.update (fadd fl) (tid v) (fl (degree g v))) _
      (by rw [Reducible.update, List.length_modify, hlen]) hstep
    refine ⟨hlen', ?_⟩
    simp only [List.map_cons, List.reverse_cons, List.append_assoc, List.singleton_append]
    exact hs'

/-- **`nedges` is at least the degree of every node**, as a `float`, whichever threads make the
`+=` calls and in whichever order. -/
theorem le_calDegree (hfl : Binary32Rounding fl) {nthreads : ℕ} {tid : ℕ → ℕ}
    (hn : 0 < nthreads) (htid : ∀ v, tid v < nthreads) {order : List ℕ} {v : ℕ}
    (hv : v ∈ order) : fl (degree g v) ≤ calDegree fl g nthreads tid order := by
  have hinit : Slots fl (Reducible.init (0 : ℚ) nthreads).data [] :=
    ⟨fun y hy => by
      rw [List.eq_of_mem_replicate hy]
      exact ⟨le_rfl, hfl.zero⟩, fun _ hx => absurd hx List.not_mem_nil⟩
  obtain ⟨hlen, hs⟩ := slots_run (g := g) hfl htid order (Reducible.init 0 nthreads) []
    List.length_replicate hinit
  -- the slots are non-empty: one per thread
  obtain ⟨x, xs, hxs⟩ := List.exists_cons_of_length_pos (hlen ▸ hn)
  obtain ⟨j, hj, hle⟩ := hs.dominate (fl (degree g v)) (by simpa using ⟨v, hv, rfl⟩)
  rw [calDegree, Reducible.reduce_zero_fst (fadd fl) 0 hxs]
  refine hle.trans (hfl.le_foldl_fadd xs x (hxs ▸ hs.float) _ ?_)
  rw [← hxs]
  exact List.getElem_mem hj

/-! ## 3. The priorities -/

theorem one_le_degree {u v : ℕ} (h : Adj g u v) : 1 ≤ degree g u := by
  obtain ⟨e, he, -⟩ := h
  exact List.length_pos_of_mem he

/-- `(in / 2) - 1` is `126`. -/
theorem in_div_two_sub_one : ((~~~(1 : UInt8)).toNat / 2 - 1 : ℕ) = 126 := by
  decide

section Res

variable (hfl : Binary32Rounding fl) {nedges : ℚ} (hnedges : 1 ≤ nedges)
  (hsize : size g ≤ 2 ^ 32)
include hfl hnedges hsize

/-- With an edge in the graph, `avg_degree = nedges / size` is a float of at least `2 ^ -33`. -/
theorem avg_degree_ge (hpos : 0 < size g) :
    1 / 2 ^ 33 ≤ fl (nedges / fl (size g)) := by
  have hS₁ : 1 ≤ fl (size g) := hfl.le_of_ge (by exact_mod_cast hpos) hfl.one
  have hS₂ : fl (size g) ≤ 2 ^ 32 :=
    hfl.le_of_le (by exact_mod_cast hsize) (hfl.two_pow (by norm_num))
  have hq : 1 / 2 ^ 32 ≤ nedges / fl (size g) := by
    rw [div_le_div_iff₀ (by positivity) (by linarith)]
    nlinarith
  have hlow := hfl.mul_le (le_trans (by norm_num) hq)
  nlinarith

/-- **A node with an edge gets `0 ≤ res ≤ 126`**: its `x` is at least `0`, so `avg_degree + x`
is at least `avg_degree`, and the quotient is at most `126` up to the roundings of
`126 * avg_degree` and of the quotient itself. -/
theorem prioRes_le {src : ℕ} (hdeg : 1 ≤ degree g src) (hpos : 0 < size g) :
    0 ≤ prioRes fl g nedges src ∧ prioRes fl g nedges src ≤ 126 := by
  set avg := fl (nedges / fl (size g)) with havg_def
  have havg : 1 / 2 ^ 33 ≤ avg := avg_degree_ge hfl hnedges hsize hpos
  have havg_fix : fl avg = avg := hfl.idem _
  -- `x = degree - hash(src) * 2^-32` is at least `0`
  set x := fl (fl (degree g src) -
    fl (fl ((hash (UInt32.ofNat src)).toNat : ℚ) * (1 / 2 ^ 32))) with hx_def
  have hdeg' : 1 ≤ fl (degree g src) := hfl.le_of_ge (by exact_mod_cast hdeg) hfl.one
  have hhash : fl ((hash (UInt32.ofNat src)).toNat : ℚ) ≤ 2 ^ 32 :=
    hfl.le_of_le (by exact_mod_cast (UInt32.toNat_lt _).le) (hfl.two_pow (by norm_num))
  have hprod : fl (fl ((hash (UInt32.ofNat src)).toNat : ℚ) * (1 / 2 ^ 32)) ≤ 1 :=
    hfl.le_of_le (by nlinarith) hfl.one
  have hx : 0 ≤ x := hfl.nonneg (by linarith)
  -- the denominator is at least `avg_degree`, the numerator at most `126 * avg_degree (1 + u)`
  have hden : avg ≤ fl (avg + x) := hfl.le_of_ge (by linarith) havg_fix
  have h126 : fl ((126 : ℕ) : ℚ) = 126 := by
    rw [hfl.natCast (by norm_num)]
    norm_num
  set c := fl (126 * avg) with hc_def
  have hc₀ : 0 ≤ c := hfl.nonneg (by positivity)
  have hc : c ≤ 126 * avg * (1 + 1 / 2 ^ 24) :=
    hfl.le_mul (le_trans (by norm_num) (by linarith : 126 * (1 / 2 ^ 33) ≤ 126 * avg))
  have hdiv : c / fl (avg + x) ≤ 126 * (1 + 1 / 2 ^ 24) := by
    calc c / fl (avg + x) ≤ c / avg := div_le_div_of_nonneg_left hc₀ (by positivity) hden
      _ ≤ 126 * (1 + 1 / 2 ^ 24) := by
        rw [div_le_iff₀ (by positivity)]
        linarith
  have hq : fl (c / fl (avg + x)) ≤ 126 * (1 + 1 / 2 ^ 24) * (1 + 1 / 2 ^ 24) :=
    (hfl.mono hdiv).trans (hfl.le_mul (by norm_num))
  have hq₀ : 0 ≤ fl (c / fl (avg + x)) := hfl.nonneg (div_nonneg hc₀ (by linarith))
  have hres : prioRes fl g nedges src = cRound (fl (c / fl (avg + x))) := by
    rw [prioRes, in_div_two_sub_one, h126]
  rw [hres]
  exact ⟨cRound_nonneg hq₀, cRound_le hq₀ (by push_cast; linarith)⟩

end Res

set_option maxRecDepth 8000 in
theorem or_one_bit0 (v : UInt8) : (v ||| 1) &&& 1 ≠ 0 := by
  revert v
  decide

/-- Every byte `init-prio` writes in `prio` is odd. -/
theorem PrioAlgo.initPrio_odd (nedges : ℚ) (src : ℕ) :
    PrioAlgo.initPrio fl g nedges src &&& 1 ≠ 0 :=
  or_one_bit0 _

/-- Every byte `init-prio` writes in `edge-tiled prio` has bits 0 and 1 set. -/
theorem EdgeTiledPrioAlgo.initPrio_bits (nedges : ℚ) (src : ℕ) :
    EdgeTiledPrioAlgo.initPrio fl g nedges src &&& 3 = 3 :=
  EdgeTiledPrioAlgo.or_three_bits _

/-- `(res + res) | 1` for `0 ≤ res ≤ 126` is at most `0xfd`. -/
theorem byte_le_fd {res : ℤ} (h₀ : 0 ≤ res) (h₁ : res ≤ 126) :
    (UInt8.ofNat ((res + res) % 256).toNat ||| 1).toNat ≤ 0xfd := by
  obtain ⟨n, rfl⟩ := Int.eq_ofNat_of_zero_le h₀
  have hn : n < 127 := by omega
  have hmod : ((n + n : ℤ) % 256).toNat = n + n := by omega
  rw [hmod]
  have hall : ∀ n < 127, (UInt8.ofNat (n + n) ||| 1).toNat ≤ 0xfd := by decide
  exact hall n hn

/-- **`prio` gives a node with an edge a byte of at most `0xfd`**, once `nedges` is at least
`1`. -/
theorem PrioAlgo.initPrio_le_fd (hfl : Binary32Rounding fl) {nedges : ℚ} (hnedges : 1 ≤ nedges)
    (hsize : size g ≤ 2 ^ 32) {u v : ℕ} (huv : Adj g u v) :
    (PrioAlgo.initPrio fl g nedges u).toNat ≤ 0xfd := by
  obtain ⟨h₀, h₁⟩ := prioRes_le hfl hnedges hsize (one_le_degree huv)
    (Nat.lt_of_le_of_lt (Nat.zero_le _) huv.lt_size)
  exact byte_le_fd h₀ h₁

/-- From the bytes `init-prio` writes after `cal_degree`, no edge joins two `0xff` bytes. -/
theorem PrioAlgo.initPrio_no_ff (hfl : Binary32Rounding fl) (hsize : size g ≤ 2 ^ 32)
    {nthreads : ℕ} {tid : ℕ → ℕ} (hn : 0 < nthreads) (htid : ∀ v, tid v < nthreads)
    {order : List ℕ} (horder : order.Perm (List.range (size g))) :
    ∀ u v, Adj g u v →
      PrioAlgo.initPrio fl g (calDegree fl g nthreads tid order) u ≠ 0xff := by
  intro u v huv hff
  -- the edge's source is in the order, so `nedges` is at least its degree, at least `1`
  have hu : u ∈ order := horder.symm.subset (List.mem_range.mpr huv.lt_size)
  have hnedges : 1 ≤ calDegree fl g nthreads tid order :=
    (hfl.le_of_ge (by exact_mod_cast one_le_degree huv) hfl.one).trans
      (le_calDegree hfl hn htid hu)
  have hle := PrioAlgo.initPrio_le_fd hfl hnedges hsize huv
  rw [hff] at hle
  exact absurd hle (by decide)

/-! ## 4. The six algorithms -/

/-- **What the six algorithms return**, on every symmetric graph without self-loops (of at most
`2 ^ 32` nodes, the `uint32_t` node ids) and for every rounding of `float`:

* `serial` decides every node, and its `MATCHED` nodes are the lexicographically-first maximal
  independent set;
* `pull`, whenever its loop returns, returns the flags of `serial`;
* `nondet` and `detBase`, in every order the executor serialises the nodes in, decide every node,
  and their `MATCHED` nodes form a maximal independent set;
* `prio` and `edge-tiled prio`, from the bytes `init-prio` writes after `cal_degree` ran on any
  threads in any order, and under every interleaving of their rounds, when the loop ends leave
  every node at `0xfe` or `0x00`, and the `0xfe` nodes form a maximal independent set. -/
theorem independentSet_algorithms (hg : SymmetricGraph g) (hsize : size g ≤ 2 ^ 32)
    (hfl : Binary32Rounding fl) :
    ((∀ v < size g, SerialAlgo.run g v ≠ .UNMATCHED) ∧
        IsLexFirst (Adj g) (size g) (fun v => SerialAlgo.run g v = .MATCHED) ∧
        IsMIS (Adj g) (· < size g) (fun v => SerialAlgo.run g v = .MATCHED)) ∧
      (∀ fuel m, PullAlgo.run g fuel = some m → ∀ v < size g, m v = SerialAlgo.run g v) ∧
      (∀ order : List ℕ, order.Perm (List.range (size g)) →
        (∀ v < size g, DefaultAlgo.run g order v ≠ .UNMATCHED) ∧
          IsMIS (Adj g) (· < size g) (fun v => DefaultAlgo.run g order v = .MATCHED)) ∧
      (∀ (nthreads : ℕ) (tid : ℕ → ℕ) (order : List ℕ), 0 < nthreads →
        (∀ v, tid v < nthreads) → order.Perm (List.range (size g)) →
        (∀ m, PrioAlgo.Runs g (PrioAlgo.initPrio fl g (calDegree fl g nthreads tid order)) m →
          (∀ v < size g, m v = 0xfe ∨ m v = 0x00) ∧
            IsMIS (Adj g) (· < size g) (fun v => m v = 0xfe)) ∧
        (∀ m, EdgeTiledPrioAlgo.Runs g
            (EdgeTiledPrioAlgo.initPrio fl g (calDegree fl g nthreads tid order)) (fun _ => false) m →
          (∀ v < size g, m v = 0xfe ∨ m v = 0x00) ∧
            IsMIS (Adj g) (· < size g) (fun v => m v = 0xfe))) := by
  have hdec := SerialAlgo.run_decided hg
  have hlex := (SerialAlgo.lexInv_run hg (size g)).1.isLexFirst hdec
  refine ⟨⟨hdec, hlex, hlex.isMIS (fun _ _ h => h.symm hg) (fun _ h => h.ne hg rfl)⟩,
    fun _ _ hrun => PullAlgo.loop_eq_serial hg (size g / 25) hrun, fun order horder => ?_,
    fun nthreads tid order hn htid horder => ⟨fun m hr => ?_, fun m hr => ?_⟩⟩
  · -- `nondet` and `detBase`: the serialised `for_each` keeps `GreedyInv`
    have h := DefaultAlgo.greedyInv_run hg order
    have hdone : ∀ v < size g, v ∈ order := fun v hv => horder.symm.subset (List.mem_range.mpr hv)
    exact ⟨fun v hv => h.decided v (hdone v hv), h.isMIS hg hdone⟩
  · -- `prio`: odd bytes, and no edge between two `0xff` bytes
    have hno := PrioAlgo.initPrio_no_ff hfl hsize hn htid horder
    obtain ⟨h, hdec⟩ := (PrioAlgo.inv_init (fun v _ => PrioAlgo.initPrio_odd _ v)
      (fun u v huv hu => absurd hu (hno u v huv))).runs hg hr
    exact ⟨hdec, PrioAlgo.isMIS_of_covered hg h.independent h.covered hdec⟩
  · -- `edge-tiled prio`: bits 0 and 1 set
    obtain ⟨h, hdec⟩ := (EdgeTiledPrioAlgo.inv_init
      (fun v _ => EdgeTiledPrioAlgo.initPrio_bits _ v)).runs hg hr
    exact ⟨hdec, PrioAlgo.isMIS_of_covered hg h.independent h.covered hdec⟩

/-- On the path `0 - 1 - 2` in exact arithmetic, with `cal_degree` on one thread, `init-prio`
writes `0x91`, `0x6b` and `0xaf`. The serial schedule of `prio` puts both ends in the set in its
first round, the middle out in its second, and ends after its third. -/
theorem independentSet_algorithms_path3 :
    ∃ m, PrioAlgo.Runs path3
        (PrioAlgo.initPrio id path3 (calDegree id path3 1 (fun _ => 0) [0, 1, 2])) m ∧
      (∀ v < size path3, m v = 0xfe ∨ m v = 0x00) ∧
        IsMIS (Adj path3) (· < size path3) (fun v => m v = 0xfe) := by
  let m₀ := PrioAlgo.initPrio id path3 (calDegree id path3 1 (fun _ => 0) [0, 1, 2])
  have r₁ := PrioAlgo.execute_serial (g := path3) m₀
  have h₁ : (PrioAlgo.serialRound path3 m₀).2 = true := by decide +kernel
  rw [h₁] at r₁
  have r₂ := PrioAlgo.execute_serial (g := path3) (PrioAlgo.serialRound path3 m₀).1
  have h₂ : (PrioAlgo.serialRound path3 (PrioAlgo.serialRound path3 m₀).1).2 = true := by
    decide +kernel
  rw [h₂] at r₂
  have r₃ := PrioAlgo.execute_serial (g := path3)
    (PrioAlgo.serialRound path3 (PrioAlgo.serialRound path3 m₀).1).1
  have h₃ : (PrioAlgo.serialRound path3
    (PrioAlgo.serialRound path3 (PrioAlgo.serialRound path3 m₀).1).1).2 = false := by
    decide +kernel
  rw [h₃] at r₃
  have hr := PrioAlgo.Runs.next r₁ (PrioAlgo.Runs.next r₂ (PrioAlgo.Runs.last r₃))
  exact ⟨_, hr, ((independentSet_algorithms (by decide) (by decide) binary32Rounding_id).2.2.2
    1 (fun _ => 0) [0, 1, 2] (by decide) (fun _ => Nat.one_pos) (by decide)).1 _ hr⟩

end Galois.Lonestar.IndependentSet
