import Mathlib.Data.List.GetD
import Galois.ParentForest

/-!
# `UnionFindNode` (UnionFind.h)

Every node holds `m_component`, a pointer to a node of its tree; a node that points to itself is
its tree's representative. The nodes live in one array, so a pointer is a node id and pointer
order (`a < b` in `merge`) is the order of ids. `m` is the array of `m_component`s.

* `findAndCompress` -- the walk to the representative that, at each step, points the node two
  behind at the node ahead (incremental compression);
* `compress` -- points one node at its representative;
* `merge` -- the lock-free union: the representatives of both sides, and a compare-and-swap that
  points the larger one at the smaller.

A walk that never reaches a representative (a cycle of pointers) never ends: the loops carry
fuel, and running out of it is `none`.
-/

namespace Galois.UnionFind

/-- `m_component` of node `x`. -/
def parent (m : List ℕ) (x : ℕ) : ℕ := m.getD x x

/-- `isRep()`: the node points to itself. -/
def isRep (m : List ℕ) (x : ℕ) : Bool := parent m x == x

/-- The `while (rep->m_component != rep)` loop of `findAndCompress`, for at most `fuel` passes,
with `prev` the node visited before `rep`. -/
def findAndCompressLoop : ℕ → List ℕ → Option ℕ → ℕ → Option (List ℕ × ℕ)
  | 0, _, _, _ => none
  | fuel + 1, m, prev, rep =>
    if parent m rep ≠ rep then
      let next := parent m rep
      let m := match prev with
        | some p => if parent m p = rep then m.set p next else m
        | none => m
      findAndCompressLoop fuel m (some rep) next
    else some (m, rep)

/-- `findAndCompress()` of node `x`: its representative, and the array with the pointers the
walk moved. -/
def findAndCompress (m : List ℕ) (x : ℕ) : Option (List ℕ × ℕ) :=
  if isRep m x then some (m, parent m x)
  else findAndCompressLoop m.length m none (parent m x)

/-- The loop of `compress` that walks to the representative. -/
def rootLoop (m : List ℕ) : ℕ → ℕ → Option ℕ
  | 0, _ => none
  | fuel + 1, rep => if parent m rep ≠ rep then rootLoop m fuel (parent m rep) else some rep

/-- `compress()` of node `x`: `x` points at its representative, the nodes on the path keep their
pointers. -/
def compress (m : List ℕ) (x : ℕ) : Option (List ℕ) :=
  if isRep m x then some m
  else (rootLoop m m.length (parent m x)).map fun rep => m.set x rep

/-- The `while (true)` loop of `merge`, for at most `fuel` passes: the representatives of `a` and
`b`, and a compare-and-swap of the larger one's pointer, expected to be itself, to the smaller.
The result is the new representative, or `none` for "already merged" (the null pointer). -/
def mergeLoop : ℕ → List ℕ → ℕ → ℕ → Option (List ℕ × Option ℕ)
  | 0, _, _, _ => none
  | fuel + 1, m, a, b => do
    let (m, a) ← findAndCompress m a
    let (m, b) ← findAndCompress m b
    if a = b then some (m, none)
    else
      -- "avoid cycles by directing edges consistently"
      let (a, b) := if a < b then (b, a) else (a, b)
      -- a failed compare-and-swap loads `a`'s pointer into `a`
      if parent m a = a then some (m.set a b, some b)
      else mergeLoop fuel m (parent m a) b

/-- `merge(b)` called on node `x`: it starts from `x`'s pointer. -/
def merge (m : List ℕ) (x b : ℕ) : Option (List ℕ × Option ℕ) :=
  mergeLoop (m.length + 1) m (parent m x) b

/-- `find()` of node `x` (`findImpl`): the walk of `compress`, without the write. -/
def find (m : List ℕ) (x : ℕ) : Option ℕ :=
  if isRep m x then some (parent m x) else rootLoop m m.length (parent m x)

/-! ## Runs of calls -/

/-- The calls a client makes on the nodes: `merge(b)` on node `a`, and `find()`,
`findAndCompress()` and `compress()` on node `x`. -/
inductive Call where
  | merge (a b : ℕ)
  | find (x : ℕ)
  | findAndCompress (x : ℕ)
  | compress (x : ℕ)
  deriving DecidableEq

/-- The nodes a call names. -/
def Call.nodes : Call → List ℕ
  | .merge a b => [a, b]
  | .find x | .findAndCompress x | .compress x => [x]

/-- One call: the array after it, `none` when a walk runs out of fuel. -/
def step (m : List ℕ) : Call → Option (List ℕ)
  | .merge a b => (merge m a b).map Prod.fst
  | .find x => (find m x).map fun _ => m
  | .findAndCompress x => (findAndCompress m x).map Prod.fst
  | .compress x => compress m x

/-- `n` nodes constructed as singletons (`m_component` is the node itself), then the calls in
turn. -/
def run (n : ℕ) (calls : List Call) : Option (List ℕ) :=
  calls.foldlM step (List.range n)

/-- The pairs the calls merge: `merge(b)` on node `a` relates `a` and `b`. -/
def Merged (calls : List Call) (a b : ℕ) : Prop := Call.merge a b ∈ calls

/-! ## The forest of pointers -/

open ParentForest

section Forest

variable {m : List ℕ}

theorem isRep_iff {x : ℕ} : isRep m x = true ↔ parent m x = x := beq_iff_eq

/-- A node past the array is its own parent, so a node with another parent is in it. -/
theorem lt_length_of_parent_ne {x : ℕ} (h : parent m x ≠ x) : x < m.length := by
  by_contra hx
  exact h (List.getD_eq_default _ _ (Nat.le_of_not_lt hx))

theorem parent_set {x : ℕ} (hx : x < m.length) (v : ℕ) :
    parent (m.set x v) = Function.update (parent m) x v := by
  funext z
  simp only [parent, List.getD_eq_getElem?_getD, List.getElem?_set]
  by_cases hz : z = x
  · subst hz
    rw [Function.update_self, if_pos rfl, if_pos hx]
    rfl
  · rw [Function.update_of_ne hz, if_neg (Ne.symm hz)]
    rfl

theorem parent_range (n x : ℕ) : parent (List.range n) x = x := by
  by_cases hx : x < n
  · rw [parent, List.getD_eq_getElem?_getD, List.getElem?_range hx]
    rfl
  · exact List.getD_eq_default _ _ (by rw [List.length_range]; exact Nat.le_of_not_lt hx)

/-- `m'` is `m` with pointers moved within their trees: the same nodes, pointers still going
down, and every node keeps its root. -/
structure SameRoots (m m' : List ℕ) : Prop where
  length_eq : m'.length = m.length
  descending : Descending (parent m')
  root_eq : root (parent m') = root (parent m)

theorem SameRoots.refl (hf : Descending (parent m)) : SameRoots m m := ⟨rfl, hf, rfl⟩

theorem SameRoots.trans {m₁ m₂ : List ℕ} (h₁ : SameRoots m m₁) (h₂ : SameRoots m₁ m₂) :
    SameRoots m m₂ :=
  ⟨h₂.length_eq.trans h₁.length_eq, h₂.descending, h₂.root_eq.trans h₁.root_eq⟩

variable (hf : Descending (parent m))
include hf

/-- Pointing `x` at a smaller node `y` of its tree. -/
theorem sameRoots_set {x y : ℕ} (hy : y < x) (hr : root (parent m) y = root (parent m) x) :
    SameRoots m (m.set x y) := by
  by_cases hx : x < m.length
  · obtain ⟨hg, hroot⟩ := root_update_of_lt hf hy hr
    rw [← parent_set hx] at hg hroot
    exact ⟨List.length_set .., hg, hroot⟩
  · rw [List.set_eq_of_length_le (Nat.le_of_not_lt hx)]
    exact SameRoots.refl hf

/-- The walk of `compress` and `find`, with fuel above its start, ends at the root. -/
theorem rootLoop_eq : ∀ fuel x, x < fuel → rootLoop m fuel x = some (root (parent m) x)
  | 0, _, h => absurd h (Nat.not_lt_zero _)
  | fuel + 1, x, h => by
    rw [rootLoop]
    split_ifs with hx
    · have hlt : parent m x < x := Nat.lt_of_le_of_ne (hf x) hx
      rw [rootLoop_eq fuel _ (by omega), root_apply hf]
    · rw [root_of_fixed (Classical.not_not.mp hx)]

/-- **`find` returns the root.** -/
theorem find_eq (x : ℕ) : find m x = some (root (parent m) x) := by
  unfold find
  split_ifs with hx
  · have hfix := isRep_iff.mp hx
    rw [hfix, root_of_fixed hfix]
  · have hne : parent m x ≠ x := fun h => hx (isRep_iff.mpr h)
    rw [rootLoop_eq hf _ _ (Nat.lt_of_le_of_lt (hf x) (lt_length_of_parent_ne hne)),
      root_apply hf]

end Forest

/-! ## The walks and the merge -/

section Calls

/-- **The incremental compression walk** ends at the root, and each pointer it moves (the node
before the current one, to the node after it) stays within its tree. By induction on the fuel,
which stays above the current node since each step goes down. -/
theorem findAndCompressLoop_spec : ∀ fuel (m : List ℕ) prev rep, Descending (parent m) →
    rep < fuel →
    ∃ m', findAndCompressLoop fuel m prev rep = some (m', root (parent m) rep) ∧ SameRoots m m'
  | 0, _, _, _, _, h => absurd h (Nat.not_lt_zero _)
  | fuel + 1, m, prev, rep, hf, hfuel => by
    rw [findAndCompressLoop]
    split_ifs with hrep
    · have hnext : parent m rep < rep := Nat.lt_of_le_of_ne (hf rep) hrep
      -- `prev->m_component = next` when `prev` still points at `rep`
      have hsame : SameRoots m (match prev with
          | some p => if parent m p = rep then m.set p (parent m rep) else m
          | none => m) := by
        cases prev with
        | none => exact SameRoots.refl hf
        | some p =>
          dsimp only
          split_ifs with hp
          · have hrp : rep < p := Nat.lt_of_le_of_ne (hp ▸ hf p) fun h => hrep (by subst h; exact hp)
            refine sameRoots_set hf (Nat.lt_trans hnext hrp) ?_
            rw [root_apply hf, ← hp, root_apply hf]
          · exact SameRoots.refl hf
      obtain ⟨m', hloop, hsame'⟩ :=
        findAndCompressLoop_spec fuel _ (some rep) (parent m rep) hsame.descending (by omega)
      rw [hloop, hsame.root_eq, root_apply hf]
      exact ⟨m', rfl, hsame.trans hsame'⟩
    · exact ⟨m, by rw [root_of_fixed (Classical.not_not.mp hrep)], SameRoots.refl hf⟩

/-- The roots `merge` compares, in the order it links them: the larger one first. -/
theorem exists_link_order {ra rb : ℕ} (hne : ra ≠ rb) :
    ∃ u v, (if ra < rb then (rb, ra) else (ra, rb)) = (u, v) ∧ v < u ∧
      ((u = ra ∧ v = rb) ∨ (u = rb ∧ v = ra)) := by
  split_ifs with hlt
  · exact ⟨rb, ra, rfl, hlt, .inr ⟨rfl, rfl⟩⟩
  · exact ⟨ra, rb, rfl, by omega, .inl ⟨rfl, rfl⟩⟩

variable {m : List ℕ} (hf : Descending (parent m))
include hf

/-- **`findAndCompress` returns the root** and moves pointers only within their trees. -/
theorem findAndCompress_spec (x : ℕ) :
    ∃ m', findAndCompress m x = some (m', root (parent m) x) ∧ SameRoots m m' := by
  unfold findAndCompress
  split_ifs with hx
  · have hfix := isRep_iff.mp hx
    exact ⟨m, by rw [hfix, root_of_fixed hfix], SameRoots.refl hf⟩
  · have hne : parent m x ≠ x := fun h => hx (isRep_iff.mpr h)
    obtain ⟨m', hloop, hsame⟩ := findAndCompressLoop_spec m.length m none (parent m x) hf
      (Nat.lt_of_le_of_lt (hf x) (lt_length_of_parent_ne hne))
    exact ⟨m', by rw [hloop, root_apply hf], hsame⟩

/-- **`compress` points the node at its root** and changes no root. -/
theorem compress_spec (x : ℕ) : ∃ m', compress m x = some m' ∧ SameRoots m m' := by
  unfold compress
  split_ifs with hx
  · exact ⟨m, rfl, SameRoots.refl hf⟩
  · have hne : parent m x ≠ x := fun h => hx (isRep_iff.mpr h)
    rw [rootLoop_eq hf _ _ (Nat.lt_of_le_of_lt (hf x) (lt_length_of_parent_ne hne)),
      root_apply hf]
    -- a node that is not a root lies above its root
    have hlt : root (parent m) x < x :=
      Nat.lt_of_le_of_ne (root_le hf x) fun h => hne (fixed_of_root_eq hf h)
    exact ⟨_, rfl, sameRoots_set hf hlt (root_of_fixed (root_fixed hf x))⟩

/-- The compare-and-swap of `merge` on the root `u`: pointed at the smaller root `v`, `u`'s
tree joins `v`'s. -/
theorem link_spec {u v : ℕ} (hu : parent m u = u) (hv : parent m v = v) (hvu : v < u)
    (hlen : u < m.length) :
    Descending (parent (m.set u v)) ∧
      ∀ z, root (parent (m.set u v)) z = relabel u v (root (parent m) z) := by
  rw [parent_set hlen]
  exact root_update_link hf hu hv hvu

/-- **`merge(b)` on node `x`**: the compare-and-swap succeeds at the first pass; the result is
non-null exactly when the two roots differ, and the roots are relabelled so that one tree joins
the other. -/
theorem merge_spec {x b : ℕ} (hx : x < m.length) (hb : b < m.length) :
    ∃ m' r, merge m x b = some (m', r) ∧
      (r.isSome ↔ root (parent m) x ≠ root (parent m) b) ∧
      m'.length = m.length ∧ Descending (parent m') ∧
      ∃ u v, ((u = root (parent m) x ∧ v = root (parent m) b) ∨
          (u = root (parent m) b ∧ v = root (parent m) x)) ∧
        ∀ z, root (parent m') z = relabel u v (root (parent m) z) := by
  obtain ⟨m₁, h₁, hs₁⟩ := findAndCompress_spec hf (parent m x)
  obtain ⟨m₂, h₂, hs₂⟩ := findAndCompress_spec hs₁.descending b
  rw [root_apply hf] at h₁
  rw [hs₁.root_eq] at h₂
  have hs := hs₁.trans hs₂
  unfold merge
  rw [mergeLoop]
  simp only [h₁, h₂, Option.bind_eq_bind, Option.bind_some]
  by_cases hxb : root (parent m) x = root (parent m) b
  · rw [if_pos hxb]
    refine ⟨m₂, none, rfl, by simp [hxb], hs.length_eq, hs.descending, _, _, .inl ⟨rfl, rfl⟩,
      fun z => ?_⟩
    rw [hs.root_eq, ← hxb, relabel_self]
  · rw [if_neg hxb]
    obtain ⟨u, v, hpair, hvu, huv⟩ := exists_link_order hxb
    -- both roots are roots still, after the two walks
    have hroot : ∀ w, w = root (parent m) x ∨ w = root (parent m) b → parent m₂ w = w := by
      rintro w (rfl | rfl) <;>
        exact fixed_of_root_eq hs.descending (by rw [hs.root_eq, root_of_fixed (root_fixed hf _)])
    have hu : parent m₂ u = u := hroot u (huv.elim (fun h => .inl h.1) fun h => .inr h.1)
    have hv : parent m₂ v = v := hroot v (huv.elim (fun h => .inr h.2) fun h => .inl h.2)
    have hlen : u < m₂.length := by
      rw [hs.length_eq]
      rcases huv with ⟨rfl, -⟩ | ⟨rfl, -⟩
      · exact Nat.lt_of_le_of_lt (root_le hf x) hx
      · exact Nat.lt_of_le_of_lt (root_le hf b) hb
    obtain ⟨hdesc, hlink⟩ := link_spec hs.descending hu hv hvu hlen
    rw [hpair]
    dsimp only
    rw [if_pos hu]
    refine ⟨m₂.set u v, some v, rfl, by simp [hxb], (List.length_set ..).trans hs.length_eq,
      hdesc, u, v, huv, fun z => ?_⟩
    rw [hlink, hs.root_eq]

end Calls

/-! ## Runs -/

/-- A call's merges are the earlier ones, and its own pair for a `merge`. -/
theorem merged_append (prior : List Call) (c : Call) :
    Merged (prior ++ [c]) = fun x y => Merged prior x y ∨ Call.merge x y = c := by
  funext x y
  simp [Merged]

/-- The run invariant: after the calls `prior`, the array of `n` nodes is a forest whose
pointers go down, and two nodes have one root exactly when the merges of `prior` relate them. -/
structure Inv (n : ℕ) (prior : List Call) (m : List ℕ) : Prop where
  length_eq : m.length = n
  descending : Descending (parent m)
  classes : ∀ x y, root (parent m) x = root (parent m) y ↔ Relation.EqvGen (Merged prior) x y

theorem inv_init (n : ℕ) : Inv n [] (List.range n) := by
  have hid : parent (List.range n) = id := funext (parent_range n)
  have hnone : Merged [] = fun _ _ => False := by
    funext x y
    simp [Merged]
  refine ⟨List.length_range, fun x => by rw [hid]; exact Nat.le_refl x, fun x y => ?_⟩
  rw [hid, root_of_fixed rfl, root_of_fixed rfl, hnone]
  exact eqvGen_bot_iff.symm

/-- Calls other than `merge` add no pair. -/
theorem merged_append_of_ne {prior : List Call} {c : Call} (hc : ∀ a b, Call.merge a b ≠ c) :
    Merged (prior ++ [c]) = Merged prior := by
  rw [merged_append]
  funext x y
  simp [hc x y]

/-- Pointers moved within their trees keep the invariant, for the same merges. -/
theorem Inv.of_sameRoots {n : ℕ} {prior prior' : List Call} {m m' : List ℕ} (h : Inv n prior m)
    (hs : SameRoots m m') (hp : Merged prior' = Merged prior) : Inv n prior' m' :=
  ⟨hs.length_eq.trans h.length_eq, hs.descending, by rw [hs.root_eq, hp]; exact h.classes⟩

/-- **One call keeps the invariant**: a call on nodes of the array succeeds, a `merge` joins the
classes of its nodes, and the others change no root. -/
theorem Inv.step {n : ℕ} {prior : List Call} {m : List ℕ} (h : Inv n prior m) {c : Call}
    (hc : ∀ x ∈ c.nodes, x < n) : ∃ m', step m c = some m' ∧ Inv n (prior ++ [c]) m' := by
  have hlen : ∀ x ∈ c.nodes, x < m.length := fun x hx => h.length_eq ▸ hc x hx
  cases c with
  | merge a b =>
    obtain ⟨m', r, hm, -, hlen', hdesc, u, v, huv, hroot⟩ := merge_spec h.descending
      (hlen a (by simp [Call.nodes])) (hlen b (by simp [Call.nodes]))
    refine ⟨m', by rw [UnionFind.step, hm]; rfl, ⟨hlen'.trans h.length_eq, hdesc, fun x y => ?_⟩⟩
    rw [merged_append, hroot, hroot]
    simpa using relabel_eq_iff h.classes huv x y
  | find x =>
    exact ⟨m, by rw [UnionFind.step, find_eq h.descending]; rfl,
      h.of_sameRoots (SameRoots.refl h.descending) (merged_append_of_ne (by simp))⟩
  | findAndCompress x =>
    obtain ⟨m', hm, hs⟩ := findAndCompress_spec h.descending x
    exact ⟨m', by rw [UnionFind.step, hm]; rfl,
      h.of_sameRoots hs (merged_append_of_ne (by simp))⟩
  | compress x =>
    obtain ⟨m', hm, hs⟩ := compress_spec h.descending x
    exact ⟨m', hm, h.of_sameRoots hs (merged_append_of_ne (by simp))⟩

/-- The run lemma: by induction on the calls, from `Inv.step`. -/
theorem Inv.run {n : ℕ} : ∀ (calls prior : List Call) (m : List ℕ), Inv n prior m →
    (∀ c ∈ calls, ∀ x ∈ c.nodes, x < n) →
    ∃ m', calls.foldlM UnionFind.step m = some m' ∧ Inv n (prior ++ calls) m'
  | [], prior, m, h, _ => ⟨m, rfl, by rw [List.append_nil]; exact h⟩
  | c :: calls, prior, m, h, hcalls => by
    obtain ⟨m₁, h₁, hinv₁⟩ := h.step (hcalls c List.mem_cons_self)
    obtain ⟨m', h', hinv'⟩ :=
      Inv.run calls _ m₁ hinv₁ fun c hc => hcalls c (List.mem_cons_of_mem _ hc)
    refine ⟨m', by rw [List.foldlM_cons, h₁]; exact h', ?_⟩
    rw [List.append_cons]
    exact hinv'

/-- **The union-find after any run of calls on `n` singletons**: (1) every node that is not a
representative points at a smaller node, so the pointers form a forest, and `find` ends at a
representative; (2) two nodes have one `find` exactly when the merges made relate them; (3) a
`merge(b)` on node `a` returns non-null exactly when `a` and `b` are in different sets. -/
theorem run_unionFind (n : ℕ) (calls : List Call) (hcalls : ∀ c ∈ calls, ∀ x ∈ c.nodes, x < n) :
    ∃ m, run n calls = some m ∧
      (∀ x, x < n → parent m x ≠ x → parent m x < x) ∧
      (∀ x, x < n → ∃ r, find m x = some r ∧ parent m r = r) ∧
      (∀ x y, x < n → y < n → (find m x = find m y ↔ Relation.EqvGen (Merged calls) x y)) ∧
      ∀ a b, a < n → b < n → ∃ m' r, merge m a b = some (m', r) ∧
        (r.isSome ↔ ¬ Relation.EqvGen (Merged calls) a b) := by
  obtain ⟨m, hrun, hinv⟩ := Inv.run calls [] _ (inv_init n) hcalls
  rw [List.nil_append] at hinv
  refine ⟨m, hrun, fun x _ hx => Nat.lt_of_le_of_ne (hinv.descending x) hx,
    fun x _ => ⟨_, find_eq hinv.descending x, root_fixed hinv.descending x⟩,
    fun x y _ _ => ?_, fun a b ha hb => ?_⟩
  · rw [find_eq hinv.descending, find_eq hinv.descending, Option.some_inj]
    exact hinv.classes x y
  · obtain ⟨m', r, hm, hr, -⟩ :=
      merge_spec hinv.descending (hinv.length_eq ▸ ha) (hinv.length_eq ▸ hb)
    exact ⟨m', r, hm, hr.trans (not_congr (hinv.classes a b))⟩

theorem run_unionFind_three_nodes :
    (∀ c ∈ [Call.merge 2 0, .findAndCompress 2, .merge 1 2, .compress 1, .find 1],
      ∀ x ∈ c.nodes, x < 3) ∧
    ∃ m, run 3 [Call.merge 2 0, .findAndCompress 2, .merge 1 2, .compress 1, .find 1] = some m ∧
      (∀ x, x < 3 → parent m x ≠ x → parent m x < x) ∧
      (∀ x, x < 3 → ∃ r, find m x = some r ∧ parent m r = r) ∧
      (∀ x y, x < 3 → y < 3 → (find m x = find m y ↔ Relation.EqvGen
        (Merged [Call.merge 2 0, .findAndCompress 2, .merge 1 2, .compress 1, .find 1]) x y)) ∧
      ∀ a b, a < 3 → b < 3 → ∃ m' r, merge m a b = some (m', r) ∧
        (r.isSome ↔ ¬ Relation.EqvGen
          (Merged [Call.merge 2 0, .findAndCompress 2, .merge 1 2, .compress 1, .find 1]) a b) :=
  ⟨by decide, run_unionFind 3 _ (by decide)⟩

end Galois.UnionFind
