import Mathlib

/-!
# Shortest paths in a weighted directed graph

A graph is a relation `E u v w`: an edge from `u` to `v` of weight `w`, weights natural numbers.
A label-correcting algorithm ends with a labelling `d` of the nodes; this module says when such
a labelling is the shortest-path distance, capped at the label of the unreached nodes.

* `Walk E s v c` -- a walk from `s` to `v` of cost `c`, grown one edge at its end;
* `dist E s v` -- the least cost of a walk from `s` to `v`, `⊤` when there is none;
* `Settled E s cap d` -- `d` is `0` at `s`, at most `cap` everywhere, the cost of a walk where it
  is below `cap`, and relaxed along every edge out of a node it labels below `cap`;
* **`Settled.eq_min`** -- such a labelling is `min (dist E s v) cap` at every node;
* `le_of_walk_or_blocked` -- the same bound for a run in progress, up to the nodes whose edges
  are still to be relaxed;
* `exists_walk_lt_card`, `dist_le_card`, `dist_lt_card` -- with unit weights a walk shortens
  (pigeonhole) to one with at most as many edges as there are nodes with an out-edge, fewer
  when it ends at such a node, so a reachable node is at most that many edges away;
* `dist_le_add_one`, `exists_pred_of_dist_eq`, `dist_lt_of_layer_empty` -- with unit weights the
  nodes fall into layers by distance: an edge leads at most one layer further, a node of layer
  `k + 1` has an in-neighbour in layer `k`, and past an empty layer no node is reachable.
-/

namespace Galois.ShortestPaths

variable {V : Type*} (E : V → V → ℕ → Prop) (s : V)

/-! ## 1. Walks and distance -/

/-- A walk from `s` to `v` of cost `c`. -/
inductive Walk (E : V → V → ℕ → Prop) (s : V) : V → ℕ → Prop
  | nil : Walk E s s 0
  | snoc {u v : V} {c w : ℕ} : Walk E s u c → E u v w → Walk E s v (c + w)

/-- The least cost of a walk from `s` to `v`; `⊤` when `v` is unreachable. -/
noncomputable def dist (v : V) : ℕ∞ := ⨅ (c : ℕ) (_ : Walk E s v c), (c : ℕ∞)

variable {E s}

theorem dist_le {v : V} {c : ℕ} (h : Walk E s v c) : dist E s v ≤ c :=
  iInf₂_le c h

theorem le_dist {v : V} {x : ℕ∞} (h : ∀ c, Walk E s v c → x ≤ c) : x ≤ dist E s v :=
  le_iInf₂ h

theorem dist_eq_top {v : V} : dist E s v = ⊤ ↔ ∀ c, ¬ Walk E s v c := by
  simp [dist]

/-- A reachable node's distance is the cost of one of its walks. -/
theorem exists_walk_dist {v : V} (h : dist E s v ≠ ⊤) : ∃ c, Walk E s v c ∧ dist E s v = c := by
  classical
  have hex : ∃ c, Walk E s v c := by
    by_contra hne
    exact h (dist_eq_top.mpr fun c hc => hne ⟨c, hc⟩)
  refine ⟨Nat.find hex, Nat.find_spec hex, le_antisymm (dist_le (Nat.find_spec hex)) ?_⟩
  exact le_dist fun c hc => by exact_mod_cast Nat.find_min' hex hc

/-! ## 2. Settled labellings -/

/-- What a label-correcting run leaves when it ends: every label is `cap` or the cost of a walk,
and no edge out of a labelled node can lower its head's label. -/
structure Settled (E : V → V → ℕ → Prop) (s : V) (cap : ℕ) (d : V → ℕ) : Prop where
  source : d s = 0
  le_cap : ∀ v, d v ≤ cap
  walk : ∀ v, d v < cap → Walk E s v (d v)
  relaxed : ∀ u v w, E u v w → d u < cap → d v ≤ d u + w

variable {cap : ℕ} {d : V → ℕ}

/-- Along a walk, a labelling whose edges out of labelled nodes are relaxed except at blocked
nodes labels the walk's end at most its cost, unless a blocked node is labelled at most that
cost. A run in progress blocks the nodes whose edges are still to be relaxed. -/
theorem le_of_walk_or_blocked {B : V → Prop} (hsrc : d s = 0) (hcap : ∀ v, d v ≤ cap)
    (hrel : ∀ u v w, E u v w → d u < cap → d v ≤ d u + w ∨ B u) {v : V} {c : ℕ}
    (hw : Walk E s v c) : d v ≤ c ∨ ∃ u, B u ∧ d u ≤ c := by
  induction hw with
  | nil => exact .inl hsrc.le
  | @snoc u v c w _ he ih =>
    rcases ih with hu | ⟨x, hx, hxc⟩
    · rcases lt_or_eq_of_le (hcap u) with hlt | heq
      · rcases hrel u v w he hlt with hv | hb
        · exact .inl (hv.trans (Nat.add_le_add_right hu w))
        · exact .inr ⟨u, hb, hu.trans (Nat.le_add_right c w)⟩
      · -- `u` is unreached, so the walk to it already costs `cap`
        refine .inl ?_
        calc d v ≤ cap := hcap v
          _ = d u := heq.symm
          _ ≤ c + w := hu.trans (Nat.le_add_right c w)
    · exact .inr ⟨x, hx, hxc.trans (Nat.le_add_right c w)⟩

/-- A settled label is below the cost of every walk. -/
theorem Settled.le_of_walk (h : Settled E s cap d) {v : V} {c : ℕ} (hw : Walk E s v c) :
    d v ≤ c := by
  have hrel : ∀ u v w, E u v w → d u < cap → d v ≤ d u + w ∨ False :=
    fun u v w he hu => .inl (h.relaxed u v w he hu)
  rcases le_of_walk_or_blocked h.source h.le_cap hrel hw with hv | ⟨_, hb, -⟩
  · exact hv
  · exact hb.elim

/-- **A settled labelling is the shortest-path distance, capped at `cap`.** -/
theorem Settled.eq_min (h : Settled E s cap d) (v : V) :
    (d v : ℕ∞) = min (dist E s v) cap := by
  apply le_antisymm
  · refine le_min (le_dist fun c hc => ?_) (by exact_mod_cast h.le_cap v)
    exact_mod_cast h.le_of_walk hc
  · rcases lt_or_eq_of_le (h.le_cap v) with hv | hv
    · exact (min_le_left _ _).trans (dist_le (h.walk v hv))
    · rw [hv]
      exact min_le_right _ _

/-! ## 3. Unit weights: the pigeonhole bound -/

section Hops

variable (hunit : ∀ u v w, E u v w → w = 1)
include hunit

/-- The nodes of a walk of unit edges, by position. -/
theorem Walk.exists_nodes {v : V} {c : ℕ} (h : Walk E s v c) :
    ∃ f : ℕ → V, f 0 = s ∧ f c = v ∧ ∀ i < c, E (f i) (f (i + 1)) 1 := by
  induction h with
  | nil => exact ⟨fun _ => s, rfl, rfl, fun i hi => absurd hi (Nat.not_lt_zero i)⟩
  | @snoc u v c w _ he ih =>
    obtain rfl := hunit u v w he
    obtain ⟨f, hf0, hfc, hf⟩ := ih
    refine ⟨fun i => if i ≤ c then f i else v, by simpa using hf0, by simp, fun i hi => ?_⟩
    rcases Nat.lt_or_ge i c with hic | hic
    · simpa [hic.le, Nat.succ_le_of_lt hic] using hf i hic
    · obtain rfl : i = c := by omega
      simpa [hfc] using he

omit hunit in
/-- Consecutive nodes joined by unit edges make a walk. -/
theorem walk_of_nodes (f : ℕ → V) {k : ℕ} (hf : ∀ i < k, E (f i) (f (i + 1)) 1) :
    Walk E (f 0) (f k) k := by
  induction k with
  | zero => exact .nil
  | succ k ih => exact .snoc (ih fun i hi => hf i (by omega)) (hf k (by omega))

omit hunit in
/-- Cutting the loop between two visits `i < j` of one node. -/
theorem walk_of_loop (f : ℕ → V) {c i j : ℕ} (hf : ∀ m < c, E (f m) (f (m + 1)) 1)
    (hij : i < j) (hjc : j ≤ c) (heq : f i = f j) :
    Walk E (f 0) (f c) (c - (j - i)) := by
  let g : ℕ → V := fun m => if m < i then f m else f (m + (j - i))
  have hg0 : g 0 = f 0 := by
    by_cases hi : 0 < i
    · simp [g, hi]
    · obtain rfl : i = 0 := by omega
      simpa [g] using heq.symm
  have hgc : g (c - (j - i)) = f c := by
    simp only [g, show ¬ c - (j - i) < i by omega, if_false]
    congr 1
    omega
  have hg : ∀ m < c - (j - i), E (g m) (g (m + 1)) 1 := by
    intro m hm
    rcases Nat.lt_or_ge (m + 1) i with hlt | hge
    · simpa [g, hlt, show m < i by omega] using hf m (by omega)
    · rcases Nat.lt_or_ge m i with hmi | hmi
      · -- the step into the loop's first visit goes to its last instead
        have hm1 : m + 1 = i := by omega
        have := hf m (by omega)
        simp only [g, hmi, if_true, show ¬ m + 1 < i by omega, if_false]
        rw [show m + 1 + (j - i) = j by omega, ← heq, ← hm1]
        exact this
      · simp only [g, show ¬ m < i by omega, show ¬ m + 1 < i by omega, if_false]
        rw [show m + 1 + (j - i) = m + (j - i) + 1 by omega]
        exact hf _ (by omega)
  rw [← hg0, ← hgc]
  exact walk_of_nodes g hg

variable {S : Finset V} (hS : ∀ u v w, E u v w → u ∈ S)
include hS

/-- **A walk of unit edges to a node of `S` shortens to one with fewer than `S.card` edges**,
`S` holding every node with an out-edge: a longer one visits a node of `S` twice. -/
theorem exists_walk_lt_card {v : V} (hv : v ∈ S) {c : ℕ} (h : Walk E s v c) :
    ∃ c' < S.card, Walk E s v c' := by
  induction c using Nat.strong_induction_on with
  | _ c ih =>
    rcases Nat.lt_or_ge c S.card with hc | hc
    · exact ⟨c, hc, h⟩
    obtain ⟨f, hf0, hfc, hf⟩ := h.exists_nodes hunit
    -- the `c + 1` nodes of the walk, the sources of its edges and its end, all lie in `S`
    have hmaps : ∀ m ∈ Finset.range (c + 1), f m ∈ S := by
      intro m hm
      rcases Nat.lt_or_ge m c with hmc | hmc
      · exact hS _ _ _ (hf m hmc)
      · rw [show m = c by simp at hm; omega, hfc]
        exact hv
    obtain ⟨x, hx, y, hy, hxy, hfxy⟩ := Finset.exists_ne_map_eq_of_card_lt_of_maps_to
      (by rw [Finset.card_range]; omega) hmaps
    rw [Finset.mem_range] at hx hy
    have hcut : ∀ i j, i < j → j ≤ c → f i = f j → ∃ c' < S.card, Walk E s v c' := by
      intro i j hij hjc heq
      have hw := walk_of_loop f hf hij hjc heq
      rw [hf0, hfc] at hw
      exact ih _ (by omega) hw
    rcases Nat.lt_or_gt_of_ne hxy with hlt | hlt
    · exact hcut x y hlt (by omega) hfxy
    · exact hcut y x hlt (by omega) hfxy.symm

/-- A walk of unit edges shortens to one with at most `S.card` edges: its end joins `S`. -/
theorem exists_walk_le_card {v : V} {c : ℕ} (h : Walk E s v c) :
    ∃ c' ≤ S.card, Walk E s v c' := by
  classical
  have hS' : ∀ u v' w, E u v' w → u ∈ insert v S :=
    fun u v' w he => Finset.mem_insert_of_mem (hS u v' w he)
  obtain ⟨c', hc', hw⟩ := exists_walk_lt_card hunit hS' (Finset.mem_insert_self v S) h
  exact ⟨c', by have := Finset.card_insert_le v S; omega, hw⟩

/-- With unit weights, a reachable node is at most `S.card` edges away. -/
theorem dist_le_card {v : V} (h : dist E s v ≠ ⊤) : dist E s v ≤ S.card := by
  obtain ⟨c, hc, -⟩ := exists_walk_dist h
  obtain ⟨c', hc', hw⟩ := exists_walk_le_card hunit hS hc
  exact (dist_le hw).trans (by exact_mod_cast hc')

/-- ... and fewer when it is in `S` itself. -/
theorem dist_lt_card {v : V} (hv : v ∈ S) (h : dist E s v ≠ ⊤) : dist E s v < S.card := by
  obtain ⟨c, hc, -⟩ := exists_walk_dist h
  obtain ⟨c', hc', hw⟩ := exists_walk_lt_card hunit hS hv hc
  exact (dist_le hw).trans_lt (by exact_mod_cast hc')

end Hops

/-! ## 4. Layers of unit-weight distance -/

/-- An edge of weight one leads at most one layer further. -/
theorem dist_le_add_one {u v : V} (he : E u v 1) : dist E s v ≤ dist E s u + 1 := by
  by_cases hu : dist E s u = ⊤
  · rw [hu, top_add]
    exact le_top
  · obtain ⟨c, hw, hc⟩ := exists_walk_dist hu
    rw [hc]
    exact_mod_cast dist_le (hw.snoc he)

section Layers

variable (hunit : ∀ u v w, E u v w → w = 1)
include hunit

/-- Layer `0` is the source alone. -/
theorem dist_eq_zero_iff {v : V} : dist E s v = 0 ↔ v = s := by
  constructor
  · intro h
    obtain ⟨c, hw, hc⟩ := exists_walk_dist (h ▸ ENat.zero_ne_top : dist E s v ≠ ⊤)
    cases hw with
    | nil => rfl
    | @snoc _ _ c _ _ he =>
      rw [hunit _ _ _ he, h] at hc
      have hc0 : c + 1 = 0 := by exact_mod_cast hc.symm
      omega
  · rintro rfl
    exact le_antisymm (by exact_mod_cast dist_le Walk.nil) bot_le

/-- **A node of layer `k + 1` has an in-neighbour in layer `k`**: the last edge of a shortest
walk. -/
theorem exists_pred_of_dist_eq {v : V} {k : ℕ} (h : dist E s v = (k + 1 : ℕ)) :
    ∃ u, E u v 1 ∧ dist E s u = k := by
  obtain ⟨c, hw, hc⟩ := exists_walk_dist (h ▸ ENat.natCast_ne_top _ : dist E s v ≠ ⊤)
  cases hw with
  | nil =>
    rw [h] at hc
    exact absurd (by exact_mod_cast hc) (Nat.succ_ne_zero k)
  | @snoc u _ c w hw he =>
    obtain rfl := hunit _ _ _ he
    have hck : c = k := by
      rw [h] at hc
      exact Nat.succ_injective (by exact_mod_cast hc.symm)
    subst hck
    refine ⟨u, he, le_antisymm (dist_le hw) ?_⟩
    have hle := dist_le_add_one (s := s) he
    rw [h, Nat.cast_add, Nat.cast_one] at hle
    exact (ENat.add_le_add_iff_right ENat.one_ne_top).mp hle

/-- **Layers are contiguous**: below the layer of a reachable node every layer has a node. -/
theorem exists_dist_eq_of_le {v : V} {k : ℕ} (h : dist E s v = k) :
    ∀ j ≤ k, ∃ u, dist E s u = j := by
  induction k generalizing v with
  | zero =>
    intro j hj
    exact ⟨v, by rw [h, Nat.le_zero.mp hj]⟩
  | succ k ih =>
    intro j hj
    rcases Nat.lt_or_ge j (k + 1) with hjk | hjk
    · obtain ⟨u, -, hu⟩ := exists_pred_of_dist_eq hunit h
      exact ih hu j (Nat.le_of_lt_succ hjk)
    · exact ⟨v, by rw [h, Nat.le_antisymm hj hjk]⟩

/-- With layer `L` empty, every reachable node lies below it. -/
theorem dist_lt_of_layer_empty {L : ℕ} (hL : ∀ u, dist E s u ≠ L) {v : V}
    (hv : dist E s v ≠ ⊤) : dist E s v < L := by
  obtain ⟨k, hk⟩ := ENat.ne_top_iff_exists.mp hv
  rw [← hk]
  by_contra hge
  obtain ⟨u, hu⟩ := exists_dist_eq_of_le hunit hk.symm L (by exact_mod_cast not_lt.mp hge)
  exact hL u hu

end Layers

end Galois.ShortestPaths
