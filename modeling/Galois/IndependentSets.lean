import Mathlib

/-!
# Maximal independent sets

Over an adjacency relation `r` on nodes:

* `IsMIS r V S` -- `S` is a maximal independent set of the nodes `V`: no two members are
  adjacent, and every other node has a member for a neighbour;
* `IsLexFirst r n S` -- over the nodes below `n` taken in order, a node is a member exactly when
  no smaller neighbour is: the set the greedy pass in node order picks;
* `IsLexFirst.unique` -- there is at most one such set;
* `IsLexFirst.isMIS` -- for a symmetric relation without loops it is a maximal independent set.

Nothing here names a program.
-/

namespace Galois.IndependentSets

variable {α : Type*}

/-- `S` is a maximal independent set of the nodes `V` under the adjacency `r`. -/
structure IsMIS (r : α → α → Prop) (V S : α → Prop) : Prop where
  independent : ∀ u v, V u → V v → r u v → S u → ¬ S v
  maximal : ∀ u, V u → ¬ S u → ∃ v, V v ∧ r u v ∧ S v

/-- The lexicographically-first maximal independent set of the nodes below `n`. -/
def IsLexFirst (r : ℕ → ℕ → Prop) (n : ℕ) (S : ℕ → Prop) : Prop :=
  ∀ v < n, S v ↔ ∀ u, r v u → u < v → ¬ S u

variable {r : ℕ → ℕ → Prop} {n : ℕ} {S T : ℕ → Prop}

/-- **The lexicographically-first set is unique.** -/
theorem IsLexFirst.unique (hS : IsLexFirst r n S) (hT : IsLexFirst r n T) :
    ∀ v < n, (S v ↔ T v) := by
  intro v
  -- strong induction on the node: membership is decided by the smaller neighbours
  induction v using Nat.strongRecOn with
  | ind v ih =>
    intro hv
    rw [hS v hv, hT v hv]
    exact forall_congr' fun u => imp_congr_right fun _ => imp_congr_right fun huv =>
      not_congr (ih u huv (Nat.lt_trans huv hv))

/-- **The lexicographically-first set is a maximal independent set.** -/
theorem IsLexFirst.isMIS (hS : IsLexFirst r n S) (hsymm : ∀ u v, r u v → r v u)
    (hirr : ∀ u, ¬ r u u) : IsMIS r (· < n) S where
  independent u v hu hv huv hSu hSv := by
    rcases Nat.lt_or_gt_of_ne (fun h : u = v => hirr u (h ▸ huv)) with hlt | hgt
    · exact (hS v hv).mp hSv u (hsymm u v huv) hlt hSu
    · exact (hS u hu).mp hSu v huv hgt hSv
  maximal u hu hSu := by
    -- a node outside the set has a smaller neighbour inside it
    by_contra hnone
    refine hSu ((hS u hu).mpr fun v huv hlt hSv => hnone ?_)
    exact ⟨v, Nat.lt_trans hlt hu, huv, hSv⟩

end Galois.IndependentSets
