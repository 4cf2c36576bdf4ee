import Mathlib.Data.Finset.Card
import Mathlib.Data.Prod.Lex
import Mathlib.Logic.Relation
import Mathlib.Order.WellFounded

/-!
# Runs over a graph whose cycles are self-loops

A step either stays at its location and lowers a measure, or follows an edge
that no path leads back along. There are finitely many locations, so every run
ends.
-/

namespace SelfLoops

variable {σ ι : Type*} {G : ι → ι → Prop} {loc : σ → ι} {m : σ → ℕ} {U : Finset ι}

/-- One step of such a run. -/
def Descends (G : ι → ι → Prop) (loc : σ → ι) (m : σ → ℕ) (s t : σ) : Prop :=
  loc t = loc s ∧ m t < m s ∨ G (loc s) (loc t) ∧ ¬ Relation.ReflTransGen G (loc t) (loc s)

open Classical in
/-- How many locations are ahead. -/
noncomputable def ahead (G : ι → ι → Prop) (U : Finset ι) (i : ι) : ℕ :=
  (U.filter (Relation.ReflTransGen G i)).card

theorem ahead_lt (hi : i ∈ U) (hij : G i j) (hback : ¬ Relation.ReflTransGen G j i) :
    ahead G U j < ahead G U i := by
  classical
  refine Finset.card_lt_card (Finset.ssubset_iff_of_subset ?_ |>.mpr ⟨i, ?_, ?_⟩)
  · intro k hk
    obtain ⟨hU, hjk⟩ := Finset.mem_filter.mp hk
    exact Finset.mem_filter.mpr ⟨hU, hjk.head hij⟩
  · exact Finset.mem_filter.mpr ⟨hi, .refl⟩
  · exact fun h => hback (Finset.mem_filter.mp h).2

/-- There is no infinite run. -/
theorem exists_not_descends (G : ι → ι → Prop) (loc : σ → ι) (m : σ → ℕ) (s : ℕ → σ)
    (hU : ∀ k, loc (s k) ∈ U) : ∃ k, ¬ Descends G loc m (s k) (s (k + 1)) := by
  by_contra hall
  push Not at hall
  let r : ℕ → ℕ ×ₗ ℕ := fun k => toLex (ahead G U (loc (s k)), m (s k))
  have hlt (k : ℕ) : r (k + 1) < r k := by
    refine Prod.Lex.toLex_lt_toLex.mpr ?_
    obtain ⟨hloc, hm⟩ | ⟨hedge, hback⟩ := hall k
    · exact .inr ⟨by rw [hloc], hm⟩
    · exact .inl (ahead_lt (hU k) hedge hback)
  obtain ⟨k, hk⟩ := WellFounded.not_rel_apply_succ (r := (· < ·)) r
  exact hk (hlt k)

end SelfLoops
