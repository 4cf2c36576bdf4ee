import Mathlib.Data.Set.Lattice
import Mathlib.Logic.Relation

/-!
# Saturation of a marked set

A depth-first marking pass over a graph is given a set of nodes already marked
and a set of roots. It adds the roots and everything they reach without going
through a marked node. `saturate` is that set; the laws below are the steps of
such a pass, and a pass that follows them computes `saturate`.
-/

namespace Saturation

variable {α : Type*}

/-- `x` is reached from `roots` along unmarked nodes only. -/
inductive Fresh (succ : α → Set α) (s roots : Set α) : α → Prop
  | root {x} : x ∈ roots → x ∉ s → Fresh succ s roots x
  | step {x y} : Fresh succ s roots x → y ∈ succ x → y ∉ s → Fresh succ s roots y

def saturate (succ : α → Set α) (s roots : Set α) : Set α :=
  s ∪ {x | Fresh succ s roots x}

/-- Every node of `s` has its successors in `s`. -/
def Closed (succ : α → Set α) (s : Set α) : Prop := ∀ x ∈ s, succ x ⊆ s

variable {succ : α → Set α} {s t roots : Set α} {x : α}

theorem Fresh.not_mem (h : Fresh succ s roots x) : x ∉ s := by
  cases h <;> assumption

theorem subset_saturate : s ⊆ saturate succ s roots := Set.subset_union_left

theorem roots_subset_saturate : roots ⊆ saturate succ s roots := by
  intro x hx
  by_cases hs : x ∈ s
  · exact .inl hs
  · exact .inr (Fresh.root hx hs)

theorem succ_subset_saturate (hx : x ∈ saturate succ s roots) (hs : x ∉ s) :
    succ x ⊆ saturate succ s roots := by
  intro y hy
  by_cases hys : y ∈ s
  · exact .inl hys
  · exact .inr (Fresh.step (hx.resolve_left hs) hy hys)

@[simp] theorem saturate_empty : saturate succ s ∅ = s := by
  refine Set.union_eq_left.mpr ?_
  intro x hx
  induction hx with
  | root h _ => exact h.elim
  | step h _ hy ih => exact absurd ih h.not_mem

theorem saturate_seen (h : x ∈ s) : saturate succ s {x} = s := by
  refine Set.union_eq_left.mpr ?_
  intro y hy
  induction hy with
  | root hr hs => exact absurd (hr ▸ h) hs
  | step hy _ _ ih => exact absurd ih hy.not_mem

/-- Marking an unmarked node goes on with its successors. -/
theorem saturate_visit (h : x ∉ s) :
    saturate succ s {x} = saturate succ (insert x s) (succ x) := by
  ext z
  constructor
  · rintro (hz | hz)
    · exact .inl (.inr hz)
    · induction hz with
      | root hr hs => exact .inl (.inl hr)
      | @step a b ha hb hs ih =>
        by_cases hbx : b = x
        · exact .inl (.inl hbx)
        · have hb' : b ∉ insert x s := by simp [hbx, hs]
          rcases ih with (rfl | ih) | ih
          · exact .inr (Fresh.root hb hb')
          · exact absurd ih ha.not_mem
          · exact .inr (Fresh.step ih hb hb')
  · rintro ((rfl | hz) | hz)
    · exact roots_subset_saturate rfl
    · exact .inl hz
    · refine .inr ?_
      induction hz with
      | root hr hs => exact Fresh.step (Fresh.root rfl h) hr fun hm => hs (.inr hm)
      | step _ hb hs ih => exact Fresh.step ih hb fun hm => hs (.inr hm)

/-- Two passes one after the other are one pass over both sets of roots. -/
theorem saturate_union (r₁ r₂ : Set α) :
    saturate succ s (r₁ ∪ r₂) = saturate succ (saturate succ s r₁) r₂ := by
  ext z
  constructor
  · rintro (hz | hz)
    · exact .inl (.inl hz)
    · induction hz with
      | @root a hr hs =>
        rcases hr with hr | hr
        · exact .inl (roots_subset_saturate hr)
        · exact roots_subset_saturate hr
      | @step a b ha hb hs ih =>
        by_cases hm : b ∈ saturate succ s r₁
        · exact .inl hm
        · rcases ih with ih | ih
          · exact absurd (succ_subset_saturate ih ha.not_mem hb) hm
          · exact .inr (Fresh.step ih hb hm)
  · rintro ((hz | hz) | hz)
    · exact .inl hz
    · refine .inr ?_
      induction hz with
      | root hr hs => exact Fresh.root (.inl hr) hs
      | step _ hb hs ih => exact Fresh.step ih hb hs
    · refine .inr ?_
      induction hz with
      | root hr hs => exact Fresh.root (.inr hr) fun hm => hs (.inl hm)
      | step _ hb hs ih => exact Fresh.step ih hb fun hm => hs (.inl hm)

/-- What a pass leaves open is only what was open before. -/
theorem saturate_closed (h : ∀ x ∈ s, succ x ⊆ saturate succ s roots) :
    Closed succ (saturate succ s roots) := by
  intro x hx
  by_cases hs : x ∈ s
  · exact h x hs
  · exact succ_subset_saturate hx hs

theorem Closed.saturate (h : Closed succ s) : Closed succ (saturate succ s roots) :=
  saturate_closed fun x hx => (h x hx).trans subset_saturate

/-- A closed set that holds the marked nodes and the roots holds the pass's result. -/
theorem saturate_subset (hs : s ⊆ t) (hr : roots ⊆ t) (ht : Closed succ t) :
    Saturation.saturate succ s roots ⊆ t := by
  rintro x (hx | hx)
  · exact hs hx
  · induction hx with
    | root h _ => exact hr h
    | step _ hb _ ih => exact ht _ ih hb

-- ---------------------------------------------------------------------------
-- State transformers that saturate
-- ---------------------------------------------------------------------------

variable {σ β : Type*}

/-- `f` marks what `roots` asks for. `Q` is what the step needs of the state,
such as enough fuel; every step leaves it true. -/
def Pass (succ : α → Set α) (nodes : σ → Set α) (Q : σ → Prop) (f : σ → σ) (roots : Set α) :
    Prop :=
  ∀ a, Q a → Q (f a) ∧ nodes (f a) = saturate succ (nodes a) roots

variable {nodes : σ → Set α} {Q : σ → Prop} {f g : σ → σ} {r₁ r₂ : Set α}

theorem Pass.rfl : Pass succ nodes Q (fun a => a) ∅ := fun _ ha => ⟨ha, by simp⟩

theorem Pass.comp (hf : Pass succ nodes Q f r₁) (hg : Pass succ nodes Q g r₂) :
    Pass succ nodes Q (fun a => g (f a)) (r₁ ∪ r₂) := by
  intro a ha
  obtain ⟨hqf, hnf⟩ := hf a ha
  obtain ⟨hqg, hng⟩ := hg (f a) hqf
  exact ⟨hqg, by rw [hng, hnf, saturate_union]⟩

/-- What survives growth of the marked set can be carried along a pass. -/
theorem Pass.and {Q' : σ → Prop} (hf : Pass succ nodes Q f r₁)
    (h : ∀ a b, nodes a ⊆ nodes b → Q' a → Q' b) :
    Pass succ nodes (fun a => Q a ∧ Q' a) f r₁ := by
  rintro a ⟨ha, ha'⟩
  obtain ⟨hq, hn⟩ := hf a ha
  exact ⟨⟨hq, h a _ (hn ▸ subset_saturate) ha'⟩, hn⟩

/-- The roots an item of a list asks for, collected over the list. -/
def rootsOf (r : β → Set α) (l : List β) : Set α := {x | ∃ b ∈ l, x ∈ r b}

@[simp] theorem rootsOf_nil (r : β → Set α) : rootsOf r [] = ∅ := by
  simp [rootsOf]

@[simp] theorem rootsOf_cons (r : β → Set α) (b : β) (l : List β) :
    rootsOf r (b :: l) = r b ∪ rootsOf r l := by
  ext x
  simp [rootsOf]

/-- A fold of passes is one pass over all the roots. -/
theorem Pass.foldl {step : σ → β → σ} {r : β → Set α} (l : List β)
    (h : ∀ b ∈ l, Pass succ nodes Q (fun a => step a b) (r b)) :
    Pass succ nodes Q (fun a => l.foldl step a) (rootsOf r l) := by
  induction l with
  | nil => simpa using Pass.rfl
  | cons b l ih =>
    rw [rootsOf_cons]
    exact (h b (by simp)).comp (ih fun c hc => h c (by simp [hc]))

/-- A recursive visit that marks a node and goes on with what `body` walks. The
fuel covers what `left` counts; a visit that does not lower the count has
nothing to walk. -/
theorem visit_pass {ι : Type*} {node : ι → α} {left : σ → ℕ} (visit body : ℕ → ι → σ → σ)
    (mark : ι → σ → σ)
    (hQ : ∀ a b, nodes a ⊆ nodes b → Q a → Q b)
    (hleft : ∀ a b, nodes a ⊆ nodes b → left b ≤ left a)
    (hmark : ∀ i a, nodes (mark i a) = insert (node i) (nodes a))
    (hdrop : ∀ i a, node i ∉ nodes a → left (mark i a) < left a ∨
      (succ (node i) = ∅ ∧ ∀ f b, body f i b = b))
    (hzero : ∀ i a, visit 0 i a = mark i a)
    (hseen : ∀ f i a, node i ∈ nodes a → visit (f + 1) i a = a)
    (hvisit : ∀ f i a, node i ∉ nodes a → visit (f + 1) i a = body f i (mark i a))
    (hbody : ∀ f i,
      (∀ j, Pass succ nodes (fun a => Q a ∧ left a ≤ f) (visit f j) {node j}) →
        Pass succ nodes (fun a => Q a ∧ left a ≤ f) (body f i) (succ (node i)))
    (f : ℕ) (i : ι) : Pass succ nodes (fun a => Q a ∧ left a ≤ f) (visit f i) {node i} := by
  have hsub (i : ι) (a : σ) : nodes a ⊆ nodes (mark i a) := by
    rw [hmark]
    exact Set.subset_insert _ _
  induction f generalizing i with
  | zero =>
    rintro a ⟨ha, hl⟩
    rw [hzero]
    refine ⟨⟨hQ _ _ (hsub i a) ha, (hleft _ _ (hsub i a)).trans hl⟩, ?_⟩
    rw [hmark]
    by_cases hi : node i ∈ nodes a
    · rw [saturate_seen hi, Set.insert_eq_of_mem hi]
    · rcases hdrop i a hi with hlt | ⟨hnone, -⟩
      · omega
      · rw [saturate_visit hi, hnone, saturate_empty]
  | succ f ih =>
    rintro a ⟨ha, hl⟩
    by_cases hi : node i ∈ nodes a
    · rw [hseen f i a hi, saturate_seen hi]
      exact ⟨⟨ha, hl⟩, Eq.refl _⟩
    · rw [hvisit f i a hi, saturate_visit hi, ← hmark]
      have hQa := hQ _ _ (hsub i a) ha
      rcases hdrop i a hi with hlt | ⟨hnone, hid⟩
      · obtain ⟨⟨hQb, hb⟩, hn⟩ := hbody f i ih (mark i a) ⟨hQa, by omega⟩
        exact ⟨⟨hQb, by omega⟩, hn⟩
      · rw [hid, hnone, saturate_empty]
        exact ⟨⟨hQa, (hleft _ _ (hsub i a)).trans hl⟩, Eq.refl _⟩

end Saturation
