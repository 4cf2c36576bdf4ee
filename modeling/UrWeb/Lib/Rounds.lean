import Mathlib.Order.Nat

/-!
# Rounds until nothing changes

A loop that runs rounds as long as they report a change, with an allowance of
rounds. A round goes through a list of items and carries a flag. When every
change lowers a measure, an allowance above the measure ends in a round that
changes nothing.
-/

namespace Rounds

variable {σ β : Type}

/-- One round: every item in turn. The flag says that something changed. -/
def round (step : σ × Bool → β → σ × Bool) (items : List β) (s : σ) : σ × Bool :=
  items.foldl step (s, false)

def loop (turn : σ → σ × Bool) : ℕ → σ → σ
  | 0, s => s
  | fuel + 1, s =>
    match turn s with
    | (s', true) => loop turn fuel s'
    | (s', false) => s'

/-- What every round keeps the loop keeps. -/
theorem loop_keeps {turn : σ → σ × Bool} {P : σ → Prop} (h : ∀ s, P s → P (turn s).1) (fuel : ℕ)
    (hs : P s) : P (loop turn fuel s) := by
  induction fuel generalizing s with
  | zero => exact hs
  | succ fuel ih =>
    have hnext := h s hs
    rw [loop]
    split
    · rename_i s' heq
      exact ih (by simpa [heq] using hnext)
    · rename_i s' heq
      simpa [heq] using hnext

/-- The last round changes nothing. -/
theorem loop_last {turn : σ → σ × Bool} {μ : σ → ℕ}
    (h : ∀ s, (turn s).2 = true → μ (turn s).1 < μ s) (hfuel : μ s < fuel) :
    ∃ s', loop turn fuel s = (turn s').1 ∧ (turn s').2 = false := by
  induction fuel generalizing s with
  | zero => omega
  | succ fuel ih =>
    rw [loop]
    split
    · rename_i s' heq
      have hlt := h s (by simp [heq])
      simp only [heq] at hlt
      exact ih (by omega)
    · rename_i s' heq
      exact ⟨s, by simp [heq], by simp [heq]⟩

section
variable {step : σ × Bool → β → σ × Bool}

/-- What every step keeps a round keeps. -/
theorem round_keeps {P : σ → Prop} {items : List β}
    (h : ∀ s, ∀ b ∈ items, P s.1 → P (step s b).1) (hs : P s) : P (round step items s).1 := by
  rw [round]
  generalize false = flag
  induction items generalizing s flag with
  | nil => exact hs
  | cons b items ih =>
    exact ih (fun s c hc => h s c (List.mem_cons_of_mem _ hc)) (h (s, flag) b List.mem_cons_self hs) _

/-- A round that reports a change has lowered the measure. -/
theorem round_lowers {μ : σ → ℕ} {items : List β}
    (h : ∀ s, ∀ b ∈ items, μ (step s b).1 ≤ μ s.1 ∧
      ((step s b).2 = true → s.2 = true ∨ μ (step s b).1 < μ s.1))
    (hchanged : (round step items s).2 = true) : μ (round step items s).1 < μ s := by
  have hfold (s : σ × Bool) : μ (items.foldl step s).1 ≤ μ s.1 ∧
      ((items.foldl step s).2 = true → s.2 = true ∨ μ (items.foldl step s).1 < μ s.1) := by
    clear hchanged
    induction items generalizing s with
    | nil => exact ⟨le_rfl, .inl⟩
    | cons b items ih =>
      obtain ⟨hle, hflag⟩ := h s b List.mem_cons_self
      obtain ⟨hle', hflag'⟩ := ih (fun s c hc => h s c (List.mem_cons_of_mem _ hc)) (step s b)
      refine ⟨hle'.trans hle, fun hf => ?_⟩
      obtain hf | hlt := hflag' hf
      · exact (hflag hf).imp_right fun hlt => lt_of_le_of_lt hle' hlt
      · exact .inr (lt_of_lt_of_le hlt hle)
  exact ((hfold (s, false)).2 hchanged).resolve_left (by simp)

/-- A round that reports no change has changed nothing, at any item. -/
theorem round_stable {items : List β} (h : ∀ s, ∀ b ∈ items, (step s b).2 = false → step s b = s)
    (hstable : (round step items s).2 = false) :
    (round step items s).1 = s ∧ ∀ b ∈ items, (step (s, false) b).2 = false := by
  have hfold (s : σ × Bool) (hs : (items.foldl step s).2 = false) :
      items.foldl step s = s ∧ ∀ b ∈ items, (step s b).2 = false := by
    clear hstable
    induction items generalizing s with
    | nil => exact ⟨rfl, by simp⟩
    | cons b items ih =>
      have hrest := fun s c hc => h s c (List.mem_cons_of_mem b hc)
      obtain ⟨heq, hall⟩ := ih hrest (step s b) hs
      rw [List.foldl_cons] at hs ⊢
      rw [heq] at hs
      have hself := h s b List.mem_cons_self hs
      rw [hself] at heq hall
      exact ⟨by rw [hself, heq], List.forall_mem_cons.mpr ⟨hs, hall⟩⟩
  obtain ⟨heq, hall⟩ := hfold (s, false) hstable
  exact ⟨congrArg Prod.fst heq, hall⟩

end

end Rounds
