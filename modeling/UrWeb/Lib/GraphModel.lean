import Mathlib.Data.List.Forall2
import Mathlib.Data.Set.Lattice

/-!
# A graph model

Values are sets of tokens. What holds of values continuously holds because of
finitely many of their tokens, and then it holds of every larger value. A token
`arrow as b` of a function says that `b` is in the result as soon as `as` is in the
argument; application undoes abstraction for every continuous function.
-/

namespace GraphModel

variable {α : Type}

/-- The values that a list of tokens of variables stands for. -/
def ofList (l : List (ℕ × α)) : ℕ → Set α := fun i => {a | (i, a) ∈ l}

/-- Values for de Bruijn indices, with one more in front. -/
def push (X : Set α) (ρ : ℕ → Set α) : ℕ → Set α
  | 0 => X
  | i + 1 => ρ i

def pushAll (Xs : List (Set α)) (ρ : ℕ → Set α) : ℕ → Set α := Xs.foldl (fun ρ X => push X ρ) ρ

/-- What holds because of finitely many tokens. -/
def Continuous (P : (ℕ → Set α) → Prop) : Prop :=
  ∀ ρ, P ρ ↔ ∃ l : List (ℕ × α), (∀ p ∈ l, p.2 ∈ ρ p.1) ∧ P (ofList l)

namespace Continuous

variable {P Q : (ℕ → Set α) → Prop}

theorem mono (h : Continuous P) (hr : ∀ i, R i ⊆ S i) (hP : P R) : P S := by
  obtain ⟨l, hl, hP⟩ := (h R).mp hP
  exact (h S).mpr ⟨l, fun p hp => hr _ (hl p hp), hP⟩

/-- A monotone property that has a finite reason wherever it holds. -/
theorem intro (hmono : ∀ ρ ρ', (∀ i, ρ i ⊆ ρ' i) → P ρ → P ρ')
    (hfin : ∀ ρ, P ρ → ∃ l : List (ℕ × α), (∀ p ∈ l, p.2 ∈ ρ p.1) ∧ P (ofList l)) : Continuous P :=
  fun ρ => ⟨hfin ρ, fun ⟨l, hl, hP⟩ => hmono _ _ (fun i a ha => hl (i, a) ha) hP⟩

theorem const (p : Prop) : Continuous fun _ : ℕ → Set α => p :=
  intro (fun _ _ _ h => h) fun _ h => ⟨[], by simp, h⟩

theorem mem (i : ℕ) (a : α) : Continuous fun ρ => a ∈ ρ i :=
  intro (fun _ _ h ha => h i ha) fun ρ h => ⟨[(i, a)], by simpa using h, List.mem_singleton_self _⟩

theorem ofList_append_left (l l' : List (ℕ × α)) (i : ℕ) : ofList l i ⊆ ofList (l ++ l') i :=
  fun _ ha => List.mem_append_left _ ha

theorem ofList_append_right (l l' : List (ℕ × α)) (i : ℕ) : ofList l' i ⊆ ofList (l ++ l') i :=
  fun _ ha => List.mem_append_right _ ha

theorem and (hP : Continuous P) (hQ : Continuous Q) : Continuous fun ρ => P ρ ∧ Q ρ := by
  refine intro (fun _ _ h hPQ => ⟨hP.mono h hPQ.1, hQ.mono h hPQ.2⟩) ?_
  rintro ρ ⟨hp, hq⟩
  obtain ⟨l, hl, hp⟩ := (hP ρ).mp hp
  obtain ⟨l', hl', hq⟩ := (hQ ρ).mp hq
  refine ⟨l ++ l', fun p h => ?_, hP.mono (ofList_append_left l l') hp,
    hQ.mono (ofList_append_right l l') hq⟩
  exact (List.mem_append.mp h).elim (hl p) (hl' p)

theorem or (hP : Continuous P) (hQ : Continuous Q) : Continuous fun ρ => P ρ ∨ Q ρ := by
  refine intro (fun _ _ h hPQ => hPQ.imp (hP.mono h) (hQ.mono h)) ?_
  rintro ρ (hp | hq)
  · obtain ⟨l, hl, hp⟩ := (hP ρ).mp hp
    exact ⟨l, hl, .inl hp⟩
  · obtain ⟨l, hl, hq⟩ := (hQ ρ).mp hq
    exact ⟨l, hl, .inr hq⟩

theorem exists' {β : Sort*} {R : β → (ℕ → Set α) → Prop} (h : ∀ b, Continuous (R b)) :
    Continuous fun ρ => ∃ b, R b ρ := by
  refine intro (fun _ _ hρ ⟨b, hb⟩ => ⟨b, (h b).mono hρ hb⟩) ?_
  rintro ρ ⟨b, hb⟩
  obtain ⟨l, hl, hb⟩ := (h b ρ).mp hb
  exact ⟨l, hl, b, hb⟩

theorem forall_mem {β : Type*} {R : β → (ℕ → Set α) → Prop} {bs : List β}
    (h : ∀ b ∈ bs, Continuous (R b)) : Continuous fun ρ => ∀ b ∈ bs, R b ρ := by
  induction bs with
  | nil => simpa using const True
  | cons b bs ih =>
    simp only [List.forall_mem_cons] at h ⊢
    exact h.1.and (ih h.2)

theorem exists_mem {β : Type*} {R : β → (ℕ → Set α) → Prop} {bs : List β}
    (h : ∀ b ∈ bs, Continuous (R b)) : Continuous fun ρ => ∃ b ∈ bs, R b ρ :=
  exists' fun b => by
    by_cases hb : b ∈ bs
    · simpa [hb] using h b hb
    · simpa [hb] using const False

theorem forall₂ {β γ : Type*} {R : β → γ → (ℕ → Set α) → Prop} {bs : List β} {cs : List γ}
    (h : ∀ b, ∀ c ∈ cs, Continuous (R b c)) :
    Continuous fun ρ => List.Forall₂ (fun b c => R b c ρ) bs cs := by
  induction bs generalizing cs with
  | nil => cases cs with
    | nil => simpa using const True
    | cons c cs => simpa using const False
  | cons b bs ih => cases cs with
    | nil => simpa using const False
    | cons c cs =>
      simp only [List.forall_mem_cons] at h
      simp only [List.forall₂_cons]
      exact (h b).1.and (ih fun b => (h b).2)

/-- Substitution of continuous values. -/
theorem comp {σ : (ℕ → Set α) → ℕ → Set α} (hP : Continuous P)
    (hσ : ∀ i a, Continuous fun ρ => a ∈ σ ρ i) : Continuous fun ρ => P (σ ρ) := by
  refine intro (fun ρ ρ' h => hP.mono fun i a => (hσ i a).mono h) ?_
  intro ρ hp
  obtain ⟨l, hl, hp⟩ := (hP (σ ρ)).mp hp
  have hall : Continuous fun ρ => ∀ p ∈ l, p.2 ∈ σ ρ p.1 := forall_mem fun p _ => hσ p.1 p.2
  obtain ⟨l', hl', hmem⟩ := (hall ρ).mp hl
  exact ⟨l', hl', hP.mono (fun i a ha => hmem (i, a) ha) hp⟩

end Continuous

/-- A value that depends continuously on the variables. -/
abbrev Denotes (F : (ℕ → Set α) → Set α) : Prop := ∀ a, Continuous fun ρ => a ∈ F ρ

theorem Denotes.mono {F : (ℕ → Set α) → Set α} (hF : Denotes F) (h : ∀ i, R i ⊆ S i) :
    F R ⊆ F S := fun a => (hF a).mono h

theorem denotes_push {F : (ℕ → Set α) → Set α} {σ : (ℕ → Set α) → ℕ → Set α} (hF : Denotes F)
    (hσ : ∀ i, Denotes fun ρ => σ ρ i) (i : ℕ) : Denotes fun ρ => push (F ρ) (σ ρ) i :=
  match i with
  | 0 => hF
  | i + 1 => hσ i

theorem denotes_pushAll {Fs : List ((ℕ → Set α) → Set α)} {σ : (ℕ → Set α) → ℕ → Set α}
    (hF : ∀ F ∈ Fs, Denotes F) (hσ : ∀ i, Denotes fun ρ => σ ρ i) (i : ℕ) :
    Denotes fun ρ => pushAll (Fs.map fun F => F ρ) (σ ρ) i := by
  induction Fs generalizing σ with
  | nil => exact hσ i
  | cons F Fs ih =>
    simp only [List.forall_mem_cons] at hF
    exact ih hF.2 (denotes_push hF.1 hσ)

-- ---------------------------------------------------------------------------
-- Functions
-- ---------------------------------------------------------------------------

section
variable (arrow : List α → α → α)

/-- The tokens of a function. -/
def lam (f : Set α → Set α) : Set α := {w | ∃ as b, w = arrow as b ∧ b ∈ f {a | a ∈ as}}

def app (X Y : Set α) : Set α := {b | ∃ as, (∀ a ∈ as, a ∈ Y) ∧ arrow as b ∈ X}

end

section
variable {arrow : List α → α → α}

theorem mem_app : b ∈ app arrow X Y ↔ ∃ as, (∀ a ∈ as, a ∈ Y) ∧ arrow as b ∈ X := Iff.rfl

theorem app_mono (hX : X ⊆ X') (hY : Y ⊆ Y') : app arrow X Y ⊆ app arrow X' Y' :=
  fun _ ⟨as, has, hb⟩ => ⟨as, fun a ha => hY (has a ha), hX hb⟩

theorem lam_mono {f f' : Set α → Set α} (h : ∀ X, f X ⊆ f' X) : lam arrow f ⊆ lam arrow f' :=
  fun _ ⟨as, b, hw, hb⟩ => ⟨as, b, hw, h _ hb⟩

theorem denotes_app {F G : (ℕ → Set α) → Set α} (hF : Denotes F) (hG : Denotes G) :
    Denotes fun ρ => app arrow (F ρ) (G ρ) := fun b =>
  .exists' fun as => (Continuous.forall_mem fun a _ => hG a).and (hF _)

theorem denotes_lam {F : (ℕ → Set α) → Set α → Set α}
    (hF : ∀ as : List α, Denotes fun ρ => F ρ {a | a ∈ as}) : Denotes fun ρ => lam arrow (F ρ) :=
  fun _ => .exists' fun as => .exists' fun b => (Continuous.const _).and (hF as b)

/-- Application undoes abstraction. -/
theorem app_lam (harrow : ∀ {as b as' b'}, arrow as b = arrow as' b' → as = as' ∧ b = b')
    {F : (ℕ → Set α) → Set α} (hF : Denotes F) (ρ : ℕ → Set α) (X : Set α) :
    app arrow (lam arrow fun X => F (push X ρ)) X = F (push X ρ) := by
  ext b
  constructor
  · rintro ⟨as, has, as', b', heq, hb⟩
    obtain ⟨rfl, rfl⟩ := harrow heq
    refine (hF b).mono (fun i => ?_) hb
    cases i with
    | zero => exact has
    | succ i => exact subset_rfl
  · intro hb
    obtain ⟨l, hl, hb⟩ := (hF b _).mp hb
    refine ⟨(l.filter fun p => p.1 = 0).map Prod.snd, ?_, _, _, rfl, (hF b).mono (fun i => ?_) hb⟩
    · intro a ha
      obtain ⟨p, hp, rfl⟩ := List.mem_map.mp ha
      obtain ⟨hp, hzero⟩ := List.mem_filter.mp hp
      simpa [push, of_decide_eq_true hzero] using hl p hp
    · intro a ha
      cases i with
      | zero => exact List.mem_map.mpr ⟨(0, a), by simpa [ofList] using ha, rfl⟩
      | succ i => exact hl _ ha

end

end GraphModel
