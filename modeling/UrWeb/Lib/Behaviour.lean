import Mathlib.Data.List.Forall2

/-!
# Behaviours

What a computation may do: from the events so far it reaches a longer history
and returns, stops for good, or is still running. Two computations correspond
when each matches everything that the other may do, up to a relation on
histories and one on results.
-/

namespace Behaviour

variable {ε ε' α α' β β' : Type}

inductive Outcome (α : Type)
  | ret (a : α)
  | abort
  | running

def Outcome.map (f : α → β) : Outcome α → Outcome β
  | .ret a => .ret (f a)
  | .abort => .abort
  | .running => .running

/-- The histories and outcomes that may follow a history. -/
def Run (ε α : Type) : Type := List ε → List ε → Outcome α → Prop

namespace Run

def pure (a : α) : Run ε α := fun h h' o => h' = h ∧ o = .ret a

/-- No behaviour: the computation is stuck. -/
def stuck : Run ε α := fun _ _ _ => False

/-- The computation is seen before it has gone on. -/
def running : Run ε α := fun h h' o => h' = h ∧ o = .running

inductive Bind (r : Run ε α) (f : α → Run ε β) (h : List ε) : List ε → Outcome β → Prop
  | ret : r h h1 (.ret a) → f a h1 h' o → Bind r f h h' o
  | abort : r h h' .abort → Bind r f h h' .abort
  | running : r h h' .running → Bind r f h h' .running

def bind (r : Run ε α) (f : α → Run ε β) : Run ε β := Bind r f

/-- One behaviour for each in the list, from left to right. -/
def all : List (Run ε α) → Run ε (List α)
  | [] => pure []
  | r :: rs => r.bind fun a => (all rs).bind fun as => pure (a :: as)

def ofOption : Option α → Run ε α
  | some a => pure a
  | none => stuck

/-- Run over a list with an accumulator. -/
def fold (f : β → α → Run ε β) : List α → β → Run ε β
  | [], b => pure b
  | a :: as, b => (f b a).bind (fold f as)

@[simp] theorem bind_pure_left (a : α) (f : α → Run ε β) : (pure a).bind f = f a := by
  funext h h' o
  refine propext ⟨fun hb => ?_, fun hf => .ret ⟨rfl, rfl⟩ hf⟩
  cases hb with
  | ret hp hf =>
    obtain ⟨rfl, ha⟩ := hp
    cases ha
    exact hf
  | abort hp => cases hp.2
  | running hp => cases hp.2

@[simp] theorem bind_running (f : α → Run ε β) : (running : Run ε α).bind f = running := by
  funext h h' o
  refine propext ⟨fun hb => ?_, fun hr => ?_⟩
  · cases hb with
    | ret hp => cases hp.2
    | abort hp => cases hp.2
    | running hp => exact ⟨hp.1, rfl⟩
  · obtain ⟨rfl, rfl⟩ := hr
    exact .running ⟨rfl, rfl⟩

theorem bind_assoc (r : Run ε α) (f : α → Run ε β) (g : β → Run ε γ) :
    (r.bind f).bind g = r.bind fun a => (f a).bind g := by
  funext h h' o
  refine propext ⟨fun hb => ?_, fun hb => ?_⟩
  · cases hb with
    | ret hrf hg =>
      cases hrf with
      | ret hr hf => exact .ret hr (.ret hf hg)
    | abort hrf =>
      cases hrf with
      | ret hr hf => exact .ret hr (.abort hf)
      | abort hr => exact .abort hr
    | running hrf =>
      cases hrf with
      | ret hr hf => exact .ret hr (.running hf)
      | running hr => exact .running hr
  · cases hb with
    | ret hr hfg =>
      cases hfg with
      | ret hf hg => exact .ret (.ret hr hf) hg
      | abort hf => exact .abort (.ret hr hf)
      | running hf => exact .running (.ret hr hf)
    | abort hr => exact .abort (.abort hr)
    | running hr => exact .running (.running hr)

end Run

-- ---------------------------------------------------------------------------
-- Correspondence
-- ---------------------------------------------------------------------------

inductive OutcomeRel (A : α → α' → Prop) : Outcome α → Outcome α' → Prop
  | ret : A a a' → OutcomeRel A (.ret a) (.ret a')
  | abort : OutcomeRel A .abort .abort
  | running : OutcomeRel A .running .running

theorem OutcomeRel.map_self {f : γ → α} {f' : γ → α'} (h : ∀ c, A (f c) (f' c)) (o : Outcome γ) :
    OutcomeRel A (o.map f) (o.map f') := by
  cases o with
  | ret c => exact .ret (h c)
  | abort => exact .abort
  | running => exact .running

/-- Each computation matches what the other may do. -/
structure Corresponds (H : List ε → List ε' → Prop) (A : α → α' → Prop) (r : Run ε α)
    (r' : Run ε' α') : Prop where
  forth : H h h' → r h k o → ∃ k' o', r' h' k' o' ∧ H k k' ∧ OutcomeRel A o o'
  back : H h h' → r' h' k' o' → ∃ k o, r h k o ∧ H k k' ∧ OutcomeRel A o o'

section
variable {H : List ε → List ε' → Prop} {A : α → α' → Prop} {B : β → β' → Prop}

theorem Corresponds.pure (ha : A a a') : Corresponds H A (Run.pure a) (Run.pure a') where
  forth hh hr := by
    obtain ⟨rfl, rfl⟩ := hr
    exact ⟨_, _, ⟨rfl, rfl⟩, hh, .ret ha⟩
  back hh hr := by
    obtain ⟨rfl, rfl⟩ := hr
    exact ⟨_, _, ⟨rfl, rfl⟩, hh, .ret ha⟩

theorem Corresponds.stuck : Corresponds H A Run.stuck Run.stuck where
  forth _ hr := hr.elim
  back _ hr := hr.elim

theorem Corresponds.running : Corresponds H A Run.running Run.running where
  forth hh hr := by
    obtain ⟨rfl, rfl⟩ := hr
    exact ⟨_, _, ⟨rfl, rfl⟩, hh, .running⟩
  back hh hr := by
    obtain ⟨rfl, rfl⟩ := hr
    exact ⟨_, _, ⟨rfl, rfl⟩, hh, .running⟩

theorem Corresponds.bind {f : α → Run ε β} {f' : α' → Run ε' β'} (hr : Corresponds H A r r')
    (hf : ∀ a a', A a a' → Corresponds H B (f a) (f' a')) :
    Corresponds H B (r.bind f) (r'.bind f') where
  forth hh hb := by
    cases hb with
    | ret h1 h2 =>
      obtain ⟨k', o', hk', hH, ho⟩ := hr.forth hh h1
      cases ho with
      | ret ha =>
        obtain ⟨k2, o2, hk2, hH2, ho2⟩ := (hf _ _ ha).forth hH h2
        exact ⟨k2, o2, .ret hk' hk2, hH2, ho2⟩
    | abort h1 =>
      obtain ⟨k', o', hk', hH, ho⟩ := hr.forth hh h1
      cases ho with
      | abort => exact ⟨k', _, .abort hk', hH, .abort⟩
    | running h1 =>
      obtain ⟨k', o', hk', hH, ho⟩ := hr.forth hh h1
      cases ho with
      | running => exact ⟨k', _, .running hk', hH, .running⟩
  back hh hb := by
    cases hb with
    | ret h1 h2 =>
      obtain ⟨k', o', hk', hH, ho⟩ := hr.back hh h1
      cases ho with
      | ret ha =>
        obtain ⟨k2, o2, hk2, hH2, ho2⟩ := (hf _ _ ha).back hH h2
        exact ⟨k2, o2, .ret hk' hk2, hH2, ho2⟩
    | abort h1 =>
      obtain ⟨k', o', hk', hH, ho⟩ := hr.back hh h1
      cases ho with
      | abort => exact ⟨k', _, .abort hk', hH, .abort⟩
    | running h1 =>
      obtain ⟨k', o', hk', hH, ho⟩ := hr.back hh h1
      cases ho with
      | running => exact ⟨k', _, .running hk', hH, .running⟩

theorem Corresponds.all {rs : List (Run ε α)} {rs' : List (Run ε' α')}
    (h : List.Forall₂ (Corresponds H A) rs rs') :
    Corresponds H (List.Forall₂ A) (Run.all rs) (Run.all rs') := by
  induction h with
  | nil => exact .pure .nil
  | cons hr _ ih =>
    exact hr.bind fun _ _ ha => ih.bind fun _ _ has => .pure (.cons ha has)

theorem Corresponds.ofOption (h : Option.Rel A o o') :
    Corresponds H A (Run.ofOption o) (Run.ofOption o') := by
  cases h with
  | some ha => exact .pure ha
  | none => exact .stuck

theorem Corresponds.fold {f : β → α → Run ε β} {f' : β' → α' → Run ε' β'}
    (hf : ∀ b b' a a', B b b' → A a a' → Corresponds H B (f b a) (f' b' a'))
    (h : List.Forall₂ A as as') (hb : B b b') :
    Corresponds H B (Run.fold f as b) (Run.fold f' as' b') := by
  induction h generalizing b b' with
  | nil => exact .pure hb
  | cons ha _ ih => exact (hf _ _ _ _ hb ha).bind fun _ _ hb => ih hb

end

-- ---------------------------------------------------------------------------
-- What every behaviour keeps
-- ---------------------------------------------------------------------------

/-- Every event is as `E` says if those before were, and every result as `A` says. -/
def Run.Ensures (E : ε → Prop) (A : α → Prop) (r : Run ε α) : Prop :=
  ∀ ⦃h h' o⦄, r h h' o → (∀ ev ∈ h, E ev) → (∀ ev ∈ h', E ev) ∧ ∀ a, o = .ret a → A a

namespace Run.Ensures

variable {E : ε → Prop} {A : α → Prop} {B : β → Prop}

theorem pure (ha : A a) : Ensures E A (Run.pure a) := by
  rintro h h' o ⟨rfl, rfl⟩ hE
  refine ⟨hE, fun b hb => ?_⟩
  cases hb
  exact ha

theorem stuck : Ensures E A Run.stuck := fun _ _ _ hr => hr.elim

theorem running : Ensures E A Run.running := by
  rintro h h' o ⟨rfl, rfl⟩ hE
  exact ⟨hE, fun _ hb => nomatch hb⟩

theorem bind {r : Run ε α} {f : α → Run ε β} (hr : Ensures E A r)
    (hf : ∀ a, A a → Ensures E B (f a)) : Ensures E B (r.bind f) := by
  intro h h' o hb hE
  cases hb with
  | ret h1 h2 =>
    obtain ⟨hE1, ha⟩ := hr h1 hE
    exact hf _ (ha _ rfl) h2 hE1
  | abort h1 => exact ⟨(hr h1 hE).1, fun _ hb => nomatch hb⟩
  | running h1 => exact ⟨(hr h1 hE).1, fun _ hb => nomatch hb⟩

theorem all {rs : List (Run ε α)} (h : ∀ r ∈ rs, Ensures E A r) :
    Ensures E (fun as => ∀ a ∈ as, A a) (Run.all rs) := by
  induction rs with
  | nil => exact pure (by simp)
  | cons r rs ih =>
    rw [List.forall_mem_cons] at h
    exact h.1.bind fun a ha => (ih h.2).bind fun as has => pure (List.forall_mem_cons.mpr ⟨ha, has⟩)

theorem ofOption {o : Option α} (h : ∀ a ∈ o, A a) : Ensures E A (Run.ofOption o) := by
  cases o with
  | none => exact stuck
  | some a => exact pure (h a rfl)

end Run.Ensures

end Behaviour
