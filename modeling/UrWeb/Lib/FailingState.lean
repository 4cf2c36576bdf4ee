/-!
# Computations that keep their state when they fail

A computation over a mutable state may give up, and what it has done to the
state until then stays done. A triple says what holds of the state after
success and after failure.
-/

namespace UrWeb

/-- A computation over the state `σ`. -/
def Failing (σ α : Type) : Type := σ → Option α × σ

namespace Failing

variable {σ α β : Type}

instance : Monad (Failing σ) where
  pure a := fun s => (some a, s)
  bind m f := fun s =>
    match m s with
    | (some a, s') => f a s'
    | (none, s') => (none, s')

def fail : Failing σ α := fun s => (none, s)

def get : Failing σ σ := fun s => (some s, s)

def modify (f : σ → σ) : Failing σ Unit := fun s => (some (), f s)

/-- An answer that may be missing. -/
def ofOption : Option α → Failing σ α
  | some a => pure a
  | none => fail

/-- Runs `m` and tells whether it failed. -/
def attempt (m : Failing σ α) : Failing σ (Option α) := fun s => (some (m s).1, (m s).2)

/-- From `s`, `m` ends in `Q` if it succeeds and in `E` if it fails. -/
def Triple (m : Failing σ α) (s : σ) (Q : α → σ → Prop) (E : σ → Prop) : Prop :=
  match m s with
  | (some a, s') => Q a s'
  | (none, s') => E s'

variable {m : Failing σ α} {f : α → Failing σ β} {s s' : σ} {a : α}
variable {Q Q' : α → σ → Prop} {R : β → σ → Prop} {E E' : σ → Prop}

theorem Triple.pure (h : Q a s) : Triple (Pure.pure a) s Q E := h

theorem Triple.bind (hm : Triple m s Q E) (hf : ∀ a s', Q a s' → Triple (f a) s' R E) :
    Triple (m >>= f) s R E := by
  unfold Triple at hm ⊢
  simp only [Bind.bind]
  cases hr : m s with
  | mk r s' =>
    rw [hr] at hm
    cases r with
    | none => exact hm
    | some a => exact hf a s' hm

theorem Triple.conseq (hm : Triple m s Q E) (hQ : ∀ a s', Q a s' → Q' a s')
    (hE : ∀ s', E s' → E' s') : Triple m s Q' E' := by
  unfold Triple at hm ⊢
  split at hm
  · exact hQ _ _ hm
  · exact hE _ hm

theorem Triple.trivial (m : Failing σ α) (s : σ) : Triple m s (fun _ _ => True) fun _ => True := by
  unfold Triple
  split <;> exact True.intro

theorem Triple.and (h : Triple m s Q E) (h' : Triple m s Q' E') :
    Triple m s (fun a s' => Q a s' ∧ Q' a s') fun s' => E s' ∧ E' s' := by
  unfold Triple at h h' ⊢
  split
  · next hr =>
    rw [hr] at h h'
    exact ⟨h, h'⟩
  · next hr =>
    rw [hr] at h h'
    exact ⟨h, h'⟩

theorem Triple.map {g : α → β} (hm : Triple m s Q E) (hQ : ∀ a s', Q a s' → R (g a) s') :
    Triple (g <$> m) s R E :=
  hm.bind fun a s' ha => hQ a s' ha

theorem Triple.fail (h : E s) : Triple (Failing.fail : Failing σ α) s Q E := h

theorem Triple.get {Q : σ → σ → Prop} (h : Q s s) : Triple Failing.get s Q E := h

theorem Triple.modify {g : σ → σ} {Q : Unit → σ → Prop} (h : Q () (g s)) :
    Triple (Failing.modify g) s Q E := h

theorem Triple.get_bind {f : σ → Failing σ β} (h : Triple (f s) s R E) :
    Triple (Failing.get >>= f) s R E := h

theorem Triple.modify_bind {g : σ → σ} {f : Unit → Failing σ β} (h : Triple (f ()) (g s) R E) :
    Triple (Failing.modify g >>= f) s R E := h

theorem Triple.attempt {Q : Option α → σ → Prop}
    (hm : Triple m s (fun a s' => Q (some a) s') fun s' => Q none s') :
    Triple m.attempt s Q E := by
  unfold Triple at hm
  show Q (m s).1 (m s).2
  cases hr : m s with
  | mk r s' =>
    rw [hr] at hm
    cases r with
    | none => exact hm
    | some a => exact hm

section
variable {γ : Type} {l : List γ} {I : σ → Prop} {P : γ → Prop}

/-- What every round keeps, the loop keeps. -/
theorem Triple.forM {f : γ → Failing σ Unit}
    (h : ∀ a ∈ l, ∀ s, I s → Triple (f a) s (fun _ s' => I s') E) (hs : I s) :
    Triple (l.forM f) s (fun _ s' => I s') E := by
  induction l generalizing s with
  | nil => exact Triple.pure hs
  | cons a l ih =>
    show Triple (f a >>= fun _ => l.forM f) s _ E
    refine (h a List.mem_cons_self s hs).bind fun _ s' hs' => ih ?_ hs'
    exact fun b hb => h b (List.mem_cons_of_mem a hb)

theorem Triple.allM {p : γ → Failing σ Bool}
    (h : ∀ a ∈ l, ∀ s, I s → Triple (p a) s (fun b s' => I s' ∧ (b = true → P a)) E) (hs : I s) :
    Triple (l.allM p) s (fun b s' => I s' ∧ (b = true → ∀ a ∈ l, P a)) E := by
  induction l generalizing s with
  | nil => exact Triple.pure ⟨hs, fun _ => by simp⟩
  | cons a l ih =>
    simp only [List.allM]
    refine (h a List.mem_cons_self s hs).bind ?_
    rintro b s' ⟨hs', ha⟩
    cases b with
    | false => exact Triple.pure ⟨hs', by simp⟩
    | true =>
      refine (ih (fun b hb => h b (List.mem_cons_of_mem a hb)) hs').conseq ?_ fun _ h => h
      rintro b s'' ⟨hs'', hl⟩
      exact ⟨hs'', fun hb => List.forall_mem_cons.mpr ⟨ha rfl, hl hb⟩⟩

theorem Triple.anyM {p : γ → Failing σ Bool}
    (h : ∀ a ∈ l, ∀ s, I s → Triple (p a) s (fun b s' => I s' ∧ (b = true → P a)) E) (hs : I s) :
    Triple (l.anyM p) s (fun b s' => I s' ∧ (b = true → ∃ a ∈ l, P a)) E := by
  induction l generalizing s with
  | nil => exact Triple.pure ⟨hs, by simp⟩
  | cons a l ih =>
    simp only [List.anyM]
    refine (h a List.mem_cons_self s hs).bind ?_
    rintro b s' ⟨hs', ha⟩
    cases b with
    | true => exact Triple.pure ⟨hs', fun _ => ⟨a, List.mem_cons_self, ha rfl⟩⟩
    | false =>
      refine (ih (fun b hb => h b (List.mem_cons_of_mem a hb)) hs').conseq ?_ fun _ h => h
      rintro b s'' ⟨hs'', hl⟩
      refine ⟨hs'', fun hb => ?_⟩
      obtain ⟨c, hc, hP⟩ := hl hb
      exact ⟨c, List.mem_cons_of_mem a hc, hP⟩

end

end Failing

end UrWeb
