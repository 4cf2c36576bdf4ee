import UrWeb.Core.LocalReductionTypes

/-!
# Local reduction keeps what expressions mean

A record may have two fields of one name only in ill-typed code; what it then
means is bounded from below, with nothing in those fields, and from above, with
everything. Simplification raises the lower bound and lowers the upper one.
-/

namespace UrWeb.Core.LocalReduction

open GraphModel Denotation

-- ---------------------------------------------------------------------------
-- Bounds
-- ---------------------------------------------------------------------------

/-- At most when `up` is true, at least otherwise. -/
def Approx {α : Type} [LE α] : (up : Bool) → α → α → Prop
  | true, a, b => a ≤ b
  | false, a, b => b ≤ a

/-- What clashing fields hold when a bound is taken. -/
def clashOf : (up : Bool) → Value
  | true => ∅
  | false => Set.univ

namespace Approx

variable {up : Bool}

theorem refl {α : Type} [Preorder α] (a : α) : Approx up a a := by
  cases up <;> exact le_refl a

theorem of_eq {α : Type} [Preorder α] {a b : α} (h : a = b) : Approx up a b := h ▸ refl a

theorem trans {α : Type} [Preorder α] {a b c : α} (h : Approx up a b) (h' : Approx up b c) :
    Approx up a c := by
  cases up
  · exact le_trans h' h
  · exact le_trans h h'

theorem map {α β : Type} [LE α] [LE β] {f : α → β} (hf : ∀ a a', a ≤ a' → f a ≤ f a')
    {a b : α} (h : Approx up a b) : Approx up (f a) (f b) := by
  cases up <;> exact hf _ _ h

theorem map₂ {α β γ : Type} [LE α] [LE β] [LE γ] {f : α → β → γ}
    (hf : ∀ a a' b b', a ≤ a' → b ≤ b' → f a b ≤ f a' b') {a a' : α} {b b' : β}
    (h : Approx up a a') (h' : Approx up b b') : Approx up (f a b) (f a' b') := by
  cases up <;> exact hf _ _ _ _ h h'

theorem clash (X : Value) : Approx up (clashOf up) X := by
  cases up
  · exact fun _ _ => trivial
  · exact fun _ h => h.elim

theorem pointwise {α β : Type} [LE β] {f f' : α → β} (h : ∀ a, Approx up (f a) (f' a)) :
    Approx up f f' := by
  cases up <;> exact h

end Approx

-- ---------------------------------------------------------------------------
-- Operations are monotone
-- ---------------------------------------------------------------------------

section
variable {up : Bool} {X X' Y Y' : Value}

theorem approx_app (hX : Approx up X X') (hY : Approx up Y Y') :
    Approx up (app .arrow X Y) (app .arrow X' Y') :=
  Approx.map₂ (fun _ _ _ _ => app_mono) hX hY

theorem approx_lam {f f' : Value → Value} (h : ∀ X, Approx up (f X) (f' X)) :
    Approx up (lam Token.arrow f) (lam .arrow f') :=
  Approx.map (fun _ _ => lam_mono) (Approx.pointwise h)

theorem approx_typeApp (h : Approx up X X') :
    Approx up {w | Token.typeArrow t w ∈ X} {w | Token.typeArrow t w ∈ X'} := by
  cases up <;> exact fun _ hw => h hw

theorem approx_typeLam {F F' : TypeValue → Value} (h : ∀ t, Approx up (F t) (F' t)) :
    Approx up {w | ∃ t v, w = Token.typeArrow t v ∧ v ∈ F t}
      {w | ∃ t v, w = Token.typeArrow t v ∧ v ∈ F' t} := by
  cases up <;> exact fun _ ⟨t, v, hw, hv⟩ => ⟨t, v, hw, h t hv⟩

theorem approx_appAll (hX : Approx up X X') (h : List.Forall₂ (Approx up) Xs Xs') :
    Approx up (appAll X Xs) (appAll X' Xs') := by
  induction h generalizing X X' with
  | nil => exact hX
  | cons hY _ ih => exact ih (approx_app hX hY)

theorem approx_constructed (h : Option.Rel (Approx up) payload payload') :
    Approx up (constructed c payload) (constructed c payload') := by
  cases h with
  | none => exact .refl _
  | some h =>
    refine Approx.map (f := fun X => constructed c (some X)) ?_ h
    rintro X X' hX w (hw | ⟨Y, hY, v, hv, hw⟩)
    · exact .inl hw
    · cases hY
      exact .inr ⟨X', rfl, v, hX hv, hw⟩

theorem recordOf_mono {K : Value} {fields fields' : List (TypeValue × Value)}
    (h : List.Forall₂ (fun f f' => f.1 = f'.1 ∧ f.2 ⊆ f'.2) fields fields') :
    recordOf K fields ⊆ recordOf K fields' := by
  have hocc (x : String) : occurrences x fields = occurrences x fields' := by
    induction h with
    | nil => rfl
    | cons hf _ ih =>
      simp only [occurrences, List.countP_cons] at ih ⊢
      rw [ih, hf.1]
  rintro w (⟨x, v, rfl, ⟨hle, f, hf, hx, hv⟩ | ⟨hlt, hv⟩⟩ | ⟨xs, rfl, hxs⟩)
  · have hex : ∃ f ∈ fields', .name x ∈ f.1 ∧ v ∈ f.2 := by
      clear hle hocc
      induction h with
      | nil => cases hf
      | cons hff _ ih =>
        rcases List.mem_cons.mp hf with rfl | hf
        · exact ⟨_, List.mem_cons_self, hff.1 ▸ hx, hff.2 hv⟩
        · obtain ⟨f', hf', hx⟩ := ih hf
          exact ⟨f', List.mem_cons_of_mem _ hf', hx⟩
    exact .inl ⟨x, v, rfl, .inl ⟨hocc x ▸ hle, hex⟩⟩
  · exact .inl ⟨x, v, rfl, .inr ⟨hocc x ▸ hlt, hv⟩⟩
  · refine .inr ⟨xs, rfl, ?_⟩
    clear hocc
    induction h generalizing xs with
    | nil => exact hxs
    | cons hf _ ih =>
      cases hxs with
      | cons hx hxs => exact .cons (hf.1 ▸ hx) (ih _ hxs)

theorem approx_recordOf {fields fields' : List (TypeValue × Value)}
    (h : List.Forall₂ (fun f f' => f.1 = f'.1 ∧ Approx up f.2 f'.2) fields fields') :
    Approx up (recordOf K fields) (recordOf K fields') := by
  cases up
  · exact recordOf_mono (List.Forall₂.flip (h.imp fun _ _ hf => ⟨hf.1.symm, hf.2⟩))
  · exact recordOf_mono h

theorem approx_fieldOf (h : Approx up X X') : Approx up (fieldOf t X) (fieldOf t X') :=
  Approx.map (fun _ _ h _ ⟨x, hx, hv⟩ => ⟨x, hx, h hv⟩) h

theorem concatRecords_mono (hX : X ⊆ X') (hY : Y ⊆ Y') : concatRecords X Y ⊆ concatRecords X' Y' := by
  rintro w (⟨x, v, rfl, hw⟩ | ⟨xs, ys, rfl, hx, hy⟩)
  · exact .inl ⟨x, v, rfl, hw.imp (@hX _) (@hY _)⟩
  · exact .inr ⟨xs, ys, rfl, hX hx, hY hy⟩

theorem approx_concatRecords (hX : Approx up X X') (hY : Approx up Y Y') :
    Approx up (concatRecords X Y) (concatRecords X' Y') :=
  Approx.map₂ (fun _ _ _ _ => concatRecords_mono) hX hY

theorem cutFields_mono (h : X ⊆ X') : cutFields names X ⊆ cutFields names X' := by
  rintro w (⟨x, v, rfl, hx, hw⟩ | ⟨shape, rfl, hw⟩)
  · exact .inl ⟨x, v, rfl, hx, h hw⟩
  · exact .inr ⟨shape, rfl, h hw⟩

theorem approx_cutOf (h : Approx up X X') : Approx up (cutOf t X) (cutOf t X') :=
  Approx.map (fun _ _ h _ ⟨x, hx, hw⟩ => ⟨x, hx, cutFields_mono h hw⟩) h

theorem approx_cutMultiOf (h : Approx up X X') : Approx up (cutMultiOf t X) (cutMultiOf t X') :=
  Approx.map (fun _ _ h _ ⟨names, hn, hw⟩ => ⟨names, hn, cutFields_mono h hw⟩) h

theorem approx_accepts (p : Pattern) (h : Approx up X X') : Approx up (Accepts p X) (Accepts p X') :=
  Approx.map (fun X X' h => (continuous_accepts p (F := fun ρ => ρ 0) (Continuous.mem 0)).mono
    (R := fun _ => X) (S := fun _ => X') fun _ => h) h

theorem approx_rejects (p : Pattern) (h : Approx up X X') : Approx up (Rejects p X) (Rejects p X') :=
  Approx.map (fun X X' h => (continuous_rejects p (F := fun ρ => ρ 0) (Continuous.mem 0)).mono
    (R := fun _ => X) (S := fun _ => X') fun _ => h) h

theorem approx_binds (p : Pattern) (h : Approx up X X') :
    List.Forall₂ (Approx up) (binds p X) (binds p X') := by
  obtain ⟨Gs, hbinds, hG⟩ := exists_selectors p
  rw [hbinds, hbinds, List.forall₂_map_left_iff, List.forall₂_map_right_iff, List.forall₂_same]
  exact fun G hmem => Approx.map (fun X X' h => (hG G hmem (fun ρ => ρ 0) (Continuous.mem 0)).mono
    (R := fun _ => X) (S := fun _ => X') fun _ => h) h

theorem push_mono {X X' : Value} {ρ ρ' : Nat → Value} (hX : X ≤ X') (hρ : ρ ≤ ρ') :
    push X ρ ≤ push X' ρ' := by
  intro i
  cases i with
  | zero => exact hX
  | succ i => exact hρ i

theorem approx_pushAll {ρ ρ' : Nat → Value} (h : List.Forall₂ (Approx up) Xs Xs')
    (hρ : Approx up ρ ρ') : Approx up (pushAll Xs ρ) (pushAll Xs' ρ') := by
  induction h generalizing ρ ρ' with
  | nil => exact hρ
  | cons hX _ ih => exact ih (Approx.map₂ (fun _ _ _ _ => push_mono) hX hρ)

theorem approx_value (g : Globals) (K : Value) (e : Expression) (τ : Nat → TypeValue)
    {ρ ρ' : Nat → Value} (h : Approx up ρ ρ') : Approx up (value g K e τ ρ) (value g K e τ ρ') :=
  Approx.map (fun _ _ h => value_mono g e τ subset_rfl h) h

end

-- ---------------------------------------------------------------------------
-- Records and constructors
-- ---------------------------------------------------------------------------

theorem payload_constructed (c : ConTag) (X : Value) :
    {v | .payload c v ∈ constructed c (some X)} = X := by
  ext v
  simp [constructed]

theorem tag_mem_constructed : .tag c ∈ constructed c' payload ↔ c = c' := by
  simp [constructed]

theorem exists_of_fieldNamed {fields : List (Constructor × Expression × Constructor)}
    (h : fieldNamed fields x = some e) : ∃ f ∈ fields, f.1 = .name x ∧ f.2.1 = e := by
  simp only [fieldNamed, Option.map_eq_some_iff] at h
  obtain ⟨f, hf, rfl⟩ := h
  refine ⟨f, List.mem_of_find?_eq_some hf, ?_, rfl⟩
  have hname := List.find?_some hf
  cases hc : f.1 <;> simp_all [hasName]

theorem fieldNamed_none {fields : List (Constructor × Expression × Constructor)}
    (h : fieldNamed fields x = none) : ∀ f ∈ fields, f.1 ≠ .name x := by
  simp only [fieldNamed, Option.map_eq_none_iff, List.find?_eq_none] at h
  intro f hf hname
  simpa [hname, hasName] using h f hf

theorem eq_of_countP_le_one {α : Type} {p : α → Bool} {l : List α} {a b : α}
    (h : l.countP p ≤ 1) (ha : a ∈ l) (hb : b ∈ l) (hpa : p a) (hpb : p b) :
    a = b := by
  rw [List.countP_eq_length_filter] at h
  have ha := List.mem_filter.mpr ⟨ha, hpa⟩
  have hb := List.mem_filter.mpr ⟨hb, hpb⟩
  match hl : l.filter p with
  | [] => simp [hl] at ha
  | [c] => simp_all
  | c :: d :: l => simp [hl] at h

section
variable {up : Bool} (g : Globals) (τ : Nat → TypeValue) (ρ : Nat → Value)

/-- What a field holds is bounded by the first field of its name. -/
theorem approx_fieldNamed {fields : List (Constructor × Expression × Constructor)}
    (h : fieldNamed fields x = some e) :
    Approx up {v | .field x v ∈ value g (clashOf up) (.record fields) τ ρ}
      (value g (clashOf up) e τ ρ) := by
  obtain ⟨f, hf, hname, rfl⟩ := exists_of_fieldNamed h
  have hmem : (conValue g.types f.1 τ, value g (clashOf up) f.2.1 τ ρ) ∈
      fieldValues g (clashOf up) fields τ ρ := by
    rw [fieldValues_eq]
    exact List.mem_map.mpr ⟨f, hf, rfl⟩
  have hx : .name x ∈ conValue g.types f.1 τ := by simp [hname, conValue]
  cases up with
  | false =>
    intro v hv
    refine .inl ⟨x, v, rfl, ?_⟩
    rcases Nat.lt_or_ge 1 (occurrences x (fieldValues g (clashOf false) fields τ ρ)) with hlt | hle
    · exact .inr ⟨hlt, trivial⟩
    · exact .inl ⟨hle, _, hmem, hx, hv⟩
  | true =>
    rintro v (⟨x, v, heq, ⟨hle, f', hf', hx', hv⟩ | ⟨-, hv⟩⟩ | ⟨xs, heq, -⟩) <;> cases heq
    · have heq := eq_of_countP_le_one hle hf' hmem (by simpa using hx') (by simpa using hx)
      rwa [heq] at hv
    · exact hv.elim

theorem fieldOf_name (x : String) (X : Value) : fieldOf {.name x} X = {v | .field x v ∈ X} := by
  ext v
  simp [fieldOf]

/-- The names of a record all of whose fields are named literally. -/
theorem exists_names {fields : List (Constructor × Expression × Constructor)}
    (h : ∀ f ∈ fields, isName f.1) : ∃ l : List String,
      (∀ xs, List.Forall₂ (fun x f => .name x ∈ f.1) xs (fieldValues g K fields τ ρ) ↔ xs = l) ∧
      ∀ x, x ∈ l ↔ (fieldNamed fields x).isSome := by
  induction fields with
  | nil => exact ⟨[], by simp [fieldValues], by simp [fieldNamed]⟩
  | cons f fields ih =>
    simp only [List.forall_mem_cons] at h
    obtain ⟨l, hl, hx⟩ := ih h.2
    obtain ⟨c, e, t⟩ := f
    cases c with
    | name s =>
      refine ⟨s :: l, fun xs => ?_, fun x => ?_⟩
      · simp [fieldValues, conValue, List.forall₂_cons_right_iff, hl]
      · simp only [fieldNamed, Option.isSome_map] at hx ⊢
        rcases eq_or_ne s x with rfl | hs
        · simp [hasName]
        · simp [hasName, hs, hs.symm, hx]
    | _ => simp [isName] at h

theorem shape_of_names {fields : List (Constructor × Expression × Constructor)}
    (h : ∀ f ∈ fields, isName f.1) : ∃ names : Finset String,
      (∀ shape, .shape shape ∈ value g K (.record fields) τ ρ ↔ shape = names) ∧
      ∀ x, x ∈ names ↔ (fieldNamed fields x).isSome := by
  obtain ⟨l, hl, hx⟩ := exists_names (K := K) g τ ρ h
  exact ⟨l.toFinset, fun shape => by simp [value, recordOf, hl], by simpa using hx⟩

end

-- ---------------------------------------------------------------------------
-- Matching
-- ---------------------------------------------------------------------------

/-- A bound on the value matches the pattern. -/
def Matches : (up : Bool) → Pattern → Value → Prop
  | true, p, X => ¬Rejects p X
  | false, p, X => Accepts p X

/-- A bound on the value fails to match the pattern. -/
def Fails : (up : Bool) → Pattern → Value → Prop
  | true, p, X => ¬Accepts p X
  | false, p, X => Rejects p X

section
variable {up : Bool} {X X' : Value}

theorem Matches.of_approx (h : Approx up X X') (hm : Matches up p X') : Matches up p X := by
  have := approx_accepts p h
  have := approx_rejects p h
  cases up <;> tauto

theorem Fails.of_approx (h : Approx up X X') (hf : Fails up p X') : Fails up p X := by
  have := approx_accepts p h
  have := approx_rejects p h
  cases up <;> tauto

theorem Matches.constructor (htag : ∀ c, .tag c ∈ X ↔ c = conTag pc)
    (h : ∀ p ∈ sub, Matches up p {v | .payload (conTag pc) v ∈ X}) :
    Matches up (.constructor dk pc args sub) X := by
  cases up with
  | true =>
    rintro (⟨c, hc, hne⟩ | hsub)
    · exact hne ((htag c).mp hc)
    · obtain ⟨p, hp, hr⟩ := subRejects_iff.mp hsub
      exact h p hp hr
  | false => exact ⟨(htag _).mpr rfl, subAccepts_iff.mpr h⟩

theorem Fails.tag (htag : ∀ c', .tag c' ∈ X ↔ c' = c) (hne : c ≠ conTag pc) :
    Fails up (.constructor dk pc args sub) X := by
  cases up with
  | true => exact fun h => hne ((htag _).mp h.1).symm
  | false => exact .inl ⟨c, (htag c).mpr rfl, hne⟩

theorem Fails.payload (h : Fails up p {v | .payload (conTag pc) v ∈ X}) :
    Fails up (.constructor dk pc args (some p)) X := by
  cases up with
  | true => exact fun ha => h ha.2
  | false => exact .inr h

theorem Matches.record {names : Finset String} (hshape : ∀ shape, .shape shape ∈ X ↔ shape = names)
    (h : ∀ f ∈ fields, f.1 ∈ names ∧ Matches up f.2.1 {v | .field f.1 v ∈ X}) :
    Matches up (.record fields) X := by
  cases up with
  | true =>
    rintro (⟨shape, hmem, f, hf, hx⟩ | hr)
    · exact hx ((hshape shape).mp hmem ▸ (h f hf).1)
    · obtain ⟨f, hf, hr⟩ := fieldsReject_iff.mp hr
      exact (h f hf).2 hr
  | false =>
    exact ⟨⟨names, (hshape names).mpr rfl, fun f hf => (h f hf).1⟩,
      fieldsAccept_iff.mpr fun f hf => (h f hf).2⟩

theorem Fails.record {names : Finset String} (hshape : ∀ shape, .shape shape ∈ X ↔ shape = names)
    (hf : f ∈ fields) (h : f.1 ∉ names ∨ Fails up f.2.1 {v | .field f.1 v ∈ X}) :
    Fails up (.record fields) X := by
  cases up with
  | true =>
    rintro ⟨⟨shape, hmem, hall⟩, ha⟩
    exact h.elim (fun hx => hx ((hshape shape).mp hmem ▸ hall f hf))
      fun hfail => hfail (fieldsAccept_iff.mp ha f hf)
  | false =>
    exact h.elim (fun hx => .inl ⟨names, (hshape names).mpr rfl, f, hf, hx⟩)
      fun hfail => .inr (fieldsReject_iff.mpr ⟨f, hf, hfail⟩)

end

/-- The items for matched parts, the last one first. -/
def matched : List Expression → Environment
  | [] => []
  | e :: es => .known (shiftExp (es.length : Nat) 0 e 0 0) :: matched es

@[simp] theorem length_matched (es : List Expression) : (matched es).length = es.length := by
  induction es with
  | nil => rfl
  | cons e es ih => simp [matched, ih]

section
variable {up : Bool} (g : Globals) (τ : Nat → TypeValue) (ρ : Nat → Value)

/-- The parts `es`, matched after `old`, are bounded by the values. -/
def BindsParts (up : Bool) (Xs : List Value) (env : Environment) (old : List Expression)
    (result : Environment) : Prop :=
  ∃ es, result = matched (es ++ old) ++ env ∧
    List.Forall₂ (Approx up) Xs (es.reverse.map fun e => value g (clashOf up) e τ ρ)

/-- What a match says about a value bounded by `X`. -/
def MatchSound (up : Bool) (env : Environment) (old : List Expression) (hits misses : Prop)
    (Xs : List Value) : MatchResult → Prop
  | .yes result => hits ∧ BindsParts g τ ρ up Xs env old result
  | .no => misses
  | .maybe => True

/-- What is matched when patterns are matched one after the other. -/
theorem BindsParts.append {g τ ρ up}
    (h : List.Forall₂ (Approx up) Xs (es.reverse.map fun e => value g (clashOf up) e τ ρ))
    (h' : BindsParts g τ ρ up Ys env (es ++ old) result) :
    BindsParts g τ ρ up (Xs ++ Ys) env old result := by
  obtain ⟨es', rfl, hes⟩ := h'
  refine ⟨es' ++ es, by rw [List.append_assoc], ?_⟩
  rw [List.reverse_append, List.map_append]
  exact List.rel_append h hes

theorem forall₂_approx_trans (h : List.Forall₂ (Approx up) Xs Ys)
    (h' : List.Forall₂ (Approx up) Ys Zs) : List.Forall₂ (Approx up) Xs (Zs : List Value) := by
  induction h generalizing Zs with
  | nil => exact h'
  | cons hX _ ih =>
    cases h' with
    | cons hY h' => exact .cons (hX.trans hY) (ih h')

theorem tryMatchFields_sound {xes : List (Constructor × Expression × Constructor)}
    {names : Finset String} (hnames : ∀ x, x ∈ names ↔ (fieldNamed xes x).isSome)
    {xps : List (String × Pattern × Constructor)}
    (ih : ∀ f ∈ xps, ∀ e old, MatchSound g τ ρ up env old
      (Matches up f.2.1 (value g (clashOf up) e τ ρ)) (Fails up f.2.1 (value g (clashOf up) e τ ρ))
      (binds f.2.1 (value g (clashOf up) e τ ρ))
      (tryMatchInner env.length (matched old ++ env) f.2.1 e))
    {X : Value} (hX : X = value g (clashOf up) (.record xes) τ ρ) (old : List Expression) :
    MatchSound g τ ρ up env old
      (∀ f ∈ xps, f.1 ∈ names ∧ Matches up f.2.1 {v | .field f.1 v ∈ X})
      (∃ f ∈ xps, f.1 ∉ names ∨ Fails up f.2.1 {v | .field f.1 v ∈ X}) (fieldsBind xps X)
      (tryMatchFields env.length (matched old ++ env) xps xes) := by
  induction xps generalizing old with
  | nil => exact ⟨by simp, [], rfl, .nil⟩
  | cons f xps ihxps =>
    obtain ⟨x, p, t⟩ := f
    simp only [List.forall_mem_cons] at ih
    rw [tryMatchFields]
    cases hev : fieldNamed xes x with
    | none => exact ⟨_, List.mem_cons_self, .inl (by simp [hnames, hev])⟩
    | some ev =>
      have happrox : Approx up {v | .field x v ∈ X} (value g (clashOf up) ev τ ρ) :=
        hX ▸ approx_fieldNamed g τ ρ hev
      have hx : x ∈ names := by simp [hnames, hev]
      have hfirst := ih.1 ev old
      simp only
      cases hmatch : tryMatchInner env.length (matched old ++ env) p ev with
      | no =>
        rw [hmatch] at hfirst
        exact ⟨_, List.mem_cons_self, .inr (Fails.of_approx happrox hfirst)⟩
      | maybe => trivial
      | yes result =>
        rw [hmatch] at hfirst
        obtain ⟨hm, es, rfl, hes⟩ := hfirst
        have hes := forall₂_approx_trans (approx_binds p happrox) hes
        have hrest := ihxps ih.2 (es ++ old)
        simp only
        cases htail : tryMatchFields env.length (matched (es ++ old) ++ env) xps xes with
        | no =>
          rw [htail] at hrest
          obtain ⟨f, hf, h⟩ := hrest
          exact ⟨f, List.mem_cons_of_mem _ hf, h⟩
        | maybe => trivial
        | yes result =>
          rw [htail] at hrest
          exact ⟨List.forall_mem_cons.mpr ⟨⟨hx, Matches.of_approx happrox hm⟩, hrest.1⟩,
            BindsParts.append hes hrest.2⟩

theorem tryMatchInner_sound (p : Pattern) (e : Expression) (env : Environment)
    (old : List Expression) :
    MatchSound g τ ρ up env old (Matches up p (value g (clashOf up) e τ ρ))
      (Fails up p (value g (clashOf up) e τ ρ)) (binds p (value g (clashOf up) e τ ρ))
      (tryMatchInner env.length (matched old ++ env) p e) := by
  induction p generalizing e old with
  | var x t =>
    refine ⟨?_, [e], ?_, ?_⟩
    · cases up <;> simp [Matches, Accepts, Rejects]
    · simp [matched]
    · simpa [binds] using Approx.refl _
  | prim p =>
    simp only [tryMatchInner]
    split
    · split
      · refine ⟨?_, [], rfl, .nil⟩
        cases up <;> simp_all [Matches, Accepts, Rejects, value]
      · show Fails up _ _
        cases up <;> simp_all [Fails, Accepts, Rejects, value]
    · trivial
  | constructor dk pc args sub ih =>
    have hsub (dk' pc' args') (payload : Option Expression) (same : Bool)
        (hsame : same = true ↔ conTag pc' = conTag pc) :
        MatchSound g τ ρ up env old
          (Matches up (.constructor dk pc args sub)
            (value g (clashOf up) (.constructor dk' pc' args' payload) τ ρ))
          (Fails up (.constructor dk pc args sub)
            (value g (clashOf up) (.constructor dk' pc' args' payload) τ ρ))
          (binds (.constructor dk pc args sub)
            (value g (clashOf up) (.constructor dk' pc' args' payload) τ ρ))
          (tryMatchSub env.length same (matched old ++ env) sub payload) := by
      have htag (c) : .tag c ∈ value g (clashOf up) (.constructor dk' pc' args' payload) τ ρ ↔
          c = conTag pc' := tag_mem_constructed
      cases same with
      | false =>
        have hfail : Fails up (.constructor dk pc args sub) _ :=
          Fails.tag htag fun heq => by simp [heq] at hsame
        cases sub <;> cases payload <;> first | exact hfail | trivial
      | true =>
        have heq := hsame.mp rfl
        rw [heq] at htag
        cases sub with
        | none =>
          cases payload with
          | none => exact ⟨Matches.constructor htag (by simp), [], rfl, .nil⟩
          | some e => trivial
        | some p =>
          cases payload with
          | none => trivial
          | some e =>
            have hvalue : {v | .payload (conTag pc) v ∈
                value g (clashOf up) (.constructor dk' pc' args' (some e)) τ ρ} =
                  value g (clashOf up) e τ ρ := by
              rw [← heq]
              exact payload_constructed _ _
            have hinner := ih p rfl e old
            simp only [tryMatchSub, if_true, binds, subBinds, hvalue]
            cases hres : tryMatchInner env.length (matched old ++ env) p e with
            | yes result =>
              rw [hres] at hinner
              refine ⟨Matches.constructor htag ?_, hinner.2⟩
              rintro _ ⟨⟩
              rw [hvalue]
              exact hinner.1
            | no =>
              rw [hres] at hinner
              exact Fails.payload (hvalue ▸ hinner)
            | maybe => trivial
    cases pc with
    | var n =>
      simp only [tryMatchInner]
      split
      · exact hsub _ _ _ _ _ (by simp [conTag, eq_comm])
      · trivial
    | ffi m datatyp params con arg kind =>
      simp only [tryMatchInner]
      split
      · exact hsub _ _ _ _ _ (by simp [conTag, @eq_comm String])
      · trivial
  | record fields ih =>
    simp only [tryMatchInner]
    split
    · split
      · trivial
      · rename_i xes hall
        have hall : ∀ f ∈ xes, isName f.1 := by simpa using hall
        obtain ⟨names, hshape, hnames⟩ := shape_of_names (K := clashOf up) g τ ρ hall
        have hfields := tryMatchFields_sound g τ ρ hnames (fun f hf e old => ih f hf e old) rfl old
        cases hmatch : tryMatchFields env.length (matched old ++ env) fields xes with
        | yes result =>
          rw [hmatch] at hfields
          exact ⟨Matches.record hshape hfields.1, hfields.2⟩
        | no =>
          rw [hmatch] at hfields
          obtain ⟨f, hf, h⟩ := hfields
          exact Fails.record hshape hf h
        | maybe => trivial
    · trivial

end

-- ---------------------------------------------------------------------------
-- Arms
-- ---------------------------------------------------------------------------

section
variable {up : Bool} (g : Globals) (K : Value) {arms : List (Pattern × Expression)} {X W : Value}
  (τ : Nat → TypeValue) (ρ : Nat → Value)

theorem armsValue_skip (hf : Fails up p X) (h : Approx up (armsValue g K arms X τ ρ) W) :
    Approx up (armsValue g K ((p, e) :: arms) X τ ρ) W := by
  cases up with
  | true => exact fun w hw => hw.elim (fun hw => (hf hw.1).elim) fun hw => h hw.2
  | false => exact fun w hw => .inr ⟨hf, h hw⟩

theorem armsValue_take (hm : Matches up p X) : Approx up (armsValue g K ((p, e) :: arms) X τ ρ)
    (value g K e τ (pushAll (binds p X) ρ)) := by
  cases up with
  | true => exact fun w hw => hw.elim And.right fun hw => (hm hw.1).elim
  | false => exact fun w hw => .inl ⟨hm, hw⟩

theorem approx_choice {A A' R R' : Prop} {V V' W W' : Value} (hA : Approx up A A')
    (hV : Approx up V V') (hR : Approx up R R') (hW : Approx up W W') :
    Approx up {w | A ∧ w ∈ V ∨ R ∧ w ∈ W} {w | A' ∧ w ∈ V' ∨ R' ∧ w ∈ W'} := by
  cases up <;> exact fun w => Or.imp (And.imp hA (@hV w)) (And.imp hR (@hW w))

theorem approx_arms {arms' : List (Pattern × Expression)} {X X' : Value} {τ' : Nat → TypeValue}
    {ρ' : Nat → Value} (hX : Approx up X X')
    (h : List.Forall₂ (fun a a' => untyped a.1 = untyped a'.1 ∧ ∀ Xs, Xs.length = patBindsN a.1 →
      Approx up (value g K a.2 τ (pushAll Xs ρ)) (value g K a'.2 τ' (pushAll Xs ρ'))) arms arms') :
    Approx up (armsValue g K arms X τ ρ) (armsValue g K arms' X' τ' ρ') := by
  induction h with
  | nil => exact .refl _
  | @cons a a' _ _ ha _ ih =>
    have hbinds := approx_value g K a.2 τ (approx_pushAll (approx_binds a.1 hX) (.refl ρ))
    have hbody := hbinds.trans (ha.2 (binds a.1 X') (length_binds a.1 X'))
    have hchoice := approx_choice (approx_accepts a.1 hX) hbody (approx_rejects a.1 hX) ih
    simpa only [armsValue, accepts_congr ha.1, rejects_congr ha.1, binds_congr ha.1] using hchoice

theorem approx_disc (arms : List (Pattern × Expression)) {X X' : Value} (hX : Approx up X X') :
    Approx up (armsValue g K arms X τ ρ) (armsValue g K arms X' τ ρ) :=
  approx_arms g K τ ρ hX (List.forall₂_same.mpr fun _ _ => ⟨rfl, fun _ _ => .refl _⟩)

end

-- ---------------------------------------------------------------------------
-- Environments of arms
-- ---------------------------------------------------------------------------

section
variable (g : Globals) (K : Value) (env : Environment) (τ : Nat → TypeValue) (ρ : Nat → Value)

@[simp] theorem typeContext_replicate (g : TypeGlobals) (n : Nat) :
    typeContext g (List.replicate n .unknown ++ env) τ = typeContext g env τ := by
  induction n with
  | zero => rfl
  | succ n ih => exact ih

@[simp] theorem context_unknown (X : Value) :
    context g K (.unknown :: env) τ (push X ρ) = push X (context g K env τ ρ) := rfl

theorem context_replicate (Xs : List Value) :
    context g K (List.replicate Xs.length .unknown ++ env) τ (pushAll Xs ρ) =
      pushAll Xs (context g K env τ ρ) := by
  induction Xs generalizing env ρ with
  | nil => rfl
  | cons X Xs ih =>
    have := ih (.unknown :: env) (push X ρ)
    rw [List.append_cons, ← List.replicate_succ'] at this
    exact this

@[simp] theorem typeContext_matched (g : TypeGlobals) (es : List Expression) :
    typeContext g (matched es ++ env) τ = typeContext g env τ := by
  induction es with
  | nil => rfl
  | cons e es ih => exact ih

theorem pushAll_add (Xs : List Value) (i : Nat) : pushAll Xs ρ (i + Xs.length) = ρ i := by
  induction Xs generalizing ρ i with
  | nil => rfl
  | cons X Xs ih =>
    rw [List.length_cons, Nat.add_comm Xs.length, ← Nat.add_assoc]
    exact ih (push X ρ) (i + 1)

theorem skip_pushAll (Xs : List Value) : skip 0 Xs.length (pushAll Xs ρ) = ρ := by
  funext i
  rw [← pushAll_add ρ Xs i]
  simp only [skip, shiftIndex, Nat.zero_le, if_true]
  exact congrArg (pushAll Xs ρ) (by omega)

theorem skip_zero (τ : Nat → TypeValue) : skip 0 0 τ = τ := by
  funext i
  simp [skip, shiftIndex]

/-- A part means the same below the parts matched before it. -/
theorem value_part (e : Expression) (Xs : List Value) :
    value g K (shiftExp (Xs.length : Nat) 0 e 0 0) τ (pushAll Xs ρ) = value g K e τ ρ := by
  have := value_shift g K Xs.length 0 e 0 0 τ (pushAll Xs ρ)
  rwa [skip_pushAll, skip_zero] at this

/-- Matched parts that may be read again are bound to what they mean. -/
theorem context_matched (es : List Expression) (h : (rereads env (matched es)).all safe) :
    context g K (matched es ++ env) τ ρ =
      pushAll (es.reverse.map fun e => value g K e τ ρ) (context g K env τ ρ) := by
  induction es with
  | nil => rfl
  | cons e es ih =>
    simp only [matched, rereads, List.all_cons, Bool.and_eq_true, length_matched] at h
    have hlength : (es.reverse.map fun e => value g K e τ ρ).length = es.length := by simp
    have hreread := value_reread g K h.1 τ (pushAll (es.reverse.map fun e => value g K e τ ρ) ρ)
    rw [← hlength, context_replicate, typeContext_replicate, value_part, value_part] at hreread
    have hpart := value_part g K (typeContext g.types env τ) (context g K env τ ρ) e
      (es.reverse.map fun e => value g K e τ ρ)
    rw [hlength, hreread] at hpart
    rw [List.reverse_cons, List.map_append, pushAll, List.foldl_append]
    show push (value g K _ (typeContext g.types (matched es ++ env) τ)
      (context g K (matched es ++ env) τ ρ)) (context g K (matched es ++ env) τ ρ) = _
    rw [typeContext_matched, ih h.2, hpart]
    rfl

end

/-- A chosen arm is taken with the parts of the value that its pattern binds. -/
theorem chosenArm_sound {u : Bool} (g : Globals) (τ : Nat → TypeValue) (ρ : Nat → Value)
    (h : chosenArm env disc arms = some (armEnv, body)) : ∃ p es, armEnv = matched es ++ env ∧
      List.Forall₂ (Approx u) (binds p (value g (clashOf u) disc τ ρ))
        (es.reverse.map fun e => value g (clashOf u) e τ ρ) ∧
      ∀ τ' ρ', Approx u (armsValue g (clashOf u) arms (value g (clashOf u) disc τ ρ) τ' ρ')
        (value g (clashOf u) body τ' (pushAll (binds p (value g (clashOf u) disc τ ρ)) ρ')) := by
  induction arms with
  | nil => cases h
  | cons arm arms ih =>
    obtain ⟨p, e⟩ := arm
    have hmatch : MatchSound g τ ρ u _ _ _ _ _ _ := tryMatchInner_sound g τ ρ p disc env []
    rw [chosenArm, tryMatch] at h
    cases hresult : tryMatchInner env.length env p disc with
    | maybe => simp [hresult] at h
    | no =>
      rw [matched, List.nil_append, hresult] at hmatch
      simp only [hresult] at h
      obtain ⟨p', es, hes, hparts, harm⟩ := ih h
      exact ⟨p', es, hes, hparts, fun τ' ρ' => armsValue_skip g _ τ' ρ' hmatch (harm τ' ρ')⟩
    | yes result =>
      rw [matched, List.nil_append, hresult] at hmatch
      simp only [hresult] at h
      cases h
      obtain ⟨hm, es, rfl, hes⟩ := hmatch
      exact ⟨p, es, by rw [List.append_nil], hes, fun τ' ρ' => armsValue_take g _ τ' ρ' hm⟩

-- ---------------------------------------------------------------------------
-- Expressions
-- ---------------------------------------------------------------------------

/-- What an expression means with the known variables substituted. -/
def valueIn (g : Globals) (K : Value) (env : Environment) (e : Expression)
    (τ : Nat → TypeValue) (ρ : Nat → Value) : Value :=
  value g K e (typeContext g.types env τ) (context g K env τ ρ)

theorem conTag_simplifyPatCon {allowed : Step → Bool}
    (h : simplifyPatCon allowed fuel env pc = some pc') : conTag pc' = conTag pc := by
  cases pc with
  | var n =>
    cases h
    rfl
  | ffi m datatyp params con arg kind =>
    simp only [simplifyPatCon, Option.bind_eq_bind, Option.bind_eq_some_iff] at h
    obtain ⟨_, -, ⟨⟩⟩ := h
    rfl

theorem untyped_simplifyPatCon {allowed : Step → Bool}
    (h : simplifyPatCon allowed fuel env pc = some pc') :
    PatternConstructor.untyped pc' = PatternConstructor.untyped pc := by
  cases pc with
  | var n =>
    cases h
    rfl
  | ffi m datatyp params con arg kind =>
    simp only [simplifyPatCon, Option.bind_eq_bind, Option.bind_eq_some_iff] at h
    obtain ⟨_, -, ⟨⟩⟩ := h
    rfl

theorem untyped_simplifyPat {allowed : Step → Bool} {p p' : Pattern}
    (h : simplifyPat allowed fuel env p = some p') : untyped p' = untyped p := by
  induction p generalizing p' with
  | var x t =>
    simp only [simplifyPat, Option.bind_eq_bind, Option.bind_eq_some_iff] at h
    obtain ⟨_, -, ⟨⟩⟩ := h
    rfl
  | prim p =>
    cases h
    rfl
  | constructor dk pc cs sub ih =>
    simp only [simplifyPat, Option.bind_eq_bind, Option.bind_eq_some_iff] at h
    obtain ⟨_, hpc, _, -, sub', hsub, ⟨⟩⟩ := h
    cases sub with
    | none =>
      cases hsub
      simp only [untyped, untypedSub, untyped_simplifyPatCon hpc]
    | some p =>
      simp only [simplifySubPat, Option.bind_eq_bind, Option.bind_eq_some_iff] at hsub
      obtain ⟨p', hp, ⟨⟩⟩ := hsub
      simp only [untyped, untypedSub, untyped_simplifyPatCon hpc, ih p rfl hp]
  | record fields ih =>
    simp only [simplifyPat, Option.bind_eq_bind, Option.bind_eq_some_iff] at h
    obtain ⟨fields', hfields, ⟨⟩⟩ := h
    simp only [untyped]
    congr 1
    induction fields generalizing fields' with
    | nil =>
      cases hfields
      rfl
    | cons f fields ihf =>
      simp only [simplifyPatFields, Option.bind_eq_bind, Option.bind_eq_some_iff] at hfields
      simp only [List.forall_mem_cons] at ih
      obtain ⟨p', hp, _, -, rest, hrest, ⟨⟩⟩ := hfields
      simp only [untypedFields, ih.1 hp, ihf ih.2 rest hrest]

section
variable {up : Bool} (g : Globals)

theorem findExp_sound {simplify : Environment → Expression → Option Expression}
    (ih : ∀ env e e', simplify env e = some e' → ∀ τ ρ,
      Approx up (valueIn g (clashOf up) env e τ ρ) (value g (clashOf up) e' τ ρ))
    (h : findExp simplify env nOrig nRem nudge liftC liftE = some e')
    (hn : (nOrig : Int) + nudge = liftE + nRem) (τ : Nat → TypeValue) (ρ : Nat → Value) :
    Approx up (context g (clashOf up) env (outer liftC τ) (outer liftE ρ) nRem)
      (value g (clashOf up) e' τ ρ) := by
  induction env generalizing nRem nudge liftC liftE with
  | nil =>
    cases h
    rw [hn]
    exact .of_eq (congrArg ρ (Nat.add_comm nRem liftE))
  | cons item env ihenv =>
    cases item with
    | unknown =>
      simp only [findExp] at h
      split at h
      · subst nRem
        cases h
        rw [hn]
        exact .of_eq (congrArg ρ (Nat.zero_add liftE))
      · obtain ⟨n, rfl⟩ := Nat.exists_eq_succ_of_ne_zero ‹_›
        have := ihenv h (by omega)
        rwa [Nat.add_comm, ← outer_outer] at this
    | known e =>
      simp only [findExp] at h
      split at h
      · subst nRem
        exact ih _ _ _ h τ ρ
      · obtain ⟨n, rfl⟩ := Nat.exists_eq_succ_of_ne_zero ‹_›
        exact ihenv h (by omega)
    | unknownC =>
      have := ihenv h hn
      rwa [Nat.add_comm, ← outer_outer] at this
    | knownC c => exact ihenv h hn
    | lift lc le =>
      have := ihenv h (by omega)
      rwa [Nat.add_comm liftC, Nat.add_comm liftE, ← outer_outer, ← outer_outer] at this

/-- Simplification moves both bounds inwards. -/
theorem simplifyExp_sound (h : simplifyExp safe fuel env e = some e') (τ : Nat → TypeValue)
    (ρ : Nat → Value) :
    Approx up (valueIn g (clashOf up) env e τ ρ) (value g (clashOf up) e' τ ρ) := by
  induction fuel generalizing env e e' τ ρ with
  | zero => cases h
  | succ fuel ih =>
    cases e with
    | prim p | named n | ffi m x =>
      cases h
      exact .refl _
    | rel n => exact findExp_sound g (fun _ _ _ h τ ρ => ih h τ ρ) h (by simp) τ ρ
    | constructor dk pc cs payload =>
      simp only [simplifyExp, Option.bind_eq_bind, Option.bind_eq_some_iff] at h
      obtain ⟨pc', hpc, cs', -, payload', hpayload, ⟨⟩⟩ := h
      simp only [valueIn, value, payloadValue_eq, conTag_simplifyPatCon hpc]
      refine approx_constructed ?_
      cases payload with
      | none =>
        cases hpayload
        exact .none
      | some e =>
        obtain ⟨e', he, rfl⟩ := Option.map_eq_some_iff.mp hpayload
        exact .some (ih he τ ρ)
    | ffiApp m x args =>
      simp only [simplifyExp, Option.bind_eq_bind, Option.bind_eq_some_iff] at h
      obtain ⟨args', hargs, ⟨⟩⟩ := h
      simp only [valueIn, value, argValues_eq]
      refine approx_appAll (.refl _) ?_
      rw [List.forall₂_map_left_iff, List.forall₂_map_right_iff]
      refine (mapM_eq_some_iff.mp hargs).imp fun a a' ha => ?_
      simp only [Option.bind_eq_some_iff] at ha
      obtain ⟨e', he, _, -, ⟨⟩⟩ := ha
      exact ih he τ ρ
    | app e1 e2 =>
      simp only [simplifyExp, Option.bind_eq_bind, Option.bind_eq_some_iff] at h
      obtain ⟨f, hf, arg, harg, h⟩ := h
      refine (approx_app (ih hf τ ρ) (ih harg τ ρ)).trans ?_
      split at h
      · split at h
        · exact absurd (guard_bind_eq_some.mp h).1 Bool.false_ne_true
        · obtain ⟨hbody, h⟩ := guard_bind_eq_some.mp h
          obtain ⟨hargument, h⟩ := guard_bind_eq_some.mp h
          refine (Approx.of_eq ?_).trans (ih h τ ρ)
          have hreread := value_reread g (clashOf up) hbody τ (push (value g (clashOf up) arg τ ρ) ρ)
          rw [context_unknown] at hreread
          simp only [value, app_abs, ← hreread, valueIn, context, typeContext,
            value_reread g (clashOf up) hargument]
      · cases h
        exact .refl _
    | abs x dom ran e =>
      simp only [simplifyExp, Option.bind_eq_bind, Option.bind_eq_some_iff] at h
      obtain ⟨_, -, _, -, body, hbody, ⟨⟩⟩ := h
      exact approx_lam fun X => ih hbody τ (push X ρ)
    | cApp e c =>
      simp only [simplifyExp, Option.bind_eq_bind, Option.bind_eq_some_iff] at h
      obtain ⟨f, hf, d, hd, h⟩ := h
      have happly : Approx up (valueIn g (clashOf up) env (.cApp e c) τ ρ)
          (value g (clashOf up) (.cApp f d) τ ρ) := by
        simp only [valueIn, value, ← simplifyCon_value g.types hd]
        exact approx_typeApp (ih hf τ ρ)
      refine happly.trans ?_
      split at h
      · obtain ⟨hbody, h⟩ := guard_bind_eq_some.mp h
        obtain ⟨hargument, h⟩ := guard_bind_eq_some.mp h
        refine (Approx.of_eq ?_).trans (ih h τ ρ)
        have hreread := value_reread g (clashOf up) hbody (push (conValue g.types d τ) τ) ρ
        simp only [typeContext_unknownC, context, outer_push] at hreread
        simp only [cApp_cAbs, ← hreread, valueIn, context, typeContext,
          conValue_reread g.types hargument]
      · cases h
        exact .refl _
    | cAbs x k e =>
      simp only [simplifyExp, Option.bind_eq_bind, Option.bind_eq_some_iff] at h
      obtain ⟨_, he, ⟨⟩⟩ := h
      exact approx_typeLam fun t => ih he (push t τ) ρ
    | kAbs x e | kApp e k =>
      simp only [simplifyExp, Option.bind_eq_bind, Option.bind_eq_some_iff] at h
      obtain ⟨_, he, ⟨⟩⟩ := h
      exact ih he τ ρ
    | record fields =>
      simp only [simplifyExp, Option.bind_eq_bind, Option.bind_eq_some_iff] at h
      obtain ⟨fields', hfields, ⟨⟩⟩ := h
      simp only [valueIn, value, fieldValues_eq]
      refine approx_recordOf ?_
      rw [List.forall₂_map_left_iff, List.forall₂_map_right_iff]
      refine (mapM_eq_some_iff.mp hfields).imp fun f f' hf => ?_
      simp only [Option.bind_eq_some_iff] at hf
      obtain ⟨c', hc, e', he, _, -, ⟨⟩⟩ := hf
      exact ⟨(simplifyCon_value g.types hc τ).symm, ih he τ ρ⟩
    | field e c info =>
      simp only [simplifyExp, Option.bind_eq_bind, Option.bind_eq_some_iff] at h
      obtain ⟨e', he, c', hc, info', -, h⟩ := h
      have hfield : Approx up (valueIn g (clashOf up) env (.field e c info) τ ρ)
          (value g (clashOf up) (.field e' c' info') τ ρ) := by
        simp only [valueIn, value, ← simplifyCon_value g.types hc]
        exact approx_fieldOf (ih he τ ρ)
      refine hfield.trans ?_
      split at h
      · split at h
        · cases h
          simp only [value, conValue, fieldOf_name]
          exact approx_fieldNamed g τ ρ ‹_›
        · cases h
          exact .refl _
      · cases h
        exact .refl _
    | concat e1 c1 e2 c2 =>
      simp only [simplifyExp, Option.bind_eq_bind, Option.bind_eq_some_iff] at h
      obtain ⟨_, h1, _, -, _, h2, _, -, ⟨⟩⟩ := h
      exact approx_concatRecords (ih h1 τ ρ) (ih h2 τ ρ)
    | cut e c info =>
      simp only [simplifyExp, Option.bind_eq_bind, Option.bind_eq_some_iff] at h
      obtain ⟨_, he, _, hc, _, -, ⟨⟩⟩ := h
      simp only [valueIn, value, ← simplifyCon_value g.types hc]
      exact approx_cutOf (ih he τ ρ)
    | cutMulti e c info =>
      simp only [simplifyExp, Option.bind_eq_bind, Option.bind_eq_some_iff] at h
      obtain ⟨_, he, _, hc, _, -, ⟨⟩⟩ := h
      simp only [valueIn, value, ← simplifyCon_value g.types hc]
      exact approx_cutMultiOf (ih he τ ρ)
    | case disc arms info =>
      simp only [simplifyExp, Option.bind_eq_bind, Option.bind_eq_some_iff] at h
      obtain ⟨_, -, _, -, disc', hdisc, h⟩ := h
      split at h
      · rename_i armEnv body hchosen
        obtain ⟨hsafe, h⟩ := guard_bind_eq_some.mp h
        obtain ⟨p, es, rfl, hbinds, harms⟩ := chosenArm_sound (u := up) g τ ρ hchosen
        have htake : (matched es ++ env).take ((matched es ++ env).length - env.length) = matched es := by
          simp
        rw [htake] at hsafe
        have hscrutinee := approx_disc g (clashOf up) (typeContext g.types env τ)
          (context g (clashOf up) env τ ρ) arms (ih hdisc τ ρ)
        have hparts := approx_value g (clashOf up) body (typeContext g.types env τ)
          (approx_pushAll hbinds (.refl (context g (clashOf up) env τ ρ)))
        have henter := ih h τ ρ
        rw [valueIn, typeContext_matched, context_matched g (clashOf up) env τ ρ es hsafe] at henter
        exact hscrutinee.trans ((harms _ _).trans (hparts.trans henter))
      · simp only [Option.bind_eq_some_iff] at h
        obtain ⟨arms', harms, ⟨⟩⟩ := h
        refine approx_arms g (clashOf up) _ _ (ih hdisc τ ρ) ?_
        refine (mapM_eq_some_iff.mp harms).imp fun a a' ha => ?_
        simp only [Option.bind_eq_some_iff] at ha
        obtain ⟨p', hp, e', he, ⟨⟩⟩ := ha
        refine ⟨(untyped_simplifyPat hp).symm, fun Xs hXs => ?_⟩
        have hbody := ih he τ (pushAll Xs ρ)
        rwa [valueIn, ← hXs, context_replicate, typeContext_replicate] at hbody
    | write e =>
      simp only [simplifyExp, Option.bind_eq_bind, Option.bind_eq_some_iff] at h
      obtain ⟨_, he, ⟨⟩⟩ := h
      exact approx_app (.refl _) (ih he τ ρ)
    | closure n es =>
      simp only [simplifyExp, Option.bind_eq_bind, Option.bind_eq_some_iff] at h
      obtain ⟨es', hes, ⟨⟩⟩ := h
      simp only [valueIn, value, listValues_eq]
      refine approx_appAll (.refl _) ?_
      rw [List.forall₂_map_left_iff, List.forall₂_map_right_iff]
      exact (mapM_eq_some_iff.mp hes).imp fun _ _ he => ih he τ ρ
    | letIn x t e1 e2 =>
      simp only [simplifyExp, Option.bind_eq_bind, Option.bind_eq_some_iff] at h
      obtain ⟨_, -, e1', h1, e2', h2, ⟨⟩⟩ := h
      refine (approx_value g _ e2 _ (Approx.map₂ (f := push) ?_ (ih h1 τ ρ) (.refl _))).trans
        (ih h2 τ (push (value g (clashOf up) e1' τ ρ) ρ))
      exact fun _ _ _ _ => push_mono
    | serverCall n es t fm =>
      simp only [simplifyExp, Option.bind_eq_bind, Option.bind_eq_some_iff] at h
      obtain ⟨es', hes, _, -, ⟨⟩⟩ := h
      simp only [valueIn, value, listValues_eq]
      refine approx_appAll (.refl _) ?_
      rw [List.forall₂_map_left_iff, List.forall₂_map_right_iff]
      exact (mapM_eq_some_iff.mp hes).imp fun _ _ he => ih he τ ρ

end

end UrWeb.Core.LocalReduction
