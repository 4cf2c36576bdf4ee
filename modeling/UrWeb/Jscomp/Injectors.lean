import UrWeb.Mono.Untangle
import UrWeb.Jscomp.Embeddable

/-!
# Injectors are declared

Quoting at a safe type leaves every registered injector declared, whether it
succeeds or not, and succeeds exactly at the types that can be embedded. The
ids of injectors under construction are the only exception while it runs.
-/

namespace UrWeb.Jscomp

open Mono Failing

-- ---------------------------------------------------------------------------
-- Ids in server expressions
-- ---------------------------------------------------------------------------

@[simp] theorem refs_strLit (s : String) : (strLit s).refs = [] := by simp [strLit, Exp.refs]

@[simp] theorem mem_refs_strcatExp {es : List Exp} :
    r ∈ (strcatExp es).refs ↔ ∃ e ∈ es, r ∈ e.refs := by
  induction es with
  | nil => simp [strcatExp]
  | cons e es ih =>
    cases es with
    | nil => simp [strcatExp]
    | cons e' es =>
      rw [strcatExp, Exp.refs, List.mem_append, ih]
      · simp
      · exact List.cons_ne_nil _ _

theorem mem_of_lookup {l : List (α × β)} [BEq α] [LawfulBEq α] (h : l.lookup k = some v) :
    (k, v) ∈ l := by
  obtain ⟨l1, l2, rfl, -⟩ := List.lookup_eq_some_iff.mp h
  simp

-- ---------------------------------------------------------------------------
-- The invariant of the injector tables
-- ---------------------------------------------------------------------------

/-- The id of an injector. -/
def Registered (s : State) (n : Nat) : Prop :=
  (∃ k, (k, n) ∈ s.injectors) ∨ ∃ k, (k, n) ∈ s.listInjectors

/-- Every injector is declared by a declaration before this one, by a helper of this one, or
it is under construction. -/
structure InjInv (D : List Nat) (building : List Nat) (s : State) : Prop where
  declared : ∀ n, Registered s n → n ∈ D ∨ (∃ vi ∈ s.decls, vi.n = n) ∨ n ∈ building
  bodies : ∀ vi ∈ s.decls, ∀ n, .exp n ∈ vi.e.refs → Registered s n

/-- Quoting adds to the tables of injectors and to the helpers, and changes nothing else. -/
structure InjGrows (s s' : State) : Prop where
  registered : ∀ n, Registered s n → Registered s' n
  keys : ∀ n, s'.injectors.lookup n = none → s.injectors.lookup n = none
  maxName : s.maxName ≤ s'.maxName
  script : s'.script = s.script
  included : s'.included = s.included
  decoders : s'.decoders = s.decoders
  found : s'.foundJavascript = s.foundJavascript
  emitted : s'.emitted = s.emitted

theorem InjGrows.refl (s : State) : InjGrows s s :=
  ⟨fun _ h => h, fun _ h => h, le_rfl, rfl, rfl, rfl, rfl, rfl⟩

theorem InjGrows.trans (h : InjGrows s s') (h' : InjGrows s' s'') : InjGrows s s'' where
  registered n hn := h'.registered n (h.registered n hn)
  keys n hn := h.keys n (h'.keys n hn)
  maxName := h.maxName.trans h'.maxName
  script := h'.script.trans h.script
  included := h'.included.trans h.included
  decoders := h'.decoders.trans h.decoders
  found := h'.found.trans h.found
  emitted := h'.emitted.trans h.emitted

theorem InjGrows.missing_le (env : Env) (h : InjGrows s s') :
    env.missing s'.injectors ≤ env.missing s.injectors := by
  apply List.countP_mono_left
  intro cell _ hcell
  simp only [Option.isNone_iff_eq_none] at hcell ⊢
  exact h.keys cell.1 hcell

/-- What holds after quoting a value of type `t`: the expression mentions what `e` mentions
and registered injectors, and there is one exactly if the type can be embedded. -/
def QuoteOk (env : Env) (D building : List Nat) (s : State) (t : Typ) (e : Exp) :
    Exp → State → Prop := fun q s' =>
  InjInv D building s' ∧ InjGrows s s' ∧ Embeddable env t ∧
    ∀ n, .exp n ∈ q.refs → .exp n ∈ e.refs ∨ Registered s' n

def QuoteFails (D building : List Nat) (s : State) (P : Prop) : State → Prop :=
  fun s' => InjInv D building s' ∧ InjGrows s s' ∧ ¬ P

/-- What the injector of a datatype has to do, with `fuel` steps into datatypes left. -/
def InjectorOk (env : Env) (D : List Nat) (fuel : Nat) (inj : Nat → JsM Nat) : Prop :=
  ∀ n building s, Embeddable env (.datatype n) → InjInv D building s →
    env.missing s.injectors < fuel →
    Triple (inj n) s
      (fun n' s' => InjInv D building s' ∧ InjGrows s s' ∧ Registered s' n') fun _ => False

section
variable {env : Env} {D : List Nat} {fuel : Nat} {inj : Nat → JsM Nat}

theorem quoteFields_spec (hq : ∀ f ∈ fields, ∀ building s e, SafeTyp env f.2 →
      InjInv D building s → env.missing s.injectors < fuel →
      Triple (quoteExp env inj f.2 e) s (QuoteOk env D building s f.2 e)
        (QuoteFails D building s (Embeddable env f.2)))
    (hsafe : SafeFields env fields) (hinv : InjInv D building s)
    (hfuel : env.missing s.injectors < fuel) :
    Triple (quoteFields env inj fields e) s
      (fun parts s' => InjInv D building s' ∧ InjGrows s s' ∧
        (∀ f ∈ fields, Embeddable env f.2) ∧
        ∀ q ∈ parts, ∀ n, .exp n ∈ q.refs → .exp n ∈ e.refs ∨ Registered s' n)
      (QuoteFails D building s (∀ f ∈ fields, Embeddable env f.2)) := by
  induction fields generalizing s with
  | nil => exact Triple.pure ⟨hinv, .refl s, by simp, by simp⟩
  | cons f fields ih =>
    obtain ⟨x, t⟩ := f
    obtain ⟨ht, hrest⟩ := hsafe
    rw [quoteFields]
    apply Triple.bind (Q := QuoteOk env D building s t (.field e x))
    · apply (hq (x, t) List.mem_cons_self building s (.field e x) ht hinv hfuel).conseq
      · exact fun q s' h => h
      · rintro s' ⟨hinv', hg, hn⟩
        exact ⟨hinv', hg, fun h => hn (h (x, t) List.mem_cons_self)⟩
    rintro q s' ⟨hinv', hg, hemb, hrefs⟩
    have hfuel' := (hg.missing_le env).trans_lt hfuel
    apply Triple.bind
    · apply (ih (fun f hf => hq f (List.mem_cons_of_mem _ hf)) (hrest hemb) hinv' hfuel').conseq
      · exact fun parts s'' h => h
      · rintro s'' ⟨hinv'', hg', hn⟩
        exact ⟨hinv'', hg.trans hg', fun h => hn fun f hf => h f (List.mem_cons_of_mem _ hf)⟩
    rintro parts s'' ⟨hinv'', hg', hembs, hparts⟩
    refine Triple.pure ⟨hinv'', hg.trans hg', List.forall_mem_cons.mpr ⟨hemb, hembs⟩, ?_⟩
    intro p hp n hn
    rcases List.mem_cons.mp hp with rfl | hp
    · simp at hn
    rcases List.mem_cons.mp hp with rfl | hp
    · exact (hrefs n hn).imp (fun h => by simpa [Exp.refs] using h) (hg'.registered n)
    · exact hparts p hp n hn

/-- Entering an injector in the table of lists. -/
theorem InjInv.enterList (h : InjInv D building s) (n : Nat) (key : String) :
    InjInv D (n :: building)
      { s with maxName := s.maxName + 1, listInjectors := (key, n) :: s.listInjectors } where
  declared := by
    rintro m (⟨k, hm⟩ | ⟨k, hm⟩)
    · exact (h.declared m (Or.inl ⟨k, hm⟩)).imp_right (Or.imp_right (List.mem_cons_of_mem _))
    · rcases List.mem_cons.mp hm with heq | hm
      · cases heq
        exact Or.inr (Or.inr List.mem_cons_self)
      · exact (h.declared m (Or.inr ⟨k, hm⟩)).imp_right (Or.imp_right (List.mem_cons_of_mem _))
  bodies vi hvi m hm := (h.bodies vi hvi m hm).imp_right fun ⟨k, hk⟩ => ⟨k, List.mem_cons_of_mem _ hk⟩

theorem InjInv.enterDatatype (h : InjInv D building s) (n n' : Nat) :
    InjInv D (n' :: building)
      { s with maxName := s.maxName + 1, injectors := (n, n') :: s.injectors } where
  declared := by
    rintro m (⟨k, hm⟩ | ⟨k, hm⟩)
    · rcases List.mem_cons.mp hm with heq | hm
      · cases heq
        exact Or.inr (Or.inr List.mem_cons_self)
      · exact (h.declared m (Or.inl ⟨k, hm⟩)).imp_right (Or.imp_right (List.mem_cons_of_mem _))
    · exact (h.declared m (Or.inr ⟨k, hm⟩)).imp_right (Or.imp_right (List.mem_cons_of_mem _))
  bodies vi hvi m hm := (h.bodies vi hvi m hm).imp_left fun ⟨k, hk⟩ => ⟨k, List.mem_cons_of_mem _ hk⟩

/-- Declaring the helper that was under construction. -/
theorem InjInv.declare (h : InjInv D (n :: building) s) (t : Typ) (e : Exp)
    (he : ∀ m, .exp m ∈ e.refs → Registered s m) :
    InjInv D building { s with decls := s.decls ++ [⟨"jsify", n, t, e, "jsify"⟩] } where
  declared := by
    intro m hm
    rcases h.declared m hm with hD | ⟨vi, hvi, rfl⟩ | hb
    · exact Or.inl hD
    · exact Or.inr (Or.inl ⟨vi, List.mem_append_left _ hvi, rfl⟩)
    · rcases List.mem_cons.mp hb with rfl | hb
      · exact Or.inr (Or.inl ⟨_, List.mem_append_right _ List.mem_cons_self, rfl⟩)
      · exact Or.inr (Or.inr hb)
  bodies := by
    intro vi hvi m hm
    rcases List.mem_append.mp hvi with hvi | hvi
    · exact h.bodies vi hvi m hm
    · cases List.mem_singleton.mp hvi
      exact he m hm

theorem quoteExp_spec (hinj : InjectorOk env D fuel inj) (t : Typ) :
    ∀ building s e, SafeTyp env t → InjInv D building s → env.missing s.injectors < fuel →
      Triple (quoteExp env inj t e) s (QuoteOk env D building s t e)
        (QuoteFails D building s (Embeddable env t)) := by
  induction t with
  | func | signal | transaction =>
    intro building s e hsafe hinv hfuel
    rw [quoteExp]
    refine Triple.fail ⟨hinv, .refl s, ?_⟩
    intro h
    exact h _ .refl trivial
  | source =>
    intro building s e hsafe hinv hfuel
    rw [quoteExp]
    refine Triple.pure ⟨hinv, .refl s, ?_, ?_⟩
    · refine (embeddable_iff env).mpr ⟨not_false, ?_⟩
      rintro u ⟨⟩
    · intro n hn
      exact Or.inl (by simpa [Exp.refs, Exp.argRefs, Typ.refs] using hn)
  | ffi m f =>
    intro building s e hsafe hinv hfuel
    have hparts : ∀ u, Part env (.ffi m f) u → Embeddable env u := by rintro u ⟨⟩
    rw [quoteExp]
    split
    · next hb =>
      refine Triple.pure ⟨hinv, .refl s, ?_, ?_⟩
      · exact (embeddable_iff env).mpr ⟨fun h => h ⟨hb.1, Or.inl hb.2⟩, hparts⟩
      · intro n hn
        exact Or.inl (by simpa [Exp.refs, Exp.armRefs, boolCon, Pat.refs, Pat.argRefs,
          PatCon.refs, Typ.refs, strTyp] using hn)
    · next hb =>
      split
      · next g hg =>
        refine Triple.pure ⟨hinv, .refl s, ?_, ?_⟩
        · refine (embeddable_iff env).mpr ⟨fun h => h ?_, hparts⟩
          split at hg
          · next hm => exact ⟨hm, Or.inr (by simp [hg])⟩
          · cases hg
        · intro n hn
          exact Or.inl (by simpa [Exp.refs, Exp.argRefs, Typ.refs] using hn)
      · next hnone =>
        refine Triple.fail ⟨hinv, .refl s, ?_⟩
        intro h
        refine h _ .refl ?_
        rintro ⟨rfl, rfl | hf⟩
        · exact hb ⟨rfl, rfl⟩
        · simp only [↓reduceIte] at hnone
          simp [hnone] at hf
  | record fields ih =>
    intro building s e hsafe hinv hfuel
    cases fields with
    | nil =>
      rw [quoteExp]
      refine Triple.pure ⟨hinv, .refl s, ?_, by simp⟩
      exact (embeddable_record env).mpr (by simp)
    | cons f fields =>
      obtain ⟨x, t⟩ := f
      obtain ⟨ht, hrest⟩ := hsafe
      rw [quoteExp, embeddable_record]
      apply Triple.bind (Q := QuoteOk env D building s t (.field e x))
      · apply (ih (x, t) List.mem_cons_self building s (.field e x) ht hinv hfuel).conseq
        · exact fun q s' h => h
        · rintro s' ⟨hinv', hg, hn⟩
          exact ⟨hinv', hg, fun h => hn (h (x, t) List.mem_cons_self)⟩
      rintro q s' ⟨hinv', hg, hemb, hrefs⟩
      have hfuel' := (hg.missing_le env).trans_lt hfuel
      apply Triple.bind
      · apply (quoteFields_spec (fun f hf => ih f (List.mem_cons_of_mem _ hf)) (hrest hemb) hinv'
          hfuel').conseq
        · exact fun parts s'' h => h
        · rintro s'' ⟨hinv'', hg', hn⟩
          exact ⟨hinv'', hg.trans hg', fun h => hn fun f hf => h f (List.mem_cons_of_mem _ hf)⟩
      rintro parts s'' ⟨hinv'', hg', hembs, hparts⟩
      refine Triple.pure ⟨hinv'', hg.trans hg', ?_, ?_⟩
      · exact (embeddable_record env).mpr (List.forall_mem_cons.mpr ⟨hemb, hembs⟩)
      · intro n hn
        simp only [mem_refs_strcatExp, List.mem_append, List.mem_cons, List.not_mem_nil,
          or_false] at hn
        obtain ⟨p, ((rfl | rfl) | hp) | rfl, hn⟩ := hn
        · simp at hn
        · exact (hrefs n hn).imp (fun h => by simpa [Exp.refs] using h) (hg'.registered n)
        · exact hparts p hp n hn
        · simp at hn
  | option t ih =>
    intro building s e hsafe hinv hfuel
    rw [quoteExp, embeddable_option]
    apply Triple.bind (ih building s (.rel 0) hsafe hinv hfuel)
    rintro q s' ⟨hinv', hg, hemb, hrefs⟩
    refine Triple.pure ⟨hinv', hg, (embeddable_option env).mpr hemb, ?_⟩
    intro n hn
    have hq : .exp n ∈ e.refs ∨ .exp n ∈ q.refs := by
      split at hn <;>
      simpa [Exp.refs, Exp.armRefs, Pat.refs, Typ.not_exp_mem_refs, strTyp] using hn
    rcases hq with he | hq
    · exact Or.inl he
    · exact Or.inr ((hrefs n hq).resolve_left (by simp [Exp.refs]))
  | list t ih =>
    intro building s e hsafe hinv hfuel
    rw [quoteExp]
    apply Triple.bind (Triple.get (Q := fun st s' => s = st ∧ s = s') ⟨rfl, rfl⟩)
    rintro _ _ ⟨rfl, rfl⟩
    cases hkey : s.listInjectors.lookup (fmtTyp t) with
    | some n =>
      refine Triple.pure ⟨hinv, .refl s, (embeddable_list env).mpr hsafe, ?_⟩
      intro m hm
      rcases (by simpa [Exp.refs] using hm : m = n ∨ .exp m ∈ e.refs) with rfl | he
      · exact Or.inr (Or.inr ⟨_, mem_of_lookup hkey⟩)
      · exact Or.inl he
    | none =>
      -- The injector is entered first, and its own body may use it.
      set s1 := { s with maxName := s.maxName + 1,
                         listInjectors := (fmtTyp t, s.maxName) :: s.listInjectors } with hs1
      have hg1 : InjGrows s s1 :=
        ⟨fun n => Or.imp_right (Exists.imp fun _ => List.mem_cons_of_mem _), fun _ h => h,
          Nat.le_succ _, rfl, rfl, rfl, rfl, rfl⟩
      have hinv1 : InjInv D (s.maxName :: building) s1 := hinv.enterList s.maxName (fmtTyp t)
      have hreg1 : Registered s1 s.maxName := Or.inr ⟨fmtTyp t, List.mem_cons_self⟩
      show Triple (quoteExp env inj t (.field (.rel 0) "1") >>= _) s1 _ _
      apply Triple.bind ((ih _ s1 _ (Embeddable.safeTyp env t hsafe) hinv1 hfuel).conseq
        (fun _ _ h => h) fun _ h => (h.2.2 hsafe).elim)
      rintro q s2 ⟨hinv2, hg2, -, hrefs⟩
      have hreg2 : Registered s2 s.maxName := hg2.registered _ hreg1
      refine Triple.bind (Triple.modify (Q := fun _ s' => InjInv D building s' ∧ InjGrows s s' ∧
        Registered s' s.maxName) ⟨hinv2.declare _ _ ?_, ?_, hreg2⟩) ?_
      · intro m hm
        have hq : m = s.maxName ∨ .exp m ∈ q.refs := by
          simpa [Exp.refs, Exp.armRefs, Pat.refs, Typ.not_exp_mem_refs, strTyp, or_comm] using hm
        rcases hq with rfl | hq
        · exact hreg2
        · exact (hrefs m hq).resolve_left (by simp [Exp.refs])
      · exact (hg1.trans hg2).trans ⟨fun n hn => hn, fun _ h => h, le_rfl, rfl, rfl, rfl, rfl, rfl⟩
      · rintro _ s3 ⟨hinv3, hg3, hreg3⟩
        refine Triple.pure ⟨hinv3, hg3, (embeddable_list env).mpr hsafe, ?_⟩
        intro m hm
        rcases (by simpa [Exp.refs] using hm : m = s.maxName ∨ .exp m ∈ e.refs) with rfl | he
        · exact Or.inr hreg3
        · exact Or.inl he
  | datatype n =>
    intro building s e hsafe hinv hfuel
    rw [quoteExp]
    apply Triple.bind ((hinj n building s hsafe hinv hfuel).conseq (fun _ _ h => h)
      fun _ h => h.elim)
    rintro n' s' ⟨hinv', hg, hreg⟩
    refine Triple.pure ⟨hinv', hg, hsafe, ?_⟩
    intro m hm
    rcases (by simpa [Exp.refs] using hm : m = n' ∨ .exp m ∈ e.refs) with rfl | he
    · exact Or.inr hreg
    · exact Or.inl he

theorem injectorArms_spec (hinj : InjectorOk env D fuel inj) (dk : DatatypeKind)
    (hcs : ∀ x c t, (x, c, some t) ∈ cs → Embeddable env t) (hinv : InjInv D building s)
    (hfuel : env.missing s.injectors < fuel) :
    Triple (injectorArms env inj dk cs) s
      (fun arms s' => InjInv D building s' ∧ InjGrows s s' ∧
        ∀ n, .exp n ∈ Exp.armRefs arms → Registered s' n)
      fun _ => False := by
  induction cs generalizing s with
  | nil => exact Triple.pure ⟨hinv, .refl s, by simp [Exp.armRefs]⟩
  | cons xct cs ih =>
    obtain ⟨x, c, payload⟩ := xct
    have ih := fun s => @ih s fun x c t h => hcs x c t (List.mem_cons_of_mem _ h)
    cases payload with
    | none =>
      rw [injectorArms]
      apply Triple.bind (ih s hinv hfuel)
      rintro arms s' ⟨hinv', hg, harms⟩
      refine Triple.pure ⟨hinv', hg, ?_⟩
      intro n hn
      exact harms n (by simpa [Exp.armRefs, Pat.refs, Pat.argRefs, PatCon.refs] using hn)
    | some t =>
      have ht : Embeddable env t := hcs x c t List.mem_cons_self
      rw [injectorArms]
      apply Triple.bind ((quoteExp_spec hinj t building s (.rel 0) (Embeddable.safeTyp env t ht)
        hinv hfuel).conseq (fun _ _ h => h) fun _ h => (h.2.2 ht).elim)
      rintro q s' ⟨hinv', hg, -, hrefs⟩
      apply Triple.bind (ih s' hinv' ((hg.missing_le env).trans_lt hfuel))
      rintro arms s'' ⟨hinv'', hg', harms⟩
      refine Triple.pure ⟨hinv'', hg.trans hg', ?_⟩
      intro n hn
      have hq : .exp n ∈ q.refs ∨ .exp n ∈ Exp.armRefs arms := by
        repeat' split at hn
        all_goals simpa [Exp.armRefs, Pat.refs, Pat.argRefs, PatCon.refs,
          Typ.not_exp_mem_refs] using hn
      rcases hq with hq | hq
      · exact hg'.registered n ((hrefs n hq).resolve_left (by simp [Exp.refs]))
      · exact harms n hq

end

-- ---------------------------------------------------------------------------
-- Fuel
-- ---------------------------------------------------------------------------

theorem countP_lt_of_imp {l : List α} {p q : α → Bool} (hqp : ∀ x ∈ l, q x → p x) (hx : x ∈ l)
    (hp : p x) (hq : ¬ q x) : l.countP q < l.countP p := by
  obtain ⟨l1, l2, rfl⟩ := List.append_of_mem hx
  have h1 : l1.countP q ≤ l1.countP p :=
    List.countP_mono_left fun y hy => hqp y (List.mem_append_left _ hy)
  have h2 : l2.countP q ≤ l2.countP p :=
    List.countP_mono_left fun y hy => hqp y (List.mem_append_right _ (List.mem_cons_of_mem _ hy))
  rw [Bool.not_eq_true] at hq
  simp only [List.countP_append, List.countP_cons, hp, hq, ↓reduceIte, Bool.false_eq_true]
  omega

theorem lookup_cons_eq_none {table : List (Nat × Nat)} :
    ((n, n') :: table).lookup k = none ↔ k ≠ n ∧ table.lookup k = none := by
  by_cases hk : k = n
  · simp [hk]
  · rw [List.lookup_cons, beq_eq_false_iff_ne.mpr hk]
    exact ⟨fun h => ⟨hk, h⟩, And.right⟩

/-- Entering a datatype that has a cell leaves fewer to enter. -/
theorem Env.missing_cons_lt (env : Env) (hcell : (n, c) ∈ env.cells)
    (hn : table.lookup n = none) : env.missing ((n, n') :: table) < env.missing table := by
  refine countP_lt_of_imp ?_ hcell ?_ ?_
  · intro cell _ h
    rw [Option.isNone_iff_eq_none] at h ⊢
    exact (lookup_cons_eq_none.mp h).2
  · exact Option.isNone_iff_eq_none.mpr hn
  · intro h
    rw [Option.isNone_iff_eq_none] at h
    exact (lookup_cons_eq_none.mp h).1 rfl

theorem injector_spec (env : Env) (D : List Nat) (fuel : Nat) :
    InjectorOk env D fuel (injector env fuel) := by
  induction fuel with
  | zero =>
    intro n building s hemb hinv hfuel
    exact absurd hfuel (Nat.not_lt_zero _)
  | succ fuel ih =>
    intro n building s hemb hinv hfuel
    rw [injector]
    apply Triple.bind (Triple.get (Q := fun st s' => s = st ∧ s = s') ⟨rfl, rfl⟩)
    rintro _ _ ⟨rfl, rfl⟩
    cases hkey : s.injectors.lookup n with
    | some n' => exact Triple.pure ⟨hinv, .refl s, Or.inl ⟨n, mem_of_lookup hkey⟩⟩
    | none =>
      set s1 := { s with maxName := s.maxName + 1,
                         injectors := (n, s.maxName) :: s.injectors } with hs1
      have hg1 : InjGrows s s1 :=
        ⟨fun m hm => hm.imp_left fun ⟨k, hk⟩ => ⟨k, List.mem_cons_of_mem _ hk⟩,
          fun m hm => (lookup_cons_eq_none.mp hm).2, Nat.le_succ _, rfl, rfl, rfl, rfl, rfl⟩
      have hinv1 : InjInv D (s.maxName :: building) s1 := hinv.enterDatatype n s.maxName
      have hreg1 : Registered s1 s.maxName := Or.inl ⟨n, List.mem_cons_self⟩
      show Triple (injectorArms env (injector env fuel) _ _ >>= _) s1 _ _
      refine Triple.bind (Q := fun arms s' => InjInv D (s.maxName :: building) s' ∧
        InjGrows s1 s' ∧ ∀ n, .exp n ∈ Exp.armRefs arms → Registered s' n) ?_ ?_
      · cases hcell : env.cells.lookup n with
        | none =>
          simp only [Env.cell, hcell, Option.getD_none]
          exact Triple.pure ⟨hinv1, .refl s1, by simp [Exp.armRefs]⟩
        | some dt =>
          have hlt : env.missing s1.injectors < env.missing s.injectors :=
            env.missing_cons_lt (mem_of_lookup hcell) hkey
          apply injectorArms_spec ih _ _ hinv1 (by omega)
          intro x c t hc
          exact embeddable_payload env hemb hc
      · rintro arms s2 ⟨hinv2, hg2, harms⟩
        have hreg2 : Registered s2 s.maxName := hg2.registered _ hreg1
        refine Triple.bind (Triple.modify (Q := fun _ s' => InjInv D building s' ∧ InjGrows s s' ∧
          Registered s' s.maxName) ⟨hinv2.declare _ _ ?_, ?_, hreg2⟩) ?_
        · intro m hm
          exact harms m (by simpa [Exp.refs, Typ.not_exp_mem_refs, strTyp] using hm)
        · exact (hg1.trans hg2).trans
            ⟨fun n hn => hn, fun _ h => h, le_rfl, rfl, rfl, rfl, rfl, rfl⟩
        · rintro _ s3 ⟨hinv3, hg3, hreg3⟩
          exact Triple.pure ⟨hinv3, hg3, hreg3⟩

/-- Quoting at a safe type. -/
theorem quote_spec (env : Env) (t : Typ) (e : Exp) (hsafe : SafeTyp env t)
    (hinv : InjInv D building s) :
    Triple (quote env t e) s (QuoteOk env D building s t e)
      (QuoteFails D building s (Embeddable env t)) := by
  unfold quote
  apply Triple.bind (Triple.get (Q := fun st s' => s = st ∧ s = s') ⟨rfl, rfl⟩)
  rintro _ _ ⟨rfl, rfl⟩
  exact quoteExp_spec (injector_spec env D _) t building s e hsafe hinv (Nat.lt_succ_self _)

end UrWeb.Jscomp
