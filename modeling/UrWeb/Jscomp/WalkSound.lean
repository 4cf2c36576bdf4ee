import UrWeb.Jscomp.CompileSound

/-!
# The walk keeps references intact

Walking over an expression whose JavaScript nodes are all safe never fails,
and the expression that comes out mentions what the old one mentions, and
injectors that are declared before the declaration it is part of.
-/

namespace UrWeb.Jscomp

open Mono Failing

/-- The tables are backed, and emitted code is noticed. -/
structure WalkInv (D : List Nat) (s : State) : Prop where
  inv : Inv D [] s
  marked : s.emitted ≠ [] → s.foundJavascript

theorem WalkInv.mark (h : WalkInv D s) : WalkInv D { s with foundJavascript := true } where
  inv := ⟨⟨h.inv.inj.declared, h.inv.inj.bodies⟩,
    ⟨h.inv.dec.once, h.inv.dec.pending, h.inv.dec.bound, h.inv.dec.nodup⟩,
    ⟨h.inv.code.script, h.inv.code.emitted⟩, h.inv.urfuncs⟩
  marked _ := rfl

theorem Grows.mark (s : State) : Grows s { s with foundJavascript := true } :=
  ⟨fun _ h => h, fun _ h => h, fun _ h => h, fun _ => rfl⟩

-- ---------------------------------------------------------------------------
-- Walks
-- ---------------------------------------------------------------------------

/-- The ids are allowed by `src` or belong to injectors. -/
def RefsOk (src : Nat → Prop) (s : State) (refs : List Ref) : Prop :=
  ∀ n, .exp n ∈ refs → src n ∨ Registered s n

section
variable {src : Nat → Prop} {s s' : State} {refs refs' : List Ref}

@[simp] theorem refsOk_nil : RefsOk src s [] := by simp [RefsOk]

@[simp] theorem refsOk_append :
    RefsOk src s (refs ++ refs') ↔ RefsOk src s refs ∧ RefsOk src s refs' := by
  simp only [RefsOk, List.mem_append]
  constructor
  · intro h
    exact ⟨fun n hn => h n (.inl hn), fun n hn => h n (.inr hn)⟩
  · rintro ⟨h, h'⟩ n hn
    exact hn.elim (h n) (h' n)

@[simp] theorem refsOk_typ (t : Typ) : RefsOk src s t.refs :=
  fun _ hn => absurd hn t.not_exp_mem_refs

@[simp] theorem refsOk_patCon (pc : PatCon) : RefsOk src s pc.refs :=
  fun _ hn => absurd hn pc.not_exp_mem_refs

@[simp] theorem refsOk_pat (p : Pat) : RefsOk src s p.refs :=
  fun _ hn => absurd hn p.not_exp_mem_refs

theorem refsOk_of_src (h : ∀ n, .exp n ∈ refs → src n) : RefsOk src s refs :=
  fun n hn => Or.inl (h n hn)

theorem RefsOk.grows (h : RefsOk src s refs) (hg : Grows s s') : RefsOk src s' refs :=
  fun n hn => (h n hn).imp_right (hg.registered n)

end

/-- `m` succeeds, keeps the invariant, and its result mentions what it may mention. -/
def Walks (D : List Nat) (src : Nat → Prop) (refs : α → List Ref) (m : JsM α) : Prop :=
  ∀ s, WalkInv D s → Triple m s
    (fun a s' => WalkInv D s' ∧ Grows s s' ∧ RefsOk src s' (refs a)) fun _ => False

section
variable {D : List Nat} {src : Nat → Prop}
variable {refs : α → List Ref} {refs1 : β → List Ref} {refs2 : γ → List Ref} {refs3 : δ → List Ref}

theorem Walks.pure (h : ∀ s, RefsOk src s (refs a)) : Walks D src refs (Pure.pure a) :=
  fun s hinv => Triple.pure ⟨hinv, .refl s, h s⟩

theorem Walks.map {g : α → β} (hm : Walks D src refs m)
    (hg : ∀ s a, RefsOk src s (refs a) → RefsOk src s (refs1 (g a))) :
    Walks D src refs1 (do let a ← m; Pure.pure (g a)) := by
  intro s hinv
  apply Triple.bind (hm s hinv)
  rintro a s' ⟨hinv', hgr, ha⟩
  exact Triple.pure ⟨hinv', hgr, hg s' a ha⟩

theorem Walks.map2 {g : α → β → γ} (hm : Walks D src refs m) (hm1 : Walks D src refs1 m1)
    (hg : ∀ s a b, RefsOk src s (refs a) → RefsOk src s (refs1 b) → RefsOk src s (refs2 (g a b))) :
    Walks D src refs2 (do let a ← m; let b ← m1; Pure.pure (g a b)) := by
  intro s hinv
  apply Triple.bind (hm s hinv)
  rintro a s' ⟨hinv', hgr, ha⟩
  apply Triple.bind (hm1 s' hinv')
  rintro b s'' ⟨hinv'', hgr', hb⟩
  exact Triple.pure ⟨hinv'', hgr.trans hgr', hg s'' a b (ha.grows hgr') hb⟩

theorem Walks.map3 {g : α → β → γ → δ} (hm : Walks D src refs m) (hm1 : Walks D src refs1 m1)
    (hm2 : Walks D src refs2 m2)
    (hg : ∀ s a b c, RefsOk src s (refs a) → RefsOk src s (refs1 b) → RefsOk src s (refs2 c) →
      RefsOk src s (refs3 (g a b c))) :
    Walks D src refs3 (do let a ← m; let b ← m1; let c ← m2; Pure.pure (g a b c)) := by
  intro s hinv
  apply Triple.bind (hm s hinv)
  rintro a s' ⟨hinv', hgr, ha⟩
  apply Triple.bind (hm1 s' hinv')
  rintro b s'' ⟨hinv'', hgr', hb⟩
  apply Triple.bind (hm2 s'' hinv'')
  rintro c s3 ⟨hinv3, hgr3, hc⟩
  exact Triple.pure ⟨hinv3, (hgr.trans hgr').trans hgr3,
    hg s3 a b c (ha.grows (hgr'.trans hgr3)) (hb.grows hgr3) hc⟩

/-- Finding JavaScript before going on. -/
theorem Walks.mark (hm : ∀ s, WalkInv D s → s.foundJavascript → Triple m s
      (fun a s' => WalkInv D s' ∧ Grows s s' ∧ RefsOk src s' (refs a)) fun _ => False) :
    Walks D src refs (do markJavascript; m) := by
  intro s hinv
  show Triple m { s with foundJavascript := true } _ _
  apply (hm _ hinv.mark rfl).conseq
  · rintro a s' ⟨hinv', hgr, ha⟩
    exact ⟨hinv', (Grows.mark s).trans hgr, ha⟩
  · exact fun _ h => h

end

-- ---------------------------------------------------------------------------
-- Expressions
-- ---------------------------------------------------------------------------

section
variable {env : Env} {D : List Nat} {src : Nat → Prop}

theorem argsWalk_walks (hrec : ∀ a ∈ args, (∀ n, .exp n ∈ a.1.refs → src n) →
      (∀ site ∈ sites outer a.1, SafeSite env site) →
      Walks D src Exp.refs (expWalk env outer a.1))
    (hargs : ∀ n, .exp n ∈ Exp.argRefs args → src n)
    (hsites : ∀ site ∈ argSites outer args, SafeSite env site) :
    Walks D src Exp.argRefs (argsWalk env outer args) := by
  induction args with
  | nil =>
    rw [argsWalk]
    exact Walks.pure (by simp [Exp.argRefs])
  | cons a args ih =>
    obtain ⟨e, t⟩ := a
    rw [argsWalk]
    refine Walks.map2 (hrec (e, t) List.mem_cons_self ?_ ?_)
      (ih (fun a ha => hrec a (List.mem_cons_of_mem _ ha)) ?_ ?_) ?_
    · exact fun n hn => hargs n (by simp [Exp.argRefs, hn])
    · exact fun site h => hsites site (by simp [argSites, h])
    · exact fun n hn => hargs n (by simp [Exp.argRefs, hn])
    · exact fun site h => hsites site (by simp [argSites, h])
    · intro s e args he hargs
      simp [Exp.argRefs, he, hargs]

theorem fieldsWalk_walks (hrec : ∀ f ∈ xets, (∀ n, .exp n ∈ f.2.1.refs → src n) →
      (∀ site ∈ sites outer f.2.1, SafeSite env site) →
      Walks D src Exp.refs (expWalk env outer f.2.1))
    (hxets : ∀ n, .exp n ∈ Exp.fieldRefs xets → src n)
    (hsites : ∀ site ∈ fieldSites outer xets, SafeSite env site) :
    Walks D src Exp.fieldRefs (fieldsWalk env outer xets) := by
  induction xets with
  | nil =>
    rw [fieldsWalk]
    exact Walks.pure (by simp [Exp.fieldRefs])
  | cons f xets ih =>
    obtain ⟨x, e, t⟩ := f
    rw [fieldsWalk]
    refine Walks.map2 (hrec (x, e, t) List.mem_cons_self ?_ ?_)
      (ih (fun f hf => hrec f (List.mem_cons_of_mem _ hf)) ?_ ?_) ?_
    · exact fun n hn => hxets n (by simp [Exp.fieldRefs, hn])
    · exact fun site h => hsites site (by simp [fieldSites, h])
    · exact fun n hn => hxets n (by simp [Exp.fieldRefs, hn])
    · exact fun site h => hsites site (by simp [fieldSites, h])
    · intro s e xets he hxets
      simp [Exp.fieldRefs, he, hxets]

theorem armsWalk_walks (hrec : ∀ a ∈ arms, ∀ outer, (∀ n, .exp n ∈ a.2.refs → src n) →
      (∀ site ∈ sites outer a.2, SafeSite env site) →
      Walks D src Exp.refs (expWalk env outer a.2))
    (harms : ∀ n, .exp n ∈ Exp.armRefs arms → src n)
    (hsites : ∀ site ∈ armSites outer arms, SafeSite env site) :
    Walks D src Exp.armRefs (armsWalk env outer arms) := by
  induction arms with
  | nil =>
    rw [armsWalk]
    exact Walks.pure (by simp [Exp.armRefs])
  | cons a arms ih =>
    obtain ⟨p, e⟩ := a
    rw [armsWalk]
    refine Walks.map2 (hrec (p, e) List.mem_cons_self _ ?_ ?_)
      (ih (fun a ha => hrec a (List.mem_cons_of_mem _ ha)) ?_ ?_) ?_
    · exact fun n hn => harms n (by simp [Exp.armRefs, hn])
    · exact fun site h => hsites site (by simp [armSites, h])
    · exact fun n hn => harms n (by simp [Exp.armRefs, hn])
    · exact fun site h => hsites site (by simp [armSites, h])
    · intro s e arms he harms
      simp [Exp.armRefs, he, harms]

theorem listWalk_walks (hrec : ∀ e ∈ es, (∀ n, .exp n ∈ e.refs → src n) →
      (∀ site ∈ sites outer e, SafeSite env site) → Walks D src Exp.refs (expWalk env outer e))
    (hes : ∀ n, .exp n ∈ Exp.listRefs es → src n)
    (hsites : ∀ site ∈ listSites outer es, SafeSite env site) :
    Walks D src Exp.listRefs (listWalk env outer es) := by
  induction es with
  | nil =>
    rw [listWalk]
    exact Walks.pure (by simp [Exp.listRefs])
  | cons e es ih =>
    rw [listWalk]
    refine Walks.map2 (hrec e List.mem_cons_self ?_ ?_)
      (ih (fun e he => hrec e (List.mem_cons_of_mem _ he)) ?_ ?_) ?_
    · exact fun n hn => hes n (by simp [Exp.listRefs, hn])
    · exact fun site h => hsites site (by simp [listSites, h])
    · exact fun n hn => hes n (by simp [Exp.listRefs, hn])
    · exact fun site h => hsites site (by simp [listSites, h])
    · intro s e es he hes
      simp [Exp.listRefs, he, hes]

/-- Embedding client code once JavaScript has been found. -/
theorem embed_walks (hclosed : env.Closed) (hnamed : ∀ n, src n → (env.nameds.lookup n).isSome)
    (mode : JsMode) (he : ∀ n, .exp n ∈ e.refs → src n)
    (hsafe : SafeEvents env (events outer 0 e)) (hinv : WalkInv D s) (hf : s.foundJavascript) :
    Triple (embed env mode outer e) s
      (fun r s' => (WalkInv D s' ∧ s'.foundJavascript) ∧ Grows s s' ∧
        (r = none → ¬ PassEvents env (events outer 0 e)) ∧ ∀ x ∈ r, RefsOk src s' x.refs)
      fun _ => False := by
  apply (embed_spec hclosed mode outer e hnamed he hsafe hinv.inv).conseq
  · rintro r s' ⟨hinv', hg, hr, hx⟩
    exact ⟨⟨⟨hinv', fun _ => hg.found hf⟩, hg.found hf⟩, hg, hr, hx⟩
  · exact fun _ h => h

theorem javaScript_walks (hclosed : env.Closed)
    (hnamed : ∀ n, src n → (env.nameds.lookup n).isSome) (mode : JavaScriptMode)
    (he : ∀ n, .exp n ∈ e.refs → src n) (hsafe : SafeSite env ⟨outer, mode, e⟩) :
    Walks D src Exp.refs (expWalk env outer (.javaScript mode e)) := by
  have hself : ∀ s, RefsOk src s (Exp.javaScript mode e).refs := by
    intro s
    rw [Exp.refs, refsOk_append]
    exact ⟨fun n hn => absurd hn mode.not_exp_mem_refs, refsOk_of_src he⟩
  cases mode with
  | source t =>
    obtain ⟨ht, hrest⟩ := hsafe
    rw [expWalk]
    apply Walks.mark
    intro s hinv hf
    have hevents : events (t :: outer) 0 (.rel 0) = [.capture (some t)] := rfl
    apply Triple.bind (embed_walks hclosed hnamed .source (e := .rel 0) (by simp [Exp.refs])
      (by rw [hevents]; exact ⟨ht, fun _ => trivial⟩) hinv hf)
    rintro r s' ⟨⟨hinv', hf'⟩, hg, hr, hx⟩
    cases r with
    | some x =>
      refine Triple.pure ⟨hinv', hg, ?_⟩
      simp [Exp.refs, hx x rfl, refsOk_of_src he]
    | none =>
      have hnot : ¬ Embeddable env t := by
        intro h
        apply hr rfl
        rw [hevents]
        simpa [PassEvents, Event.Passes] using h
      apply Triple.bind (embed_walks hclosed hnamed .source he (hrest hnot) hinv' hf')
      rintro r s'' ⟨⟨hinv'', -⟩, hg', -, hx'⟩
      cases r with
      | some x => exact Triple.pure ⟨hinv'', hg.trans hg', hx' x rfl⟩
      | none => exact Triple.pure ⟨hinv'', hg.trans hg', hself s''⟩
  | _ =>
    rw [expWalk]
    apply Walks.mark
    intro s hinv hf
    apply Triple.bind (embed_walks hclosed hnamed _ he hsafe hinv hf)
    rintro r s' ⟨⟨hinv', -⟩, hg, -, hx⟩
    cases r with
    | some x => exact Triple.pure ⟨hinv', hg, hx x rfl⟩
    | none => exact Triple.pure ⟨hinv', hg, hself s'⟩

theorem expWalk_walks (hclosed : env.Closed) (hnamed : ∀ n, src n → (env.nameds.lookup n).isSome)
    (e : Exp) :
    ∀ outer, (∀ n, .exp n ∈ e.refs → src n) → (∀ site ∈ sites outer e, SafeSite env site) →
      Walks D src Exp.refs (expWalk env outer e) := by
  induction e with
  | prim p =>
    intro outer he hs
    cases p with
    | string mode str =>
      rw [expWalk]
      split
      · apply Walks.mark
        exact fun s hinv _ => Triple.pure ⟨hinv, .refl s, by simp [Exp.refs]⟩
      · exact Walks.pure (by simp [Exp.refs])
    | _ =>
      simp only [expWalk]
      exact Walks.pure (by simp [Exp.refs])
  | rel | ffi | none | named =>
    intro outer he hs
    rw [expWalk]
    exact Walks.pure fun s => refsOk_of_src he
  | con dk pc arg ih =>
    intro outer he hs
    cases arg with
    | none =>
      rw [expWalk]
      exact Walks.pure fun s => refsOk_of_src he
    | some e =>
      rw [expWalk]
      refine (ih e rfl outer (fun n hn => he n ?_) fun site h => hs site ?_).map ?_
      · simp [Exp.refs, Exp.optRefs, hn]
      · simp [sites, optSites, h]
      · intro s e h
        simp [Exp.refs, Exp.optRefs, h]
  | some t e ih | unop o e ih | field e x ih | error e t ih | redirect e t ih | write e ih
  | dml e fm ih | nextval e ih | uurlify e t b ih | signalReturn e ih | signalSource e ih
  | serverCall e t eff fm ih | recv e t ih | sleep e ih | spawn e ih =>
    intro outer he hs
    rw [expWalk]
    refine (ih outer (fun n hn => he n ?_) fun site h => hs site ?_).map ?_
    · simp [Exp.refs, hn]
    · simp [sites, h]
    · intro s e h
      simp [Exp.refs, h]
  | abs x dom ran e ih =>
    intro outer he hs
    rw [expWalk]
    refine (ih (dom :: outer) (fun n hn => he n ?_) fun site h => hs site ?_).map ?_
    · simp [Exp.refs, hn]
    · simp [sites, h]
    · intro s e h
      simp [Exp.refs, h]
  | app e1 e2 ih1 ih2 | binop bi o e1 e2 ih1 ih2 | strcat e1 e2 ih1 ih2 | seq e1 e2 ih1 ih2
  | signalBind e1 e2 ih1 ih2 | setval e1 e2 ih1 ih2 =>
    intro outer he hs
    rw [expWalk]
    refine (ih1 outer (fun n hn => he n ?_) fun site h => hs site ?_).map2
      (ih2 outer (fun n hn => he n ?_) fun site h => hs site ?_) ?_
    · simp [Exp.refs, hn]
    · simp [sites, h]
    · simp [Exp.refs, hn]
    · simp [sites, h]
    · intro s e1 e2 h1 h2
      simp [Exp.refs, h1, h2]
  | letIn x t e1 e2 ih1 ih2 =>
    intro outer he hs
    rw [expWalk]
    refine (ih1 outer (fun n hn => he n ?_) fun site h => hs site ?_).map2
      (ih2 (t :: outer) (fun n hn => he n ?_) fun site h => hs site ?_) ?_
    · simp [Exp.refs, hn]
    · simp [sites, h]
    · simp [Exp.refs, hn]
    · simp [sites, h]
    · intro s e1 e2 h1 h2
      simp [Exp.refs, h1, h2]
  | ffiApp m f args ih =>
    intro outer he hs
    rw [expWalk]
    apply (argsWalk_walks (fun a ha => ih a ha outer) he hs).map
    exact fun s args h => h
  | record xets ih =>
    intro outer he hs
    rw [expWalk]
    apply (fieldsWalk_walks (fun f hf => ih f hf outer) he hs).map
    exact fun s xets h => h
  | closure n envs ih =>
    intro outer he hs
    rw [expWalk]
    apply (listWalk_walks (fun e h => ih e h outer) he hs).map
    exact fun s envs h => h
  | case disc arms info ih iharms =>
    intro outer he hs
    rw [expWalk]
    refine (ih outer (fun n hn => he n ?_) fun site h => hs site ?_).map2
      (armsWalk_walks (fun a ha outer => iharms a ha outer) (fun n hn => he n ?_)
        fun site h => hs site ?_) ?_
    · simp [Exp.refs, hn]
    · simp [sites, h]
    · simp [Exp.refs, hn]
    · simp [sites, h]
    · intro s disc arms h1 h2
      simp [Exp.refs, h1, h2]
  | returnBlob blob mimeType t ihblob ih =>
    intro outer he hs
    cases blob with
    | none =>
      rw [expWalk]
      refine (ih outer (fun n hn => he n ?_) fun site h => hs site ?_).map ?_
      · simp [Exp.refs, hn]
      · simp [sites, h]
      · intro s mimeType h
        simp [Exp.refs, Exp.optRefs, h]
    | some blob =>
      rw [expWalk]
      refine (ihblob blob rfl outer (fun n hn => he n ?_) fun site h => hs site ?_).map2
        (ih outer (fun n hn => he n ?_) fun site h => hs site ?_) ?_
      · simp [Exp.refs, Exp.optRefs, hn]
      · simp [sites, optSites, h]
      · simp [Exp.refs, hn]
      · simp [sites, h]
      · intro s blob mimeType h1 h2
        simp [Exp.refs, Exp.optRefs, h1, h2]
  | query qm query body initial ih1 ih2 ih3 =>
    intro outer he hs
    rw [expWalk]
    refine (ih1 outer (fun n hn => he n ?_) fun site h => hs site ?_).map3
      (ih2 (qm.state :: rowTyp qm :: outer) (fun n hn => he n ?_) fun site h => hs site ?_)
      (ih3 outer (fun n hn => he n ?_) fun site h => hs site ?_) ?_
    · simp [Exp.refs, hn]
    · simp [sites, h]
    · simp [Exp.refs, hn]
    · simp [sites, h]
    · simp [Exp.refs, hn]
    · simp [sites, h]
    · intro s query body initial h1 h2 h3
      have hqm : RefsOk src s qm.refs := fun n hn => absurd hn qm.not_exp_mem_refs
      simp [Exp.refs, hqm, h1, h2, h3]
  | javaScript mode e ih =>
    intro outer he hs
    exact javaScript_walks hclosed hnamed mode (fun n hn => he n (by simp [Exp.refs, hn]))
      (hs _ (by simp [sites]))

end

end UrWeb.Jscomp
