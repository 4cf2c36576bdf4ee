import UrWeb.Jscomp.Decoders

/-!
# Compiled code refers to what is there

Compiling an expression whose events are safe keeps every table backed: the
code that comes out calls included functions and defined decoders, and its
server expressions mention declared injectors. It gives up exactly if some
event does not pass, and a safe call never makes it give up.
-/

namespace UrWeb.Jscomp

open Mono Failing

/-- Between two declarations, and inside one: injectors are declared, decoders are defined,
and every included function is in the script, except for those being compiled. -/
structure Inv (D calling : List Nat) (s : State) : Prop where
  inj : InjInv D [] s
  dec : DecInv [] s
  code : CodeInv s
  urfuncs : ∀ n ∈ s.included, (∃ js, .urfunc n js ∈ s.script) ∨ n ∈ calling

/-- Nothing that code can refer to goes away. -/
structure Grows (s s' : State) : Prop where
  registered : ∀ n, Registered s n → Registered s' n
  decoders : s.decoders ⊆ s'.decoders
  included : s.included ⊆ s'.included
  found : s.foundJavascript → s'.foundJavascript

theorem Grows.refl (s : State) : Grows s s := ⟨fun _ h => h, fun _ h => h, fun _ h => h, id⟩

theorem Grows.trans (h : Grows s s') (h' : Grows s' s'') : Grows s s'' where
  registered n hn := h'.registered n (h.registered n hn)
  decoders _ hd := h'.decoders (h.decoders hd)
  included _ hn := h'.included (h.included hn)
  found hf := h'.found (h.found hf)

theorem Grows.known (h : Grows s s') (hk : Known s js) : Known s' js :=
  hk.mono h.included h.decoders

theorem Grows.notIncluded_le (env : Env) (h : Grows s s') :
    env.notIncluded s'.included ≤ env.notIncluded s.included := by
  apply List.countP_mono_left
  intro named _ hn
  simp only [decide_eq_true_eq] at hn ⊢
  exact fun hin => hn (h.included hin)

theorem InjGrows.grows (h : InjGrows s s') : Grows s s' :=
  ⟨h.registered, by rw [h.decoders]; exact fun _ hd => hd,
    by rw [h.included]; exact fun _ hn => hn, by rw [h.found]; exact id⟩

theorem Inv.quoted (h : Inv D calling s) (hinj : InjInv D [] s') (hg : InjGrows s s') :
    Inv D calling s' where
  inj := hinj
  dec := by
    refine ⟨?_, by simp, ?_, List.nodup_nil⟩
    · rw [hg.decoders, hg.script]
      exact h.dec.once
    · intro n hn
      rw [hg.script] at hn
      exact (h.dec.bound n hn).trans_le hg.maxName
  code := by
    refine ⟨?_, ?_⟩
    · rw [hg.script]
      exact fun f hf => hg.grows.known (h.code.script f hf)
    · rw [hg.emitted]
      exact fun js hjs => hg.grows.known (h.code.emitted js hjs)
  urfuncs := by
    rw [hg.included, hg.script]
    exact h.urfuncs

theorem registered_congr (hi : s'.injectors = s.injectors)
    (hl : s'.listInjectors = s.listInjectors) : Registered s' n ↔ Registered s n := by
  rw [Registered, Registered, hi, hl]

theorem InjInv.congr (h : InjInv D building s) (hd : s'.decls = s.decls)
    (hi : s'.injectors = s.injectors) (hl : s'.listInjectors = s.listInjectors) :
    InjInv D building s' where
  declared n hn := by
    rw [hd]
    exact h.declared n ((registered_congr hi hl).mp hn)
  bodies := by
    rw [hd]
    exact fun vi hvi n hn => (registered_congr hi hl).mpr (h.bodies vi hvi n hn)

/-- The code refers to what is there, and its server expressions to ids that `src` allows and
to injectors. -/
def JsOk (src : Nat → Prop) (s : State) (js : Js) : Prop :=
  Known s js ∧ ∀ e, .server e ∈ js → ∀ n, .exp n ∈ e.refs → src n ∨ Registered s n

section
variable {src : Nat → Prop} {s s' : State} {js js' : Js}

@[simp] theorem jsOk_nil : JsOk src s [] := by simp [JsOk]

@[simp] theorem jsOk_text : JsOk src s (.text t :: js) ↔ JsOk src s js := by simp [JsOk]

@[simp] theorem jsOk_append : JsOk src s (js ++ js') ↔ JsOk src s js ∧ JsOk src s js' := by
  simp only [JsOk, known_append, List.mem_append]
  constructor
  · rintro ⟨⟨h1, h2⟩, h⟩
    exact ⟨⟨h1, fun e he => h e (.inl he)⟩, h2, fun e he => h e (.inr he)⟩
  · rintro ⟨⟨h1, h3⟩, h2, h4⟩
    exact ⟨⟨h1, h2⟩, fun e he => he.elim (h3 e) (h4 e)⟩

@[simp] theorem jsOk_server : JsOk src s (.server e :: js) ↔
    (∀ n, .exp n ∈ e.refs → src n ∨ Registered s n) ∧ JsOk src s js := by
  simp only [JsOk, known_server, List.mem_cons, Piece.server.injEq]
  constructor
  · rintro ⟨hk, h⟩
    exact ⟨h e (.inl rfl), hk, fun e' he' => h e' (.inr he')⟩
  · rintro ⟨he, hk, h⟩
    refine ⟨hk, ?_⟩
    rintro e' (rfl | he')
    · exact he
    · exact h e' he'

theorem JsOk.grows (h : JsOk src s js) (hg : Grows s s') : JsOk src s' js :=
  ⟨hg.known h.1, fun e he n hn => (h.2 e he n hn).imp_right (hg.registered n)⟩

@[simp] theorem jsOk_someJs {env : Env} : JsOk src s (someJs env t js) ↔ JsOk src s js := by
  unfold someJs
  split <;> simp

@[simp] theorem jsOk_call1 : JsOk src s (call1 f js) ↔ JsOk src s js := by simp [call1]

@[simp] theorem jsOk_call2 : JsOk src s (call2 f js js' close) ↔ JsOk src s js ∧ JsOk src s js' := by
  simp [call2]

@[simp] theorem jsOk_decodeJs : JsOk src s (decodeJs js) ↔ JsOk src s js := by simp [decodeJs]

end

-- ---------------------------------------------------------------------------
-- Computations with events
-- ---------------------------------------------------------------------------

section
variable (env : Env) (D : List Nat) (src : Nat → Prop) (calling : List Nat) (fuel : Nat)

/-- `m` does what the events say: safe events keep the invariant, and it succeeds exactly if
they pass. -/
def Compiles (evs : List Event) (m : JsM Js) : Prop :=
  ∀ s, SafeEvents env evs → Inv D calling s → env.notIncluded s.included < fuel →
    Triple m s
      (fun js s' => Inv D calling s' ∧ Grows s s' ∧ PassEvents env evs ∧ JsOk src s' js)
      fun s' => Inv D calling s' ∧ Grows s s' ∧ ¬ PassEvents env evs

/-- What a call has to do, with `fuel` steps into functions left. -/
def CallOk (call : Nat → JsM Unit) : Prop :=
  ∀ n calling s, SafeCall env n → (env.nameds.lookup n).isSome → Inv D calling s →
    env.notIncluded s.included < fuel →
    Triple (call n) s (fun _ s' => Inv D calling s' ∧ Grows s s' ∧ n ∈ s'.included) fun _ => False

end

section
variable {env : Env} {D : List Nat} {src : Nat → Prop} {calling : List Nat} {fuel : Nat}

theorem Compiles.pure (hjs : ∀ s, JsOk src s js) :
    Compiles env D src calling fuel [] (Pure.pure js) :=
  fun s _ hinv _ => Triple.pure ⟨hinv, .refl s, by simp [PassEvents], hjs s⟩

theorem Compiles.map {g : Js → Js} (hm : Compiles env D src calling fuel evs m)
    (hg : ∀ s js, JsOk src s js → JsOk src s (g js)) :
    Compiles env D src calling fuel evs (do let c ← m; Pure.pure (g c)) := by
  intro s hsafe hinv hfuel
  apply Triple.bind (hm s hsafe hinv hfuel)
  rintro js s' ⟨hinv', hgr, hpass, hjs⟩
  exact Triple.pure ⟨hinv', hgr, hpass, hg s' js hjs⟩

theorem Compiles.map2 {g : Js → Js → Js} (hm : Compiles env D src calling fuel evs m)
    (hm' : Compiles env D src calling fuel evs' m')
    (hg : ∀ s js js', JsOk src s js → JsOk src s js' → JsOk src s (g js js')) :
    Compiles env D src calling fuel (evs ++ evs')
      (do let c ← m; let c' ← m'; Pure.pure (g c c')) := by
  intro s hsafe hinv hfuel
  obtain ⟨hsafe, hsafe'⟩ := (safeEvents_append env).mp hsafe
  apply Triple.bind
  · apply (hm s hsafe hinv hfuel).conseq
    · exact fun js s' h => h
    · rintro s' ⟨hinv', hgr, hn⟩
      exact ⟨hinv', hgr, fun h => hn ((passEvents_append env).mp h).1⟩
  rintro js s' ⟨hinv', hgr, hpass, hjs⟩
  apply Triple.bind
  · apply (hm' s' (hsafe' hpass) hinv' ((hgr.notIncluded_le env).trans_lt hfuel)).conseq
    · exact fun js s' h => h
    · rintro s'' ⟨hinv'', hgr', hn⟩
      exact ⟨hinv'', hgr.trans hgr', fun h => hn ((passEvents_append env).mp h).2⟩
  rintro js' s'' ⟨hinv'', hgr', hpass', hjs'⟩
  exact Triple.pure ⟨hinv'', hgr.trans hgr', (passEvents_append env).mpr ⟨hpass, hpass'⟩,
    hg s'' js js' (hjs.grows hgr') hjs'⟩

theorem Compiles.found (hm : Compiles env D src calling fuel evs m) :
    Compiles env D src calling fuel evs
      (do Failing.modify fun st => { st with foundJavascript := true }; m) := by
  intro s hsafe hinv hfuel
  have hgr : Grows s { s with foundJavascript := true } :=
    ⟨fun _ h => h, fun _ h => h, fun _ h => h, fun _ => rfl⟩
  have hinv1 : Inv D calling { s with foundJavascript := true } :=
    ⟨⟨hinv.inj.declared, hinv.inj.bodies⟩,
      ⟨hinv.dec.once, hinv.dec.pending, hinv.dec.bound, hinv.dec.nodup⟩,
      ⟨hinv.code.script, hinv.code.emitted⟩, hinv.urfuncs⟩
  show Triple m { s with foundJavascript := true } _ _
  apply (hm _ hsafe hinv1 hfuel).conseq
  · rintro js s' ⟨hinv', hgr', hrest⟩
    exact ⟨hinv', hgr.trans hgr', hrest⟩
  · rintro s' ⟨hinv', hgr', hrest⟩
    exact ⟨hinv', hgr.trans hgr', hrest⟩

theorem captured_compiles (outer : List Typ) (n : Nat) (xs : List String) :
    Compiles env D src calling fuel [.capture (capturedTyp outer n xs)]
      (captured env outer n xs) := by
  intro s hsafe hinv hfuel
  unfold captured
  cases ht : capturedTyp outer n xs with
  | none => exact Triple.fail ⟨hinv, .refl s, by simp [PassEvents, Event.Passes]⟩
  | some t =>
    rw [ht] at hsafe
    have hpass : PassEvents env [.capture (some t)] ↔ Embeddable env t := by
      simp [PassEvents, Event.Passes]
    apply Triple.bind
    · apply (quote_spec env t (fieldExp (.rel n) xs) hsafe.1 hinv.inj).conseq
      · exact fun q s' h => h
      · rintro s' ⟨hinj, hg, hn⟩
        exact ⟨hinv.quoted hinj hg, hg.grows, fun h => hn (hpass.mp h)⟩
    rintro q s' ⟨hinj, hg, hemb, hrefs⟩
    refine Triple.pure ⟨hinv.quoted hinj hg, hg.grows, hpass.mpr hemb, ?_⟩
    have hrel : ∀ m, .exp m ∉ (fieldExp (.rel n) xs).refs := by
      intro m
      have hfold : ∀ (xs : List String) (e : Exp), (fieldExp e xs).refs = e.refs := by
        intro xs
        induction xs with
        | nil => exact fun e => rfl
        | cons x xs ih => exact fun e => (ih (.field e x)).trans (by simp [Exp.refs])
      simp [hfold, Exp.refs]
    simp only [constJs, jsOk_text, jsOk_server, jsOk_nil, and_true]
    exact fun m hm => Or.inr ((hrefs m hm).resolve_left (hrel m))

theorem unurlify_compiles (t : Typ) :
    Compiles env D src calling fuel [] (unurlify env t) := by
  intro s hsafe hinv hfuel
  apply (unurlify_spec env t hinv.dec hinv.code).conseq
  · rintro js s' ⟨hdec, hcode, hg, hk, hserver⟩
    refine ⟨⟨hinv.inj.congr hg.decls hg.injectors hg.listInjectors, hdec, hcode, ?_⟩, ?_,
      by simp [PassEvents], hk, fun e he => absurd he (hserver e)⟩
    · rw [hg.included]
      exact fun n hn => (hinv.urfuncs n hn).imp_left (Exists.imp fun _ h => hg.script h)
    · refine ⟨fun n => (registered_congr hg.injectors hg.listInjectors).mpr, hg.decoders, ?_, ?_⟩
      · rw [hg.included]
        exact fun _ hn => hn
      · rw [hg.found]
        exact id
  · exact fun _ h => h.elim

theorem call_compiles {call : Nat → JsM Unit} (hcall : CallOk env D fuel call)
    (hn : (env.nameds.lookup n).isSome) :
    Compiles env D src calling fuel [.call n] (do call n; Pure.pure [.func n]) := by
  intro s hsafe hinv hfuel
  apply Triple.bind ((hcall n calling s hsafe.1 hn hinv hfuel).conseq (fun _ _ h => h)
    fun _ h => h.elim)
  rintro _ s' ⟨hinv', hgr, hin⟩
  refine Triple.pure ⟨hinv', hgr, by simp [PassEvents, Event.Passes], ?_⟩
  simpa [JsOk, Known] using hin

-- ---------------------------------------------------------------------------
-- Expressions
-- ---------------------------------------------------------------------------

section
variable {call : Nat → JsM Unit} {mode : JsMode} {outer : List Typ} {inner : Nat}

theorem jsArgs_compiles (hrec : ∀ a ∈ args, (∀ n, .exp n ∈ a.1.refs → src n) →
      Compiles env D src calling fuel (events outer inner a.1) (jsE env mode call outer inner a.1))
    (hargs : ∀ n, .exp n ∈ Exp.argRefs args → src n) :
    Compiles env D src calling fuel (argEvents outer inner args)
      (jsArgs env mode call outer inner args) := by
  induction args with
  | nil =>
    rw [jsArgs, argEvents]
    exact Compiles.pure (by simp)
  | cons a args ih =>
    obtain ⟨e, t⟩ := a
    rw [jsArgs, argEvents]
    apply (ih (fun a ha => hrec a (List.mem_cons_of_mem _ ha)) ?_).map2
      (hrec (e, t) List.mem_cons_self ?_)
    · intro s acc c hacc hc
      simp [hacc, hc]
    · exact fun n hn => hargs n (by simp [Exp.argRefs, hn])
    · exact fun n hn => hargs n (by simp [Exp.argRefs, hn])

theorem jsFields_compiles (hrec : ∀ f ∈ xets, (∀ n, .exp n ∈ f.2.1.refs → src n) →
      Compiles env D src calling fuel (events outer inner f.2.1)
        (jsE env mode call outer inner f.2.1))
    (hxets : ∀ n, .exp n ∈ Exp.fieldRefs xets → src n) :
    Compiles env D src calling fuel (fieldEvents outer inner xets)
      (jsFields env mode call outer inner xets) := by
  induction xets with
  | nil =>
    rw [jsFields, fieldEvents]
    exact Compiles.pure (by simp)
  | cons f xets ih =>
    obtain ⟨x, e, t⟩ := f
    rw [jsFields, fieldEvents]
    apply (ih (fun f hf => hrec f (List.mem_cons_of_mem _ hf)) ?_).map2
      (hrec (x, e, t) List.mem_cons_self ?_)
    · intro s acc c hacc hc
      simp [hacc, hc]
    · exact fun n hn => hxets n (by simp [Exp.fieldRefs, hn])
    · exact fun n hn => hxets n (by simp [Exp.fieldRefs, hn])

theorem jsArms_compiles (hrec : ∀ a ∈ arms, ∀ inner, (∀ n, .exp n ∈ a.2.refs → src n) →
      Compiles env D src calling fuel (events outer inner a.2) (jsE env mode call outer inner a.2))
    (harms : ∀ n, .exp n ∈ Exp.armRefs arms → src n) :
    Compiles env D src calling fuel (armEvents outer inner arms)
      (jsArms env mode call outer inner arms) := by
  induction arms with
  | nil =>
    rw [jsArms, armEvents]
    exact Compiles.pure (by simp)
  | cons a arms ih =>
    obtain ⟨p, e⟩ := a
    rw [jsArms, armEvents]
    apply (ih (fun a ha => hrec a (List.mem_cons_of_mem _ ha)) ?_).map2
      (hrec (p, e) List.mem_cons_self _ ?_)
    · intro s acc c hacc hc
      simp [hacc, hc]
    · exact fun n hn => harms n (by simp [Exp.armRefs, hn])
    · exact fun n hn => harms n (by simp [Exp.armRefs, hn])

theorem jsE_compiles (hcall : CallOk env D fuel call)
    (hnamed : ∀ n, src n → (env.nameds.lookup n).isSome) (e : Exp) :
    ∀ inner, (∀ n, .exp n ∈ e.refs → src n) →
      Compiles env D src calling fuel (events outer inner e)
        (jsE env mode call outer inner e) := by
  induction e with
  | prim | none | write | closure | query | dml | nextval | setval | returnBlob =>
    intro inner he
    simp only [jsE, events]
    exact Compiles.pure (by simp [nullJs, errorJs])
  | ffi m f =>
    intro inner he
    simp only [jsE, events]
    split <;> exact Compiles.pure (by simp [errorJs])
  | rel n =>
    intro inner he
    simp only [jsE, events]
    split
    · exact Compiles.pure (by simp)
    · exact captured_compiles outer _ _
  | named n =>
    intro inner he
    simp only [jsE, events]
    exact call_compiles hcall (hnamed n (he n (by simp [Exp.refs])))
  | con dk pc arg ih =>
    intro inner he
    cases arg with
    | none =>
      simp only [jsE, events, optEvents]
      split <;> exact Compiles.pure (by simp [nullJs])
    | some e =>
      have hc := ih e rfl inner fun n hn => he n (by simp [Exp.refs, Exp.optRefs, hn])
      simp only [jsE, events, optEvents]
      split
      · split
        · exact hc.map fun s js h => h
        · exact hc.map fun s js h => by simpa using h
      · exact hc.map fun s js h => by simpa using h
  | some t e ih | unop s e ih | error e t ih | redirect e t ih | signalReturn e ih
  | signalSource e ih | sleep e ih | spawn e ih =>
    intro inner he
    simp only [jsE, events]
    apply (ih inner fun n hn => he n (by simp [Exp.refs, hn])).map
    intro s js h
    simpa using h
  | abs x dom ran e ih =>
    intro inner he
    simp only [jsE, events]
    apply (ih (inner + 1) fun n hn => he n (by simp [Exp.refs, hn])).map
    intro s js h
    simpa using h
  | app e1 e2 ih1 ih2 | binop bi s e1 e2 ih1 ih2 | strcat e1 e2 ih1 ih2 | seq e1 e2 ih1 ih2
  | signalBind e1 e2 ih1 ih2 =>
    intro inner he
    simp only [jsE, events]
    apply (ih1 inner fun n hn => he n (by simp [Exp.refs, hn])).map2
      (ih2 inner fun n hn => he n (by simp [Exp.refs, hn]))
    intro s js js' h h'
    simp [h, h']
  | letIn x t e1 e2 ih1 ih2 =>
    intro inner he
    simp only [jsE, events]
    apply (ih1 inner fun n hn => he n (by simp [Exp.refs, hn])).map2
      (ih2 (inner + 1) fun n hn => he n (by simp [Exp.refs, hn]))
    intro s js js' h h'
    simp [h, h']
  | ffiApp m f args ih =>
    intro inner he
    simp only [jsE, events]
    split
    · refine Compiles.pure fun s => ?_
      simp only [jsOk_text, jsOk_server, jsOk_nil, and_true]
      exact fun n hn => Or.inl (he n hn)
    · apply (jsArgs_compiles (fun a ha => ih a ha inner) fun n hn => he n hn).map
      intro s js h
      simpa using h
  | record xets ih =>
    intro inner he
    cases xets with
    | nil =>
      simp only [jsE, events, fieldEvents]
      exact Compiles.pure (by simp [nullJs])
    | cons f xets =>
      simp only [jsE, events]
      apply (jsFields_compiles (fun f hf => ih f hf inner) fun n hn => he n hn).map
      intro s js h
      simpa using h
  | field e x ih =>
    intro inner he
    have hc := ih inner fun n hn => he n (by simp [Exp.refs, hn])
    simp only [jsE, events]
    rcases fieldPath e [x] with _ | ⟨n, xs⟩
    · exact hc.map fun s js h => by simpa using h
    · dsimp only
      split
      · exact hc.map fun s js h => by simpa using h
      · exact captured_compiles outer _ _
  | case disc arms info ih iharms =>
    intro inner he
    simp only [jsE, events]
    apply (ih inner fun n hn => he n (by simp [Exp.refs, hn])).map2
      (jsArms_compiles (fun a ha inner => iharms a ha inner) fun n hn =>
        he n (by simp [Exp.refs, hn]))
    intro s js js' h h'
    simp [h, h']
  | javaScript mode e ih =>
    intro inner he
    have hc := ih inner fun n hn => he n (by simp [Exp.refs, hn])
    cases mode with
    | source t =>
      simp only [jsE, events]
      exact hc.found
    | _ =>
      simp only [jsE, events]
      exact (hc.map fun s js h => by simpa using h).found
  | uurlify e t b ih =>
    intro inner he
    cases b with
    | true =>
      simp only [jsE, events]
      exact Compiles.pure (by simp [errorJs])
    | false =>
      simp only [jsE, events]
      rw [← List.append_nil (events outer inner e)]
      apply (ih inner fun n hn => he n (by simp [Exp.refs, hn])).map2 (unurlify_compiles t)
      intro s js js' h h'
      simp [h, h']
  | serverCall e t eff fm ih | recv e t ih =>
    intro inner he
    simp only [jsE, events]
    rw [← List.append_nil (events outer inner e)]
    apply (ih inner fun n hn => he n (by simp [Exp.refs, hn])).map2 (unurlify_compiles t)
    intro s js js' h h'
    simp [h, h']

end

end

-- ---------------------------------------------------------------------------
-- Functions in the script
-- ---------------------------------------------------------------------------

/-- The bodies of the functions call functions that have bodies. -/
def Env.Closed (env : Env) : Prop :=
  ∀ n e, env.nameds.lookup n = some e → ∀ m, .exp m ∈ e.refs → (env.nameds.lookup m).isSome

theorem safeEvents_of_calls (h : ∀ ev ∈ evs, ∃ n, ev = .call n ∧ SafeCall env n) :
    SafeEvents env evs ∧ PassEvents env evs := by
  induction evs with
  | nil => exact ⟨trivial, by simp [PassEvents]⟩
  | cons ev evs ih =>
    obtain ⟨⟨n, rfl, hn⟩, hrest⟩ := List.forall_mem_cons.mp h
    obtain ⟨hsafe, hpass⟩ := ih hrest
    exact ⟨⟨hn, fun _ => hsafe⟩, List.forall_mem_cons.mpr ⟨trivial, hpass⟩⟩

theorem Calls.head (hbody : env.nameds.lookup n = some e) (hk : .call k ∈ events [] 0 e)
    (h : Calls env k m) : Calls env n m := by
  induction h with
  | refl => exact .tail .refl hbody hk
  | tail h hm hk' ih => exact .tail ih hm hk'

/-- The code of a safely called function makes safe calls, and nothing else. -/
theorem SafeCall.body (h : SafeCall env n) (hbody : env.nameds.lookup n = some e) :
    SafeEvents env (events [] 0 e) ∧ PassEvents env (events [] 0 e) := by
  apply safeEvents_of_calls
  intro ev hev
  cases ev with
  | capture t => exact absurd hev (h n .refl e hbody t)
  | call k => exact ⟨k, rfl, fun m hm => h m (hm.head hbody hev)⟩

theorem Env.notIncluded_cons_lt (env : Env) (hbody : env.nameds.lookup n = some e)
    (hn : n ∉ included) : env.notIncluded (n :: included) < env.notIncluded included := by
  refine countP_lt_of_imp ?_ (mem_of_lookup hbody) ?_ ?_
  · intro named _ h
    simp only [List.mem_cons, not_or, decide_eq_true_eq] at h ⊢
    exact h.2
  · simpa using hn
  · simp

theorem known_deStrcat (h : Known s js) : Known s (deStrcat js) := by
  constructor
  · intro n hn
    obtain ⟨piece, hpiece, heq⟩ := List.mem_map.mp hn
    cases piece <;> cases heq
    exact h.1 n hpiece
  · intro n hn
    obtain ⟨piece, hpiece, heq⟩ := List.mem_map.mp hn
    cases piece <;> cases heq
    exact h.2 n hpiece

/-- Marking a function as included before it is compiled. -/
theorem Inv.includeFirst (h : Inv D calling s) (n : Nat) :
    Inv D (n :: calling) { s with included := n :: s.included } where
  inj := ⟨h.inj.declared, h.inj.bodies⟩
  dec := ⟨h.dec.once, h.dec.pending, h.dec.bound, h.dec.nodup⟩
  code := by
    refine ⟨fun f hf => ?_, fun js hjs => ?_⟩
    · exact (h.code.script f hf).mono (fun _ hm => List.mem_cons_of_mem _ hm) fun _ hd => hd
    · exact (h.code.emitted js hjs).mono (fun _ hm => List.mem_cons_of_mem _ hm) fun _ hd => hd
  urfuncs := by
    intro m hm
    rcases List.mem_cons.mp hm with rfl | hm
    · exact Or.inr List.mem_cons_self
    · exact (h.urfuncs m hm).imp_right (List.mem_cons_of_mem _)

/-- Putting its code into the script. -/
theorem Inv.writeFunction (h : Inv D (n :: calling) s) (hjs : Known s js) :
    Inv D calling { s with script := s.script ++ [.urfunc n js] } where
  inj := ⟨h.inj.declared, h.inj.bodies⟩
  dec := by
    have hdefs : ∀ m, definitions (s.script ++ [.urfunc n js]) m = definitions s.script m := by
      intro m
      simp [definitions, Fragment.defines]
    refine ⟨?_, ?_, ?_, h.dec.nodup⟩
    · intro k m hm
      rw [hdefs]
      exact h.dec.once k m hm
    · intro m hm
      rw [hdefs]
      exact h.dec.pending m hm
    · intro m hm
      rw [hdefs] at hm
      exact h.dec.bound m hm
  code := by
    refine ⟨?_, h.code.emitted⟩
    intro f hf
    rcases List.mem_append.mp hf with hf | hf
    · exact h.code.script f hf
    · cases List.mem_singleton.mp hf
      exact hjs
  urfuncs := by
    intro m hm
    rcases h.urfuncs m hm with ⟨js', hjs'⟩ | hc
    · exact Or.inl ⟨js', List.mem_append_left _ hjs'⟩
    · rcases List.mem_cons.mp hc with rfl | hc
      · exact Or.inl ⟨js, List.mem_append_right _ List.mem_cons_self⟩
      · exact Or.inr hc

theorem includeNamed_callOk (hclosed : env.Closed) (mode : JsMode) (fuel : Nat) :
    CallOk env D fuel (includeNamed env mode fuel) := by
  induction fuel with
  | zero =>
    intro n calling s hsafe hn hinv hfuel
    exact absurd hfuel (Nat.not_lt_zero _)
  | succ fuel ih =>
    intro n calling s hsafe hn hinv hfuel
    obtain ⟨e, hbody⟩ := Option.isSome_iff_exists.mp hn
    obtain ⟨hevents, hpass⟩ := hsafe.body hbody
    rw [includeNamed]
    apply Triple.bind (Triple.get (Q := fun st s' => s = st ∧ s = s') ⟨rfl, rfl⟩)
    rintro _ _ ⟨rfl, rfl⟩
    by_cases hin : n ∈ s.included
    · rw [if_pos hin]
      exact Triple.pure ⟨hinv, .refl s, hin⟩
    · rw [if_neg hin, hbody]
      set s1 := { s with included := n :: s.included } with hs1
      have hg1 : Grows s s1 :=
        ⟨fun _ h => h, fun _ h => h, fun _ hm => List.mem_cons_of_mem _ hm, id⟩
      have hlt : env.notIncluded s1.included < env.notIncluded s.included :=
        env.notIncluded_cons_lt hbody hin
      have hcode : Compiles env D (fun m => (env.nameds.lookup m).isSome) (n :: calling) fuel
          (events [] 0 e) (jsE env mode (includeNamed env mode fuel) [] 0 e) :=
        jsE_compiles ih (fun m h => h) e 0 (hclosed n e hbody)
      show Triple (jsE env mode (includeNamed env mode fuel) [] 0 e >>= _) s1 _ _
      apply Triple.bind
      · apply (hcode s1 hevents (hinv.includeFirst n) (by omega)).conseq
        · exact fun js s' h => h
        · rintro s' ⟨-, -, hfails⟩
          exact hfails hpass
      rintro js s2 ⟨hinv2, hg2, -, hjs⟩
      apply Triple.modify
      refine ⟨hinv2.writeFunction (known_deStrcat hjs.1), ?_, hg2.included List.mem_cons_self⟩
      exact (hg1.trans hg2).trans ⟨fun _ h => h, fun _ h => h, fun _ h => h, id⟩

-- ---------------------------------------------------------------------------
-- A JavaScript node
-- ---------------------------------------------------------------------------

theorem mem_refs_toExp {js : Js} (h : .exp n ∈ js.toExp.refs) :
    ∃ e, .server e ∈ js ∧ .exp n ∈ e.refs := by
  obtain ⟨x, hx, hn⟩ := mem_refs_strcatExp.mp h
  obtain ⟨piece, hpiece, rfl⟩ := List.mem_map.mp hx
  cases piece with
  | server e => exact ⟨e, hpiece, hn⟩
  | _ => simp [Piece.toExp] at hn

/-- Client code is replaced if its events pass, and what replaces it mentions ids of the code
and injectors. -/
theorem embed_spec {src : Nat → Prop} (hclosed : env.Closed) (mode : JsMode) (outer : List Typ) (e : Exp)
    (hnamed : ∀ n, src n → (env.nameds.lookup n).isSome) (he : ∀ n, .exp n ∈ e.refs → src n)
    (hsafe : SafeEvents env (events outer 0 e)) (hinv : Inv D [] s) :
    Triple (embed env mode outer e) s
      (fun r s' => Inv D [] s' ∧ Grows s s' ∧ (r = none → ¬ PassEvents env (events outer 0 e)) ∧
        ∀ x ∈ r, ∀ n, .exp n ∈ x.refs → src n ∨ Registered s' n)
      fun _ => False := by
  unfold embed
  apply Triple.attempt
  apply Triple.bind
  · unfold jsExp
    apply Triple.bind (Triple.get (Q := fun st s' => s = st ∧ s = s') ⟨rfl, rfl⟩)
    rintro _ _ ⟨rfl, rfl⟩
    apply (jsE_compiles (includeNamed_callOk hclosed mode _) hnamed e 0 he s hsafe hinv
      (Nat.lt_succ_self _)).conseq
    · exact fun js s' h => h
    · rintro s' ⟨hinv', hg, hfails⟩
      exact ⟨hinv', hg, fun _ => hfails, by simp⟩
  rintro js s' ⟨hinv', hg, hpass, hjs⟩
  apply Triple.bind (Triple.modify (Q := fun _ s'' => Inv D [] s'' ∧ Grows s s'' ∧
    JsOk src s'' js) ⟨?_, ?_, hjs⟩)
  · rintro _ s'' ⟨hinv'', hg'', hjs''⟩
    refine Triple.pure ⟨hinv'', hg'', by simp, ?_⟩
    rintro x hx n hn
    cases hx
    obtain ⟨q, hq, hnq⟩ := mem_refs_toExp hn
    exact hjs''.2 q hq n hnq
  · refine ⟨⟨hinv'.inj.declared, hinv'.inj.bodies⟩, ⟨hinv'.dec.once, hinv'.dec.pending,
      hinv'.dec.bound, hinv'.dec.nodup⟩, ⟨hinv'.code.script, ?_⟩, hinv'.urfuncs⟩
    intro js' hjs'
    rcases List.mem_cons.mp hjs' with rfl | hjs'
    · exact hjs.1
    · exact hinv'.code.emitted js' hjs'
  · exact hg.trans ⟨fun _ h => h, fun _ h => h, fun _ h => h, id⟩

end UrWeb.Jscomp
