import UrWeb.Iflow.Outcome

/-!
# In scope, the environment that travels is the right one

An expression that keeps to its scope is evaluated as its lexical meaning says.
-/

namespace UrWeb.Iflow

open Mono

section
variable {σ α β : Type} {fx : Effects σ}

/-- If the outcome is fine, both computations do the same with continuations that
agree where they can end: in `env`, and in every environment if bindings are left. -/
def Same (o : Outcome) (env : List Atom) (c : Cont σ (List Atom × α)) (c' : Cont σ α) : Prop :=
  o.fine = true → ∀ k k', (o.stays = true → ∀ a, k (env, a) = k' a) →
    (o.leaves = true → ∀ env' a, k (env', a) = k' a) → c k = c' k'

theorem Same.ended {o : Outcome} {c : Cont σ (List Atom × α)} {c' : Cont σ α}
    (h : Same o env c c') (hf : o.fine = true) {k : List Atom × α → σ → σ} {k' : α → σ → σ}
    (hk : o.ends = true → ∀ env' a, k (env', a) = k' a) : c k = c' k' := by
  refine h hf k k' (fun hs => hk ?_ env) fun hl => hk ?_
  · simp [Outcome.ends, hs]
  · simp [Outcome.ends, hl]

theorem Same.here (env : List Atom) (m : Cont σ α) :
    Same .here env (do return (env, ← m)) m :=
  fun _ _ _ hs _ => congrArg m (funext fun a => hs rfl a)

theorem Same.before {o : Outcome} {c : Cont σ (List Atom × α)} {c' : Cont σ α} (m : Cont σ Unit)
    (h : Same o env c c') : Same o env (do m; c) (do m; c') :=
  fun hf k k' hs hl => congrArg m (funext fun _ => h hf k k' hs hl)

/-- What follows in the environment at the end. -/
theorem Same.then {o : Outcome} {c : Cont σ (List Atom × α)} {c' : Cont σ α}
    (h : Same o env c c') (m : α → Cont σ β) :
    Same o env (do let r ← c; return (r.1, ← m r.2)) (do m (← c')) := by
  intro hf k k' hs hl
  refine h hf _ _ (fun ho a => ?_) fun ho env' a => ?_
  · exact congrArg (m a) (funext fun b => hs ho b)
  · exact congrArg (m a) (funext fun b => hl ho env' b)

theorem Same.stopped {o : Outcome} {c : Cont σ (List Atom × α)} {c' : Cont σ α}
    (h : Same o env c c') (m : α → σ → σ) :
    Same (α := β) o.stopped env (do .stop (m (← c).2)) (do .stop (m (← c'))) :=
  fun hf _ _ _ _ => h.ended hf fun _ _ _ => rfl

theorem Same.saved {o1 o2 : Outcome} {c : Cont σ (List Atom × α)} {c' : Cont σ α}
    {d : α → Cont σ (List Atom × β)} {d' : α → Cont σ β} (h : Same o1 env c c')
    (h2 : ∀ a, Same o2 env (d a) (d' a)) :
    Same (o1.saved o2) env (do d (← c).2) (do d' (← c')) := by
  intro hf k k' hs hl
  simp only [Outcome.saved, Bool.and_eq_true, Bool.or_eq_true, Bool.not_eq_true'] at hf hs hl
  refine h.ended hf.1 fun he env' a => ?_
  refine h2 a (hf.2.resolve_left ?_) k k' (fun h => hs ⟨he, h⟩) fun h => hl ⟨he, h⟩
  simp [he]

theorem Same.chained {o1 o2 : Outcome} {c : Cont σ (List Atom × α)} {c' : Cont σ α}
    {d : List Atom × α → Cont σ (List Atom × β)} {d' : α → Cont σ β} (h : Same o1 env c c')
    (h2 : ∀ a, Same o2 env (d (env, a)) (d' a)) :
    Same (o1.chained o2) env (do d (← c)) (do d' (← c')) := by
  intro hf k k' hs hl
  simp only [Outcome.chained, Bool.and_eq_true, Bool.or_eq_true, Bool.not_eq_true'] at hf hs hl
  obtain ⟨⟨hf1, hno⟩, hf2⟩ := hf
  refine h hf1 _ _ (fun ho a => ?_) fun ho => absurd ho (by simp [hno])
  refine h2 a (hf2.resolve_left (by simp [ho])) k k' (fun h => hs ⟨ho, h⟩) fun h => hl (.inr ⟨ho, h⟩)

theorem Same.under {o : Outcome} {c : Cont σ (List Atom × α)} {c' : Cont σ α}
    (as : List Atom) (h : Same o (env ++ as) c c') : Same (o.under as.length) env c c' := by
  intro hf k k' hs hl
  simp only [Outcome.under, Bool.and_eq_true, Bool.or_eq_true, decide_eq_true_eq] at hf hs hl
  refine h hf k k' (fun ho a => ?_) fun ho => hl (.inl ho)
  cases as with
  | nil =>
    rw [List.append_nil]
    exact hs ⟨ho, rfl⟩ a
  | cons b as => exact hl (.inr ⟨ho, by simp⟩) _ a

theorem Same.lift {o : Outcome} {f : σ → α × σ} {d : α → Cont σ (List Atom × β)}
    {d' : α → Cont σ β} (h : ∀ s, Same o env (d (f s).1) (d' (f s).1)) :
    Same o env (do d (← .lift f)) (do d' (← .lift f)) :=
  fun hf k k' hs hl => funext fun s => congrFun (h s hf k k' hs hl) (f s).2

/-- The parts of a node one after the other. -/
theorem Same.all (after : Atom → Cont σ Unit) {γ : Type} {es : List γ} {o : γ → Outcome}
    {f : γ → Step σ} {g : γ → List Atom → Cont σ Atom}
    (h : ∀ e ∈ es, Same (o e) env (f e env) (g e env)) :
    Same (.all (es.map o)) env (chain after (es.map f) env) (each after (es.map g) env) := by
  induction es with
  | nil => exact .here env (return [])
  | cons e es ih =>
    have he : Same (o e) env (f e env) (g e env) := h e List.mem_cons_self
    cases es with
    | nil => exact he.then fun a => do after a; return [a]
    | cons e' es =>
      refine he.chained (fun a => ?_)
      refine .before (after a) ?_
      exact (ih fun b hb => h b (List.mem_cons_of_mem _ hb)).then fun as => return a :: as

theorem Same.arms {γ : Type} {es : List γ} {o : γ → Outcome} {c : γ → Cont σ (List Atom × Atom)}
    {c' : γ → Cont σ Atom} (h : ∀ e ∈ es, Same (o e) env (c e) (c' e)) :
    Same (.arms (es.map o)) env (branch fx (es.map c)) (branch fx (es.map c')) := by
  intro hf k k' hs hl
  simp only [Outcome.arms, List.any_map, List.all_map, List.any_eq_true, List.all_eq_true,
    Function.comp_apply] at hf hs hl
  have harm (e : γ) (he : e ∈ es) : c e k = c' e k' :=
    h e he (hf e he) k k' (fun ho => hs ⟨e, he, ho⟩) fun ho => hl ⟨e, he, ho⟩
  funext s
  unfold branch
  rw [List.foldl_map, List.foldl_map]
  refine List.foldl_ext _ _ _ fun s e he => ?_
  rw [harm e he]

-- ---------------------------------------------------------------------------
-- Lookup
-- ---------------------------------------------------------------------------

/-- Counted from the inside, as the source counts from the end. -/
theorem envGet_eq (hn : n < env.length) : envGet env n = env.reverse[n]? := by
  rw [envGet, List.getElem?_reverse hn, Nat.sub_sub]

theorem flowRel_eq (hn : n < env.length ∨ env.length = 0) :
    flowRel fx env n = lookupRel fx env n := by
  unfold flowRel lookupRel
  obtain hn | hn := hn
  · have hget := envGet_eq hn
    cases hrev : env.reverse[n]? <;> simp only [hget.trans hrev]
  · obtain rfl := List.length_eq_zero_iff.mp hn
    rfl

-- ---------------------------------------------------------------------------
-- Expressions
-- ---------------------------------------------------------------------------

/-- Both evaluations of `e` agree in every environment. -/
def Agree (fx : Effects σ) (e : Exp) : Prop :=
  ∀ env, Same (outcome e env.length) env (flow fx e env) (meaning fx e env)

theorem agree (e : Exp) : Agree fx e := by
  induction e with
  | rel i =>
    intro env
    refine .before _ fun hf k k' hs hl => ?_
    have hn : i < env.length ∨ env.length = 0 := by simpa [outcome] using hf
    show flowRel fx env i (fun a => k (env, a)) = lookupRel fx env i k'
    rw [flowRel_eq hn]
    exact congrArg _ (funext fun a => hs rfl a)
  | con dk pc arg ih =>
    intro env
    cases arg with
    | none => exact .before _ (.here env (return Atom.func (.dtCon0 (patConName pc)) []))
    | some inner =>
      exact .before _ ((ih inner rfl env).then fun a => return Atom.func (.dtCon1 (patConName pc)) [a])
  | some t e ih => exact fun env => .before _ ((ih env).then fun a => return Atom.func (.dtCon1 "Some") [a])
  | ffiApp m x args ih =>
    intro env
    have hall after : Same (.all (outcomeArgs args env.length)) env
        (chain after (flowArgs fx args) env) (each after (meaningArgs fx args) env) := by
      rw [outcomeArgs_eq, flowArgs_eq, meaningArgs_eq, List.map_map]
      exact .all after fun a ha => ih a ha env
    simp only [flow, meaning]
    refine .before _ ?_
    split
    · exact (hall (send fx)).then fun _ => return Atom.recd []
    · exact (hall fun _ => return ()).then fun as =>
        return Atom.func (.other (m ++ "." ++ x)) as
  | app f arg ihf iha =>
    intro env
    cases f with
    | ffi m x =>
      exact .before _ ((iha env).then fun a => do send fx a; return Atom.recd [])
    | error e t => exact .before _ (ihf env)
    | _ => exact .before _ (.here env (fresh fx))
  | unop op e ih => exact fun env => .before _ ((ih env).then fun a => return Atom.func (.other op) [a])
  | binop bi op e1 e2 ih1 ih2 =>
    exact fun env => .before _ <| (ih1 env).saved fun a1 =>
      (ih2 env).then fun a2 => return Atom.func (.other op) [a1, a2]
  | record xets ih =>
    intro env
    have hall after : Same (.all (outcomeFields xets env.length)) env
        (chain after (flowFields fx xets) env) (each after (meaningFields fx xets) env) := by
      rw [outcomeFields_eq, flowFields_eq, meaningFields_eq]
      exact .all after fun f hf => ih f hf env
    exact .before _ ((hall fun _ => return ()).then fun as =>
      return Atom.recd ((xets.map Prod.fst).zip as))
  | field e x ih => exact fun env => .before _ ((ih env).then fun a => return Atom.proj a x)
  | case disc arms info ihd iha =>
    intro env
    have harms a : Same (.arms (outcomeArms arms env.length)) env
        (branch fx ((flowArms fx arms).map fun arm => do
          arm.2 (← .lift fun s => evalPat fx env s a arm.1)))
        (branch fx ((meaningArms fx arms).map fun arm => do
          arm.2 (← .lift fun s => evalPat fx env s a arm.1))) := by
      rw [outcomeArms_eq, flowArms_eq, meaningArms_eq, List.map_map, List.map_map]
      refine .arms fun arm harm => .lift fun s => ?_
      obtain ⟨as, has, henv⟩ := evalPat_append fx env s a arm.1
      have h := iha arm harm (env ++ as)
      rw [List.length_append, has] at h
      rw [henv, ← has]
      exact (has ▸ h).under as
    cases arms with
    | nil => exact .before _ fun hf k k' _ _ => (ihd env).ended hf fun _ _ _ => rfl
    | cons arm arms => exact .before _ ((ihd env).chained harms)
  | strcat e1 e2 ih1 ih2 =>
    exact fun env => .before _ <| (ih1 env).saved fun a1 =>
      (ih2 env).then fun a2 => return Atom.func (.other "cat") [a1, a2]
  | error e t ih => exact fun env => .before _ ((ih env).stopped fx.send)
  | returnBlob blob mimeType t ihb ihm =>
    intro env
    cases blob with
    | none => exact .before _ ((ihm env).stopped fx.send)
    | some blob =>
      have h : Same ((outcome blob env.length).chained (outcome mimeType env.length)) env
          (do let r ← flow fx blob env; send fx r.2; flow fx mimeType r.1)
          (do let a ← meaning fx blob env; send fx a; meaning fx mimeType env) :=
        (ihb blob rfl env).chained fun a => .before (send fx a) (ihm env)
      exact .before _ (h.stopped fx.send)
  | redirect e t ih => exact fun env => .before _ ((ih env).stopped fx.send)
  | write e ih =>
    exact fun env => .before _ ((ih env).then fun a => do send fx a; return Atom.recd [])
  | seq e1 e2 ih1 ih2 => exact fun env => .before _ ((ih1 env).saved fun _ => ih2 env)
  | letIn x t e1 e2 ih1 ih2 =>
    intro env
    have h2 a : Same ((outcome e2 (env.length + 1)).under 1) env (flow fx e2 (env ++ [a]))
        (meaning fx e2 (env ++ [a])) := by
      have h := ih2 (env ++ [a])
      rw [List.length_append] at h
      exact h.under [a]
    exact .before _ ((ih1 env).saved h2)
  | closure id captured ih =>
    intro env
    have hall after : Same (.all (outcomeEnvs captured env.length)) env
        (chain after (flowEnvs fx captured) env) (each after (meaningEnvs fx captured) env) := by
      rw [outcomeEnvs_eq, flowEnvs_eq, meaningEnvs_eq]
      exact .all after fun e he => ih e he env
    exact .before _ ((hall fun _ => return ()).then fun as =>
      return Atom.func (.other ("Cl" ++ toString id)) as)
  | query qm q body initial ihq ihb ihi =>
    refine fun env => .before _ fun hf k k' _ _ => ?_
    obtain ⟨hfi, hends⟩ : (outcome initial env.length).fine = true ∧
        (outcome initial env.length).ends = false := by simpa [outcome] using hf
    exact (ihi env).ended hfi fun he => absurd he (by simp [hends])
  | dml e fm ih => exact fun env => .before _ ((ih env).then fun _ => return Atom.recd [])
  | nextval e ih => exact fun env => .before _ ((ih env).then fun a => nextval fx a)
  | setval e1 e2 ih1 ih2 =>
    exact fun env => .before _ <| (ih1 env).saved fun _ => (ih2 env).then fun _ => return Atom.recd []
  | uurlify inner t b ih => exact fun env => .before _ (.here env (uurlified fx inner))
  | prim p => exact fun env => .before _ (.here env (return Atom.const p))
  | none t => exact fun env => .before _ (.here env (return Atom.func (.dtCon0 "None") []))
  | _ => exact fun env => .before _ (.here env (fresh fx))

end

end UrWeb.Iflow
