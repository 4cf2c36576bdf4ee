import Mathlib.Algebra.GroupWithZero.Nat
import Mathlib.Algebra.Ring.Int.Defs
import UrWeb.Iflow.Outcome

/-!
# Out of scope, the evaluation differs

A state that adds up the lengths of the environments in which something is
evaluated tells an evaluation that does not keep to its scope from the lexical
meaning: the environment that travels is never shorter than the right one.
-/

namespace UrWeb.Iflow

open Mono

-- ---------------------------------------------------------------------------
-- A state that counts
-- ---------------------------------------------------------------------------

structure Tally where
  vars : Nat
  /-- The lengths of the environments visited, and how long ago the variables were
  made that something is asserted equal to. -/
  visited : Nat
  fresh : Nat

/-- How long ago a variable was made that is asserted equal to something. -/
def CondAtom.age (vars : Nat) : CondAtom → Nat
  | .aReln .eq (.var i :: _) => vars - i
  | _ => 0

def tally : Effects Tally where
  enter env _ s := { s with visited := s.visited + env.length }
  freshVar s := (.var s.vars, { s with vars := s.vars + 1, fresh := s.fresh + 1 })
  assertAtoms facts s := { s with visited := s.visited + (facts.map (·.age s.vars)).sum }
  send _ s := s
  reinstate saved s := { s with vars := saved.vars }

/-- `s` is ahead of `s'` by `d`. A variable in the place of an atom counts against. -/
def Ahead (d : Nat) (s s' : Tally) : Prop := s'.visited + s.fresh + d ≤ s.visited + s'.fresh

/-- The first transformation does not fall behind, and gains if `P`. -/
def Gains (P : Prop) (f f' : Tally → Tally) : Prop :=
  ∀ s s' d, Ahead d s s' → Ahead d (f s) (f' s') ∧ (P → Ahead (d + 1) (f s) (f' s'))

theorem Gains.imp (h : Gains P f f') (hQ : Q → P) : Gains Q f f' :=
  fun s s' d hd => ⟨(h s s' d hd).1, fun hq => (h s s' d hd).2 (hQ hq)⟩

theorem Gains.comp (h : Gains P f f') (h2 : Gains Q g g') :
    Gains (P ∨ Q) (fun s => g (f s)) fun s => g' (f' s) := by
  intro s s' d hd
  obtain ⟨hf, hP⟩ := h s s' d hd
  obtain ⟨hg, hQ⟩ := h2 _ _ d hf
  refine ⟨hg, ?_⟩
  rintro (hp | hq)
  · exact (h2 _ _ _ (hP hp)).1
  · exact hQ hq

/-- Transformations that count the same. -/
theorem Gains.of_eq {f f' : Tally → Tally} (m n : Nat)
    (hf : ∀ s, (f s).visited = s.visited + m ∧ (f s).fresh = s.fresh + n)
    (hf' : ∀ s, (f' s).visited = s.visited + m ∧ (f' s).fresh = s.fresh + n) :
    Gains False f f' := by
  intro s s' d hd
  obtain ⟨h1, h2⟩ := hf s
  obtain ⟨h1', h2'⟩ := hf' s'
  refine ⟨?_, False.elim⟩
  simp only [Ahead, h1, h2, h1', h2'] at hd ⊢
  omega

theorem gains_enter (h : env'.length ≤ env.length) :
    Gains (env'.length < env.length) (tally.enter env e) (tally.enter env' e') := by
  intro s s' d hd
  simp only [Ahead, tally] at hd ⊢
  exact ⟨by omega, fun hlt => by omega⟩

theorem Gains.foldl {γ : Type} {l : List γ} {f f' : Tally → γ → Tally} {P : γ → Prop}
    (h : ∀ a ∈ l, Gains (P a) (f · a) (f' · a)) :
    Gains (∃ a ∈ l, P a) (fun s => l.foldl f s) fun s => l.foldl f' s := by
  induction l with
  | nil => exact fun s s' d hd => ⟨hd, by simp⟩
  | cons a l ih =>
    refine ((h a List.mem_cons_self).comp (ih fun b hb => h b (List.mem_cons_of_mem _ hb))).imp ?_
    simp

theorem Gains.reinstate (h : Gains P f f') :
    Gains P (fun s => tally.reinstate s (f s)) fun s => tally.reinstate s (f' s) :=
  fun s s' d hd => h s s' d hd

-- ---------------------------------------------------------------------------
-- Computations
-- ---------------------------------------------------------------------------

/-- Computations that gain nothing of their own. -/
def Even (p : Cont Tally α) (p' : Cont Tally β) : Prop :=
  ∀ P k k', (∀ a b, Gains P (k a) (k' b)) → Gains P (p k) (p' k')

theorem Even.ret (a : α) (b : β) : Even (pure a) (pure b) := fun _ _ _ hk => hk a b

theorem Even.bind {p : Cont Tally α} {p' : Cont Tally β} {q : α → Cont Tally γ}
    {q' : β → Cont Tally δ} (h : Even p p') (hq : ∀ a b, Even (q a) (q' b)) :
    Even (p >>= q) (p' >>= q') :=
  fun _ _ _ hk => h _ _ _ fun a b => hq a b _ _ _ hk

/-- Where the outcome is not fine, the first computation gains; and it hands on what
its continuation gains in an environment of length `m` or in a longer one. -/
def Gap (o : Outcome) (m : Nat) (c : Cont Tally (List Atom × α)) (c' : Cont Tally β) : Prop :=
  ∀ (g : Bool → Prop) k k',
    (∀ env a b, m ≤ env.length → Gains (g (m < env.length)) (k (env, a)) (k' b)) →
    Gains (o.fine = false ∨ o.stays = true ∧ g false ∨ o.leaves = true ∧ g true) (c k) (c' k')

/-- The outcome from an environment that is too long. -/
def Outcome.shift (o : Outcome) (x : Bool) : Outcome :=
  ⟨o.stays && !x, o.leaves || o.stays && x, o.fine⟩

/-- The outcome of a visit in an environment that is too long. -/
def Outcome.late (o : Outcome) (x : Bool) : Outcome := { o.shift x with fine := o.fine && !x }

section
variable {α β γ δ : Type} {m : Nat} {o o1 o2 : Outcome} {x : Bool}
variable {c : Cont Tally (List Atom × α)} {c' : Cont Tally β}

theorem Gap.toShift (h : Gap (o.late x) m c c') : Gap (o.shift x) m c c' := by
  intro g k k' hk
  refine (h g k k' hk).imp ?_
  rintro (hf | hs | hl)
  · exact .inl (by simp_all [Outcome.late, Outcome.shift])
  · exact .inr (.inl hs)
  · exact .inr (.inr hl)

theorem Gap.enter (hlen : env'.length ≤ env.length)
    (h : Gap (o.shift (env'.length < env.length)) m c c') :
    Gap (o.late (env'.length < env.length)) m (do .modify (tally.enter env e); c)
      (do .modify (tally.enter env' e'); c') := by
  intro g k k' hk
  refine ((gains_enter hlen).comp (h g k k' hk)).imp ?_
  rintro (hf | hs | hl)
  · simp only [Outcome.late, Bool.and_eq_false_iff, Bool.not_eq_false', decide_eq_true_eq] at hf
    exact hf.elim (fun hf => .inr (.inl hf)) .inl
  · exact .inr (.inr (.inl hs))
  · exact .inr (.inr (.inr hl))

theorem Gap.here {p : Cont Tally α} {p' : Cont Tally β} (hp : Even p p')
    (hm : m ≤ env.length) :
    Gap (Outcome.here.shift (m < env.length)) m (do return (env, ← p)) p' := by
  intro g k k' hk
  refine (hp _ _ _ fun a b => hk env a b hm).imp ?_
  by_cases hlt : m < env.length <;> simp [Outcome.here, Outcome.shift, hlt]

theorem Gap.then {p : α → Cont Tally γ} {p' : β → Cont Tally δ} (h : Gap o m c c')
    (hp : ∀ a b, Even (p a) (p' b)) :
    Gap o m (do let r ← c; return (r.1, ← p r.2)) (do p' (← c')) :=
  fun g _ _ hk => h g _ _ fun env a b hm => hp a b _ _ _ fun a b => hk env a b hm

theorem Gap.stopped {f : α → Tally → Tally} {f' : β → Tally → Tally} (h : Gap (o.late x) m c c')
    (hf : ∀ a b, Gains False (f a) (f' b)) :
    Gap (α := γ) (β := δ) (o.stopped.late x) m (do .stop (f (← c).2)) (do .stop (f' (← c'))) := by
  intro g k k' _
  refine (h (fun _ => False) _ _ fun _ a b _ => hf a b).imp ?_
  simp [Outcome.late, Outcome.shift, Outcome.stopped]

theorem Gap.saved {d : α → Cont Tally (List Atom × γ)} {d' : β → Cont Tally δ}
    (h : Gap (o1.late x) m c c') (h2 : ∀ a b, Gap (o2.late x) m (d a) (d' b)) :
    Gap ((o1.saved o2).late x) m (do d (← c).2) (do d' (← c')) := by
  intro g k k' hk
  refine (h (fun _ => _) _ _ fun _ a b _ => h2 a b g k k' hk).imp ?_
  obtain ⟨s1, l1, f1⟩ := o1
  obtain ⟨s2, l2, f2⟩ := o2
  cases x <;> cases s1 <;> cases l1 <;> cases f1 <;>
    simp [Outcome.late, Outcome.shift, Outcome.saved, Outcome.ends]

theorem Gap.chained {d : List Atom × α → Cont Tally (List Atom × γ)} {d' : β → Cont Tally δ}
    (h : Gap (o1.late x) m c c')
    (h2 : ∀ env a b, m ≤ env.length → Gap (o2.late (m < env.length)) m (d (env, a)) (d' b)) :
    Gap ((o1.chained o2).late x) m (do d (← c)) (do d' (← c')) := by
  intro g k k' hk
  refine (h (fun b => (o2.late b).fine = false ∨ (o2.late b).stays = true ∧ g false ∨
    (o2.late b).leaves = true ∧ g true) _ _ fun env a b hm => h2 env a b hm g k k' hk).imp ?_
  obtain ⟨s1, l1, f1⟩ := o1
  obtain ⟨s2, l2, f2⟩ := o2
  cases x <;> cases s1 <;> cases l1 <;> cases f1 <;> cases s2 <;> cases l2 <;> cases f2 <;>
    simp [Outcome.late, Outcome.shift, Outcome.chained, Outcome.ends]

theorem Gap.under {n : Nat} (h : Gap (o.late x) (m + n) c c') : Gap ((o.under n).late x) m c c' := by
  intro g k k' hk
  refine (h (fun b => if n = 0 then g b else g true) k k' fun env a b hm => ?_).imp ?_
  · refine (hk env a b (by omega)).imp ?_
    by_cases hn : n = 0
    · subst hn
      simp
    · have hlt : m < env.length := by omega
      simp [hn, hlt]
  · obtain ⟨s1, l1, f1⟩ := o
    by_cases hn : n = 0 <;> cases x <;> cases s1 <;> cases l1 <;> cases f1 <;>
      simp [Outcome.late, Outcome.shift, Outcome.under, hn]

theorem Gap.before {q q' : Cont Tally Unit} (hq : Even q q') (h : Gap o m c c') :
    Gap o m (do q; c) (do q'; c') :=
  fun g k k' hk => hq _ _ _ fun _ _ => h g k k' hk

theorem Gap.lift {f : Tally → γ × Tally} {f' : Tally → δ × Tally}
    {d : γ → Cont Tally (List Atom × α)} {d' : δ → Cont Tally β}
    (hf : ∀ s, (f s).2 = s) (hf' : ∀ s, (f' s).2 = s)
    (h : ∀ s s', Gap o m (d (f s).1) (d' (f' s').1)) :
    Gap o m (do d (← .lift f)) (do d' (← .lift f')) := by
  intro g k k' hk s s' n hd
  have hrun := h s s' g k k' hk s s' n hd
  simpa only [bind, Cont.lift, hf, hf'] using hrun

/-- The parts of a node one after the other. -/
theorem Gap.all_cons {after after' : Atom → Cont Tally Unit}
    (hafter : ∀ a b, Even (after a) (after' b)) {es : List γ} {e : γ} {o : γ → Outcome}
    {f : γ → Step Tally} {f' : γ → List Atom → Cont Tally Atom}
    (h : ∀ a ∈ e :: es, ∀ env, m ≤ env.length →
      Gap ((o a).late (m < env.length)) m (f a env) (f' a env'))
    (hm : m ≤ env.length) :
    Gap ((Outcome.all ((e :: es).map o)).late (m < env.length)) m
      (chain after ((e :: es).map f) env) (each after' ((e :: es).map f') env') := by
  have he := h e List.mem_cons_self
  induction es generalizing e env with
  | nil => exact (he env hm).then fun a b => (hafter a b).bind fun _ _ => .ret [a] [b]
  | cons e2 es ih =>
    refine (he env hm).chained fun env1 a b hm1 => ?_
    refine .before (hafter a b) ?_
    have hrest := fun a ha => h a (List.mem_cons_of_mem _ ha)
    exact (ih hrest hm1 (hrest e2 List.mem_cons_self)).then fun as bs => .ret (a :: as) (b :: bs)

theorem Gap.all {after after' : Atom → Cont Tally Unit} (hafter : ∀ a b, Even (after a) (after' b))
    {es : List γ} {o : γ → Outcome} {f : γ → Step Tally} {f' : γ → List Atom → Cont Tally Atom}
    (h : ∀ e ∈ es, ∀ env, m ≤ env.length →
      Gap ((o e).late (m < env.length)) m (f e env) (f' e env'))
    (hm : m ≤ env.length) :
    Gap ((Outcome.all (es.map o)).shift (m < env.length)) m (chain after (es.map f) env)
      (each after' (es.map f') env') := by
  cases es with
  | nil => exact .here (.ret [] []) hm
  | cons e es => exact (Gap.all_cons hafter h hm).toShift

theorem Gap.arms {es : List γ} (hne : es ≠ []) {o : γ → Outcome}
    {c : γ → Cont Tally (List Atom × α)} {c' : γ → Cont Tally β}
    (h : ∀ e ∈ es, Gap ((o e).late x) m (c e) (c' e)) :
    Gap ((Outcome.arms (es.map o)).late x) m (branch tally (es.map c))
      (branch tally (es.map c')) := by
  intro g k k' hk
  have hfold := Gains.foldl (l := es) fun e he => (h e he g k k' hk).reinstate
  unfold branch
  simp only [List.foldl_map]
  refine hfold.imp ?_
  simp only [Outcome.late, Outcome.shift, Outcome.arms, List.any_map, List.all_map,
    Bool.and_eq_true, Bool.and_eq_false_iff, Bool.or_eq_true, List.any_eq_true, List.all_eq_false,
    Function.comp_apply, Bool.not_eq_true', Bool.not_eq_false']
  rintro ((⟨e, he, hf⟩ | hx) | ⟨⟨⟨e, he, hs⟩, hx⟩, hg⟩ | ⟨⟨e, he, hl⟩ | ⟨⟨e, he, hs⟩, hx⟩, hg⟩)
  · exact ⟨e, he, .inl (.inl (by simpa using hf))⟩
  · obtain ⟨e, he⟩ := List.exists_mem_of_ne_nil es hne
    exact ⟨e, he, .inl (.inr hx)⟩
  · exact ⟨e, he, .inr (.inl ⟨⟨hs, hx⟩, hg⟩)⟩
  · exact ⟨e, he, .inr (.inr ⟨.inl hl, hg⟩)⟩
  · exact ⟨e, he, .inr (.inr ⟨.inr ⟨hs, hx⟩, hg⟩)⟩

end

-- ---------------------------------------------------------------------------
-- The operations
-- ---------------------------------------------------------------------------

theorem Even.update {f f' : Tally → Tally} (h : Gains False f f') :
    Even (.modify f) (.modify f') := by
  intro P k k' hk
  exact (h.comp (hk () ())).imp .inr

theorem gains_send : Gains False (tally.send a) (tally.send b) :=
  .of_eq 0 0 (fun _ => ⟨rfl, rfl⟩) fun _ => ⟨rfl, rfl⟩

theorem even_send (a b : Atom) : Even (send tally a) (send tally b) :=
  .update gains_send

theorem even_fresh : Even (fresh tally) (fresh tally) := by
  intro P k k' hk s s' d hd
  refine hk _ _ _ _ d ?_
  simp only [Ahead, tally] at hd ⊢
  omega

/-- An atom where the meaning needs a variable. -/
theorem gains_fresh {k k' : Atom → Tally → Tally} (a : Atom) (hk : ∀ a b, Gains P (k a) (k' b)) :
    Gains True (k a) (fresh tally k') := by
  intro s s' d hd
  have hnext : Ahead (d + 1) s (tally.freshVar s').2 := by
    simp only [Ahead, tally] at hd ⊢
    omega
  have hrun := (hk a (tally.freshVar s').1 _ _ _ hnext).1
  exact ⟨Nat.le_of_succ_le hrun, fun _ => hrun⟩

theorem even_nextval (a b : Atom) : Even (nextval tally a) (nextval tally b) := by
  have hskip (c : Atom) : nextval tally c = fresh tally := by
    unfold nextval
    split <;> rfl
  rw [hskip, hskip]
  exact even_fresh

theorem even_uurlified (inner : Exp) : Even (uurlified tally inner) (uurlified tally inner) := by
  unfold uurlified
  split
  · intro P k k' hk s s' d hd
    refine hk _ _ _ _ d ?_
    simp only [Ahead, tally, CondAtom.age, List.map_cons, List.map_nil, List.sum_cons,
      List.sum_nil] at hd ⊢
    omega
  · exact even_fresh

mutual
theorem evalPat_tally (env : List Atom) (s : Tally) (e : Atom) : ∀ p,
    (evalPat tally env s e p).2 = s
  | .var _ _ | .prim _ | .none _ => rfl
  | .con _ pc arg => evalPatOption_tally env s e (patConName pc) arg
  | .record fields => evalPatFields_tally env s e fields
  | .some _ inner => evalPat_tally env s (.func (.unCon "Some") [e]) inner
theorem evalPatOption_tally (env : List Atom) (s : Tally) (e : Atom) (name : String) : ∀ p,
    (evalPatOption tally env s e name p).2 = s
  | .none => rfl
  | .some inner => evalPat_tally env s (.func (.unCon name) [e]) inner
theorem evalPatFields_tally (env : List Atom) (s : Tally) (e : Atom) : ∀ fields,
    (evalPatFields tally env s e fields).2 = s
  | [] => rfl
  | (x, p, _) :: fields => by
    show (evalPatFields tally _ (evalPat tally env s (.proj e x) p).2 e fields).2 = s
    rw [evalPat_tally env s (.proj e x) p]
    exact evalPatFields_tally _ s e fields
end

theorem envGet_isSome (h : env ≠ []) (n : Nat) : (envGet env n).isSome = true := by
  have hpos : 0 < env.length := List.length_pos_iff.mpr h
  simp only [envGet, Option.isSome_iff_ne_none, ne_eq, List.getElem?_eq_none_iff]
  omega

theorem gap_rel (n : Nat) (hlen : env'.length ≤ env.length) :
    Gap ((outcome (.rel n) env'.length).shift (env'.length < env.length)) env'.length
      (do return (env, ← flowRel tally env n)) (lookupRel tally env' n) := by
  by_cases henv : env = []
  · subst henv
    obtain rfl := List.length_eq_zero_iff.mp (Nat.le_zero.mp hlen)
    exact .here even_fresh hlen
  obtain ⟨a, ha⟩ := Option.isSome_iff_exists.mp (envGet_isSome henv n)
  have hflow : flowRel tally env n = pure a := by
    simp [flowRel, ha]
  rw [hflow]
  by_cases hn : n < env'.length
  · obtain ⟨b, hb⟩ : ∃ b, env'.reverse[n]? = some b := by simp [hn]
    have hlookup : lookupRel tally env' n = pure b := by
      simp [lookupRel, hb]
    have hout : outcome (.rel n) env'.length = .here := by simp [outcome, Outcome.here, hn]
    rw [hlookup, hout]
    exact .here (.ret a b) hlen
  · have hlookup : lookupRel tally env' n = fresh tally := by
      have hnone : env'.reverse[n]? = none := by simpa using hn
      simp [lookupRel, hnone]
    rw [hlookup]
    intro g k k' hk
    exact (gains_fresh a fun a b => hk env a b hlen).imp fun _ => True.intro

/-- The facts about the tables' rows do not count, and nothing but the variables
changes. -/
theorem rowVars_tally (tables : List String) (s : Tally) :
    (rowVars tally tables s).2.2 =
        { s with vars := s.vars + tables.length, fresh := s.fresh + tables.length } ∧
      ∀ f ∈ (rowVars tally tables s).2.1, ∀ v, f.age v = 0 := by
  have hfold (rows : List Atom) (facts : List CondAtom) (s : Tally)
      (hfacts : ∀ f ∈ facts, ∀ v, f.age v = 0) :
      let r := tables.foldl (fun (rows, facts, s) tab =>
        let (row, s') := tally.freshVar s
        (rows ++ [row], facts ++ [.aReln (.sql tab) [row]], s')) (rows, facts, s)
      r.2.2 = { s with vars := s.vars + tables.length, fresh := s.fresh + tables.length } ∧
        ∀ f ∈ r.2.1, ∀ v, f.age v = 0 := by
    induction tables generalizing rows facts s with
    | nil => exact ⟨rfl, hfacts⟩
    | cons tab tables ih =>
      have hnext := ih (rows ++ [.var s.vars]) (facts ++ [.aReln (.sql tab) [.var s.vars]])
        (tally.freshVar s).2 ?_
      · refine ⟨hnext.1.trans ?_, hnext.2⟩
        simp [tally, Nat.add_assoc, Nat.add_comm 1]
      · intro f hf v
        rcases List.mem_append.mp hf with hf | hf
        · exact hfacts f hf v
        · cases List.mem_singleton.mp hf
          rfl
  exact hfold [] [] s (by simp)

theorem sum_age_eq_zero {facts : List CondAtom} (h : ∀ f ∈ facts, ∀ v, f.age v = 0) (v : Nat) :
    (facts.map (·.age v)).sum = 0 := by
  induction facts with
  | nil => rfl
  | cons f facts ih =>
    have hf : f.age v = 0 := h f List.mem_cons_self v
    rw [List.map_cons, List.sum_cons, hf, ih fun g hg => h g (List.mem_cons_of_mem _ hg)]

theorem assertAtoms_tally {facts : List CondAtom} (h : ∀ f ∈ facts, ∀ v, f.age v = 0) (s : Tally) :
    tally.assertAtoms facts s = s := by
  show { s with visited := s.visited + (facts.map (·.age s.vars)).sum } = s
  rw [sum_age_eq_zero h]
  rfl

theorem queryVars_tally (tables : List String) (s : Tally) :
    ∃ rows, ∀ k : Atom × Atom × List Atom → Tally → Tally,
      queryVars tally tables k s = k (.var s.vars, .var (s.vars + 1), rows)
        { s with vars := s.vars + 2 + tables.length, fresh := s.fresh + 2 + tables.length } := by
  obtain ⟨hs, hage⟩ := rowVars_tally tables
    { s with vars := s.vars + 2, fresh := s.fresh + 2 }
  refine ⟨(rowVars tally tables { s with vars := s.vars + 2, fresh := s.fresh + 2 }).1,
    fun k => ?_⟩
  have hsend (rows : List Atom) (s : Tally) :
      rows.foldl (fun s row => tally.send row s) s = s := by
    induction rows with
    | nil => rfl
    | cons row rows ih => exact ih
  show k (_, _, _) (List.foldl _ (tally.assertAtoms _ _) _) = _
  rw [hsend]
  exact congrArg (k _) ((assertAtoms_tally hage _).trans hs)

/-- The accumulator is younger than the row, so that the evaluator gains by the
fact it asserts. -/
theorem gains_queryVars (k k' : Atom → Atom → Tally → Tally) (a b : Atom) (tables : List String)
    (h : ∀ r acc r' acc', Gains False (k r acc) (k' r' acc')) :
    Gains True
      (fun s => queryVars tally tables (fun v s =>
        k v.1 v.2.1 (tally.assertAtoms [.aReln .eq [v.1, a]] s)) s)
      (fun s => queryVars tally tables (fun v s =>
        k' v.1 v.2.1 (tally.assertAtoms (.aReln .eq [v.2.1, b] ::
          (tables.zip v.2.2).map fun t => .aReln .eq [.proj v.1 t.1, t.2]) s)) s) := by
  intro s s' d hd
  obtain ⟨rows, hq⟩ := queryVars_tally tables s
  obtain ⟨rows', hq'⟩ := queryVars_tally tables s'
  have hzip (r : Atom) (rows : List Atom) : ∀ f ∈ (tables.zip rows).map fun t =>
      CondAtom.aReln .eq [.proj r t.1, t.2], ∀ v, f.age v = 0 := by
    intro f hf v
    obtain ⟨t, -, rfl⟩ := List.mem_map.mp hf
    rfl
  simp only [hq, hq']
  have hnext : Ahead (d + 1)
      (tally.assertAtoms [.aReln .eq [.var s.vars, a]]
        { s with vars := s.vars + 2 + tables.length, fresh := s.fresh + 2 + tables.length })
      (tally.assertAtoms (.aReln .eq [.var (s'.vars + 1), b] ::
          (tables.zip rows').map fun t => .aReln .eq [.proj (.var s'.vars) t.1, t.2])
        { s' with vars := s'.vars + 2 + tables.length, fresh := s'.fresh + 2 + tables.length }) := by
    simp only [Ahead, tally, List.map_cons, List.sum_cons, List.map_nil, List.sum_nil,
      sum_age_eq_zero (hzip _ rows')] at hd ⊢
    simp only [CondAtom.age]
    omega
  have hrun := (h (.var s.vars) (.var (s.vars + 1)) (.var s'.vars) (.var (s'.vars + 1)) _ _ _ hnext).1
  exact ⟨Nat.le_of_succ_le hrun, fun _ => hrun⟩

/-- The evaluation in an environment that is at least as long, against the meaning. -/
def Exceeds (e : Exp) : Prop :=
  ∀ env env', env'.length ≤ env.length →
    Gap ((outcome e env'.length).late (env'.length < env.length)) env'.length
      (flow tally e env) (meaning tally e env')

theorem Exceeds.append (h : Exceeds e) (as bs : List Atom) (hl : as.length = bs.length)
    (hlen : env'.length ≤ env.length) :
    Gap (((outcome e (env'.length + bs.length)).under bs.length).late (env'.length < env.length))
      env'.length (flow tally e (env ++ as)) (meaning tally e (env' ++ bs)) := by
  have hrun := h (env ++ as) (env' ++ bs) (by simp only [List.length_append]; omega)
  simp only [List.length_append, hl, Nat.add_lt_add_iff_right] at hrun
  exact hrun.under

theorem flow_query (k : List Atom × Atom → Tally → Tally) :
    flow tally (.query qm q body initial) env k = fun s =>
      flow tally initial env (fun r s => queryVars tally (qm.tables.map Prod.fst) (fun v s =>
        flow tally body (env ++ [v.1] ++ [v.2.1]) k
          (tally.assertAtoms [.aReln .eq [v.1, r.2]] s)) s)
        (tally.enter env (.query qm q body initial) s) := rfl

theorem meaning_query (k : Atom → Tally → Tally) :
    meaning tally (.query qm q body initial) env k = fun s =>
      meaning tally initial env (fun b s => queryVars tally (qm.tables.map Prod.fst) (fun v s =>
        meaning tally body (env ++ [v.1] ++ [v.2.1]) k
          (tally.assertAtoms (.aReln .eq [v.2.1, b] :: ((qm.tables.map Prod.fst).zip v.2.2).map
            fun t => .aReln .eq [.proj v.1 t.1, t.2]) s)) s)
        (tally.enter env (.query qm q body initial) s) := rfl

theorem exceeds_query (ihb : Exceeds body) (ihi : Exceeds initial) :
    Exceeds (.query qm q body initial) := by
  intro env env' hlen g k k' hk
  have hbody (r acc r' acc' : Atom) : Gains False (flow tally body (env ++ [r] ++ [acc]) k)
      (meaning tally body (env' ++ [r'] ++ [acc']) k') := by
    have h := ihb.append [r, acc] [r', acc'] rfl hlen g k k' hk
    simp only [List.append_assoc, List.singleton_append]
    exact h.imp False.elim
  have hrest (a b : Atom) := gains_queryVars
    (fun r acc => flow tally body (env ++ [r] ++ [acc]) k)
    (fun r acc => meaning tally body (env' ++ [r] ++ [acc]) k') a b (qm.tables.map Prod.fst) hbody
  have hinit := ihi env env' hlen (fun _ => True)
    (fun r s => queryVars tally (qm.tables.map Prod.fst) (fun v s =>
      flow tally body (env ++ [v.1] ++ [v.2.1]) k (tally.assertAtoms [.aReln .eq [v.1, r.2]] s)) s)
    (fun b s => queryVars tally (qm.tables.map Prod.fst) (fun v s =>
      meaning tally body (env' ++ [v.1] ++ [v.2.1]) k'
        (tally.assertAtoms (.aReln .eq [v.2.1, b] :: ((qm.tables.map Prod.fst).zip v.2.2).map
          fun t => .aReln .eq [.proj v.1 t.1, t.2]) s)) s)
    (by
      intro _ a b _
      exact hrest a b)
  rw [flow_query, meaning_query]
  refine ((gains_enter hlen).comp hinit).imp ?_
  rcases hout : outcome initial env'.length with ⟨s1, l1, f1⟩
  by_cases hlt : env'.length < env.length
  · simp [hlt]
  · cases s1 <;> cases l1 <;> cases f1 <;>
      simp [outcome, hout, hlt, Outcome.late, Outcome.shift, Outcome.saved, Outcome.ends]

theorem exceeds (e : Exp) : Exceeds e := by
  induction e with
  | rel i => exact fun env env' hlen => .enter hlen (gap_rel i hlen)
  | con dk pc arg ih =>
    intro env env' hlen
    cases arg with
    | none => exact .enter hlen (.here (.ret (Atom.func (.dtCon0 (patConName pc)) [])
        (Atom.func (.dtCon0 (patConName pc)) [])) hlen)
    | some inner =>
      exact .enter hlen ((ih inner rfl env env' hlen).toShift.then fun a b =>
        .ret (Atom.func (.dtCon1 (patConName pc)) [a]) (Atom.func (.dtCon1 (patConName pc)) [b]))
  | some t e ih =>
    exact fun env env' hlen => .enter hlen ((ih env env' hlen).toShift.then fun a b =>
      .ret (Atom.func (.dtCon1 "Some") [a]) (Atom.func (.dtCon1 "Some") [b]))
  | ffiApp m x args ih =>
    intro env env' hlen
    have hall {after after' : Atom → Cont Tally Unit} (hafter : ∀ a b, Even (after a) (after' b)) :
        Gap ((Outcome.all (outcomeArgs args env'.length)).shift (env'.length < env.length))
          env'.length (chain after (flowArgs tally args) env)
          (each after' (meaningArgs tally args) env') := by
      rw [outcomeArgs_eq, flowArgs_eq, meaningArgs_eq, List.map_map]
      exact .all hafter (fun a ha env hm => ih a ha env env' hm) hlen
    simp only [flow, meaning]
    refine .enter hlen ?_
    split
    · exact (hall even_send).then fun _ _ => .ret (Atom.recd []) (Atom.recd [])
    · exact (hall fun _ _ => .ret () ()).then fun as bs =>
        .ret (Atom.func (.other (m ++ "." ++ x)) as) (Atom.func (.other (m ++ "." ++ x)) bs)
  | app f arg ihf iha =>
    intro env env' hlen
    cases f with
    | ffi m x =>
      exact .enter hlen ((iha env env' hlen).toShift.then fun a b =>
        (even_send a b).bind fun _ _ => .ret (Atom.recd []) (Atom.recd []))
    | error e t => exact .enter hlen (ihf env env' hlen).toShift
    | _ => exact .enter hlen (.here even_fresh hlen)
  | unop op e ih =>
    exact fun env env' hlen => .enter hlen ((ih env env' hlen).toShift.then fun a b =>
      .ret (Atom.func (.other op) [a]) (Atom.func (.other op) [b]))
  | binop bi op e1 e2 ih1 ih2 =>
    exact fun env env' hlen => .enter hlen <| Gap.toShift <|
      (ih1 env env' hlen).saved fun a1 b1 => (ih2 env env' hlen).then fun a2 b2 =>
        .ret (Atom.func (.other op) [a1, a2]) (Atom.func (.other op) [b1, b2])
  | record xets ih =>
    intro env env' hlen
    have hall : Gap ((Outcome.all (outcomeFields xets env'.length)).shift
        (env'.length < env.length)) env'.length
        (chain (fun _ => return ()) (flowFields tally xets) env)
        (each (fun _ => return ()) (meaningFields tally xets) env') := by
      rw [outcomeFields_eq, flowFields_eq, meaningFields_eq]
      exact .all (fun _ _ => .ret () ()) (fun f hf env hm => ih f hf env env' hm) hlen
    exact .enter hlen (hall.then fun as bs => .ret (Atom.recd ((xets.map Prod.fst).zip as))
      (Atom.recd ((xets.map Prod.fst).zip bs)))
  | field e x ih =>
    exact fun env env' hlen => .enter hlen ((ih env env' hlen).toShift.then fun a b =>
      .ret (Atom.proj a x) (Atom.proj b x))
  | case disc arms info ihd iha =>
    intro env env' hlen
    have harms env (a b : Atom) (hm : env'.length ≤ env.length) (hne : arms ≠ []) :
        Gap ((Outcome.arms (outcomeArms arms env'.length)).late (env'.length < env.length))
          env'.length
          (branch tally ((flowArms tally arms).map fun arm => do
            arm.2 (← .lift fun s => evalPat tally env s a arm.1)))
          (branch tally ((meaningArms tally arms).map fun arm => do
            arm.2 (← .lift fun s => evalPat tally env' s b arm.1))) := by
      rw [outcomeArms_eq, flowArms_eq, meaningArms_eq, List.map_map, List.map_map]
      refine .arms hne fun arm harm => .lift (fun s => evalPat_tally env s a arm.1)
        (fun s => evalPat_tally env' s b arm.1) fun s s' => ?_
      obtain ⟨as, has, henv⟩ := evalPat_append tally env s a arm.1
      obtain ⟨bs, hbs, henv'⟩ := evalPat_append tally env' s' b arm.1
      rw [henv, henv', ← hbs]
      exact (iha arm harm).append as bs (has.trans hbs.symm) hm
    cases arms with
    | nil =>
      have h : Gap (α := Atom) (β := Atom) ((outcome disc env'.length).stopped.late (env'.length < env.length))
          env'.length (do .stop ((fun _ s => s) (← flow tally disc env).2))
          (do .stop ((fun _ s => s) (← meaning tally disc env'))) :=
        (ihd env env' hlen).stopped fun _ _ =>
          .of_eq 0 0 (fun _ => ⟨rfl, rfl⟩) fun _ => ⟨rfl, rfl⟩
      exact .enter hlen (Gap.toShift h)
    | cons arm arms =>
      exact .enter hlen (Gap.toShift ((ihd env env' hlen).chained fun env a b hm =>
        harms env a b hm (by simp)))
  | strcat e1 e2 ih1 ih2 =>
    exact fun env env' hlen => .enter hlen <| Gap.toShift <|
      (ih1 env env' hlen).saved fun a1 b1 => (ih2 env env' hlen).then fun a2 b2 =>
        .ret (Atom.func (.other "cat") [a1, a2]) (Atom.func (.other "cat") [b1, b2])
  | error e t ih =>
    exact fun env env' hlen => .enter hlen <| Gap.toShift <|
      (ih env env' hlen).stopped fun _ _ => gains_send
  | returnBlob blob mimeType t ihb ihm =>
    intro env env' hlen
    cases blob with
    | none =>
      exact .enter hlen (Gap.toShift ((ihm env env' hlen).stopped fun _ _ => gains_send))
    | some blob =>
      have h : Gap (((outcome blob env'.length).chained (outcome mimeType env'.length)).late
          (env'.length < env.length)) env'.length
          (do let r ← flow tally blob env; send tally r.2; flow tally mimeType r.1)
          (do let b ← meaning tally blob env'; send tally b; meaning tally mimeType env') :=
        (ihb blob rfl env env' hlen).chained fun env a b hm =>
          .before (even_send a b) (ihm env env' hm)
      exact .enter hlen (Gap.toShift (h.stopped fun _ _ => gains_send))
  | redirect e t ih =>
    exact fun env env' hlen => .enter hlen <| Gap.toShift <|
      (ih env env' hlen).stopped fun _ _ => gains_send
  | write e ih =>
    exact fun env env' hlen => .enter hlen ((ih env env' hlen).toShift.then fun a b =>
      (even_send a b).bind fun _ _ => .ret (Atom.recd []) (Atom.recd []))
  | seq e1 e2 ih1 ih2 =>
    exact fun env env' hlen => .enter hlen <| Gap.toShift <|
      (ih1 env env' hlen).saved fun _ _ => ih2 env env' hlen
  | letIn x t e1 e2 ih1 ih2 =>
    intro env env' hlen
    have h2 a b : Gap (((outcome e2 (env'.length + 1)).under 1).late (env'.length < env.length))
        env'.length (flow tally e2 (env ++ [a])) (meaning tally e2 (env' ++ [b])) :=
      ih2.append [a] [b] rfl hlen
    exact .enter hlen (Gap.toShift ((ih1 env env' hlen).saved h2))
  | closure id captured ih =>
    intro env env' hlen
    have hall : Gap ((Outcome.all (outcomeEnvs captured env'.length)).shift
        (env'.length < env.length)) env'.length
        (chain (fun _ => return ()) (flowEnvs tally captured) env)
        (each (fun _ => return ()) (meaningEnvs tally captured) env') := by
      rw [outcomeEnvs_eq, flowEnvs_eq, meaningEnvs_eq]
      exact .all (fun _ _ => .ret () ()) (fun e he env hm => ih e he env env' hm) hlen
    exact .enter hlen (hall.then fun as bs => .ret (Atom.func (.other ("Cl" ++ toString id)) as)
      (Atom.func (.other ("Cl" ++ toString id)) bs))
  | query qm q body initial ihq ihb ihi => exact exceeds_query ihb ihi
  | dml e fm ih =>
    exact fun env env' hlen => .enter hlen ((ih env env' hlen).toShift.then fun _ _ =>
      .ret (Atom.recd []) (Atom.recd []))
  | nextval e ih =>
    exact fun env env' hlen => .enter hlen ((ih env env' hlen).toShift.then even_nextval)
  | setval e1 e2 ih1 ih2 =>
    exact fun env env' hlen => .enter hlen <| Gap.toShift <|
      (ih1 env env' hlen).saved fun _ _ => (ih2 env env' hlen).then fun _ _ =>
        .ret (Atom.recd []) (Atom.recd [])
  | uurlify inner t b ih => exact fun env env' hlen => .enter hlen (.here (even_uurlified inner) hlen)
  | prim p => exact fun env env' hlen => .enter hlen (.here (.ret (Atom.const p) (Atom.const p)) hlen)
  | none t => exact fun env env' hlen => .enter hlen (.here (.ret (Atom.func (.dtCon0 "None") [])
      (Atom.func (.dtCon0 "None") [])) hlen)
  | _ => exact fun env env' hlen => .enter hlen (.here even_fresh hlen)

end UrWeb.Iflow
