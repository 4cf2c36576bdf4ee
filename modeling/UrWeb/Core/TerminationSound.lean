import UrWeb.Core.Semantics
import UrWeb.Core.TerminationCheck
import UrWeb.Lib.SelfLoops
import UrWeb.References

/-!
# What an accepted group guarantees

The calls that the functions of a group make when they run, and which infinite
sequences of them the checker rules out: those in which every call is written as
an application of the function's name and comes back to a function only from
that function itself.
-/

namespace UrWeb.Core.Termination

-- ---------------------------------------------------------------------------
-- Parts of a value
-- ---------------------------------------------------------------------------

/-- A payload or a field. -/
inductive Inside : Value → Value → Prop
  | payload : Inside v (.constructor pc (some v))
  | field : (x, v) ∈ vs → Inside v (.record vs)

abbrev ProperPart : Value → Value → Prop := Relation.TransGen Inside

theorem sizeOf_inside (h : Inside v w) : sizeOf v < sizeOf w := by
  cases h with
  | payload => simp; omega
  | field h =>
    have := List.sizeOf_lt_of_mem h
    simp at this ⊢
    omega

theorem sizeOf_properPart (h : ProperPart v w) : sizeOf v < sizeOf w := by
  induction h with
  | single h => exact sizeOf_inside h
  | tail _ h ih => exact ih.trans (sizeOf_inside h)

-- ---------------------------------------------------------------------------
-- Calls
-- ---------------------------------------------------------------------------

/-- How a value id is used: as the head of an application, on its own, or as the
target of a server call. -/
inductive Site
  | call
  | mention
  | server
  deriving DecidableEq

/-- Head and arguments of an application chain. -/
def spine : Expression → Expression × List Expression
  | .app e1 e2 => ((spine e1).1, (spine e1).2 ++ [e2])
  | .cApp e _ | .kApp e _ => spine e
  | e => (e, [])

def headParts : Expression → List Expression
  | .named _ => []
  | e => [e]

/-- The parts that are evaluated in the same environment. -/
def parts : Expression → List Expression
  | .app e1 e2 => headParts (spine e1).1 ++ (spine e1).2 ++ [e2]
  | .cApp e _ | .kApp e _ => headParts (spine e).1 ++ (spine e).2
  | .constructor _ _ _ payload => payload.toList
  | .ffiApp _ _ args => args.map Prod.fst
  | .record fields => fields.map fun f => f.2.1
  | .cAbs _ _ e | .kAbs _ e | .field e _ _ | .cut e _ _ | .cutMulti e _ _ | .write e => [e]
  | .concat e1 _ e2 _ => [e1, e2]
  | .letIn _ _ e1 _ => [e1]
  | .case disc _ _ => [disc]
  | .serverCall _ es _ _ | .closure _ es => es
  | .prim _ | .rel _ | .named _ | .ffi _ _ | .abs .. => []

/-- How many arguments a body takes before any of its code runs. -/
def arity : Expression → Nat
  | .abs _ _ _ body => arity body + 1
  | .cAbs _ _ body | .kAbs _ body => arity body
  | _ => 0

def code : Expression → Expression
  | .abs _ _ _ body => code body
  | .cAbs _ _ body | .kAbs _ body => code body
  | e => e

section
variable (W : World) (file : File)

/-- Running `e`, together with the closures that it makes and whatever these are
applied to, uses the function `n` with these arguments at least. Arguments
beyond the arity are left out: the function runs before them. -/
inductive Uses (arities : Nat → Nat) :
    List Value → Expression → Site → Nat → List Value → Prop
  | call : isApplication e = true → spine e = (.named n, es) →
      EvalList W file env (es.take (arities n)) vs → Uses arities env e .call n vs
  | mention : Uses arities env (.named n) .mention n []
  | server : EvalList W file env (es.take (arities n)) vs →
      Uses arities env (.serverCall n es t fm) .server n vs
  | part : e' ∈ parts e → Uses arities env e' s n vs → Uses arities env e s n vs
  | abs : Uses arities (v :: env) body s n vs → Uses arities env (.abs x dom ran body) s n vs
  | letIn : Eval W file env e1 v → Uses arities (v :: env) e2 s n vs →
      Uses arities env (.letIn x t e1 e2) s n vs
  | arm : Eval W file env disc v → selectArm arms v env = some (env', e) →
      Uses arities env' e s n vs → Uses arities env (.case disc arms info) s n vs

/-- A function of the group with all its arguments. -/
structure Activation where
  fn : Nat
  args : List Value

variable (vis : List ValBinding)

def groupArity (n : Nat) : Nat :=
  (((functionEnv vis n).bind fun i => vis[i]?).map fun vi => arity vi.body).getD 0

/-- The code of `a` makes the call `b`; arguments that it does not supply itself
may be anything. -/
structure Calls (site : Site) (a b : Activation) : Prop where
  uses : ∃ vi, vis[a.fn]? = some vi ∧ a.args.length = arity vi.body ∧ ∃ n vs,
    Uses W file (groupArity vis) a.args.reverse (code vi.body) site n vs ∧
      functionEnv vis n = some b.fn ∧ vs <+: b.args
  saturated : ∃ vi, vis[b.fn]? = some vi ∧ b.args.length = arity vi.body

end

-- ---------------------------------------------------------------------------
-- Pedigrees describe values
-- ---------------------------------------------------------------------------

/-- What a pedigree says of a value that occurs while `a` runs. -/
def Describes (a : Activation) : Pedigree → Value → Prop
  | .arg i j _, v => i = a.fn ∧ a.args[j]? = some v
  | .subarg i j _, v => i = a.fn ∧ ∃ w, a.args[j]? = some w ∧ ProperPart v w
  | .func _, _ | .rabble, _ => True

abbrev DescribesEnv (a : Activation) : List Pedigree → List Value → Prop :=
  List.Forall₂ (Describes a)

section
variable {a : Activation}

theorem describes_part (typeOf : Constructor → Option Constructor) {ped : Pedigree}
    (h : Describes a ped w) (hv : Inside v w) :
    Describes a (ped.part typeOf) v := by
  cases ped with
  | func | rabble => trivial
  | arg i j t =>
    obtain ⟨hi, hw⟩ := h
    rw [Pedigree.part]
    split
    · exact ⟨hi, w, hw, .single hv⟩
    · trivial
  | subarg i j t =>
    obtain ⟨hi, u, hu, hw⟩ := h
    rw [Pedigree.part]
    split
    · exact ⟨hi, u, hu, .head hv hw⟩
    · trivial

theorem describes_lookup {env : List Value} {n : Nat} (h : DescribesEnv a penv env)
    (hv : env[n]? = some v) :
    Describes a ((penv[n]?).getD .rabble) v := by
  induction h generalizing n with
  | nil => simp at hv
  | cons hd _ ih =>
    cases n with
    | zero =>
      simp only [List.getElem?_cons_zero, Option.some.injEq] at hv
      exact hv ▸ hd
    | succ n => exact ih (by simpa using hv)

theorem lookup_inside (h : List.lookup x vs = some v) : Inside v (.record vs) := by
  induction vs with
  | nil => simp at h
  | cons f vs ih =>
    rw [List.lookup_cons] at h
    split at h
    · rename_i hx
      obtain rfl : f.2 = v := by simpa using h
      exact .field (x := f.1) List.mem_cons_self
    · cases ih h with
      | field hmem => exact .field (List.mem_cons_of_mem _ hmem)

theorem describes_processPat {payloads : PayloadMap} (p : Pattern)
    (hped : Describes a ped v) (hpenv : DescribesEnv a penv env)
    (hm : p.matches v env = some env') : DescribesEnv a (processPat payloads p ped penv) env' := by
  induction p generalizing ped v penv env env' with
  | var x t =>
    simp only [Pattern.matches, Option.some.injEq] at hm
    exact hm ▸ .cons hped hpenv
  | prim p =>
    cases v with
    | prim p' =>
      simp only [Pattern.matches, Option.ite_none_right_eq_some, Option.some.injEq] at hm
      exact hm.2 ▸ hpenv
    | _ => simp [Pattern.matches] at hm
  | constructor dk pc ts sub ih =>
    cases v with
    | constructor pc' payload =>
      simp only [Pattern.matches, Option.ite_none_right_eq_some] at hm
      rw [processPat]
      cases sub with
      | none =>
        cases payload with
        | none =>
          simp only [Pattern.subMatches, Option.some.injEq] at hm
          exact hm.2 ▸ hpenv
        | some w => simp [Pattern.subMatches] at hm
      | some q =>
        cases payload with
        | none => simp [Pattern.subMatches] at hm
        | some w => exact ih q rfl (describes_part _ hped .payload) hpenv hm.2
    | _ => simp [Pattern.matches] at hm
  | record fields ih =>
    cases v with
    | record vs =>
      simp only [Pattern.matches] at hm
      rw [processPat]
      induction fields generalizing penv env with
      | nil =>
        simp only [Pattern.fieldMatches, Option.some.injEq] at hm
        exact hm ▸ hpenv
      | cons f fields ihf =>
        rw [Pattern.fieldMatches] at hm
        split at hm
        · rename_i w hw
          obtain ⟨env1, h1, h2⟩ := Option.bind_eq_some_iff.mp hm
          refine ihf (fun g hg => ih g (List.mem_cons_of_mem _ hg)) ?_ h2
          exact ih f List.mem_cons_self (describes_part _ hped (lookup_inside hw)) hpenv h1
        · simp at hm
    | _ => simp [Pattern.matches] at hm

end

-- ---------------------------------------------------------------------------
-- Every call written as one is recorded
-- ---------------------------------------------------------------------------

section
variable {W : World} {file : File} {payloads : PayloadMap} {parent : Nat} {fenv : Nat → Option Nat}
variable {a : Activation}

attribute [local simp] Spine.close Spine.leaf in
theorem close_rabble (e : Expression) (calls : List Call) :
    ((Spine.leaf .rabble calls).close parent e) = (.rabble, calls) := by
  simp

theorem close_application (h : isApplication e = true) (r : Spine) :
    (r.close parent e).1 = .rabble := by
  simp only [Spine.close, if_pos h]
  split <;> rfl

theorem expPedigree_describes (hpenv : DescribesEnv a penv env) (he : Eval W file env e v) :
    Describes a (expPedigree payloads parent fenv e penv).1 v := by
  induction e generalizing v with
  | rel n =>
    cases he with
    | rel h =>
      simpa [expPedigree, combiner, Spine.leaf, Spine.close, isApplication] using
        describes_lookup hpenv h
  | named n =>
    simp only [expPedigree, combiner, Spine.leaf, Spine.close, isApplication]
    cases fenv n <;> trivial
  | field e c info ih =>
    cases he with
    | field hbase _ hx =>
      have hbase := ih hbase
      simp only [expPedigree] at hbase
      simp only [expPedigree, combiner]
      cases hped : ((combiner payloads parent fenv e penv).close parent e).1 with
      | subarg i j t =>
        rw [hped] at hbase
        simpa [Spine.leaf, Spine.close, isApplication, hped, fieldPedigree] using
          describes_part (fun t => fieldType t c) hbase (lookup_inside hx)
      | _ => simp [Spine.leaf, Spine.close, isApplication, hped, fieldPedigree, Describes]
  | app | cApp | kApp => rw [expPedigree, close_application rfl]; trivial
  | _ => rw [expPedigree, combiner, close_rabble]; trivial

attribute [local simp] combiner payloadCalls argCalls fieldCalls listCalls armCalls in
theorem combiner_leaf (h : isApplication e = false) :
    combiner payloads parent fenv e penv = .leaf (expPedigree payloads parent fenv e penv).1
      (expPedigree payloads parent fenv e penv).2 := by
  cases e with
  | app | cApp | kApp => simp [isApplication] at h
  | _ => simp [expPedigree, combiner, Spine.close, Spine.leaf, isApplication]

variable (payloads parent fenv) in
/-- The walk over a chain sees its head and its arguments. -/
theorem combiner_spine (penv : List Pedigree) (e : Expression) :
    (combiner payloads parent fenv e penv).peds =
      (expPedigree payloads parent fenv (spine e).1 penv).1 ::
        (spine e).2.map (fun e' => (expPedigree payloads parent fenv e' penv).1) ∧
    (combiner payloads parent fenv e penv).calls =
      (expPedigree payloads parent fenv (spine e).1 penv).2 ++
        (spine e).2.flatMap (fun e' => (expPedigree payloads parent fenv e' penv).2) := by
  induction e with
  | app e1 e2 ih1 ih2 => simp [combiner, spine, ih1.1, ih1.2, expPedigree]
  | cApp e c ih | kApp e c ih => simpa [combiner, spine] using ih
  | _ =>
    rw [combiner_leaf rfl]
    simp [Spine.leaf, spine]

theorem mem_close {r : Spine} (h : c ∈ r.calls) : c ∈ (r.close parent e).2 := by
  rw [Spine.close]
  split
  · split
    · exact List.mem_append_left _ h
    · exact h
  · exact h

theorem payloadCalls_eq (payload : Option Expression) :
    payloadCalls payloads parent fenv payload penv =
      payload.toList.flatMap fun e => (expPedigree payloads parent fenv e penv).2 := by
  cases payload <;> simp [payloadCalls, expPedigree]

theorem argCalls_eq (args : List (Expression × Constructor)) :
    argCalls payloads parent fenv args penv =
      (args.map Prod.fst).flatMap fun e => (expPedigree payloads parent fenv e penv).2 := by
  induction args with
  | nil => rfl
  | cons _ _ ih => simp [argCalls, expPedigree, ih]

theorem fieldCalls_eq (fields : List (Constructor × Expression × Constructor)) :
    fieldCalls payloads parent fenv fields penv =
      (fields.map fun f => f.2.1).flatMap fun e => (expPedigree payloads parent fenv e penv).2 := by
  induction fields with
  | nil => rfl
  | cons _ _ ih => simp [fieldCalls, expPedigree, ih]

theorem listCalls_eq (es : List Expression) :
    listCalls payloads parent fenv es penv =
      es.flatMap fun e => (expPedigree payloads parent fenv e penv).2 := by
  induction es with
  | nil => rfl
  | cons _ _ ih => simp [listCalls, expPedigree, ih]

theorem armCalls_eq (arms : List (Pattern × Expression)) (ped : Pedigree) :
    armCalls payloads parent fenv arms ped penv =
      arms.flatMap fun pe =>
        (expPedigree payloads parent fenv pe.2 (processPat payloads pe.1 ped penv)).2 := by
  induction arms with
  | nil => rfl
  | cons _ _ ih => simp [armCalls, expPedigree, ih]

theorem spine_parts (h : isApplication e = true) :
    parts e = headParts (spine e).1 ++ (spine e).2 := by
  cases e with
  | app | cApp | kApp => simp [parts, spine]
  | _ => simp [isApplication] at h

theorem headParts_calls (h : e' ∈ headParts e) : e' = e := by
  cases e with
  | named => simp [headParts] at h
  | _ => exact List.mem_singleton.mp h

/-- The calls of the parts are calls of the whole. -/
theorem part_calls (he : e' ∈ parts e) (hc : c ∈ (expPedigree payloads parent fenv e' penv).2) :
    c ∈ (expPedigree payloads parent fenv e penv).2 := by
  have hmem {es : List Expression} (h : e' ∈ es) :
      c ∈ es.flatMap fun e => (expPedigree payloads parent fenv e penv).2 :=
    List.mem_flatMap.mpr ⟨e', h, hc⟩
  cases happ : isApplication e with
  | true =>
    refine mem_close ?_
    rw [(combiner_spine payloads parent fenv penv e).2]
    rw [spine_parts happ] at he
    rcases List.mem_append.mp he with he | he
    · exact List.mem_append_left _ (headParts_calls he ▸ hc)
    · exact List.mem_append_right _ (hmem he)
  | false =>
    cases e with
    | app | cApp | kApp => simp [isApplication] at happ
    | constructor | ffiApp | record | serverCall | closure =>
      refine mem_close ?_
      simp only [combiner, Spine.leaf, payloadCalls_eq, argCalls_eq, fieldCalls_eq, listCalls_eq]
      exact hmem he
    | field | cut | cutMulti | write | cAbs | kAbs =>
      obtain rfl := List.mem_singleton.mp he
      exact mem_close hc
    | concat e1 c1 e2 c2 =>
      refine mem_close ?_
      obtain rfl | rfl : e' = e1 ∨ e' = e2 := by simpa [parts] using he
      · exact List.mem_append_left _ hc
      · exact List.mem_append_right _ hc
    | letIn | case =>
      obtain rfl := List.mem_singleton.mp he
      exact mem_close (List.mem_append_left _ hc)
    | prim | rel | named | ffi | abs => simp [parts] at he

/-- The recorded arguments of a call describe the values it is made with. -/
def Records (a : Activation) (arity : Nat) (c : Call) (vs : List Value) : Prop :=
  ∀ k < arity, ∀ ped, c.args[k]? = some ped → ∃ v, vs[k]? = some v ∧ Describes a ped v

theorem evalList_getElem {es : List Expression} {vs : List Value} {k : Nat}
    (h : EvalList W file env es vs) (he : es[k]? = some e) :
    ∃ v, vs[k]? = some v ∧ Eval W file env e v := by
  induction k generalizing es vs with
  | zero =>
    cases h with
    | nil => simp at he
    | cons h _ =>
      obtain rfl := Option.some.inj he
      exact ⟨_, rfl, h⟩
  | succ k ih =>
    cases h with
    | nil => simp at he
    | cons _ h => exact ih h he

theorem describesEnv_rabble (h : DescribesEnv a penv env) :
    DescribesEnv a (.rabble :: penv) (v :: env) :=
  .cons trivial h

theorem selectArm_some (h : selectArm arms v env = some (env', e)) :
    ∃ p, (p, e) ∈ arms ∧ p.matches v env = some env' := by
  induction arms with
  | nil => simp [selectArm] at h
  | cons arm arms ih =>
    rw [selectArm] at h
    split at h
    · rename_i hp
      obtain ⟨rfl, rfl⟩ := Prod.mk.inj (Option.some.inj h)
      exact ⟨arm.1, List.mem_cons_self, hp⟩
    · obtain ⟨p, hp, hm⟩ := ih h
      exact ⟨p, List.mem_cons_of_mem _ hp, hm⟩

variable (payloads parent) in
theorem uses_recorded {site : Site} (hu : Uses W file arities env e site n vs)
    (hsite : site = .call)
    (hf : fenv n = some i) (hpenv : DescribesEnv a penv env) :
    ∃ c ∈ (expPedigree payloads parent fenv e penv).2,
      c.caller = parent ∧ c.callee = i ∧ Records a (arities n) c vs := by
  induction hu generalizing penv with
  | @call e es n env vs happ hspine hargs =>
    have hpeds := (combiner_spine payloads parent fenv penv e).1
    rw [hspine] at hpeds
    have hhead : (expPedigree payloads parent fenv (.named n) penv).1 = .func i := by
      simp [expPedigree, combiner, Spine.leaf, Spine.close, isApplication, hf]
    rw [hhead] at hpeds
    refine ⟨⟨parent, i, es.map fun e' => (expPedigree payloads parent fenv e' penv).1⟩, ?_, rfl,
      rfl, fun k hk ped hped => ?_⟩
    · rw [expPedigree, Spine.close, if_pos happ, hpeds]
      exact List.mem_append_right _ List.mem_cons_self
    · obtain ⟨e', he', rfl⟩ := List.getElem?_map .. ▸ hped |> Option.map_eq_some_iff.mp
      obtain ⟨v, hv, heval⟩ := evalList_getElem hargs
        (e := e') (by rw [List.getElem?_take_of_lt hk, he'])
      exact ⟨v, hv, expPedigree_describes hpenv heval⟩
  | mention => cases hsite
  | server => cases hsite
  | part hmem _ ih =>
    obtain ⟨c, hc, hrest⟩ := ih hsite hf hpenv
    exact ⟨c, part_calls hmem hc, hrest⟩
  | abs _ ih =>
    obtain ⟨c, hc, hrest⟩ := ih hsite hf (describesEnv_rabble hpenv)
    exact ⟨c, mem_close hc, hrest⟩
  | letIn _ _ ih =>
    obtain ⟨c, hc, hrest⟩ := ih hsite hf (describesEnv_rabble hpenv)
    exact ⟨c, mem_close (List.mem_append_right _ hc), hrest⟩
  | @arm env disc v arms env' e _ _ _ info hdisc harm _ ih =>
    obtain ⟨p, hp, hm⟩ := selectArm_some harm
    obtain ⟨c, hc, hrest⟩ := ih hsite hf
      (describes_processPat p (expPedigree_describes hpenv hdisc) hpenv hm)
    refine ⟨c, mem_close ?_, hrest⟩
    simp only [combiner, Spine.leaf, armCalls_eq]
    exact List.mem_append_right _ (List.mem_flatMap.mpr ⟨(p, e), hp, hc⟩)

end

-- ---------------------------------------------------------------------------
-- The group as a whole
-- ---------------------------------------------------------------------------

section
variable {payloads : PayloadMap} {parent : Nat} {fenv : Nat → Option Nat} {a : Activation}

variable (payloads fenv) in
/-- Peeling a body binds its arguments, and what is left is its code. -/
theorem unravel_spec (pos : Nat) (penv : List Pedigree) (e : Expression) (ha : a.fn = parent) (hlen : a.args.length = pos + arity e)
    (hpenv : DescribesEnv a penv (a.args.take pos).reverse) :
    ∃ penv', unravel payloads parent fenv e pos penv =
        (pos + arity e, (expPedigree payloads parent fenv (code e) penv').2) ∧
      DescribesEnv a penv' a.args.reverse := by
  induction e generalizing pos penv with
  | abs x dom ran body ih =>
    simp only [arity] at hlen
    have hlt : pos < a.args.length := by omega
    obtain ⟨penv', hun, henv⟩ := ih (pos + 1) (.arg parent pos dom :: penv)
      (by omega) (by
        rw [List.take_add_one, List.getElem?_eq_getElem hlt, Option.toList_some,
          List.reverse_append]
        exact .cons ⟨ha.symm, List.getElem?_eq_getElem hlt⟩ hpenv)
    refine ⟨penv', ?_, henv⟩
    rw [unravel, hun, arity, code]
    simp only [Prod.mk.injEq, and_true]
    omega
  | cAbs x k body ih | kAbs x body ih => exact ih _ _ hlen hpenv
  | _ =>
    refine ⟨penv, rfl, ?_⟩
    rwa [List.take_of_length_le (by simp only [arity] at hlen; omega)] at hpenv

theorem unravel_fst (e : Expression) :
    (unravel payloads parent fenv e pos penv).1 = pos + arity e := by
  induction e generalizing pos penv with
  | abs x dom ran body ih =>
    rw [unravel, ih, arity]
    omega
  | cAbs x k body ih | kAbs x body ih => exact ih
  | _ => rfl

theorem search_spec {calls : List Call} (h : search calls ns choices = true) :
    ∃ cs : List Nat, cs.length = ns.length ∧ (∀ k n : Nat, ns[k]? = some n → cs.getD k 0 < n) ∧
      ∀ c ∈ calls, callDecreases (choices ++ cs) c = true := by
  induction ns generalizing choices with
  | nil => exact ⟨[], rfl, by simp, by simpa [search] using h⟩
  | cons n ns ih =>
    obtain ⟨choice, hchoice, h⟩ := List.any_eq_true.mp h
    obtain ⟨cs, hlen, hbound, hall⟩ := ih h
    refine ⟨choice :: cs, by simp [hlen], fun k m hk => ?_, by simpa using hall⟩
    cases k with
    | zero =>
      obtain rfl := Option.some.inj hk
      simpa using List.mem_range.mp hchoice
    | succ k => exact hbound k m hk

theorem reachable_marked (calls : List Call) (hgoal : goal ∈ visited) (hi : i ≠ goal) :
    (reachable calls goal fuel i visited).1 = false ∧
      goal ∈ (reachable calls goal fuel i visited).2 := by
  induction fuel generalizing i visited with
  | zero => exact ⟨rfl, hgoal⟩
  | succ fuel ih =>
    rw [reachable, if_neg hi]
    refine List.foldlRecOn (motive := fun r : Bool × Finset Nat => r.1 = false ∧ goal ∈ r.2) _ _
      ⟨rfl, hgoal⟩ ?_
    rintro r ⟨hr, hmem⟩ next -
    split
    · exact ⟨hr, hmem⟩
    · rename_i hnew
      exact ih (Finset.mem_insert_of_mem hmem) fun he => hnew (.inr (he ▸ hmem))

/-- The caller is marked before the search begins, so the search never comes
back to it: only calls of a function by itself are kept. -/
theorem mem_recursiveCalls {calls : List Call} :
    c ∈ recursiveCalls calls ↔ c ∈ calls ∧ c.callee = c.caller := by
  rw [recursiveCalls, List.mem_filter]
  refine and_congr_right fun _ => ?_
  by_cases h : c.callee = c.caller
  · simp [reachable, h]
  · simp [h, (reachable_marked calls (Finset.mem_singleton_self c.caller) h).1]

theorem functionEnv_some {vis : List ValBinding} {n i : Nat} (h : functionEnv vis n = some i) :
    ∃ vi, vis[i]? = some vi ∧ vi.id = n := by
  obtain h | ⟨b, hb, rfl, rfl⟩ := foldl_update_eq_some (fun vi : ValBinding × Nat => vi.1.id)
    Prod.snd vis.zipIdx _ h
  · cases h
  · exact ⟨b.1, List.mk_mem_zipIdx_iff_getElem?.mp hb, rfl⟩

/-- All calls recorded for a group. -/
def groupCalls (vis : List ValBinding) (payloads : PayloadMap) : List Call :=
  (unravelAll vis payloads).flatMap Prod.snd

def Leads (calls : List Call) (i j : Nat) : Prop := ∃ c ∈ calls, c.caller = i ∧ c.callee = j

end

section
variable {W : World} {file : File} {vis : List ValBinding} {payloads : PayloadMap} {a b : Activation}

variable (payloads) in
/-- A call written as one is recorded, with arguments that describe its values. -/
theorem calls_recorded (h : Calls W file vis .call a b) :
    ∃ c ∈ groupCalls vis payloads, c.caller = a.fn ∧ c.callee = b.fn ∧
      Records a b.args.length c b.args := by
  obtain ⟨⟨vi, hvi, hlen, n, vs, huses, hfn, hprefix⟩, vj, hvj, hlen'⟩ := h
  have hlen0 : a.args.length = 0 + arity vi.body := by omega
  obtain ⟨penv, hun, hpenv⟩ := unravel_spec payloads (functionEnv vis) 0 [] vi.body rfl hlen0 .nil
  obtain ⟨c, hc, hcaller, hcallee, hrec⟩ := uses_recorded payloads a.fn huses rfl hfn hpenv
  refine ⟨c, ?_, hcaller, hcallee, fun k hk ped hped => ?_⟩
  · refine List.mem_flatMap.mpr ⟨_, List.mem_map.mpr ⟨(vi, a.fn), ?_, rfl⟩, ?_⟩
    · exact List.mk_mem_zipIdx_iff_getElem?.mpr (by simpa using hvi)
    · rwa [hun]
  · have harity : groupArity vis n = b.args.length := by simp [groupArity, hfn, hvj, hlen']
    obtain ⟨v, hv, hdesc⟩ := hrec k (harity ▸ hk) ped hped
    obtain ⟨rest, hrest⟩ := hprefix
    obtain ⟨hk', rfl⟩ := List.getElem?_eq_some_iff.mp hv
    exact ⟨_, by rw [← hrest, List.getElem?_append_left hk', hv], hdesc⟩

/-- The size of the argument that was chosen to decrease. -/
noncomputable def witnessSize (choices : List Nat) (a : Activation) : Nat :=
  match a.args[choices.getD a.fn 0]? with
  | some v => sizeOf v
  | none => 0

theorem witnessSize_eq (h : a.args[choices.getD a.fn 0]? = some v) :
    witnessSize choices a = sizeOf v := by
  rw [witnessSize, h]

variable (W file) in
/-- In an accepted group one argument of each function gets smaller whenever the
function calls itself. -/
theorem exists_witness (hok : checkValRec vis payloads = true) :
    ∃ choices : List Nat, ∀ {a b}, Calls W file vis .call a b → a.fn = b.fn →
      witnessSize choices b < witnessSize choices a := by
  rw [checkValRec, Bool.or_eq_true] at hok
  obtain ⟨choices, hbound, hall⟩ : ∃ choices : List Nat,
      (∀ i, (∃ c ∈ recursiveCalls (groupCalls vis payloads), c.callee = i) →
        ∀ vi, vis[i]? = some vi → choices.getD i 0 < arity vi.body) ∧
      ∀ c ∈ recursiveCalls (groupCalls vis payloads), callDecreases choices c = true := by
    obtain hnone | hsearch := hok
    · have hnil : recursiveCalls (groupCalls vis payloads) = [] := List.isEmpty_iff.mp hnone
      exact ⟨[], by simp [hnil], by simp [hnil]⟩
    · obtain ⟨cs, -, hbound, hall⟩ := search_spec hsearch
      refine ⟨cs, fun i _ vi hvi => hbound i _ ?_, hall⟩
      simp [unravelAll, hvi, unravel_fst]
  refine ⟨choices, fun {a b} hcall hself => ?_⟩
  obtain ⟨c, hc, hcaller, hcallee, hrec⟩ := calls_recorded payloads hcall
  have hkept : c ∈ recursiveCalls (groupCalls vis payloads) :=
    mem_recursiveCalls.mpr ⟨hc, by rw [hcaller, hcallee, hself]⟩
  obtain ⟨vi, hvi, hlen⟩ := hcall.saturated
  have hlt := hbound b.fn ⟨c, hkept, hcallee⟩ vi hvi
  have hdec := hall c hkept
  rw [callDecreases, hcallee] at hdec
  split at hdec
  · rename_i i j t hped
    simp only [Bool.and_eq_true, decide_eq_true_eq] at hdec
    obtain ⟨v, hv, hi, w, hw, hpart⟩ := hrec _ (hlen ▸ hlt) _ hped
    obtain ⟨-, rfl⟩ := hdec
    subst hi
    rw [witnessSize_eq hv, witnessSize_eq hw]
    exact sizeOf_properPart hpart
  · simp at hdec

/-- An accepted group has no infinite sequence of calls in which every call is
written as an application of the function's name, and is a call of a function by
itself or leads to a function that does not lead back. -/
theorem check_sound (hgroup : .valRec vis ∈ file) (hok : vis ∉ check file) :
    ¬ ∃ s : ℕ → Activation, ∀ k, Calls W file vis .call (s k) (s (k + 1)) ∧
      ((s k).fn = (s (k + 1)).fn ∨
        ¬ Relation.ReflTransGen (Leads (groupCalls vis (buildConPayloadMap file)))
          (s (k + 1)).fn (s k).fn) := by
  rintro ⟨s, hs⟩
  have hpass : checkValRec vis (buildConPayloadMap file) = true := by
    by_contra hfail
    exact hok (List.mem_flatMap.mpr ⟨_, hgroup, by simp [hfail]⟩)
  obtain ⟨choices, hdec⟩ := exists_witness W file hpass
  have hU (k : ℕ) : (s k).fn ∈ Finset.range vis.length := by
    obtain ⟨vi, hvi, -⟩ := (hs k).1.uses
    exact Finset.mem_range.mpr (List.getElem?_eq_some_iff.mp hvi).1
  obtain ⟨k, hk⟩ := SelfLoops.exists_not_descends
    (Leads (groupCalls vis (buildConPayloadMap file))) Activation.fn (witnessSize choices) s hU
  obtain ⟨hcall, hself | hback⟩ := hs k
  · exact hk (.inl ⟨hself.symm, hdec hcall hself⟩)
  · obtain ⟨c, hc, hcaller, hcallee, -⟩ := calls_recorded
      (buildConPayloadMap file) hcall
    exact hk (.inr ⟨⟨c, hc, hcaller, hcallee⟩, hback⟩)

end

section

def intType : Constructor := .ffi "Basis" "int"

/-- A function from integers to integers. -/
def intFunction (n : Nat) (x : String) (body : Expression) : ValBinding :=
  ⟨x, n, .tFun intType intType, .abs "x" intType intType body, x⟩

/-- `fun count n = case n of Zero => 0 | Succ m => count m`. -/
def countGroup : List ValBinding :=
  [⟨"count", 4, .tFun (.named 1) intType,
    .abs "n" (.named 1) intType (.case (.rel 0)
      [(.constructor .default (.var 2) [] none, .prim (.int 0)),
        (.constructor .default (.var 3) [] (some (.var "m" (.named 1))),
          .app (.named 4) (.rel 0))] ⟨.named 1, intType⟩), "count"⟩]

def countFile : File :=
  [.datatype [⟨"nat", 1, [], [("Zero", 2, none), ("Succ", 3, some (.named 1))]⟩],
    .valRec countGroup]

theorem check_sound_count : check countFile = [] ∧ ¬ ∃ s : ℕ → Activation, ∀ k,
    Calls World.isolated countFile countGroup .call (s k) (s (k + 1)) ∧
      ((s k).fn = (s (k + 1)).fn ∨
        ¬ Relation.ReflTransGen (Leads (groupCalls countGroup (buildConPayloadMap countFile)))
          (s (k + 1)).fn (s k).fn) := by
  have hcheck : check countFile = [] := rfl
  exact ⟨hcheck, check_sound (by simp [countFile]) (by simp [hcheck])⟩

/-- `fun f x = g x and g x = f x`. -/
def mutualGroup : List ValBinding :=
  [intFunction 1 "f" (.app (.named 2) (.rel 0)), intFunction 2 "g" (.app (.named 1) (.rel 0))]

/-- `fun f x = let val h = f in h x end`. -/
def letGroup : List ValBinding :=
  [intFunction 1 "f" (.letIn "h" (.tFun intType intType) (.named 1) (.app (.rel 0) (.rel 1)))]

/-- `fun f x = rpc (f x)`. -/
def serverGroup : List ValBinding := [intFunction 1 "f" (.serverCall 1 [.rel 0] intType .error)]

/-- Functions that call each other, a function called through another name and one
that calls itself through the server are all accepted, and none of them stops. -/
theorem check_accepts_loops :
    (check [.valRec mutualGroup] = [] ∧ ∃ s : ℕ → Activation, ∀ k,
      Calls World.isolated [.valRec mutualGroup] mutualGroup .call (s k) (s (k + 1))) ∧
    (check [.valRec letGroup] = [] ∧ ∃ s : ℕ → Activation, ∀ k,
      Calls World.isolated [.valRec letGroup] letGroup .mention (s k) (s (k + 1))) ∧
    (check [.valRec serverGroup] = [] ∧ ∃ s : ℕ → Activation, ∀ k,
      Calls World.isolated [.valRec serverGroup] serverGroup .server (s k) (s (k + 1))) := by
  refine ⟨⟨rfl, fun k => ⟨k % 2, [.prim (.int 0)]⟩, fun k => ?_⟩,
    ⟨rfl, fun _ => ⟨0, [.prim (.int 0)]⟩, fun _ => ?_⟩,
    ⟨rfl, fun _ => ⟨0, [.prim (.int 0)]⟩, fun _ => ?_⟩⟩
  · have hmod : (k + 1) % 2 = 1 - k % 2 := by omega
    beta_reduce
    rcases Nat.mod_two_eq_zero_or_one k with hk | hk <;> rw [hmod, hk]
    · exact ⟨⟨_, rfl, rfl, 2, _, .call rfl rfl (.cons (.rel rfl) .nil), rfl, List.prefix_refl _⟩,
        _, rfl, rfl⟩
    · exact ⟨⟨_, rfl, rfl, 1, _, .call rfl rfl (.cons (.rel rfl) .nil), rfl, List.prefix_refl _⟩,
        _, rfl, rfl⟩
  · exact ⟨⟨_, rfl, rfl, 1, [], .part List.mem_cons_self .mention, rfl, List.nil_prefix⟩,
      _, rfl, rfl⟩
  · exact ⟨⟨_, rfl, rfl, 1, _, .server (.cons (.rel rfl) .nil), rfl, List.prefix_refl _⟩,
      _, rfl, rfl⟩

end

end UrWeb.Core.Termination
