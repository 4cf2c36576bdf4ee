import Mathlib.Logic.Relation
import UrWeb.Jscomp.Compile

/-!
# What can be embedded

A type can be embedded if no part of its values, however deep, is a function
or another value without a JavaScript text. A quotation is safe if it gives up
before it has entered a list or a datatype that cannot be embedded. The client
code of a site is determined, as far as the tables go, by the variables it
captures and the functions it calls, in the order in which the compiler comes
to them.
-/

namespace UrWeb.Jscomp

open Mono Relation

section
variable (env : Env)

-- ---------------------------------------------------------------------------
-- Types
-- ---------------------------------------------------------------------------

/-- No value of the type itself has a text. -/
def Blocked : Typ → Prop
  | .func _ _ | .signal _ | .transaction _ => True
  | .ffi m f => ¬ (m = "Basis" ∧ (f = "bool" ∨ (ffiInjectors.lookup f).isSome))
  | .record _ | .datatype _ | .option _ | .list _ | .source => False

/-- The types that the values of a type are made of. -/
inductive Part : Typ → Typ → Prop
  | field : f ∈ fields → Part (.record fields) f.2
  | option : Part (.option t) t
  | list : Part (.list t) t
  | payload : (x, c, some t) ∈ (env.cell n).constrs → Part (.datatype n) t

def Embeddable (t : Typ) : Prop := ∀ u, ReflTransGen (Part env) t u → ¬ Blocked u

theorem embeddable_iff {t : Typ} :
    Embeddable env t ↔ ¬ Blocked t ∧ ∀ u, Part env t u → Embeddable env u := by
  constructor
  · intro h
    exact ⟨h t .refl, fun u hu v hv => h v (hv.head hu)⟩
  · rintro ⟨ht, hparts⟩ u hu
    rcases hu.cases_head with rfl | ⟨v, hv, hvu⟩
    · exact ht
    · exact hparts v hv u hvu

theorem embeddable_record {fields : List (String × Typ)} :
    Embeddable env (.record fields) ↔ ∀ f ∈ fields, Embeddable env f.2 := by
  rw [embeddable_iff]
  constructor
  · rintro ⟨-, h⟩ f hf
    exact h f.2 (.field hf)
  · intro h
    refine ⟨not_false, ?_⟩
    rintro u ⟨⟩
    next f hf => exact h f hf

theorem embeddable_option {t : Typ} : Embeddable env (.option t) ↔ Embeddable env t := by
  rw [embeddable_iff]
  constructor
  · rintro ⟨-, h⟩
    exact h t .option
  · intro h
    refine ⟨not_false, ?_⟩
    rintro u ⟨⟩
    exact h

theorem embeddable_list {t : Typ} : Embeddable env (.list t) ↔ Embeddable env t := by
  rw [embeddable_iff]
  constructor
  · rintro ⟨-, h⟩
    exact h t .list
  · intro h
    refine ⟨not_false, ?_⟩
    rintro u ⟨⟩
    exact h

theorem embeddable_payload (h : Embeddable env (.datatype n))
    (hc : (x, c, some t) ∈ (env.cell n).constrs) : Embeddable env t :=
  ((embeddable_iff env).mp h).2 t (.payload hc)

mutual
/-- The quotation of a value of the type enters no list or datatype in vain. -/
def SafeTyp : Typ → Prop
  | .list t => Embeddable env t
  | .datatype n => Embeddable env (.datatype n)
  | .option t => SafeTyp t
  | .record fields => SafeFields fields
  | .func _ _ | .ffi _ _ | .source | .signal _ | .transaction _ => True
/-- The fields are quoted in order, up to the first that cannot be. -/
def SafeFields : List (String × Typ) → Prop
  | [] => True
  | (_, t) :: fields => SafeTyp t ∧ (Embeddable env t → SafeFields fields)
end

mutual
theorem Embeddable.safeTyp (t : Typ) (h : Embeddable env t) : SafeTyp env t := by
  cases t with
  | list t => exact (embeddable_list env).mp h
  | datatype n => exact h
  | option t => exact Embeddable.safeTyp t ((embeddable_option env).mp h)
  | record fields => exact safeFields_of_embeddable fields ((embeddable_record env).mp h)
  | _ => trivial
theorem safeFields_of_embeddable (fields : List (String × Typ))
    (h : ∀ f ∈ fields, Embeddable env f.2) : SafeFields env fields := by
  match fields with
  | [] => trivial
  | (x, t) :: fields =>
    exact ⟨Embeddable.safeTyp t (h (x, t) List.mem_cons_self),
      fun _ => safeFields_of_embeddable fields fun f hf => h f (List.mem_cons_of_mem _ hf)⟩
end

-- ---------------------------------------------------------------------------
-- Expressions
-- ---------------------------------------------------------------------------

/-- Something that the compiler does to its tables: it quotes a captured variable, whose type
may be missing, or it calls for a function to be compiled. -/
inductive Event
  | capture (t : Option Typ)
  | call (n : Nat)

section
variable (outer : List Typ)

mutual
def events : Nat → Exp → List Event
  | inner, .rel n => if n < inner then [] else [.capture (capturedTyp outer (n - inner) [])]
  | _, .named n => [.call n]
  | inner, .con _ _ arg => optEvents inner arg
  | inner, .some _ e | inner, .unop _ e | inner, .error e _ | inner, .javaScript _ e
  | inner, .redirect e _ | inner, .uurlify e _ false | inner, .signalReturn e
  | inner, .signalSource e | inner, .serverCall e _ _ _ | inner, .recv e _ | inner, .sleep e
  | inner, .spawn e => events inner e
  | inner, .ffiApp m f args =>
    if m = "Basis" ∧ f = "sigString" then [] else argEvents inner args
  | inner, .app e1 e2 | inner, .binop _ _ e1 e2 | inner, .strcat e1 e2 | inner, .seq e1 e2
  | inner, .signalBind e1 e2 => events inner e1 ++ events inner e2
  | inner, .abs _ _ _ e => events (inner + 1) e
  | inner, .record xets => fieldEvents inner xets
  | inner, .field e x =>
    match fieldPath e [x] with
    | some (n, xs) =>
      if n < inner then events inner e else [.capture (capturedTyp outer (n - inner) xs)]
    | none => events inner e
  | inner, .case disc arms _ => events inner disc ++ armEvents inner arms
  | inner, .letIn _ _ e1 e2 => events inner e1 ++ events (inner + 1) e2
  | _, .prim _ | _, .none _ | _, .ffi _ _ | _, .write _ | _, .closure _ _ | _, .query _ _ _ _
  | _, .dml _ _ | _, .nextval _ | _, .setval _ _ | _, .returnBlob _ _ _
  | _, .uurlify _ _ true => []
def optEvents (inner : Nat) : Option Exp → List Event
  | none => []
  | some e => events inner e
def argEvents (inner : Nat) : List (Exp × Typ) → List Event
  | [] => []
  | (e, _) :: args => argEvents inner args ++ events inner e
def fieldEvents (inner : Nat) : List (String × Exp × Typ) → List Event
  | [] => []
  | (_, e, _) :: xets => fieldEvents inner xets ++ events inner e
def armEvents (inner : Nat) : List (Pat × Exp) → List Event
  | [] => []
  | (p, e) :: arms => armEvents inner arms ++ events (inner + patBindsN p) e
end

end

/-- The function `n`, and every function that its code calls, captures no variable. -/
inductive Calls : Nat → Nat → Prop
  | refl : Calls n n
  | tail : Calls n m → env.nameds.lookup m = some e → .call k ∈ events [] 0 e → Calls n k

def SafeCall (n : Nat) : Prop :=
  ∀ m, Calls env n m → ∀ e, env.nameds.lookup m = some e → ∀ t, .capture t ∉ events [] 0 e

def Event.Safe : Event → Prop
  | .capture (some t) => SafeTyp env t
  | .capture none => True
  | .call n => SafeCall env n

/-- The compiler gets past an event. -/
def Event.Passes : Event → Prop
  | .capture (some t) => Embeddable env t
  | .capture none => False
  | .call _ => True

/-- Every event that the compiler reaches is safe. -/
def SafeEvents : List Event → Prop
  | [] => True
  | ev :: evs => ev.Safe env ∧ (ev.Passes env → SafeEvents evs)

def PassEvents (evs : List Event) : Prop := ∀ ev ∈ evs, ev.Passes env

theorem safeEvents_append {evs evs' : List Event} :
    SafeEvents env (evs ++ evs') ↔
      SafeEvents env evs ∧ (PassEvents env evs → SafeEvents env evs') := by
  induction evs with
  | nil => simp [SafeEvents, PassEvents]
  | cons ev evs ih =>
    have hpass : PassEvents env (ev :: evs) ↔ ev.Passes env ∧ PassEvents env evs :=
      List.forall_mem_cons
    simp only [List.cons_append, SafeEvents, ih, hpass]
    constructor
    · rintro ⟨hev, h⟩
      exact ⟨⟨hev, fun hp => (h hp).1⟩, fun ⟨hp, hps⟩ => (h hp).2 hps⟩
    · rintro ⟨⟨hev, h1⟩, h2⟩
      exact ⟨hev, fun hp => ⟨h1 hp, fun hps => h2 ⟨hp, hps⟩⟩⟩

theorem passEvents_append {evs evs' : List Event} :
    PassEvents env (evs ++ evs') ↔ PassEvents env evs ∧ PassEvents env evs' :=
  List.forall_mem_append

/-- A JavaScript node of a declaration: the types around it, its mode and its code. -/
structure Site where
  outer : List Typ
  mode : JavaScriptMode
  code : Exp

/-- A source is first initialised through a variable of its own; its code is compiled only if
that fails. -/
def SafeSite (site : Site) : Prop :=
  match site.mode with
  | .source t =>
    SafeTyp env t ∧ (¬ Embeddable env t → SafeEvents env (events site.outer 0 site.code))
  | _ => SafeEvents env (events site.outer 0 site.code)

end

mutual
/-- The JavaScript nodes that the walk comes to. -/
def sites (outer : List Typ) : Exp → List Site
  | .javaScript mode e => [⟨outer, mode, e⟩]
  | .con _ _ arg => optSites outer arg
  | .some _ e | .unop _ e | .field e _ | .error e _ | .redirect e _ | .write e | .dml e _
  | .nextval e | .uurlify e _ _ | .signalReturn e | .signalSource e | .serverCall e _ _ _
  | .recv e _ | .sleep e | .spawn e => sites outer e
  | .ffiApp _ _ args => argSites outer args
  | .app e1 e2 | .binop _ _ e1 e2 | .strcat e1 e2 | .seq e1 e2 | .signalBind e1 e2
  | .setval e1 e2 => sites outer e1 ++ sites outer e2
  | .abs _ dom _ e => sites (dom :: outer) e
  | .record xets => fieldSites outer xets
  | .case disc arms _ => sites outer disc ++ armSites outer arms
  | .returnBlob blob mimeType _ => optSites outer blob ++ sites outer mimeType
  | .letIn _ t e1 e2 => sites outer e1 ++ sites (t :: outer) e2
  | .closure _ envs => listSites outer envs
  | .query qm query body initial =>
    sites outer query ++ sites (qm.state :: rowTyp qm :: outer) body ++ sites outer initial
  | .prim _ | .rel _ | .named _ | .ffi _ _ | .none _ => []
def optSites (outer : List Typ) : Option Exp → List Site
  | none => []
  | some e => sites outer e
def argSites (outer : List Typ) : List (Exp × Typ) → List Site
  | [] => []
  | (e, _) :: args => sites outer e ++ argSites outer args
def fieldSites (outer : List Typ) : List (String × Exp × Typ) → List Site
  | [] => []
  | (_, e, _) :: xets => sites outer e ++ fieldSites outer xets
def armSites (outer : List Typ) : List (Pat × Exp) → List Site
  | [] => []
  | (p, e) :: arms => sites (patBindsOuter p outer) e ++ armSites outer arms
def listSites (outer : List Typ) : List Exp → List Site
  | [] => []
  | e :: es => sites outer e ++ listSites outer es
end

def declSites : Decl → List Site
  | .val vi => sites [] vi.e
  | .valRec vis => vis.flatMap fun vi => sites [] vi.e
  | _ => []

end UrWeb.Jscomp
