import Mathlib.Control.Monad.Basic
import UrWeb.Mono.Binders
import UrWeb.Mono.Typing

/-!
# Rewriting walks with a state

The Mono passes that rebuild every node while they number what they find share
one walk. It takes along a context, which may depend on the node and on the
binders on the way down, and a pass says at which nodes it stops and what it
does with a rebuilt node. What holds of a walk follows from what holds at the
stops and at the nodes.
-/

namespace UrWeb.Mono

/-- A pass over the state `σ`. It fails where the compiler panics. -/
abbrev Pass (σ : Type) := StateT σ Option

abbrev Binder := String × Typ

mutual
/-- The variables of a pattern, the innermost first. -/
def patBinders : Pat → List Binder
  | .var x t => [(x, t)]
  | .prim _ | .none _ => []
  | .con _ _ inner => patBindersOption inner
  | .record fields => patBindersFields fields
  | .some _ inner => patBinders inner
def patBindersOption : Option Pat → List Binder
  | .none => []
  | .some p => patBinders p
def patBindersFields : List (String × Pat × Typ) → List Binder
  | [] => []
  | (_, p, _) :: fields => patBindersFields fields ++ patBinders p
end

mutual
theorem length_patBinders : ∀ p, (patBinders p).length = patDepth p
  | .var _ _ | .prim _ | .none _ => rfl
  | .con _ _ inner => by
    rw [patBinders, patDepth]
    exact length_patBindersOption inner
  | .record fields => by
    rw [patBinders, patDepth]
    exact length_patBindersFields fields
  | .some _ inner => by
    rw [patBinders, patDepth]
    exact length_patBinders inner
theorem length_patBindersOption : ∀ p, (patBindersOption p).length = patDepthOption p
  | .none => rfl
  | .some p => length_patBinders p
theorem length_patBindersFields : ∀ fields, (patBindersFields fields).length = patDepthFields fields
  | [] => rfl
  | (_, p, _) :: fields => by
    rw [patBindersFields, patDepthFields, List.length_append, length_patBindersFields fields,
      length_patBinders p, Nat.add_comm]
end

/-- The accumulator and the row of a query. -/
def QueryTypes.binders (qm : QueryTypes) : List Binder := [("acc", qm.state), ("r", qm.row)]

/-- The parts of a node with the binders around them. -/
def Exp.scopes : Exp → List (List Binder × Exp)
  | .prim _ | .rel _ | .named _ | .none _ | .ffi _ _ => []
  | .con _ _ arg => arg.toList.map ([], ·)
  | .ffiApp _ _ args => args.map fun a => ([], a.1)
  | .app e1 e2 | .binop _ _ e1 e2 | .strcat e1 e2 | .seq e1 e2 | .setval e1 e2
  | .signalBind e1 e2 => [([], e1), ([], e2)]
  | .abs x dom _ body => [([(x, dom)], body)]
  | .letIn x t e1 e2 => [([], e1), ([(x, t)], e2)]
  | .some _ e | .unop _ e | .field e _ | .error e _ | .redirect e _ | .write e | .dml e _
  | .nextval e | .uurlify e _ _ | .javaScript _ e | .signalReturn e | .signalSource e
  | .serverCall e _ _ _ | .recv e _ | .sleep e | .spawn e => [([], e)]
  | .record xets => xets.map fun f => ([], f.2.1)
  | .case disc arms _ => ([], disc) :: arms.map fun a => (patBinders a.1, a.2)
  | .returnBlob blob mimeType _ => blob.toList.map ([], ·) ++ [([], mimeType)]
  | .closure _ envs => envs.map ([], ·)
  | .query qm q body initial => [([], q), (qm.binders, body), ([], initial)]

theorem Exp.scopes_parts (e : Exp) :
    e.scopes.map (fun p => (p.1.length, p.2)) = e.parts 2 := by
  cases e <;> simp [Exp.scopes, Exp.parts, Function.comp_def, length_patBinders,
    QueryTypes.binders]

/-- The node itself, its parts left out. -/
def Exp.shape (e : Exp) : Exp := e.mapChildren fun _ => .record []

theorem Exp.shape_eq_rel {e : Exp} : e.shape = .rel n ↔ e = .rel n := by
  cases e <;> simp [Exp.shape, Exp.mapChildren]

theorem Exp.shape_inScope (h : Exp.shape e1 = Exp.shape e) : InScope d e1 ↔ InScope d e := by
  refine forall_congr' fun n => ?_
  rw [← Exp.shape_eq_rel, h, Exp.shape_eq_rel]

theorem Exp.always_iff_scopes {enters : Exp → Prop} {K : Nat → Exp → Prop} :
    Exp.Always enters K d e ↔
      K d e ∧ (enters e → ∀ p ∈ e.scopes, Exp.Always enters K (d + p.1.length) p.2) := by
  rw [Exp.always_iff, ← Exp.scopes_parts]
  simp only [List.forall_mem_map]

-- ---------------------------------------------------------------------------
-- The walk
-- ---------------------------------------------------------------------------

section
variable {σ κ : Type}
-- the context under the binders of a part; where the walk stops; what becomes of a node
variable (enter : Exp → List Binder → κ → κ) (stop : κ → Exp → Option (Pass σ Exp))
variable (finish : κ → Exp → Exp → Pass σ Exp)

mutual
def Exp.walk (ctx : κ) (e : Exp) : Pass σ Exp :=
  match stop ctx e with
  | .some r => r
  | .none =>
    let down := fun bs => enter e bs ctx
    let rebuilt : Pass σ Exp := match e with
      | .prim p => pure (.prim p)
      | .rel n => pure (.rel n)
      | .named n => pure (.named n)
      | .none t => pure (.none t)
      | .ffi m x => pure (.ffi m x)
      | .con dk pc arg => do return .con dk pc (← Exp.walkOption (down []) arg)
      | .some t e => do return .some t (← e.walk (down []))
      | .ffiApp m x args => do return .ffiApp m x (← Exp.walkArgs (down []) args)
      | .app e1 e2 => do return .app (← e1.walk (down [])) (← e2.walk (down []))
      | .abs x dom ran body => do return .abs x dom ran (← body.walk (down [(x, dom)]))
      | .unop s e => do return .unop s (← e.walk (down []))
      | .binop bi s e1 e2 => do return .binop bi s (← e1.walk (down [])) (← e2.walk (down []))
      | .record xets => do return .record (← Exp.walkFields (down []) xets)
      | .field e x => do return .field (← e.walk (down [])) x
      | .case disc arms info => do
        return .case (← disc.walk (down [])) (← Exp.walkArms down arms) info
      | .strcat e1 e2 => do return .strcat (← e1.walk (down [])) (← e2.walk (down []))
      | .error e t => do return .error (← e.walk (down [])) t
      | .returnBlob blob mimeType t => do
        return .returnBlob (← Exp.walkOption (down []) blob) (← mimeType.walk (down [])) t
      | .redirect e t => do return .redirect (← e.walk (down [])) t
      | .write e => do return .write (← e.walk (down []))
      | .seq e1 e2 => do return .seq (← e1.walk (down [])) (← e2.walk (down []))
      | .letIn x t e1 e2 => do return .letIn x t (← e1.walk (down [])) (← e2.walk (down [(x, t)]))
      | .closure n envs => do return .closure n (← Exp.walkList (down []) envs)
      | .query qm q body initial => do
        return .query qm (← q.walk (down [])) (← body.walk (down qm.binders))
          (← initial.walk (down []))
      | .dml e fm => do return .dml (← e.walk (down [])) fm
      | .nextval e => do return .nextval (← e.walk (down []))
      | .setval e1 e2 => do return .setval (← e1.walk (down [])) (← e2.walk (down []))
      | .uurlify e t b => do return .uurlify (← e.walk (down [])) t b
      | .javaScript mode e => do return .javaScript mode (← e.walk (down []))
      | .signalReturn e => do return .signalReturn (← e.walk (down []))
      | .signalBind e1 e2 => do return .signalBind (← e1.walk (down [])) (← e2.walk (down []))
      | .signalSource e => do return .signalSource (← e.walk (down []))
      | .serverCall e t eff fm => do return .serverCall (← e.walk (down [])) t eff fm
      | .recv e t => do return .recv (← e.walk (down [])) t
      | .sleep e => do return .sleep (← e.walk (down []))
      | .spawn e => do return .spawn (← e.walk (down []))
    rebuilt >>= finish ctx e
def Exp.walkOption (ctx : κ) : Option Exp → Pass σ (Option Exp)
  | .none => pure .none
  | .some e => do return .some (← e.walk ctx)
def Exp.walkArgs (ctx : κ) : List (Exp × Typ) → Pass σ (List (Exp × Typ))
  | [] => pure []
  | (e, t) :: args => do return (← e.walk ctx, t) :: (← Exp.walkArgs ctx args)
def Exp.walkFields (ctx : κ) : List (String × Exp × Typ) → Pass σ (List (String × Exp × Typ))
  | [] => pure []
  | (x, e, t) :: xets => do return (x, ← e.walk ctx, t) :: (← Exp.walkFields ctx xets)
def Exp.walkArms (down : List Binder → κ) : List (Pat × Exp) → Pass σ (List (Pat × Exp))
  | [] => pure []
  | (p, e) :: arms => do return (p, ← e.walk (down (patBinders p))) :: (← Exp.walkArms down arms)
def Exp.walkList (ctx : κ) : List Exp → Pass σ (List Exp)
  | [] => pure []
  | e :: es => do return (← e.walk ctx) :: (← Exp.walkList ctx es)
end

end

-- ---------------------------------------------------------------------------
-- What holds of a walk
-- ---------------------------------------------------------------------------

theorem Pass.bind_eq {σ α β : Type} {x : Pass σ α} {f : α → Pass σ β} {s s' : σ} {b : β} :
    (x >>= f) s = some (b, s') ↔ ∃ a s1, x s = some (a, s1) ∧ f a s1 = some (b, s') := by
  change (x s).bind _ = _ ↔ _
  rw [Option.bind_eq_some_iff]
  exact ⟨fun ⟨a, hx, hf⟩ => ⟨a.1, a.2, hx, hf⟩, fun ⟨a, s1, hx, hf⟩ => ⟨(a, s1), hx, hf⟩⟩

theorem Pass.pure_eq {σ α : Type} {a b : α} {s s' : σ} :
    (pure a : Pass σ α) s = some (b, s') ↔ a = b ∧ s = s' := by
  change some (a, s) = _ ↔ _
  rw [Option.some.injEq, Prod.mk.injEq]

/-- The parts of a node and of the rebuilt one, with the state handed on between them. -/
inductive Threads {σ : Type} (P : List Binder → Exp → σ → Exp → σ → Prop) :
    List (List Binder × Exp) → σ → List (List Binder × Exp) → σ → Prop
  | nil : Threads P [] s [] s
  | cons : P bs c s c' s1 → Threads P ps s1 ps' s2 → Threads P ((bs, c) :: ps) s ((bs, c') :: ps') s2

section
variable {σ : Type} {P Q : List Binder → Exp → σ → Exp → σ → Prop}

theorem Threads.append (h1 : Threads P ps s ps' s1) (h2 : Threads P qs s1 qs' s2) :
    Threads P (ps ++ qs) s (ps' ++ qs') s2 := by
  induction h1 with
  | nil => exact h2
  | cons hc _ ih => exact .cons hc (ih h2)

/-- What each part has just when the rebuilt one has something, they all have. -/
theorem Threads.forall_iff {A B : List Binder → Exp → Prop} (h : Threads P ps s ps' s')
    (hab : ∀ bs c s c' s', P bs c s c' s' → (A bs c' ↔ B bs c)) :
    (∀ p ∈ ps', A p.1 p.2) ↔ ∀ p ∈ ps, B p.1 p.2 := by
  induction h with
  | nil => simp
  | cons hc _ ih => rw [List.forall_mem_cons, List.forall_mem_cons, ih, hab _ _ _ _ _ hc]

theorem Threads.map_eq {f : Exp → α} (h : Threads P ps s ps' s')
    (hf : ∀ bs c s c' s', P bs c s c' s' → f c' = f c) :
    ps'.map (fun p => f p.2) = ps.map fun p => f p.2 := by
  induction h with
  | nil => rfl
  | cons hc _ ih => rw [List.map_cons, List.map_cons, ih, hf _ _ _ _ _ hc]

theorem Threads.single (h : Threads P [(bs, c)] s [(bs', c')] s') : P bs c s c' s' := by
  cases h with
  | cons hc hrest =>
    cases hrest
    exact hc

theorem Threads.imp (h : Threads P ps s ps' s')
    (hpq : ∀ p ∈ ps, ∀ s c' s', P p.1 p.2 s c' s' → Q p.1 p.2 s c' s') :
    Threads Q ps s ps' s' := by
  induction h with
  | nil => exact .nil
  | cons hc _ ih =>
    exact .cons (hpq _ List.mem_cons_self _ _ _ hc)
      (ih fun p hp => hpq p (List.mem_cons_of_mem _ hp))

end

section
variable {σ κ : Type} {enter : Exp → List Binder → κ → κ}
variable {stop : κ → Exp → Option (Pass σ Exp)} {finish : κ → Exp → Exp → Pass σ Exp}

/-- A part under the binders `bs` is walked in the context `down bs`. -/
abbrev Walked (enter : Exp → List Binder → κ → κ) (stop : κ → Exp → Option (Pass σ Exp))
    (finish : κ → Exp → Exp → Pass σ Exp) (down : List Binder → κ) (bs : List Binder)
    (c : Exp) (s : σ) (c' : Exp) (s' : σ) : Prop :=
  c.walk enter stop finish (down bs) s = some (c', s')

theorem walkOption_threads (down : List Binder → κ)
    (h : Exp.walkOption enter stop finish (down []) arg s = some (arg', s')) :
    Threads (Walked enter stop finish down)
      (arg.toList.map ([], ·)) s (arg'.toList.map ([], ·)) s' ∧
    arg'.map (fun _ => Exp.record []) = arg.map fun _ => .record [] := by
  cases arg with
  | none =>
    obtain ⟨rfl, rfl⟩ := Pass.pure_eq.mp h
    exact ⟨.nil, rfl⟩
  | some e =>
    simp only [Exp.walkOption, Pass.bind_eq, Pass.pure_eq] at h
    obtain ⟨e', s1, he, rfl, rfl⟩ := h
    exact ⟨.cons he .nil, rfl⟩

theorem walkArgs_threads (down : List Binder → κ)
    (h : Exp.walkArgs enter stop finish (down []) args s = some (args', s')) :
    Threads (Walked enter stop finish down)
      (args.map fun a => ([], a.1)) s (args'.map fun a => ([], a.1)) s' ∧
    args'.map (fun a => (Exp.record [], a.2)) = args.map fun a => (.record [], a.2) := by
  induction args generalizing args' s with
  | nil =>
    obtain ⟨rfl, rfl⟩ := Pass.pure_eq.mp h
    exact ⟨.nil, rfl⟩
  | cons a args ih =>
    simp only [Exp.walkArgs, Pass.bind_eq, Pass.pure_eq] at h
    obtain ⟨e', s1, he, rest, s2, hrest, rfl, rfl⟩ := h
    obtain ⟨ht, hm⟩ := ih hrest
    exact ⟨.cons he ht, by simp [hm]⟩

theorem walkFields_threads (down : List Binder → κ)
    (h : Exp.walkFields enter stop finish (down []) xets s = some (xets', s')) :
    Threads (Walked enter stop finish down)
      (xets.map fun f => ([], f.2.1)) s (xets'.map fun f => ([], f.2.1)) s' ∧
    xets'.map (fun f => (f.1, Exp.record [], f.2.2)) =
      xets.map fun f => (f.1, .record [], f.2.2) := by
  induction xets generalizing xets' s with
  | nil =>
    obtain ⟨rfl, rfl⟩ := Pass.pure_eq.mp h
    exact ⟨.nil, rfl⟩
  | cons f xets ih =>
    simp only [Exp.walkFields, Pass.bind_eq, Pass.pure_eq] at h
    obtain ⟨e', s1, he, rest, s2, hrest, rfl, rfl⟩ := h
    obtain ⟨ht, hm⟩ := ih hrest
    exact ⟨.cons he ht, by simp [hm]⟩

theorem walkArms_threads {down : List Binder → κ}
    (h : Exp.walkArms enter stop finish down arms s = some (arms', s')) :
    Threads (Walked enter stop finish down)
      (arms.map fun a => (patBinders a.1, a.2)) s (arms'.map fun a => (patBinders a.1, a.2)) s' ∧
    arms'.map (fun a => (a.1, Exp.record [])) = arms.map fun a => (a.1, .record []) := by
  induction arms generalizing arms' s with
  | nil =>
    obtain ⟨rfl, rfl⟩ := Pass.pure_eq.mp h
    exact ⟨.nil, rfl⟩
  | cons a arms ih =>
    simp only [Exp.walkArms, Pass.bind_eq, Pass.pure_eq] at h
    obtain ⟨e', s1, he, rest, s2, hrest, rfl, rfl⟩ := h
    obtain ⟨ht, hm⟩ := ih hrest
    exact ⟨.cons he ht, by simp [hm]⟩

theorem walkList_threads (down : List Binder → κ)
    (h : Exp.walkList enter stop finish (down []) es s = some (es', s')) :
    Threads (Walked enter stop finish down)
      (es.map ([], ·)) s (es'.map ([], ·)) s' ∧
    es'.map (fun _ => Exp.record []) = es.map fun _ => .record [] := by
  induction es generalizing es' s with
  | nil =>
    obtain ⟨rfl, rfl⟩ := Pass.pure_eq.mp h
    exact ⟨.nil, rfl⟩
  | cons e es ih =>
    simp only [Exp.walkList, Pass.bind_eq, Pass.pure_eq] at h
    obtain ⟨e', s1, he, rest, s2, hrest, rfl, rfl⟩ := h
    obtain ⟨ht, hm⟩ := ih hrest
    exact ⟨.cons he ht, by simp [hm]⟩

/-- Where it does not stop, a walk rebuilds the node from its walked parts. -/
theorem walk_node (hstop : stop ctx e = none)
    (h : e.walk enter stop finish ctx s = some (e', s')) :
    ∃ e1 s1, Threads (Walked enter stop finish fun bs => enter e bs ctx) e.scopes s e1.scopes s1 ∧
      e1.shape = e.shape ∧ finish ctx e e1 s1 = some (e', s') := by
  cases e with
  | prim | rel | named | none | ffi =>
    rw [Exp.walk, hstop] at h
    simp only [Pass.bind_eq, Pass.pure_eq] at h
    obtain ⟨_, _, ⟨rfl, rfl⟩, hf⟩ := h
    refine ⟨_, _, ?_, ?_, hf⟩
    · exact .nil
    · rfl
  | some | abs | unop | field | error | redirect | write | dml | nextval | uurlify | javaScript
  | signalReturn | signalSource | serverCall | recv | sleep | spawn =>
    rw [Exp.walk, hstop] at h
    simp only [Pass.bind_eq, Pass.pure_eq] at h
    obtain ⟨_, _, ⟨_, _, h1, rfl, rfl⟩, hf⟩ := h
    refine ⟨_, _, ?_, ?_, hf⟩
    · exact .cons h1 .nil
    · rfl
  | app | binop | strcat | seq | setval | signalBind | letIn =>
    rw [Exp.walk, hstop] at h
    simp only [Pass.bind_eq, Pass.pure_eq] at h
    obtain ⟨_, _, ⟨_, _, h1, _, _, h2, rfl, rfl⟩, hf⟩ := h
    refine ⟨_, _, ?_, ?_, hf⟩
    · exact .cons h1 (.cons h2 .nil)
    · rfl
  | query =>
    rw [Exp.walk, hstop] at h
    simp only [Pass.bind_eq, Pass.pure_eq] at h
    obtain ⟨_, _, ⟨_, _, h1, _, _, h2, _, _, h3, rfl, rfl⟩, hf⟩ := h
    refine ⟨_, _, ?_, ?_, hf⟩
    · exact .cons h1 (.cons h2 (.cons h3 .nil))
    · rfl
  | con =>
    rw [Exp.walk, hstop] at h
    simp only [Pass.bind_eq, Pass.pure_eq] at h
    obtain ⟨_, _, ⟨_, _, h1, rfl, rfl⟩, hf⟩ := h
    obtain ⟨ht, hm⟩ := walkOption_threads (fun bs => enter _ bs ctx) h1
    refine ⟨_, _, ?_, ?_, hf⟩
    · exact ht
    · simp [Exp.shape, Exp.mapChildren, hm]
  | ffiApp =>
    rw [Exp.walk, hstop] at h
    simp only [Pass.bind_eq, Pass.pure_eq] at h
    obtain ⟨_, _, ⟨_, _, h1, rfl, rfl⟩, hf⟩ := h
    obtain ⟨ht, hm⟩ := walkArgs_threads (fun bs => enter _ bs ctx) h1
    refine ⟨_, _, ?_, ?_, hf⟩
    · exact ht
    · simp [Exp.shape, Exp.mapChildren, hm]
  | record =>
    rw [Exp.walk, hstop] at h
    simp only [Pass.bind_eq, Pass.pure_eq] at h
    obtain ⟨_, _, ⟨_, _, h1, rfl, rfl⟩, hf⟩ := h
    obtain ⟨ht, hm⟩ := walkFields_threads (fun bs => enter _ bs ctx) h1
    refine ⟨_, _, ?_, ?_, hf⟩
    · exact ht
    · simp [Exp.shape, Exp.mapChildren, hm]
  | case =>
    rw [Exp.walk, hstop] at h
    simp only [Pass.bind_eq, Pass.pure_eq] at h
    obtain ⟨_, _, ⟨_, _, h1, _, _, h2, rfl, rfl⟩, hf⟩ := h
    obtain ⟨ht, hm⟩ := walkArms_threads h2
    refine ⟨_, _, ?_, ?_, hf⟩
    · exact .cons h1 ht
    · simp [Exp.shape, Exp.mapChildren, hm]
  | returnBlob =>
    rw [Exp.walk, hstop] at h
    simp only [Pass.bind_eq, Pass.pure_eq] at h
    obtain ⟨_, _, ⟨_, _, h1, _, _, h2, rfl, rfl⟩, hf⟩ := h
    obtain ⟨ht, hm⟩ := walkOption_threads (fun bs => enter _ bs ctx) h1
    refine ⟨_, _, ?_, ?_, hf⟩
    · exact ht.append (.cons h2 .nil)
    · simp [Exp.shape, Exp.mapChildren, hm]
  | closure =>
    rw [Exp.walk, hstop] at h
    simp only [Pass.bind_eq, Pass.pure_eq] at h
    obtain ⟨_, _, ⟨_, _, h1, rfl, rfl⟩, hf⟩ := h
    obtain ⟨ht, hm⟩ := walkList_threads (fun bs => enter _ bs ctx) h1
    refine ⟨_, _, ?_, ?_, hf⟩
    · exact ht
    · simp [Exp.shape, Exp.mapChildren, hm]

theorem walk_stop {r : Pass σ Exp} (hstop : stop ctx e = some r) :
    e.walk enter stop finish ctx = r := by
  rw [Exp.walk, hstop]

/-- What holds at the stops, and at a node once it holds of its parts, holds of a walk. -/
theorem walk_induct {P : κ → Exp → σ → Exp → σ → Prop}
    (hstop : ∀ ctx e (r : Pass σ Exp) s e' s', stop ctx e = some r → r s = some (e', s') →
      P ctx e s e' s')
    (hnode : ∀ ctx e s e1 s1 e' s', stop ctx e = none →
      Threads (fun bs => P (enter e bs ctx)) e.scopes s e1.scopes s1 → e1.shape = e.shape →
      finish ctx e e1 s1 = some (e', s') → P ctx e s e' s')
    (e : Exp) : ∀ ctx s e' s', e.walk enter stop finish ctx s = some (e', s') →
      P ctx e s e' s' := by
  induction e using Exp.induct_children with
  | h e ih =>
    intro ctx s e' s' h
    cases hs : stop ctx e with
    | some r => exact hstop _ _ r _ _ _ hs (walk_stop hs ▸ h)
    | none =>
      obtain ⟨e1, s1, ht, hshape, hf⟩ := walk_node hs h
      refine hnode _ _ _ _ _ _ _ hs (ht.imp fun p hp s c' s' hw => ?_) hshape hf
      have hchild : p.2 ∈ e.children := by
        rw [← Exp.parts_children 2, ← Exp.scopes_parts, List.map_map]
        exact List.mem_map_of_mem hp
      exact ih p.2 hchild _ _ _ _ hw

end

end UrWeb.Mono
