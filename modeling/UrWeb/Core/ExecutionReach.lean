import UrWeb.Core.Execution

/-!
# Code that evaluation gets to

Evaluating a global value enters the bodies of the names that it mentions, and
whatever foreign function is executed on the way is mentioned in one of them.
-/

namespace UrWeb.Core.Execution

open Behaviour

/-- The foreign function that a node executes, or gives out to be executed. -/
def executed : Expression → Option Ffi
  | .ffi m x | .ffiApp m x _ => some (m, x)
  | _ => none

/-- The bodies that the value of a global name leads to. -/
inductive Reached (file : File) (n : Nat) : Expression → Prop
  | root : file.body n = some e → Reached file n e
  | call : Reached file n e → .named n' ∈ e.nodes → file.body n' = some e' → Reached file n e'

def MayExecute (file : File) (n : Nat) (p : Ffi) : Prop :=
  ∃ e, Reached file n e ∧ ∃ node ∈ e.nodes, executed node = some p

/-- Part of a body that is reached. -/
def Hosted (file : File) (n : Nat) (e : Expression) : Prop := ∃ e0, Reached file n e0 ∧ e ∈ e0.nodes

/-- The functions in a value are from bodies that are reached. -/
inductive HostedValue (file : File) (n : Nat) : Value → Prop
  | prim : HostedValue file n (.prim p)
  | node : (∀ v ∈ args, HostedValue file n v) → HostedValue file n (.node tag args)
  | code : Hosted file n abstraction → (∀ v ∈ env, HostedValue file n v) →
      HostedValue file n (.code tenv env abstraction)
  | ffi : MayExecute file n (m, x) → (∀ v ∈ args, HostedValue file n v) →
      HostedValue file n (.ffi m x args)

def HostedArgument (file : File) (n : Nat) : Argument → Prop
  | .value v => HostedValue file n v
  | .con _ _ | .kind _ _ => True

/-- Nothing is executed that may not be, and results keep to the code reached. -/
abbrev KeepsTo (file : File) (n : Nat) : Comp Value → Prop :=
  Run.Ensures (MayExecute file n) (HostedValue file n)

variable {W : World} {file : File} {n : Nat}

theorem Hosted.child (h : Hosted file n e) (hc : c ∈ e.children) : Hosted file n c := by
  obtain ⟨e0, he0, he⟩ := h
  exact ⟨e0, he0, Expression.nodes_trans he (Expression.child_mem_nodes hc)⟩

theorem Hosted.mayExecute (h : Hosted file n e) (hp : executed e = some p) : MayExecute file n p := by
  obtain ⟨e0, he0, he⟩ := h
  exact ⟨e0, he0, e, he, hp⟩

theorem Hosted.called (h : Hosted file n (.named n')) (he : file.body n' = some e) :
    Hosted file n e := by
  obtain ⟨e0, he0, hn⟩ := h
  exact ⟨e, .call he0 hn he, e.self_mem_nodes⟩

-- ---------------------------------------------------------------------------
-- Values
-- ---------------------------------------------------------------------------

theorem hostedValue_node : HostedValue file n (.node tag args) ↔ ∀ v ∈ args, HostedValue file n v :=
  ⟨fun h => by cases h; assumption, .node⟩

theorem hostedValue_structural : Structural (HostedValue file n) := ⟨.prim, hostedValue_node⟩

theorem IsData.hosted (h : IsData v) : HostedValue file n v := by
  induction h with
  | prim => exact .prim
  | node _ ih => exact .node ih

theorem hostedValue_withoutHandlers (h : HostedValue file n v) :
    HostedValue file n (withoutHandlers v) := by
  unfold withoutHandlers
  split
  · refine .node fun v hv => ?_
    obtain ⟨f, hf, rfl⟩ := List.mem_map.mp hv
    exact hostedValue_node.mp h _ (List.of_mem_zip (List.mem_of_mem_filter hf)).2
  · exact h

theorem hostedValue_serverArgs (h : ∀ v ∈ args, HostedValue file n v) :
    ∀ v ∈ serverArgs m x args, HostedValue file n v := by
  unfold serverArgs
  split
  · intro v hv
    obtain ⟨w, hw, rfl⟩ := List.mem_map.mp hv
    exact hostedValue_withoutHandlers (h w hw)
  · exact h

theorem hostedValue_field (h : HostedValue file n v) (hw : v.field x = some w) :
    HostedValue file n w := by
  unfold Value.field at hw
  split at hw
  · obtain ⟨l₁, l₂, heq, -⟩ := List.lookup_eq_some_iff.mp hw
    have hmem : (x, w) ∈ List.zip _ _ := heq ▸ List.mem_append_right l₁ List.mem_cons_self
    exact hostedValue_node.mp h _ (List.of_mem_zip hmem).2
  · cases hw

theorem hostedValue_matches (p : Pattern) (h : HostedValue file n v)
    (henv : ∀ w ∈ env, HostedValue file n w) (hm : Pattern.matches p v env = some env') :
    ∀ w ∈ env', HostedValue file n w := by
  induction p generalizing v env env' with
  | var x t =>
    obtain rfl := Option.some.inj hm
    exact List.forall_mem_cons.mpr ⟨h, henv⟩
  | prim p =>
    simp only [Pattern.matches] at hm
    split at hm
    · split at hm
      · exact Option.some.inj hm ▸ henv
      · cases hm
    · cases hm
  | constructor dk pc args sub ih =>
    simp only [Pattern.matches] at hm
    split at hm
    · split at hm
      · unfold Pattern.subMatches at hm
        split at hm
        · exact Option.some.inj hm ▸ henv
        · exact ih _ rfl (hostedValue_node.mp h _ List.mem_cons_self) henv hm
        · cases hm
      · cases hm
    · cases hm
  | record fields ih =>
    rw [Pattern.matches] at hm
    induction fields generalizing env with
    | nil => exact Option.some.inj hm ▸ henv
    | cons f fields ihf =>
      obtain ⟨x, p, t⟩ := f
      simp only [Pattern.fieldMatches, Option.bind_eq_some_iff] at hm
      obtain ⟨w, hw, env1, hm1, hm⟩ := hm
      exact ihf (fun f hf => ih f (List.mem_cons_of_mem _ hf))
        (ih _ List.mem_cons_self (hostedValue_field h hw) henv hm1) hm

-- ---------------------------------------------------------------------------
-- Evaluation
-- ---------------------------------------------------------------------------

section
variable {call : Value → Argument → Comp Value} {global : Nat → Comp Value}
variable (hcall : ∀ f a, HostedValue file n f → HostedArgument file n a → KeepsTo file n (call f a))

theorem evalArgs_eq (args : List (Expression × Constructor)) (tenv : TypeEnv) (env : List Value) :
    evalArgs W call global args tenv env =
      args.map fun a => evalWith W call global a.1 tenv env := by
  induction args with
  | nil => rfl
  | cons _ _ ih => simp [evalArgs, ih]

theorem evalFields_eq (fields : List (Constructor × Expression × Constructor)) (tenv : TypeEnv)
    (env : List Value) : evalFields W call global fields tenv env =
      fields.map fun f => evalWith W call global f.2.1 tenv env := by
  induction fields with
  | nil => rfl
  | cons _ _ ih => simp [evalFields, ih]

theorem evalList_eq (es : List Expression) (tenv : TypeEnv) (env : List Value) :
    evalList W call global es tenv env = es.map fun e => evalWith W call global e tenv env := by
  induction es with
  | nil => rfl
  | cons _ _ ih => simp [evalList, ih]

theorem keepsTo_record (h : ∀ v ∈ vs, HostedValue file n v) : KeepsTo file n (record names vs) := by
  unfold record
  split
  · exact .pure (.node h)
  · exact .stuck

theorem keepsTo_concat (h : HostedValue file n v) (h' : HostedValue file n v') :
    KeepsTo file n (concat v v') := by
  unfold concat
  split
  · refine .pure (.node fun w hw => ?_)
    obtain hw | hw := List.mem_append.mp hw
    · exact hostedValue_node.mp h w hw
    · exact hostedValue_node.mp h' w hw
  · exact .stuck

theorem keepsTo_cut (h : HostedValue file n v) : KeepsTo file n (cut xs v) := by
  unfold cut
  split
  · refine .pure (.node fun w hw => ?_)
    obtain ⟨f, hf, rfl⟩ := List.mem_map.mp hw
    exact hostedValue_node.mp h _ (List.of_mem_zip (List.mem_of_mem_filter hf)).2
  · exact .stuck

include hcall

theorem keepsTo_run {s : Script} (h : s.Within (HostedValue file n)) :
    KeepsTo file n (s.run call) := by
  induction s with
  | ret v => exact .pure h
  | abort =>
    rintro h h' o ⟨rfl, rfl⟩ hE
    exact ⟨hE, fun _ hb => nomatch hb⟩
  | call f v next ih =>
    exact (hcall f (.value v) h.1 h.2.1).bind fun r hr => ih r (h.2.2 r hr)

theorem keepsTo_perform (hp : MayExecute file n (m, x)) (h : ∀ v ∈ args, HostedValue file n v) :
    KeepsTo file n (perform W call m x args) := by
  rintro h1 h2 o ⟨s, hs, hrun⟩ hE
  have hwithin := W.respond_within hostedValue_structural (hostedValue_serverArgs h) hs
  refine keepsTo_run hcall hwithin hrun fun ev hev => ?_
  obtain hev | hev := List.mem_append.mp hev
  · exact hE ev hev
  · exact List.mem_singleton.mp hev ▸ hp

theorem keepsTo_supply (hp : MayExecute file n (m, x)) (h : ∀ v ∈ args, HostedValue file n v) :
    KeepsTo file n (supply W call m x args) := by
  unfold supply
  split
  · exact .pure (.ffi hp h)
  · exact keepsTo_perform hcall hp h

variable (hglobal : ∀ n', Hosted file n (.named n') → KeepsTo file n (global n'))
include hglobal

theorem keepsTo_evalWith (e : Expression) (h : Hosted file n e) (tenv : TypeEnv)
    (henv : ∀ v ∈ env, HostedValue file n v) : KeepsTo file n (evalWith W call global e tenv env) := by
  induction e generalizing tenv env with
  | prim p => exact .pure .prim
  | rel i => exact .ofOption fun v hv => henv v (List.mem_of_getElem? hv)
  | named n' => exact hglobal n' h
  | constructor dk pc args payload ih =>
    refine Run.Ensures.bind (Run.Ensures.all fun r hr => ?_) fun vs hvs => .pure (.node hvs)
    cases payload with
    | none => cases hr
    | some e =>
      obtain rfl := List.mem_singleton.mp hr
      exact ih e rfl (h.child (by simp [Expression.children])) tenv henv
  | ffi m x => exact keepsTo_supply hcall (h.mayExecute rfl) (by simp)
  | ffiApp m x args ih =>
    rw [evalWith, evalArgs_eq]
    refine Run.Ensures.bind (Run.Ensures.all fun r hr => ?_) fun vs hvs =>
      keepsTo_perform hcall (h.mayExecute rfl) hvs
    obtain ⟨a, ha, rfl⟩ := List.mem_map.mp hr
    exact ih a ha (h.child (List.mem_map_of_mem ha)) tenv henv
  | app e1 e2 ih1 ih2 =>
    exact (ih1 (h.child (by simp [Expression.children])) tenv henv).bind fun f hf =>
      (ih2 (h.child (by simp [Expression.children])) tenv henv).bind fun v hv => hcall f _ hf hv
  | cApp e c ih =>
    exact (ih (h.child (by simp [Expression.children])) tenv henv).bind fun f hf =>
      hcall f _ hf trivial
  | kApp e k ih =>
    exact (ih (h.child (by simp [Expression.children])) tenv henv).bind fun f hf =>
      hcall f _ hf trivial
  | abs | cAbs | kAbs => exact .pure (.code h henv)
  | record fields ih =>
    rw [evalWith, evalFields_eq]
    refine Run.Ensures.bind (Run.Ensures.all fun r hr => ?_) fun vs hvs => keepsTo_record hvs
    obtain ⟨f, hf, rfl⟩ := List.mem_map.mp hr
    exact ih f hf (h.child (List.mem_map_of_mem hf)) tenv henv
  | field e c info ih =>
    refine (ih (h.child (by simp [Expression.children])) tenv henv).bind fun v hv => ?_
    refine Run.Ensures.bind (A := fun _ => True) (.ofOption fun _ _ => trivial) fun x _ => ?_
    exact .ofOption fun w hw => hostedValue_field hv hw
  | concat e1 c1 e2 c2 ih1 ih2 =>
    exact (ih1 (h.child (by simp [Expression.children])) tenv henv).bind fun v hv =>
      (ih2 (h.child (by simp [Expression.children])) tenv henv).bind fun v' hv' =>
        keepsTo_concat hv hv'
  | cut e c info ih | cutMulti e c info ih =>
    refine (ih (h.child (by simp [Expression.children])) tenv henv).bind fun v hv => ?_
    refine Run.Ensures.bind (A := fun _ => True) (.ofOption fun _ _ => trivial) fun x _ => ?_
    exact keepsTo_cut hv
  | case disc arms info ihd ih =>
    refine (ihd (h.child List.mem_cons_self) tenv henv).bind fun v hv => ?_
    replace h : ∀ a ∈ arms, Hosted file n a.2 := fun a ha =>
      h.child (List.mem_cons_of_mem _ (List.mem_map_of_mem ha))
    induction arms with
    | nil => exact .stuck
    | cons a arms iharms =>
      obtain ⟨p, e⟩ := a
      rw [evalArms]
      split
      · rename_i env' hm
        exact ih _ List.mem_cons_self (h _ List.mem_cons_self) tenv
          (hostedValue_matches p hv henv hm)
      · exact iharms (fun a ha => ih a (List.mem_cons_of_mem _ ha)) fun a ha =>
          h a (List.mem_cons_of_mem _ ha)
  | write e ih =>
    exact (ih (h.child (by simp [Expression.children])) tenv henv).bind fun _ _ =>
      .pure (.node (by simp))
  | closure n' es ih =>
    rw [evalWith, evalList_eq]
    refine Run.Ensures.bind (Run.Ensures.all fun r hr => ?_) fun vs hvs => .pure (.node hvs)
    obtain ⟨e, he, rfl⟩ := List.mem_map.mp hr
    exact ih e he (h.child he) tenv henv
  | letIn x t e1 e2 ih1 ih2 =>
    exact (ih1 (h.child (by simp [Expression.children])) tenv henv).bind fun v hv =>
      ih2 (h.child (by simp [Expression.children])) tenv (List.forall_mem_cons.mpr ⟨hv, henv⟩)
  | serverCall n' es t fm ih =>
    rw [evalWith, evalList_eq]
    refine Run.Ensures.bind (A := fun vs => ∀ v ∈ vs, HostedValue file n v)
      (Run.Ensures.all fun r hr => ?_) fun vs hvs => .stuck
    obtain ⟨e, he, rfl⟩ := List.mem_map.mp hr
    exact ih e he (h.child he) tenv henv

theorem keepsTo_applyWith (hf : HostedValue file n f) (ha : HostedArgument file n a) :
    KeepsTo file n (applyWith W call global f a) := by
  unfold applyWith
  split
  · cases hf with
    | code hcode henv =>
      exact keepsTo_evalWith hcall hglobal _ (hcode.child (by simp [Expression.children])) _
        (List.forall_mem_cons.mpr ⟨ha, henv⟩)
  · cases hf with
    | code hcode henv =>
      exact keepsTo_evalWith hcall hglobal _ (hcode.child (by simp [Expression.children])) _ henv
  · cases hf with
    | code hcode henv =>
      exact keepsTo_evalWith hcall hglobal _ (hcode.child (by simp [Expression.children])) _ henv
  · cases hf with
    | ffi hp hargs =>
      refine keepsTo_supply hcall hp fun w hw => ?_
      obtain hw | hw := List.mem_append.mp hw
      · exact hargs w hw
      · exact List.mem_singleton.mp hw ▸ ha
  · exact .pure hf
  · exact .pure hf
  · exact .stuck

theorem keepsTo_globalWith (h : ∀ e, file.body n' = some e → Hosted file n e) :
    KeepsTo file n (globalWith W file call global n') := by
  unfold globalWith
  split
  · rename_i e he
    exact keepsTo_evalWith hcall hglobal e (h e he) .nil (by simp)
  · split
    · exact .pure (.node (by simp))
    · exact .stuck

end

/-- At every depth hosted code stays within what is reached. -/
theorem keepsTo_callAndGlobal (W : World) (file : File) (n depth : Nat) :
    (∀ f a, HostedValue file n f → HostedArgument file n a → KeepsTo file n (apply W file depth f a)) ∧
      ∀ n', (∀ e, file.body n' = some e → Hosted file n e) → KeepsTo file n (global W file depth n') := by
  induction depth with
  | zero => exact ⟨fun f a _ _ => .running, fun n' _ => .running⟩
  | succ depth ih =>
    have hglobal (n' : Nat) (h : Hosted file n (.named n')) :
        KeepsTo file n (global W file depth n') := ih.2 n' fun e he => h.called he
    exact ⟨fun f a hf ha => keepsTo_applyWith ih.1 hglobal hf ha,
      fun n' h => keepsTo_globalWith ih.1 hglobal h⟩

/-- Whatever a global value executes, applied to arguments without functions in
them, is mentioned in code that it leads to. -/
theorem applied_mayExecute (hargs : ∀ v ∈ args, IsData v)
    (hrun : applied W file depth n args [] h o) : ∀ p ∈ h, MayExecute file n p := by
  obtain ⟨hcall, hglobal⟩ := keepsTo_callAndGlobal W file n depth
  have hroot : KeepsTo file n (global W file depth n) := hglobal n fun e he =>
    ⟨e, .root he, e.self_mem_nodes⟩
  have happlied : KeepsTo file n (applied W file depth n args) := by
    rw [applied]
    generalize global W file depth n = r at hroot
    clear hrun
    induction args generalizing r with
    | nil => exact hroot
    | cons v args ih =>
      rw [List.forall_mem_cons] at hargs
      exact ih hargs.2 _ (hroot.bind fun f hf => hcall f (.value v) hf hargs.1.hosted)
  exact (happlied hrun (by simp)).1

end UrWeb.Core.Execution
