import UrWeb.Mono.Correspondence
import UrWeb.Mono.SideCheck

/-!
# What the side check misses

Whatever the server executes is a node of code that may run on the server. The
check is sound exactly as far as it looks at that code.
-/

namespace UrWeb.Mono.SideCheck

open Behaviour

-- ---------------------------------------------------------------------------
-- Code that may run on the server
-- ---------------------------------------------------------------------------

/-- The functions that requests and errors call. -/
def pages (file : File) : List Nat :=
  file.2.map Prod.fst ++ file.1.flatMap fun
    | .export _ _ n _ _ _ | .onError n => [n]
    | _ => []

/-- What requests, tasks and errors run, and what that calls outside scripts. -/
inductive OnServer (file : File) : Exp → Prop
  | page : n ∈ pages file → vi ∈ bindings file.1 → vi.n = n → OnServer file vi.e
  | event : .task e1 e2 ∈ file.1 → OnServer file e1
  | task : .task e1 e2 ∈ file.1 → OnServer file e2
  | call : OnServer file e → node ∈ e.nodes false → namedId node = some n → vi ∈ bindings file.1 →
      vi.n = n → OnServer file vi.e

/-- The foreign function that a node executes. -/
def executed : Exp → Option Ffi
  | .ffi m x | .ffiApp m x _ => some (m, x)
  | _ => none

def literal : Exp → Option String
  | .prim (.string _ s) => some s
  | _ => none

/-- The literals that a node passes to `Basis.getenv`. -/
def getenvLiterals : Exp → List String
  | .ffiApp m x args =>
    if m = "Basis" ∧ x = "getenv" then (args.map Prod.fst).filterMap literal else []
  | .app (.ffi m x) e => if m = "Basis" ∧ x = "getenv" then (literal e).toList else []
  | _ => []

def MayExecute (file : File) (p : Ffi) : Prop :=
  ∃ e, OnServer file e ∧ ∃ node ∈ e.nodes false, executed node = some p

def MayRead (file : File) (s : String) : Prop :=
  ∃ e, OnServer file e ∧ ∃ node ∈ e.nodes false, s ∈ getenvLiterals node

-- ---------------------------------------------------------------------------
-- What the server executes
-- ---------------------------------------------------------------------------

section
variable (W : World) (file : File) (depth : Nat)

/-- What a request, a task or an error makes the server evaluate. -/
inductive Entry : Comp Value → Prop
  | page : n ∈ pages file → (∀ v ∈ args, v.isData = true) → Entry (applied W file.1 depth n args)
  | event : .task e1 e2 ∈ file.1 → Entry (eval W file.1 depth e1 [])
  | task : .task e1 e2 ∈ file.1 → v.isData = true →
      Entry ((eval W file.1 depth e2 []).bind fun f => apply W file.1 depth f v)

/-- The history of a server: one evaluation after the other. -/
inductive ServerRun : History → Prop
  | start : ServerRun []
  | run : ServerRun h → Entry W file depth r → r h h' o → ServerRun h'

end

/-- Part of code that may run on the server. -/
def Hosted (file : File) (e : Exp) : Prop := ∃ e0, OnServer file e0 ∧ e ∈ e0.nodes false

/-- Functions are hosted; scripts may be anything. -/
inductive HostedCode (file : File) : CodeKind → List Value → Exp → List Value → Exp → Prop
  | function : Hosted file body → List.Forall₂ (ValueRel (HostedCode file)) env env' →
      HostedCode file .function env body env' body
  | script : List.Forall₂ (ValueRel (HostedCode file)) env env' →
      HostedCode file (.script mode) env body env' body

def MayPerform (file : File) (op : Op) : Prop := ∀ m x, op = .ffi m x → MayExecute file (m, x)

/-- Histories that differ in environments only, with nothing executed that may
not be. -/
def HostedHistory (file : File) (h h' : History) : Prop :=
  HistoryRel (HostedCode file) h h' ∧ ∀ ev ∈ h, MayPerform file ev.op

abbrev HostedSimilar (file : File) : Comp Value → Comp Value → Prop :=
  Corresponds (HostedHistory file) (ValueRel (HostedCode file))

section
variable {file : File} {W : World}

theorem hostedHistory_append (hh : HostedHistory file h h') (hop : MayPerform file op)
    (hargs : ValuesRel (HostedCode file) args args')
    (ho : OutcomeRel (ValueRel (HostedCode file)) o o') :
    HostedHistory file (h ++ [⟨op, args, o⟩]) (h' ++ [⟨op, args', o'⟩]) := by
  refine ⟨List.rel_append hh.1 (.cons (.mk op hargs ho) .nil), fun ev hev => ?_⟩
  obtain hev | hev := List.mem_append.mp hev
  · exact hh.2 ev hev
  · obtain rfl := List.mem_singleton.mp hev
    exact hop

theorem respects_hosted : Respects (HostedHistory file) (HostedCode file) W (MayPerform file) where
  perform hop hargs := by
    constructor
    · rintro h h' k o hh ⟨hr, rfl⟩
      obtain ⟨o', hr', ho⟩ := W.forth hh.1 hargs hr
      exact ⟨_, o', ⟨hr', rfl⟩, hostedHistory_append hh hop hargs ho, ho⟩
    · rintro h h' k o hh ⟨hr, rfl⟩
      obtain ⟨o', hr', ho⟩ := W.back hh.1 hargs hr
      exact ⟨_, o', ⟨hr', rfl⟩, hostedHistory_append hh hop hargs ho, ho⟩
  halt hop hargs := by
    constructor
    · rintro h h' k o hh ⟨rfl, rfl⟩
      exact ⟨_, _, ⟨rfl, rfl⟩, hostedHistory_append hh hop hargs .abort, .abort⟩
    · rintro h h' k o hh ⟨rfl, rfl⟩
      exact ⟨_, _, ⟨rfl, rfl⟩, hostedHistory_append hh hop hargs .abort, .abort⟩

theorem OnServer.hosted (h : OnServer file e) : Hosted file e := ⟨e, h, e.self_mem_nodes false⟩

theorem Hosted.entered (h : Hosted file e) (hc : c ∈ e.entered false) : Hosted file c := by
  obtain ⟨e0, he0, he⟩ := h
  refine ⟨e0, he0, Exp.nodes_trans he ?_⟩
  rw [Exp.nodes_eq]
  exact List.mem_cons_of_mem _ (List.mem_flatMap.mpr ⟨c, hc, c.self_mem_nodes false⟩)

theorem Hosted.mayPerform (h : Hosted file e) : ∀ op ∈ e.op, MayPerform file op := by
  obtain ⟨e0, he0, he⟩ := h
  rintro op hop m x rfl
  refine ⟨e0, he0, e, he, ?_⟩
  cases e <;> simp_all [Exp.op, executed]

theorem Hosted.called (h : Hosted file (.named n)) (hvi : vi ∈ bindings file.1) (hn : vi.n = n) :
    Hosted file vi.e := by
  obtain ⟨e0, he0, he⟩ := h
  exact (OnServer.call he0 he rfl hvi hn).hosted

theorem declBody_mem (h : declBody decls n = some e) : ∃ vi ∈ bindings decls, vi.n = n ∧ vi.e = e := by
  obtain ⟨d, hd, h⟩ := List.exists_of_findSome?_eq_some h
  cases d with
  | val vi =>
    rw [Decl.body] at h
    split at h
    · rename_i hn
      exact ⟨vi, List.mem_flatMap.mpr ⟨_, hd, List.mem_singleton_self vi⟩, hn, Option.some.inj h⟩
    · cases h
  | valRec vis =>
    obtain ⟨vi, hvi, he⟩ := Option.map_eq_some_iff.mp h
    exact ⟨vi, List.mem_flatMap.mpr ⟨_, hd, List.mem_of_find?_eq_some hvi⟩,
      by simpa using List.find?_some hvi, he⟩
  | _ => cases h

theorem mapChildren_self (e : Exp) : e.mapChildren (fun c => c) = e := by
  cases e <;> simp [Exp.mapChildren]

/-- At every depth hosted code executes only what may be executed. -/
def HostedAt (W : World) (file : File) (depth : Nat) : Prop :=
  ∀ e env env', Hosted file e → ValuesRel (HostedCode file) env env' →
    HostedSimilar file (eval W file.1 depth e env) (eval W file.1 depth e env')

section
variable (hbelow : ∀ depth' < depth, HostedAt W file depth')
include hbelow

theorem apply_hosted (hf : ValueRel (HostedCode file) f f') (hv : ValueRel (HostedCode file) v v') :
    HostedSimilar file (apply W file.1 depth f v) (apply W file.1 depth f' v') := by
  cases depth with
  | zero => exact .running
  | succ depth =>
    cases hf with
    | prim | node => exact .stuck
    | code hcode =>
      cases hcode with
      | function hbody henv =>
        exact hbelow depth (Nat.lt_succ_self _) _ _ _ hbody (.cons hv henv)
      | script => exact .stuck

theorem global_hosted (h : ∀ vi ∈ bindings file.1, vi.n = n → Hosted file vi.e) :
    HostedSimilar file (global W file.1 depth n) (global W file.1 depth n) := by
  cases depth with
  | zero => exact .running
  | succ depth =>
    rw [global]
    split
    · rename_i e he
      obtain ⟨vi, hvi, hn, rfl⟩ := declBody_mem he
      exact hbelow depth (Nat.lt_succ_self _) _ _ _ (h vi hvi hn) .nil
    · exact .stuck

theorem eval_hosted (e : Exp) (h : Hosted file e) (henv : ValuesRel (HostedCode file) env env') :
    HostedSimilar file (eval W file.1 depth e env) (eval W file.1 depth e env') := by
  induction e using Exp.induct_children generalizing env env' with
  | h e ih =>
    have hnode : EvaluatesAlike (HostedHistory file) (HostedCode file) W (apply W file.1 depth)
        (apply W file.1 depth) (global W file.1 depth) (global W file.1 depth) e
        (e.mapChildren fun c => c) := by
      refine similar_node e respects_hosted h.mayPerform
        (fun f f' v v' hf hv => apply_hosted hbelow hf hv) ?_ ?_ ?_
      · rintro n rfl
        exact global_hosted hbelow fun vi hvi hn => h.called hvi hn
      · intro hkind c hc env env' henv
        have hentered : c ∈ e.entered false := by
          cases e <;> simp_all [Exp.codeKind, Exp.entered]
        simpa only [eval_eq] using ih c hc (h.entered hentered) henv
      · intro kind hkind c hc env env' henv
        cases e with
        | abs x dom ran body =>
          obtain rfl := Option.some.inj hkind
          exact .function (h.entered hc) henv
        | javaScript mode e =>
          obtain rfl := Option.some.inj hkind
          obtain rfl := List.mem_singleton.mp hc
          exact .script henv
        | _ => cases hkind
    rw [mapChildren_self] at hnode
    simpa only [eval_eq] using hnode env env' henv

end

theorem hostedAt (depth : Nat) : HostedAt W file depth := by
  induction depth using Nat.strong_induction_on with
  | h depth ih => exact fun e env env' h henv => eval_hosted ih e h henv

theorem entry_hosted (h : Entry W file depth r) : HostedSimilar file r r := by
  have hbelow (depth' : Nat) (_ : depth' < depth) : HostedAt W file depth' := hostedAt depth'
  have hdata (v : Value) (hv : v.isData = true) : ValueRel (HostedCode file) v v :=
    (valueRel_iff_of_isData v hv).mpr rfl
  cases h with
  | @page n args hn hargs =>
    have hglobal : HostedSimilar file (global W file.1 depth n) (global W file.1 depth n) :=
      global_hosted hbelow fun vi hvi hid => (OnServer.page hn hvi hid).hosted
    rw [applied]
    generalize hr : global W file.1 depth n = r at hglobal
    clear hr
    induction args generalizing r with
    | nil => exact hglobal
    | cons v args ih =>
      exact ih (fun w hw => hargs w (List.mem_cons_of_mem _ hw)) _ (hglobal.bind fun f f' hf =>
        apply_hosted hbelow hf (hdata v (hargs v List.mem_cons_self)))
  | event ht => exact hostedAt depth _ _ _ (OnServer.event ht).hosted .nil
  | task ht hv =>
    exact (hostedAt depth _ _ _ (OnServer.task ht).hosted .nil).bind fun f f' hf =>
      apply_hosted hbelow hf (hdata _ hv)

/-- The server executes only what may be executed. -/
theorem serverRun_mayExecute (h : ServerRun W file depth hist) (hev : ev ∈ hist)
    (hop : ev.op = .ffi m x) : MayExecute file (m, x) := by
  suffices ∃ hist', HostedHistory file hist hist' by
    obtain ⟨_, -, hops⟩ := this
    exact hops ev hev m x hop
  clear hev
  induction h with
  | start => exact ⟨[], .nil, by simp⟩
  | run _ hentry hr ih =>
    obtain ⟨h', hh⟩ := ih
    obtain ⟨k', -, -, hk, -⟩ := (entry_hosted hentry).forth hh hr
    exact ⟨k', hk⟩

end

-- ---------------------------------------------------------------------------
-- Code that is looked at
-- ---------------------------------------------------------------------------

/-- What the scripts of pages with a client side use, directly or through what
they use. -/
inductive UsedByScripts (file : File) : Nat → Prop
  | page : vi ∈ bindings file.1 → vi.n ∈ clientIds file → n ∈ collectNamedIdsInJavascript vi.e →
      UsedByScripts file n
  | call : UsedByScripts file n → declBodies file.1 n = some e → n' ∈ collectNamedIdsAny e →
      UsedByScripts file n'

/-- A declaration with a member that has a client side or is used by scripts. -/
def Exempt (file : File) (d : Decl) : Prop :=
  ∃ vi ∈ d.bindings, vi.n ∈ clientIds file ∨ UsedByScripts file vi.n

/-- A body in a declaration that is not exempt. -/
def Checked (file : File) (e : Exp) : Prop :=
  ∃ d ∈ file.1, ¬ Exempt file d ∧ ∃ vi ∈ d.bindings, vi.e = e

theorem nodes_subset (e : Exp) : e.nodes false ⊆ e.nodes true := by
  induction e using Exp.induct_children with
  | h e ih =>
    rw [Exp.nodes_eq, Exp.nodes_eq]
    refine List.cons_subset_cons _ fun x hx => ?_
    obtain ⟨c, hc, hx⟩ := List.mem_flatMap.mp hx
    have hc' : c ∈ e.entered true := by
      cases e <;> simp_all [Exp.entered]
    exact List.mem_flatMap.mpr ⟨c, hc', ih c (Exp.entered_subset hc) hx⟩

theorem collectNamedIds_subset (e : Exp) :
    collectNamedIdsInJavascript e ⊆ collectNamedIdsAny e := by
  intro n hn
  obtain ⟨node, hnode, hn⟩ := List.mem_flatMap.mp hn
  have hany := nodes_subset e hnode
  cases node with
  | javaScript mode body =>
    obtain ⟨node', hnode', hn⟩ := List.mem_filterMap.mp hn
    refine List.mem_filterMap.mpr ⟨node', Exp.nodes_trans hany ?_, hn⟩
    rw [Exp.nodes_eq]
    exact List.mem_cons_of_mem _ (by simpa [Exp.entered] using hnode')
  | closure n' envs =>
    obtain rfl := List.mem_singleton.mp hn
    exact List.mem_filterMap.mpr ⟨_, hany, rfl⟩
  | _ => cases hn

theorem declBodies_mem (h : declBodies decls n = some e) : ∃ vi ∈ bindings decls, vi.e = e := by
  obtain h | ⟨vi, hvi, -, he⟩ := foldl_update_eq_some ValBinding.n ValBinding.e _ _ h
  · cases h
  · exact ⟨vi, hvi, he⟩

theorem mem_clientHelperIds (file : File) (n : Nat) :
    n ∈ clientHelperIds file ↔ UsedByScripts file n := by
  have hall {vi : ValBinding} {m : Nat} (hvi : vi ∈ bindings file.1) (hn : m ∈ collectNamedIdsAny vi.e) :
      m ∈ ((bindings file.1).flatMap fun vi => collectNamedIdsAny vi.e).toFinset :=
    List.mem_toFinset.mpr (List.mem_flatMap.mpr ⟨vi, hvi, hn⟩)
  have hroot (x : Nat) : x ∈ helperRoots file ↔
      ∃ vi ∈ bindings file.1, vi.n ∈ clientIds file ∧ x ∈ collectNamedIdsInJavascript vi.e := by
    simp [helperRoots, and_assoc]
  rw [clientHelperIds, Worklist.mem_search (fun x hx => ?_) (fun x _ y hy => ?_)
    (List.toFinset_card_le _)]
  · constructor
    · rintro ⟨x, hx, hxn⟩
      induction hxn with
      | refl =>
        obtain ⟨vi, hvi, hclient, hx⟩ := (hroot x).mp hx
        exact .page hvi hclient hx
      | tail _ hstep ih =>
        rw [Worklist.Leads, helperSuccs] at hstep
        split at hstep
        · rename_i hbody
          exact .call ih hbody hstep
        · cases hstep
    · intro h
      induction h with
      | page hvi hclient hx => exact ⟨_, (hroot _).mpr ⟨_, hvi, hclient, hx⟩, .refl⟩
      | call _ hbody hn ih =>
        obtain ⟨x, hx, hxn⟩ := ih
        exact ⟨x, hx, hxn.tail (by simpa [Worklist.Leads, helperSuccs, hbody] using hn)⟩
  · obtain ⟨vi, hvi, -, hx⟩ := (hroot x).mp hx
    exact hall hvi (collectNamedIds_subset _ hx)
  · rw [helperSuccs] at hy
    split at hy
    · rename_i hbody
      obtain ⟨vi, hvi, rfl⟩ := declBodies_mem hbody
      exact hall hvi hy
    · cases hy

/-- The nodes that are looked at, with their depths. -/
def checkedNodes (file : File) : List (Nat × Exp) := file.1.flatMap fun d =>
  if d.bindings.any (onClient file) then [] else d.bindings.flatMap fun vi => vi.e.nodesAt false 0

theorem checkDecl_eq (settings : Settings) (file : File) (st : State) (d : Decl) :
    checkDecl settings file st d =
      (if d.bindings.any (onClient file) then []
        else d.bindings.flatMap fun vi => vi.e.nodesAt false 0).foldl (checkNode settings) st := by
  cases d with
  | val vi =>
    simp only [checkDecl, Decl.bindings, List.any_cons, List.any_nil, Bool.or_false,
      List.flatMap_cons, List.flatMap_nil, List.append_nil]
    split <;> rfl
  | valRec vis =>
    by_cases h : vis.any (onClient file) = true
    · simp [checkDecl, Decl.bindings, h]
    · rw [checkDecl, if_neg h, Decl.bindings, if_neg h, List.foldl_flatMap]
      rfl
  | _ => rfl

theorem check_eq (settings : Settings) (file : File) : check settings file =
    let st := (checkedNodes file).foldl (checkNode settings) ⟨[], ∅, false, false⟩
    if st.panicked then none else some ⟨file, st.envVars.sort (· ≤ ·), st.reports⟩ := by
  have hfold : file.1.foldl (checkDecl settings file) ⟨[], ∅, false, false⟩ =
      (checkedNodes file).foldl (checkNode settings) ⟨[], ∅, false, false⟩ := by
    rw [checkedNodes, List.foldl_flatMap]
    congr 1
    funext st d
    exact checkDecl_eq settings file st d
  rw [check, hfold]

theorem exempt_iff (file : File) (d : Decl) : d.bindings.any (onClient file) = true ↔ Exempt file d := by
  simp [Exempt, onClient, mem_clientHelperIds]

theorem mem_checkedNodes {d : Nat × Exp} :
    d ∈ checkedNodes file ↔ ∃ e, Checked file e ∧ d ∈ e.nodesAt false 0 := by
  simp only [checkedNodes, List.mem_flatMap, Checked]
  constructor
  · rintro ⟨decl, hdecl, hd⟩
    split at hd
    · cases hd
    · rename_i hex
      obtain ⟨vi, hvi, hd⟩ := List.mem_flatMap.mp hd
      exact ⟨vi.e, ⟨decl, hdecl, mt (exempt_iff file decl).mpr hex, vi, hvi, rfl⟩, hd⟩
  · rintro ⟨e, ⟨decl, hdecl, hex, vi, hvi, rfl⟩, hd⟩
    refine ⟨decl, hdecl, ?_⟩
    rw [if_neg (mt (exempt_iff file decl).mp hex)]
    exact List.mem_flatMap.mpr ⟨vi, hvi, hd⟩

-- ---------------------------------------------------------------------------
-- What is reported
-- ---------------------------------------------------------------------------

/-- What is reported at a node; a call of `Basis.getenv` never is. -/
def reported (settings : Settings) : Exp → Bool
  | .ffi m x => settings.isClientOnly (m, x)
  | .ffiApp m x _ => !(m = "Basis" ∧ x = "getenv") && settings.isClientOnly (m, x)
  | _ => false

/-- The variable that a node reads, if the check can tell. -/
def readLiteral : Exp → Option String
  | .ffiApp m x [(.prim (.string _ s), _)] => if m = "Basis" ∧ x = "getenv" then some s else none
  | _ => none

theorem foldl_checkNode {settings : Settings} {P : State → Prop} {q : Nat × Exp → Prop}
    (h : ∀ st d, P (checkNode settings st d) ↔ P st ∨ q d) (l : List (Nat × Exp)) (st : State) :
    P (l.foldl (checkNode settings) st) ↔ P st ∨ ∃ d ∈ l, q d := by
  induction l generalizing st with
  | nil => simp
  | cons d l ih =>
    rw [List.foldl_cons, ih, h]
    simp [or_assoc]

def State.hasError (st : State) : Prop := ∃ r ∈ st.reports, r.isError = true

section
variable (settings : Settings) (st : State)

@[simp] theorem panicked_checkFfi (m x : String) : (checkFfi settings st m x).panicked = st.panicked := by
  unfold checkFfi
  split <;> rfl

@[simp] theorem envVars_checkFfi (m x : String) : (checkFfi settings st m x).envVars = st.envVars := by
  unfold checkFfi
  split <;> rfl

@[simp] theorem hasError_checkFfi (m x : String) :
    (checkFfi settings st m x).hasError ↔ st.hasError ∨ settings.isClientOnly (m, x) = true := by
  unfold checkFfi
  split
  · rename_i h
    simp [State.hasError, reportClientOnlyFfiInServer, Report.isError, or_and_right, exists_or, h]
  · rename_i h
    simp [h]

@[simp] theorem panicked_warn :
    (warnGetenvNameNotCompileTimeString st).panicked = st.panicked := by
  unfold warnGetenvNameNotCompileTimeString
  split <;> rfl

@[simp] theorem envVars_warn : (warnGetenvNameNotCompileTimeString st).envVars = st.envVars := by
  unfold warnGetenvNameNotCompileTimeString
  split <;> rfl

@[simp] theorem hasError_warn : (warnGetenvNameNotCompileTimeString st).hasError ↔ st.hasError := by
  unfold warnGetenvNameNotCompileTimeString
  split
  · rfl
  · simp [State.hasError, Report.isError, or_and_right, exists_or]

@[simp] theorem panicked_checkGetenv (args : List (Exp × Typ)) :
    (checkGetenv st args).panicked = st.panicked := by
  unfold checkGetenv
  split <;> simp

@[simp] theorem hasError_checkGetenv (args : List (Exp × Typ)) :
    (checkGetenv st args).hasError ↔ st.hasError := by
  unfold checkGetenv
  split
  · rfl
  · simp

theorem envVars_checkGetenv (s : String) (args : List (Exp × Typ)) :
    s ∈ (checkGetenv st args).envVars ↔
      s ∈ st.envVars ∨ readLiteral (.ffiApp "Basis" "getenv" args) = some s := by
  unfold checkGetenv
  split
  · simp [readLiteral, Finset.mem_insert, or_comm, eq_comm]
  · rename_i hno
    have hnone : readLiteral (.ffiApp "Basis" "getenv" args) = none := by
      unfold readLiteral
      split
      · rename_i heq
        simp only [Exp.ffiApp.injEq] at heq
        exact absurd heq.2.2 (hno _ _ _)
      · rfl
    simp [hnone]

theorem panicked_checkNode (d : Nat × Exp) :
    (checkNode settings st d).panicked = true ↔ st.panicked = true ∨ maxCheckExpDepth < d.1 := by
  unfold checkNode
  split
  · rename_i h
    simp [h]
  · rename_i h
    simp only [h, or_false]
    split
    · simp
    · split <;> simp
    · rfl

theorem hasError_checkNode (d : Nat × Exp) :
    (checkNode settings st d).hasError ↔
      st.hasError ∨ ¬ maxCheckExpDepth < d.1 ∧ reported settings d.2 = true := by
  unfold checkNode
  split
  · rename_i h
    simp [h, State.hasError]
  · rename_i h
    simp only [h, not_false_eq_true, true_and]
    split
    · rename_i heq
      simp [heq, reported]
    · rename_i heq
      split
      · rename_i hget
        simp [heq, reported, hget]
      · rename_i hget
        simp [heq, reported, hget]
    · rename_i hffi happ
      have hno : reported settings d.2 = false := by
        unfold reported
        split
        · rename_i heq
          exact absurd heq (hffi _ _)
        · rename_i heq
          exact absurd heq (happ _ _ _)
        · rfl
      simp [hno]

theorem envVars_checkNode (s : String) (d : Nat × Exp) :
    s ∈ (checkNode settings st d).envVars ↔
      s ∈ st.envVars ∨ ¬ maxCheckExpDepth < d.1 ∧ readLiteral d.2 = some s := by
  unfold checkNode
  split
  · rename_i h
    simp [h]
  · rename_i h
    simp only [h, not_false_eq_true, true_and]
    split
    · rename_i heq
      simp [heq, readLiteral]
    · rename_i heq
      split
      · rename_i hget
        obtain ⟨rfl, rfl⟩ := hget
        rw [heq, envVars_checkGetenv]
      · rename_i hget
        have hno : readLiteral d.2 = none := by
          rw [heq]
          unfold readLiteral
          split
          · rename_i hsplit
            simp only [Exp.ffiApp.injEq] at hsplit
            rw [if_neg (by rwa [← hsplit.1, ← hsplit.2.1])]
          · rfl
        simp [hno]
    · rename_i hffi happ
      have hno : readLiteral d.2 = none := by
        unfold readLiteral
        split
        · rename_i heq
          exact absurd heq (happ _ _ _)
        · rfl
      simp [hno]

end

-- ---------------------------------------------------------------------------
-- The whole file
-- ---------------------------------------------------------------------------

/-- Some body that is looked at is nested too deeply. -/
def TooDeep (file : File) : Prop :=
  ∃ e, Checked file e ∧ ∃ d ∈ e.nodesAt false 0, maxCheckExpDepth < d.1

/-- Something is reported. -/
def Reported (settings : Settings) (file : File) : Prop :=
  ∃ e, Checked file e ∧ ∃ node ∈ e.nodes false, reported settings node = true

/-- The variables that the check sees being read. -/
def ReadLiterals (file : File) (s : String) : Prop :=
  ∃ e, Checked file e ∧ ∃ node ∈ e.nodes false, readLiteral node = some s

/-- The check gives a result unless it recurses too deeply; without errors the
result lists the variables seen. -/
theorem check_spec (settings : Settings) (file : File) {P : (String → Prop) → Prop} :
    (∀ out, check settings file = some out → (∀ r ∈ out.reports, r.isError = false) →
      P fun s => s ∈ out.envVars) ↔
    TooDeep file ∨ Reported settings file ∨ P (ReadLiterals file) := by
  rw [check_eq]
  generalize hst : (checkedNodes file).foldl (checkNode settings) ⟨[], ∅, false, false⟩ = st
  have hpanicked : st.panicked = true ↔ TooDeep file := by
    rw [← hst, foldl_checkNode (P := fun st => st.panicked = true) (panicked_checkNode settings)]
    simp only [Bool.false_eq_true, false_or, mem_checkedNodes, TooDeep]
    tauto
  by_cases hdeep : TooDeep file
  · simp [hpanicked.mpr hdeep, hdeep]
  have hshallow : ∀ d ∈ checkedNodes file, ¬ maxCheckExpDepth < d.1 := fun d hd hlt => by
    obtain ⟨e, he, hd⟩ := mem_checkedNodes.mp hd
    exact hdeep ⟨e, he, d, hd, hlt⟩
  have hnodes (q : Exp → Prop) : (∃ d ∈ checkedNodes file, ¬ maxCheckExpDepth < d.1 ∧ q d.2) ↔
      ∃ e, Checked file e ∧ ∃ node ∈ e.nodes false, q node := by
    constructor
    · rintro ⟨d, hd, -, hq⟩
      obtain ⟨e, he, hd⟩ := mem_checkedNodes.mp hd
      exact ⟨e, he, d.2, List.mem_map_of_mem hd, hq⟩
    · rintro ⟨e, he, node, hnode, hq⟩
      obtain ⟨d, hd, rfl⟩ := List.mem_map.mp hnode
      have hd := mem_checkedNodes.mpr ⟨e, he, hd⟩
      exact ⟨d, hd, hshallow d hd, hq⟩
  have herror : st.hasError ↔ Reported settings file := by
    rw [← hst, foldl_checkNode (hasError_checkNode settings)]
    have hstart : ¬ State.hasError ⟨[], ∅, false, false⟩ := by simp [State.hasError]
    rw [or_iff_right hstart]
    exact hnodes fun node => reported settings node = true
  have hvars : (fun s => s ∈ st.envVars.sort (· ≤ ·)) = ReadLiterals file := by
    funext s
    rw [Finset.mem_sort, ← hst, foldl_checkNode (P := fun st => s ∈ st.envVars)
      (fun st d => envVars_checkNode settings st s d), or_iff_right (Finset.notMem_empty s)]
    exact propext (hnodes fun node => readLiteral node = some s)
  have hpass : st.panicked = false := by simpa using mt hpanicked.mp hdeep
  simp only [hpass, Bool.false_eq_true, if_false, Option.some.injEq, forall_eq', hvars, hdeep, false_or]
  by_cases hrep : Reported settings file
  · obtain ⟨r, hr, herr⟩ := herror.mpr hrep
    simp only [hrep, true_or, iff_true]
    exact fun hall => absurd (hall r hr) (by simp [herr])
  · have hnone : ∀ r ∈ st.reports, r.isError = false := fun r hr => by
      by_contra herr
      exact hrep (herror.mp ⟨r, hr, by simpa using herr⟩)
    exact ⟨fun hP => .inr (hP hnone), fun hP _ => hP.resolve_left hrep⟩

def clicked : ValBinding := ⟨"clicked", 1, .func .unit .unit,
  .abs "x" .unit .unit (.ffiApp "Basis" "alert" [(.prim (.string .normal "clicked"), .string)]),
  "clicked"⟩

def page : ValBinding := ⟨"page", 2, .func .unit .unit,
  .abs "x" .unit .unit (.seq (.javaScript .attribute (.named 1)) (.app (.named 1) (.rel 0))), "page"⟩

/-- A page whose server side calls the function that its script uses. -/
def clickFile : File :=
  ([.val clicked, .val page, .export (.link .readOnly) "page" 2 [.unit] .unit false],
    [(2, .serverAndPull, .noDb)])

def alertClientOnly : Settings := ⟨∅, ∅, {("Basis", "alert")}, false, ∅⟩

theorem check_click : check alertClientOnly clickFile = some ⟨clickFile, [], []⟩ := by
  have hnone : checkedNodes clickFile = [] := rfl
  rw [check_eq, hnone]
  simp

theorem page_alerts (W : World) : applied W clickFile.1 3 2 [.unit] =
    perform W (.ffi "Basis" "alert") [.string "clicked"] := by
  simp [applied, global, apply, eval, evalWith, evalArgs, declBody, Decl.body, clickFile, clicked, page,
    Run.ofOption, Run.all, Prim.erase, Value.string]

end UrWeb.Mono.SideCheck
