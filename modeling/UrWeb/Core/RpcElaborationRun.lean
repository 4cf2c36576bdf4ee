import UrWeb.Core.LocalReductionExact
import UrWeb.Core.LocalReductionNormal
import UrWeb.Core.RpcElaboration

/-!
# A run of the elaboration of remote calls

What the pass does when it reports nothing: which applications it meets, what it
puts in their place and which functions it exports.
-/

namespace UrWeb.Core

/-- A node without its parts. -/
def Expression.shape : Expression → Expression
  | .constructor dk pc cs payload => .constructor dk pc cs (payload.map fun _ => .rel 0)
  | .ffiApp m x args => .ffiApp m x (args.map fun a => (.rel 0, a.2))
  | .app _ _ => .app (.rel 0) (.rel 0)
  | .abs x dom ran _ => .abs x dom ran (.rel 0)
  | .cApp _ c => .cApp (.rel 0) c
  | .cAbs x k _ => .cAbs x k (.rel 0)
  | .kAbs x _ => .kAbs x (.rel 0)
  | .kApp _ k => .kApp (.rel 0) k
  | .record fields => .record (fields.map fun f => (f.1, .rel 0, f.2.2))
  | .field _ c info => .field (.rel 0) c info
  | .concat _ c1 _ c2 => .concat (.rel 0) c1 (.rel 0) c2
  | .cut _ c info => .cut (.rel 0) c info
  | .cutMulti _ c info => .cutMulti (.rel 0) c info
  | .case _ arms info => .case (.rel 0) (arms.map fun a => (a.1, .rel 0)) info
  | .write _ => .write (.rel 0)
  | .closure n es => .closure n (es.map fun _ => .rel 0)
  | .letIn x t _ _ => .letIn x t (.rel 0) (.rel 0)
  | .serverCall n es t fm => .serverCall n (es.map fun _ => .rel 0) t fm
  | e => e

theorem Expression.sizeOf_child {e c : Expression} (h : c ∈ e.children) : sizeOf c < sizeOf e := by
  cases e with
  | constructor dk pc cs payload =>
    obtain rfl := Option.mem_toList.mp h
    simp only [Expression.constructor.sizeOf_spec, Option.some.sizeOf_spec]
    omega
  | ffiApp m x args =>
    obtain ⟨a, ha, rfl⟩ := List.mem_map.mp h
    have hlt := List.sizeOf_lt_of_mem ha
    obtain ⟨e, t⟩ := a
    simp only [Expression.ffiApp.sizeOf_spec, Prod.mk.sizeOf_spec] at hlt ⊢
    omega
  | record fields =>
    obtain ⟨f, hf, rfl⟩ := List.mem_map.mp h
    have hlt := List.sizeOf_lt_of_mem hf
    obtain ⟨c, e, t⟩ := f
    simp only [Expression.record.sizeOf_spec, Prod.mk.sizeOf_spec] at hlt ⊢
    omega
  | case disc arms info =>
    simp only [Expression.case.sizeOf_spec]
    obtain rfl | h := List.mem_cons.mp h
    · omega
    · obtain ⟨a, ha, rfl⟩ := List.mem_map.mp h
      have hlt := List.sizeOf_lt_of_mem ha
      obtain ⟨p, e⟩ := a
      simp only [Prod.mk.sizeOf_spec] at hlt ⊢
      omega
  | closure n es | serverCall n es t fm =>
    have hlt : sizeOf c < sizeOf es := List.sizeOf_lt_of_mem h
    simp only [Expression.closure.sizeOf_spec, Expression.serverCall.sizeOf_spec]
    omega
  | prim | rel | named | ffi => cases h
  | _ =>
    simp only [Expression.children, List.mem_cons, List.not_mem_nil, or_false] at h
    simp only [Expression.app.sizeOf_spec, Expression.abs.sizeOf_spec, Expression.cApp.sizeOf_spec,
      Expression.cAbs.sizeOf_spec, Expression.kAbs.sizeOf_spec, Expression.kApp.sizeOf_spec,
      Expression.field.sizeOf_spec, Expression.concat.sizeOf_spec, Expression.cut.sizeOf_spec,
      Expression.cutMulti.sizeOf_spec, Expression.write.sizeOf_spec, Expression.letIn.sizeOf_spec]
    first
    | obtain rfl | rfl := h <;> omega
    | subst h
      omega

namespace LocalReduction

/-- What the reduction makes of an expression, whatever it is allowed to take. -/
def Reduces (e r : Expression) : Prop := ∃ fuel, reduceExp fuel e = some r

theorem Reduces.unique (h : Reduces e r) (h' : Reduces e r') : r' = r := by
  obtain ⟨fuel, h⟩ := h
  obtain ⟨fuel', h'⟩ := h'
  have hmax := simplifyExp_extends everyStep (Nat.le_max_left fuel fuel') [] e r h
  rw [simplifyExp_extends everyStep (Nat.le_max_right fuel fuel') [] e r' h'] at hmax
  exact Option.some.inj hmax

theorem Reduces.normal (h : Reduces e r) : NormalExp r :=
  let ⟨_, h⟩ := h
  simplifyExp_normal h

theorem NormalExp.self (h : NormalExp e) (hr : Reduces e r) : r = e :=
  let ⟨_, hr⟩ := hr
  simplifyExp_self h (List.forall_mem_nil _) hr

end LocalReduction

namespace RpcElaboration

open LocalReduction

section
variable (cx : Context)

-- ---------------------------------------------------------------------------
-- What the pass meets
-- ---------------------------------------------------------------------------

/-- The pass does not look inside. -/
def isLeft : Expression → Bool
  | .constructor _ _ _ _ | .cut _ _ _ | .cutMulti _ _ _ | .closure _ _ => true
  | _ => false

/-- The transactions of the remote calls that the pass meets. -/
def met (e : Expression) : List Expression :=
  match rpcCall cx e with
  | some (_, t) => [t]
  | none => if isLeft e then [] else e.children.attach.flatMap fun c => met c.1
termination_by e
decreasing_by exact Expression.sizeOf_child c.2

/-- The nodes that the pass does not meet or leaves as they are. -/
def missed (e : Expression) : List Expression :=
  match rpcCall cx e with
  | some _ => e.children.flatMap Expression.nodes
  | none => e :: if isLeft e then e.children.flatMap Expression.nodes
    else e.children.attach.flatMap fun c => missed c.1
termination_by e
decreasing_by exact Expression.sizeOf_child c.2

/-- What stands for a remote call. -/
def replacement (t : Expression) (fm : FailureMode) : Expression :=
  match getApp t [] with
  | none => t
  | some (n, args) => match cx.tfuncs n with
    | none => t
    | some tf => .serverCall n args tf.ran fm

/-- The expression with each remote call that is met replaced. -/
inductive Rewritten : Expression → Expression → Prop
  | call (h : rpcCall cx e = some (fm, t)) : Rewritten e (replacement cx t fm)
  | left (h : rpcCall cx e = none) (hl : isLeft e = true) : Rewritten e e
  | node (h : rpcCall cx e = none) (hl : isLeft e = false) (hshape : e'.shape = e.shape)
    (hparts : List.Forall₂ Rewritten e.children e'.children) : Rewritten e e'

section
variable {cx}

theorem met_call (h : rpcCall cx e = some (fm, t)) : met cx e = [t] := by rw [met, h]

theorem met_left (h : rpcCall cx e = none) (hl : isLeft e = true) : met cx e = [] := by
  simp [met, h, hl]

theorem met_node (h : rpcCall cx e = none) (hl : isLeft e = false) :
    met cx e = e.children.flatMap (met cx) := by
  rw [met, h]
  simp [hl]

theorem missed_call (h : rpcCall cx e = some (fm, t)) :
    missed cx e = e.children.flatMap Expression.nodes := by
  rw [missed, h]

theorem missed_left (h : rpcCall cx e = none) (hl : isLeft e = true) : missed cx e = e.nodes := by
  rw [missed, h, Expression.nodes_eq]
  simp [hl]

theorem missed_node (h : rpcCall cx e = none) (hl : isLeft e = false) :
    missed cx e = e :: e.children.flatMap (missed cx) := by
  rw [missed, h]
  simp [hl]

end

-- ---------------------------------------------------------------------------
-- Running the pass
-- ---------------------------------------------------------------------------

/-- What a remote call of the transaction does to the state. -/
def register (st : State) (t : Expression) : State := (newRpc cx t .none st).2

theorem newRpc_eq (t : Expression) (fm : FailureMode) (st : State) :
    newRpc cx t fm st = (replacement cx t fm, register cx st t) := by
  simp only [register, newRpc, replacement]
  cases getApp t [] with
  | none => rfl
  | some call =>
    simp only
    cases cx.tfuncs call.1 <;> rfl

/-- A result of the computation is as described, and these transactions have been met. -/
def Ensures (x : StateT State Option α) (P : α → Prop) (ts : List Expression) : Prop :=
  ∀ st r, x st = some r → P r.1 ∧ r.2 = ts.foldl (register cx) st

namespace Ensures

variable {cx}

theorem pure {P : α → Prop} (h : P a) : Ensures cx (Pure.pure a) P [] := by
  rintro st r hr
  cases hr
  exact ⟨h, rfl⟩

theorem bind {x : StateT State Option α} {f : α → StateT State Option β} {P : α → Prop}
    {Q : β → Prop} (hx : Ensures cx x P ts) (hf : ∀ a, P a → Ensures cx (f a) Q ts') :
    Ensures cx (x >>= f) Q (ts ++ ts') := by
  intro st r hr
  obtain ⟨⟨a, s⟩, hxa, hfa⟩ := Option.bind_eq_some_iff.mp hr
  obtain ⟨hP, rfl⟩ := hx st _ hxa
  rw [List.foldl_append]
  exact hf a hP _ r hfa

theorem map {x : StateT State Option α} {f : α → β} {P : α → Prop} {Q : β → Prop}
    (hx : Ensures cx x P ts) (hf : ∀ a, P a → Q (f a)) :
    Ensures cx (x >>= fun a => Pure.pure (f a)) Q ts :=
  List.append_nil ts ▸ hx.bind fun a ha => .pure (hf a ha)

theorem lift {x : Option α} {f : α → StateT State Option β} {Q : β → Prop}
    (h : ∀ a, x = some a → Ensures cx (f a) Q ts) :
    Ensures cx (do let a ← (liftM x : StateT State Option α); f a) Q ts := by
  intro st r hr
  obtain ⟨⟨a, s⟩, hxa, hfa⟩ := Option.bind_eq_some_iff.mp hr
  obtain ⟨a', ha, ⟨⟩⟩ := Option.bind_eq_some_iff.mp hxa
  exact h a ha st r hfa

theorem newRpc {Q : Expression → Prop} (h : Q (replacement cx t fm)) :
    Ensures cx (modifyGet (RpcElaboration.newRpc cx t fm)) Q [t] := by
  rintro st r hr
  cases hr
  rw [newRpc_eq]
  exact ⟨h, rfl⟩

theorem mapM {f : α → StateT State Option β} {P : α → β → Prop} {ts : α → List Expression}
    {l : List α} (h : ∀ a ∈ l, Ensures cx (f a) (P a) (ts a)) :
    Ensures cx (l.mapM f) (List.Forall₂ P l) (l.flatMap ts) := by
  induction l with
  | nil => exact .pure .nil
  | cons a l ih =>
    rw [List.forall_mem_cons] at h
    rw [List.mapM_cons, List.flatMap_cons]
    exact h.1.bind fun b hb => (ih h.2).map fun bs hbs => .cons hb hbs

end Ensures

variable {cx}

theorem map_eq_of_forall₂ {α β γ : Type} {R : α → β → Prop} {f : α → γ} {g : β → γ} {l : List α}
    {l' : List β} (h : List.Forall₂ R l l') (hR : ∀ a b, R a b → g b = f a) : l'.map g = l.map f := by
  induction h with
  | nil => rfl
  | cons hab _ ih => rw [List.map_cons, List.map_cons, hR _ _ hab, ih]

theorem forall₂_map_map {α β γ δ : Type} {R : α → β → Prop} {S : γ → δ → Prop} {f : α → γ}
    {g : β → δ} {l : List α} {l' : List β} (h : List.Forall₂ R l l')
    (hR : ∀ a b, R a b → S (f a) (g b)) : List.Forall₂ S (l.map f) (l'.map g) :=
  List.forall₂_map_left_iff.mpr (List.forall₂_map_right_iff.mpr (h.imp hR))

/-- The pass reduces an expression and rewrites the result. -/
theorem rewriteExp_ensures (hr : ∀ r', Reduces e r' → r' = r) (hn : NormalExp r) :
    Ensures cx (rewriteExp cx fuel e) (Rewritten cx r) (met cx r) := by
  induction fuel generalizing e r with
  | zero => exact fun st out h => nomatch h
  | succ fuel ih =>
    rw [rewriteExp]
    refine .lift fun r' h => ?_
    obtain rfl := hr r' ⟨fuel, h⟩
    have hpart (c : Expression) (hc : c ∈ r'.children) :
        Ensures cx (rewriteExp cx fuel c) (Rewritten cx c) (met cx c) := by
      have hnc := ((normalExp_iff r').mp hn).2.2 c hc
      exact ih (fun _ => hnc.self) hnc
    split
    · rename_i fm t hcall
      rw [met_call hcall]
      exact .newRpc (.call hcall)
    · rename_i hcall
      have hone {c : Expression} (hc : r'.children = [c]) (f : Expression → Expression)
          (hleft : isLeft r' = false) (hshape : ∀ c', (f c').shape = r'.shape)
          (hparts : ∀ c', (f c').children = [c']) :
          Ensures cx (rewriteExp cx fuel c >>= fun c' => Pure.pure (f c')) (Rewritten cx r')
            (met cx r') := by
        rw [met_node hcall hleft, hc, List.flatMap_singleton]
        refine (hpart c (by simp [hc])).map fun c' hc' => .node hcall hleft (hshape c') ?_
        rw [hc, hparts]
        exact .cons hc' .nil
      have htwo {c d : Expression} (hc : r'.children = [c, d])
          (f : Expression → Expression → Expression) (hleft : isLeft r' = false)
          (hshape : ∀ c' d', (f c' d').shape = r'.shape)
          (hparts : ∀ c' d', (f c' d').children = [c', d']) :
          Ensures cx (rewriteExp cx fuel c >>= fun c' => rewriteExp cx fuel d >>= fun d' =>
            Pure.pure (f c' d')) (Rewritten cx r') (met cx r') := by
        rw [met_node hcall hleft, hc, List.flatMap_cons, List.flatMap_singleton]
        refine (hpart c (by simp [hc])).bind fun c' hc' => (hpart d (by simp [hc])).map
          fun d' hd' => .node hcall hleft (hshape c' d') ?_
        rw [hc, hparts]
        exact .cons hc' (.cons hd' .nil)
      cases r' with
      | prim | rel | named | ffi =>
        rw [met_node hcall rfl]
        exact .pure (.node hcall rfl rfl .nil)
      | constructor | cut | cutMulti | closure =>
        rw [met_left hcall rfl]
        exact .pure (.left hcall rfl)
      | app f x => exact htwo rfl Expression.app rfl (fun _ _ => rfl) fun _ _ => rfl
      | abs x dom ran body => exact hone rfl (Expression.abs x dom ran) rfl (fun _ => rfl) fun _ => rfl
      | cApp f c => exact hone rfl (Expression.cApp · c) rfl (fun _ => rfl) fun _ => rfl
      | cAbs x k body => exact hone rfl (Expression.cAbs x k) rfl (fun _ => rfl) fun _ => rfl
      | kAbs x body => exact hone rfl (Expression.kAbs x) rfl (fun _ => rfl) fun _ => rfl
      | kApp f k => exact hone rfl (Expression.kApp · k) rfl (fun _ => rfl) fun _ => rfl
      | field e c info => exact hone rfl (Expression.field · c info) rfl (fun _ => rfl) fun _ => rfl
      | write e => exact hone rfl Expression.write rfl (fun _ => rfl) fun _ => rfl
      | concat e1 c1 e2 c2 =>
        exact htwo rfl (Expression.concat · c1 · c2) rfl (fun _ _ => rfl) fun _ _ => rfl
      | letIn x t e1 e2 => exact htwo rfl (Expression.letIn x t) rfl (fun _ _ => rfl) fun _ _ => rfl
      | case disc arms info =>
        rw [met_node hcall rfl]
        simp only [Expression.children, List.flatMap_cons, List.flatMap_map]
        refine (hpart disc (by simp [Expression.children])).bind fun disc' hdisc =>
          (Ensures.mapM (P := fun a a' => a'.1 = a.1 ∧ Rewritten cx a.2 a'.2) fun a ha =>
            (hpart a.2 ?_).map fun e' he' => ⟨rfl, he'⟩).map fun arms' harms =>
              .node hcall rfl ?_ (.cons hdisc ?_)
        · exact List.mem_cons_of_mem _ (List.mem_map_of_mem ha)
        · exact congrArg (Expression.case (.rel 0) · info)
            (map_eq_of_forall₂ harms fun a a' h => congrArg (·, Expression.rel 0) h.1)
        · exact forall₂_map_map harms fun _ _ h => h.2
      | record fields =>
        rw [met_node hcall rfl]
        simp only [Expression.children, List.flatMap_map]
        refine (Ensures.mapM
          (P := fun f f' => (f'.1 = f.1 ∧ f'.2.2 = f.2.2) ∧ Rewritten cx f.2.1 f'.2.1) fun f hf =>
            (hpart f.2.1 (List.mem_map_of_mem hf)).map fun e' he' => ⟨⟨rfl, rfl⟩, he'⟩).map
              fun fields' hfields => .node hcall rfl ?_ (forall₂_map_map hfields fun _ _ h => h.2)
        exact congrArg Expression.record (map_eq_of_forall₂ hfields fun f f' h =>
          congrArg₂ (·, Expression.rel 0, ·) h.1.1 h.1.2)
      | ffiApp m f args =>
        rw [met_node hcall rfl]
        simp only [Expression.children, List.flatMap_map]
        refine (Ensures.mapM (P := fun a a' => a'.2 = a.2 ∧ Rewritten cx a.1 a'.1) fun a ha =>
          (hpart a.1 (List.mem_map_of_mem ha)).map fun e' he' => ⟨rfl, he'⟩).map fun args' hargs =>
            .node hcall rfl ?_ (forall₂_map_map hargs fun _ _ h => h.2)
        exact congrArg (Expression.ffiApp m f)
          (map_eq_of_forall₂ hargs fun a a' h => congrArg (Expression.rel 0, ·) h.1)
      | serverCall n args t fm =>
        rw [met_node hcall rfl]
        refine (Ensures.mapM hpart).map fun args' hargs => .node hcall rfl ?_ hargs
        exact congrArg (Expression.serverCall n · t fm)
          (map_eq_of_forall₂ hargs fun _ _ _ => rfl)

-- ---------------------------------------------------------------------------
-- Declarations
-- ---------------------------------------------------------------------------

instance : Nonempty Expression := ⟨.rel 0⟩

/-- What an expression is reduced to, if its reduction ends. -/
noncomputable def reduced (e : Expression) : Expression := Classical.epsilon (Reduces e)

theorem reduces_reduced (h : Reduces e r) : Reduces e (reduced e) := Classical.epsilon_spec ⟨r, h⟩

theorem reduced_eq (h : Reduces e r) : reduced e = r := h.unique (reduces_reduced h)

/-- The expressions that the pass rewrites. -/
def bodies : Declaration → List Expression
  | .val vi => [vi.body]
  | .valRec vis => vis.map ValBinding.body
  | .task e1 e2 => [e1, e2]
  | .policy e => [e]
  | _ => []

/-- The declaration with related expressions in place of those the pass rewrites. -/
inductive Redone (R : Expression → Expression → Prop) : Declaration → Declaration → Prop
  | val (h : R vi.body body) : Redone R (.val vi) (.val { vi with body })
  | valRec (h : List.Forall₂ (fun vi vi' => ∃ body, vi' = { vi with body } ∧ R vi.body body) vis vis') :
    Redone R (.valRec vis) (.valRec vis')
  | task (h1 : R e1 e1') (h2 : R e2 e2') : Redone R (.task e1 e2) (.task e1' e2')
  | policy (h : R e e') : Redone R (.policy e) (.policy e')
  | other (h : bodies d = []) : Redone R d d

/-- The transactions of the remote calls met in a declaration. -/
noncomputable def transactions (cx : Context) (d : Declaration) : List Expression :=
  (bodies d).flatMap fun e => met cx (reduced e)

def ReducedRewritten (cx : Context) (e e' : Expression) : Prop := ∃ r, Reduces e r ∧ Rewritten cx r e'

theorem rewriteExp_reduced (fuel : Nat) (e : Expression) :
    Ensures cx (rewriteExp cx fuel e) (ReducedRewritten cx e) (met cx (reduced e)) := by
  intro st out h
  obtain ⟨r, hr⟩ : ∃ r, Reduces e r := by
    cases fuel with
    | zero => cases h
    | succ fuel =>
      obtain ⟨_, hlift, -⟩ := Option.bind_eq_some_iff.mp h
      obtain ⟨r, hr, -⟩ := Option.bind_eq_some_iff.mp hlift
      exact ⟨r, fuel, hr⟩
  rw [reduced_eq hr]
  obtain ⟨hrew, hst⟩ := rewriteExp_ensures (fun _ => hr.unique) hr.normal st out h
  exact ⟨⟨r, hr, hrew⟩, hst⟩

theorem rewriteBinding_ensures (fuel : Nat) (vi : ValBinding) :
    Ensures cx (rewriteBinding cx fuel vi)
      (fun vi' => ∃ body, vi' = { vi with body } ∧ ReducedRewritten cx vi.body body)
      (met cx (reduced vi.body)) :=
  (rewriteExp_reduced fuel vi.body).map fun body hbody => ⟨body, rfl, hbody⟩

theorem rewriteDecl_ensures (fuel : Nat) (d : Declaration) :
    Ensures cx (rewriteDecl cx fuel d) (Redone (ReducedRewritten cx) d) (transactions cx d) := by
  cases d with
  | val vi =>
    simp only [transactions, bodies, List.flatMap_singleton]
    exact (rewriteBinding_ensures fuel vi).map fun _ ⟨_, heq, hbody⟩ => heq ▸ .val hbody
  | valRec vis =>
    simp only [transactions, bodies, List.flatMap_map]
    exact (Ensures.mapM fun vi _ => rewriteBinding_ensures fuel vi).map fun _ => .valRec
  | task e1 e2 =>
    simp only [transactions, bodies, List.flatMap_cons, List.flatMap_nil, List.append_nil]
    exact (rewriteExp_reduced fuel e1).bind fun _ h1 =>
      (rewriteExp_reduced fuel e2).map fun _ h2 => .task h1 h2
  | policy e =>
    simp only [transactions, bodies, List.flatMap_singleton]
    exact (rewriteExp_reduced fuel e).map fun _ => .policy
  | _ => exact .pure (.other rfl)

-- ---------------------------------------------------------------------------
-- The whole file
-- ---------------------------------------------------------------------------

/-- The new exports of each declaration stand in front of it. -/
inductive Placed (cx : Context) : State → File → File → State → Prop
  | nil : Placed cx st [] [] st
  | cons (hst : st' = (transactions cx d).foldl (register cx) st)
    (hd : Redone (ReducedRewritten cx) d d')
    (h : Placed cx { st' with exportDecls := [] } ds out last) :
    Placed cx st (d :: ds) (st'.exportDecls ++ d' :: out) last

theorem rewriteDecls_placed (h : rewriteDecls cx fuel ds st = some (out, last)) :
    Placed cx st ds out last := by
  induction ds generalizing st out last with
  | nil =>
    cases h
    exact .nil
  | cons d ds ih =>
    obtain ⟨⟨d', st'⟩, hd, h⟩ := Option.bind_eq_some_iff.mp h
    obtain ⟨⟨out', last'⟩, hrest, ⟨⟩⟩ := Option.bind_eq_some_iff.mp h
    obtain ⟨hredone, hst⟩ := rewriteDecl_ensures fuel d st _ hd
    exact .cons hst hredone (ih hrest)

/-- A call of a function whose type is known to end in a transaction. -/
def Recognised (cx : Context) (t : Expression) : Prop :=
  ∃ n args tf, getApp t [] = some (n, args) ∧ cx.tfuncs n = some tf

def callee (t : Expression) : Option Nat := (getApp t []).map Prod.fst

theorem register_recognised (h : Recognised cx t) :
    ∃ n, callee t = some n ∧ ∀ st, register cx st t = exportOnce n st := by
  obtain ⟨n, args, tf, ht, hn⟩ := h
  refine ⟨n, by simp [callee, ht], fun st => ?_⟩
  simp only [register, newRpc, ht, hn]

theorem exportOnce_errors (n : Nat) (st : State) : (exportOnce n st).errors = st.errors := by
  unfold exportOnce
  split <;> rfl

theorem register_errors (h : (register cx st t).errors = []) : st.errors = [] ∧ Recognised cx t := by
  simp only [register, newRpc] at h
  split at h
  · simp [report] at h
  · rename_i n args ht
    split at h
    · simp [report] at h
    · rename_i tf hn
      exact ⟨exportOnce_errors n st ▸ h, n, args, tf, ht, hn⟩

theorem registerAll_errors {ts : List Expression} (h : (ts.foldl (register cx) st).errors = []) :
    st.errors = [] ∧ ∀ t ∈ ts, Recognised cx t := by
  induction ts generalizing st with
  | nil => exact ⟨h, List.forall_mem_nil _⟩
  | cons t ts ih =>
    obtain ⟨herr, hts⟩ := ih h
    obtain ⟨herr, ht⟩ := register_errors herr
    exact ⟨herr, List.forall_mem_cons.mpr ⟨ht, hts⟩⟩

/-- When nothing is reported, every call that is met is a call of a known function. -/
theorem Placed.recognised (h : Placed cx st ds out last) (herr : last.errors = []) :
    st.errors = [] ∧ ∀ d ∈ ds, ∀ t ∈ transactions cx d, Recognised cx t := by
  induction h with
  | nil => exact ⟨herr, List.forall_mem_nil _⟩
  | @cons st' d st d' ds out last hst hd h ih =>
    obtain ⟨herr, hds⟩ := ih herr
    obtain ⟨herr, hts⟩ := registerAll_errors (hst ▸ herr)
    exact ⟨herr, List.forall_mem_cons.mpr ⟨hts, hds⟩⟩

def isRpcExport (f : Nat) : Declaration → Bool
  | .export (.rpc _) n _ => n = f
  | _ => false

def isNewExport (d : Declaration) : Prop := ∃ n, d = .export (.rpc .readWrite) n false

/-- What a list of recognised calls exports. -/
theorem registerAll_exports (f : Nat) (st : State) (ts : List Expression)
    (hts : ∀ t ∈ ts, Recognised cx t) :
    (f ∈ (ts.foldl (register cx) st).exported ↔ f ∈ st.exported ∨ f ∈ ts.filterMap callee) ∧
    ∃ new, (ts.foldl (register cx) st).exportDecls = st.exportDecls ++ new ∧
      (∀ d ∈ new, isNewExport d) ∧
      new.countP (isRpcExport f) = if f ∉ st.exported ∧ f ∈ ts.filterMap callee then 1 else 0 := by
  induction ts generalizing st with
  | nil => exact ⟨by simp, [], by simp⟩
  | cons t ts ih =>
    obtain ⟨ht, hts⟩ := List.forall_mem_cons.mp hts
    obtain ⟨n, hcallee, hreg⟩ := register_recognised ht
    obtain ⟨hexported, new, hnew, hall, hcount⟩ := ih (exportOnce n st) hts
    rw [List.foldl_cons, hreg]
    simp only [List.filterMap_cons, hcallee, List.mem_cons]
    by_cases hn : n ∈ st.exported
    · have hsame : exportOnce n st = st := by simp [exportOnce, hn]
      rw [hsame] at hexported hnew hcount ⊢
      refine ⟨hexported.trans ?_, new, hnew, hall, hcount.trans ?_⟩
      · constructor
        · exact Or.imp_right .inr
        · rintro (h | rfl | h)
          exacts [.inl h, .inl hn, .inr h]
      · by_cases hf : f = n
        · simp [hf, hn]
        · simp [hf]
    · have hadd : exportOnce n st = { st with
          exported := insert n st.exported
          exportDecls := st.exportDecls ++ [.export (.rpc .readWrite) n false] } := by
        simp [exportOnce, hn]
      rw [hadd] at hexported hnew hcount ⊢
      refine ⟨hexported.trans ?_, .export (.rpc .readWrite) n false :: new, ?_, ?_, ?_⟩
      · simp only [Finset.mem_insert]
        tauto
      · simpa using hnew
      · exact List.forall_mem_cons.mpr ⟨⟨n, rfl⟩, hall⟩
      · rw [List.countP_cons, hcount]
        by_cases hf : f = n
        · simp [hf, hn, isRpcExport]
        · simp [hf, isRpcExport, Ne.symm hf]

theorem Redone.bound {R : Expression → Expression → Prop} (h : Redone R d d') :
    (declBindings d').map ValBinding.id = (declBindings d).map ValBinding.id := by
  cases h with
  | valRec h =>
    refine map_eq_of_forall₂ h fun vi vi' hvi => ?_
    obtain ⟨body, rfl, -⟩ := hvi
    rfl
  | _ => rfl

theorem Redone.isRpcExport {R : Expression → Expression → Prop} (h : Redone R d d') :
    isRpcExport f d' = RpcElaboration.isRpcExport f d := by
  cases h <;> rfl

theorem bindings_newExports {new : File} (h : ∀ d ∈ new, isNewExport d) : bindings new = [] := by
  refine List.flatMap_eq_nil_iff.mpr fun d hd => ?_
  obtain ⟨n, rfl⟩ := h d hd
  rfl

noncomputable def calledBy (cx : Context) (d : Declaration) : List Nat :=
  (transactions cx d).filterMap callee

/-- A function gets one export if it is called and not exported yet. -/
theorem Placed.count (h : Placed cx st ds out last) (hst : st.exportDecls = [])
    (hrec : ∀ d ∈ ds, ∀ t ∈ transactions cx d, Recognised cx t) (f : Nat) :
    out.countP (isRpcExport f) = ds.countP (isRpcExport f) +
      if f ∉ st.exported ∧ ∃ d ∈ ds, f ∈ calledBy cx d then 1 else 0 := by
  induction h with
  | nil => simp
  | @cons st' d st d' ds out last hst' hd h ih =>
    obtain ⟨hts, hds⟩ := List.forall_mem_cons.mp hrec
    obtain ⟨hexported, new, hnew, -, hcount⟩ := registerAll_exports f st _ hts
    rw [← hst', hst, List.nil_append] at hnew
    rw [← hst'] at hexported
    change f ∈ st'.exported ↔ f ∈ st.exported ∨ f ∈ calledBy cx d at hexported
    change _ = if f ∉ st.exported ∧ f ∈ calledBy cx d then 1 else 0 at hcount
    rw [hnew, List.countP_append, List.countP_cons, ih rfl hds, hcount, hd.isRpcExport,
      List.countP_cons]
    simp only [List.exists_mem_cons_iff, hexported]
    by_cases hf : f ∈ st.exported
    · simp [hf]
    · by_cases hcalled : f ∈ calledBy cx d
      · simp [hf, hcalled, Nat.add_comm]
      · simp [hf, hcalled, Nat.add_right_comm]

/-- The export stands in front of the first declaration with a call. -/
theorem Placed.position (h : Placed cx st ds out last) (hst : st.exportDecls = [])
    (hrec : ∀ d ∈ ds, ∀ t ∈ transactions cx d, Recognised cx t) (hds : ds = pre ++ d :: post)
    (hpre : ∀ d ∈ pre, f ∉ calledBy cx d) (hd : f ∈ calledBy cx d) (hf : f ∉ st.exported) :
    ∃ outPre outPost, out = outPre ++ .export (.rpc .readWrite) f false :: outPost ∧
      (bindings outPre).map ValBinding.id = (bindings pre).map ValBinding.id := by
  induction h generalizing pre with
  | nil => simp at hds
  | @cons st' d1 st d1' ds out last hst' hd1 h ih =>
    obtain ⟨hts, hrest⟩ := List.forall_mem_cons.mp hrec
    obtain ⟨hexported, new, hnew, hall, hcount⟩ := registerAll_exports f st _ hts
    rw [← hst', hst, List.nil_append] at hnew
    rw [← hst'] at hexported
    rw [hnew]
    obtain ⟨rfl, hhead⟩ | ⟨pre, rfl, rfl⟩ := List.cons_eq_append_iff.mp hds
    · obtain ⟨rfl, rfl⟩ := List.cons.inj hhead
      have hone : 0 < new.countP (isRpcExport f) := by
        rw [hcount, if_pos ⟨hf, hd⟩]
        exact Nat.one_pos
      obtain ⟨x, hx, hxf⟩ := List.countP_pos_iff.mp hone
      obtain ⟨n, rfl⟩ := hall x hx
      obtain rfl : n = f := by simpa [isRpcExport] using hxf
      obtain ⟨a, b, rfl⟩ := List.append_of_mem hx
      refine ⟨a, b ++ d1' :: out, by simp, ?_⟩
      rw [bindings_newExports fun x hx => hall x (List.mem_append_left _ hx)]
      rfl
    · obtain ⟨hd1f, hpre⟩ := List.forall_mem_cons.mp hpre
      have hf' : f ∉ st'.exported := fun hmem => (hexported.mp hmem).elim hf hd1f
      obtain ⟨outPre, outPost, rfl, hbound⟩ := ih rfl hrest rfl hpre hf'
      refine ⟨new ++ d1' :: outPre, outPost, by simp, ?_⟩
      have hnone := bindings_newExports hall
      simp only [bindings, List.flatMap_append, List.flatMap_cons, List.map_append] at hbound hnone ⊢
      rw [hnone, hd1.bound, hbound]
      rfl

end

end RpcElaboration

end UrWeb.Core
