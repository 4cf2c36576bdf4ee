import UrWeb.Core.Denotation
import UrWeb.Core.EffectSound
import UrWeb.Core.MarshalSound
import UrWeb.Core.RpcElaborationRun

/-!
# Which remote calls are elaborated

What is expected of the elaboration of remote calls, and exactly which files it
is true of. The analyses that go through declarations in their order see the final
status of an exported function only if the export comes after the function.
-/

namespace UrWeb.Core.RpcElaboration

open LocalReduction

-- ---------------------------------------------------------------------------
-- What is expected
-- ---------------------------------------------------------------------------

section
variable (file : File)

/-- The primitives and the values that come down to one, with the failure modes. -/
inductive ValueAlias : Expression → FailureMode → Prop
  | rpc : ValueAlias (.ffi "Basis" "rpc") .none
  | tryRpc : ValueAlias (.ffi "Basis" "tryRpc") .error
  | val (hvi : .val vi ∈ file) (he : Reduces vi.body e) (h : ValueAlias e fm) :
    ValueAlias (.named vi.id) fm

def IsRpcOf (e t : Expression) (fm : FailureMode) : Prop :=
  ∃ f c, e = .app (.cApp f c) t ∧ ValueAlias file f fm

def IsRpc (e : Expression) : Prop := ∃ t fm, IsRpcOf file e t fm

/-- Types that mean the same, whatever foreign and abstract types mean. -/
def SameType (c c' : Constructor) : Prop :=
  ∀ g : Denotation.TypeGlobals,
    (∀ x n k body, .constructor x n k body ∈ file → ∀ τ, g.named n = Denotation.conValue g body τ) →
    ∀ τ, Denotation.conValue g c τ = Denotation.conValue g c' τ

def arrows (doms : List Constructor) (ran : Constructor) : Constructor :=
  doms.foldr Constructor.tFun ran

/-- With so many arguments, a function of this type is a transaction that returns this. -/
def IsResult (t : Constructor) (count : Nat) (ran : Constructor) : Prop :=
  ∃ doms : List Constructor, doms.length = count ∧
    SameType file t (arrows doms (.app (.ffi "Basis" "transaction") ran))

def applied (n : Nat) (args : List Expression) : Expression := args.foldl .app (.named n)

/-- The expression with a server call for every remote call in it. -/
inductive Elaborated : Expression → Expression → Prop
  | call (h : IsRpcOf file e (applied n args) fm) (hvi : vi ∈ bindings file) (hid : vi.id = n)
    (hran : IsResult file vi.t args.length ran) (hargs : List.Forall₂ Elaborated args args') :
    Elaborated e (.serverCall n args' ran fm)
  | node (h : ¬ IsRpc file e) (hshape : e'.shape = e.shape)
    (hparts : List.Forall₂ Elaborated e.children e'.children) : Elaborated e e'

/-- The declarations in their order, with new exports between them. -/
inductive Interleaved (R : Declaration → Declaration → Prop) : File → File → Prop
  | nil : Interleaved R [] []
  | cons (hd : R d d') (h : Interleaved R ds ds') : Interleaved R (d :: ds) (d' :: ds')
  | exported (h : Interleaved R ds ds') :
    Interleaved R ds (.export (.rpc .readWrite) n false :: ds')

/-- The declaration, reduced, has a remote call of the function with these arguments. -/
def CallsWith (d : Declaration) (f : Nat) (args : List Expression) : Prop :=
  ∃ e ∈ bodies d, ∃ r, Reduces e r ∧ ∃ x ∈ r.nodes, ∃ fm, IsRpcOf file x (applied f args) fm

def Calls (d : Declaration) (f : Nat) : Prop := ∃ args, CallsWith file d f args

/-- What the elaboration of remote calls is for. -/
structure Elaboration (out : File) : Prop where
  complete : ∀ d ∈ out, ∀ e ∈ MarshalCheck.expressions d, ∀ x ∈ e.nodes, ¬ IsRpc file x
  calls : Interleaved (Redone fun e e' => ∃ r, Reduces e r ∧ Elaborated file r e') file out
  exported : ∀ d ∈ file, ∀ f, Calls file d f → out.countP (isRpcExport f) = 1
  ordered : ∀ d ∈ file, ∀ f, Calls file d f → ∀ pre eff b post,
    out = pre ++ .export (.rpc eff) f b :: post → ∃ vi ∈ bindings pre, vi.id = f
  statusSeen : ∀ settings, ∀ d ∈ file, ∀ f, Calls file d f → ∀ pre eff b post,
    out = pre ++ .export (.rpc eff) f b :: post →
    (EffectAnalysis.run settings pre).writers f = (EffectAnalysis.run settings out).writers f
  typeSeen : ∀ settings, ∀ d ∈ file, ∀ f, Calls file d f → ∀ pre eff b post,
    out = pre ++ .export (.rpc eff) f b :: post →
    ∃ vi ∈ bindings out, vi.id = f ∧ (MarshalCheck.run settings pre).emap f = some (vi.t, vi.s)
  writersKept : ∀ settings, ∀ d ∈ file, ∀ f, Calls file d f → ∀ b,
    .export (.rpc .readOnly) f b ∈ (EffectAnalysis.effectize settings out).1 →
    (EffectAnalysis.run settings out).writers f = none

/-- The argument of the application that a type ends in. -/
def lastArgument : Constructor → Option Constructor
  | .app _ ran => some ran
  | .tFun _ rest => lastArgument rest
  | _ => none

/-- The expressions of a declaration that are not rewritten. -/
def others : Declaration → List Expression
  | .table td => [td.exp, td.pkExp]
  | .view _ _ _ e _ => [e]
  | .index e1 e2 => [e1, e2]
  | _ => []

/-- The files of which that is true. -/
structure Suitable : Prop where
  /-- No remote call is in a place that is not visited or is made through an alias
  that is not seen to be one. -/
  met : ∀ d ∈ file, (∀ e ∈ bodies d, ∀ r, Reduces e r → ∀ x ∈ missed (context file) r, ¬ IsRpc file x) ∧
    ∀ e ∈ others d, ∀ x ∈ e.nodes, ¬ IsRpc file x
  /-- Functions that are called are declared before the declarations that call them. -/
  earlier : ∀ pre d post, file = pre ++ d :: post → ∀ f, Calls file d f → ∃ vi ∈ bindings pre, vi.id = f
  /-- They are not exported yet. -/
  fresh : ∀ d ∈ file, ∀ f, Calls file d f → file.countP (isRpcExport f) = 0
  /-- Their types end in an application to the type of the result. -/
  typed : ∀ d ∈ file, ∀ f args, CallsWith file d f args → ∀ vi ∈ bindings file, vi.id = f →
    ∀ ran, lastArgument vi.t = some ran → IsResult file vi.t args.length ran

end

-- ---------------------------------------------------------------------------
-- What the first passes find
-- ---------------------------------------------------------------------------

theorem reduces_ffi : Reduces (.ffi m x) (.ffi m x) := ⟨1, rfl⟩

theorem reduces_named : Reduces (.named n) (.named n) := ⟨1, rfl⟩

structure Aliases (file : File) (ids : Finset Nat × Finset Nat) : Prop where
  rpc : ∀ n ∈ ids.1, ValueAlias file (.named n) .none
  tryRpc : ∀ n ∈ ids.2, ValueAlias file (.named n) .error

theorem Aliases.insertRpc (h : Aliases file ids) (hn : ValueAlias file (.named n) .none) :
    Aliases file (insert n ids.1, ids.2) where
  rpc := (Finset.forall_mem_insert _ _ _).mpr ⟨hn, h.rpc⟩
  tryRpc := h.tryRpc

theorem Aliases.insertTryRpc (h : Aliases file ids) (hn : ValueAlias file (.named n) .error) :
    Aliases file (ids.1, insert n ids.2) where
  rpc := h.rpc
  tryRpc := (Finset.forall_mem_insert _ _ _).mpr ⟨hn, h.tryRpc⟩

theorem Aliases.note (h : Aliases file ids) (hd : d ∈ file) : Aliases file (noteBaseId ids d) := by
  cases d with
  | val vi =>
    simp only [noteBaseId]
    split
    · rename_i m f hbody
      have hself : Reduces vi.body (.ffi m f) := hbody ▸ reduces_ffi
      split
      · rename_i hb
        obtain ⟨rfl, rfl⟩ : m = "Basis" ∧ f = "rpc" := by simpa [isBasisRpcFfi] using hb
        exact h.insertRpc (.val hd hself .rpc)
      · split
        · rename_i hb
          obtain ⟨rfl, rfl⟩ : m = "Basis" ∧ f = "tryRpc" := by simpa [isBasisTryRpcFfi] using hb
          exact h.insertTryRpc (.val hd hself .tryRpc)
        · exact h
    · rename_i n hbody
      have hself : Reduces vi.body (.named n) := hbody ▸ reduces_named
      split
      · rename_i hn
        exact h.insertRpc (.val hd hself (h.rpc n hn))
      · split
        · rename_i hn
          exact h.insertTryRpc (.val hd hself (h.tryRpc n hn))
        · exact h
    · exact h
  | _ => exact h

theorem aliases_baseIds (file : File) : Aliases file (baseIds file) := by
  have hall (ds : File) (hds : ds ⊆ file) (ids : Finset Nat × Finset Nat) (h : Aliases file ids) :
      Aliases file (ds.foldl noteBaseId ids) := by
    induction ds generalizing ids with
    | nil => exact h
    | cons d ds ih =>
      rw [List.cons_subset] at hds
      exact ih hds.2 _ (h.note hds.1)
  exact hall file (List.Subset.refl file) _ ⟨by simp, by simp⟩

theorem primitive_alias (h : primitive (context file) f = some fm) : ValueAlias file f fm := by
  obtain ⟨hrpc, htry⟩ := aliases_baseIds file
  cases f with
  | ffi m x =>
    simp only [primitive, Bool.and_eq_true, decide_eq_true_eq] at h
    split at h
    · rename_i hmx
      obtain ⟨rfl, rfl⟩ := hmx
      cases h
      exact .rpc
    · split at h
      · rename_i hmx
        obtain ⟨rfl, rfl⟩ := hmx
        cases h
        exact .tryRpc
      · cases h
  | named n =>
    simp only [primitive] at h
    split at h
    · rename_i hn
      cases h
      exact hrpc n hn
    · split at h
      · rename_i hn
        cases h
        exact htry n hn
      · cases h
  | _ => cases h

theorem rpcCall_isRpcOf (h : rpcCall (context file) e = some (fm, t)) : IsRpcOf file e t fm := by
  unfold rpcCall at h
  split at h
  · obtain ⟨fm', hp, ⟨⟩⟩ := Option.map_eq_some_iff.mp h
    exact ⟨_, _, rfl, primitive_alias hp⟩
  · cases h

theorem crawl_eq (t : Constructor) (e : Expression) (args : List (String × Constructor)) :
    crawl t e args = lastArgument t := by
  induction t generalizing e args with
  | tFun dom ran _ ih =>
    cases e <;> exact ih _ _
  | _ => rfl

theorem tfuncs_some (h : (context file).tfuncs n = some tf) :
    ∃ vi ∈ bindings file, vi.id = n ∧ lastArgument vi.t = some tf.ran := by
  have hall (vis : List ValBinding) (tfuncs : Nat → Option TFunc)
      (h : vis.foldl noteTFunc tfuncs n = some tf) :
      tfuncs n = some tf ∨ ∃ vi ∈ vis, vi.id = n ∧ lastArgument vi.t = some tf.ran := by
    induction vis generalizing tfuncs with
    | nil => exact .inl h
    | cons vi vis ih =>
      obtain hnote | ⟨vj, hvj, hid, hran⟩ := ih _ h
      · rw [noteTFunc, crawl_eq] at hnote
        cases hran : lastArgument vi.t with
        | none =>
          rw [hran] at hnote
          exact .inl hnote
        | some ran =>
          rw [hran] at hnote
          by_cases hid : n = vi.id
          · subst hid
            simp only [Function.update_self] at hnote
            cases hnote
            exact .inr ⟨vi, List.mem_cons_self, rfl, hran⟩
          · simp only [Function.update_of_ne hid] at hnote
            exact .inl hnote
      · exact .inr ⟨vj, List.mem_cons_of_mem _ hvj, hid, hran⟩
  exact (hall _ _ h).resolve_left (by simp)

theorem getApp_iff {t : Expression} {acc : List Expression} : getApp t acc = some (n, args) ↔
    ∃ args', t = applied n args' ∧ args = args' ++ acc := by
  constructor
  · intro h
    induction t generalizing acc with
    | named m =>
      cases h
      exact ⟨[], rfl, rfl⟩
    | app f x ih =>
      obtain ⟨args', rfl, rfl⟩ := ih h
      exact ⟨args' ++ [x], by simp [applied], by simp⟩
    | _ => cases h
  · rintro ⟨args', rfl, rfl⟩
    induction args' using List.reverseRecOn generalizing acc with
    | nil => rfl
    | append_singleton args' x ih =>
      have hlast : applied n (args' ++ [x]) = .app (applied n args') x := by simp [applied]
      rw [hlast, getApp, ih, List.append_assoc]
      rfl

theorem getApp_applied : getApp t [] = some (n, args) ↔ t = applied n args := by
  rw [getApp_iff]
  constructor
  · rintro ⟨args', rfl, rfl⟩
    rw [List.append_nil]
  · rintro rfl
    exact ⟨args, rfl, (List.append_nil args).symm⟩

theorem applied_inj (h : applied n args = applied n' args') : n = n' ∧ args = args' := by
  have h' := (getApp_applied.mpr rfl).symm.trans (getApp_applied.mpr h)
  cases h'
  exact ⟨rfl, rfl⟩

theorem mem_nodes_applied {x : Expression} (h : x ∈ (applied n args).nodes) :
    (∃ args', x = applied n args') ∨ ∃ a ∈ args, x ∈ a.nodes := by
  induction args using List.reverseRecOn with
  | nil => exact .inl ⟨[], List.mem_singleton.mp h⟩
  | append_singleton args a ih =>
    have hlast : applied n (args ++ [a]) = .app (applied n args) a := by simp [applied]
    rw [hlast, Expression.nodes, List.mem_cons, List.mem_append] at h
    obtain rfl | h | h := h
    · exact .inl ⟨args ++ [a], hlast.symm⟩
    · exact (ih h).imp_right (Exists.imp fun b hb => hb.imp_left (List.mem_append_left _))
    · exact .inr ⟨a, by simp, h⟩

theorem arg_nodes {a : Expression} (h : a ∈ args) : a.nodes ⊆ (applied n args).nodes := by
  induction args using List.reverseRecOn with
  | nil => cases h
  | append_singleton args b ih =>
    have hlast : applied n (args ++ [b]) = .app (applied n args) b := by simp [applied]
    rw [hlast, Expression.nodes]
    intro x hx
    obtain h | h := List.mem_append.mp h
    · exact List.mem_cons_of_mem _ (List.mem_append_left _ (ih h hx))
    · obtain rfl := List.mem_singleton.mp h
      exact List.mem_cons_of_mem _ (List.mem_append_right _ hx)

theorem applied_not_isRpc : ¬ IsRpc file (applied n args) := by
  rintro ⟨t, fm, f, c, h, -⟩
  cases args using List.reverseRecOn with
  | nil => cases h
  | append_singleton args a =>
    rw [applied, List.foldl_append] at h
    obtain ⟨hf, -⟩ := Expression.app.inj h
    cases args using List.reverseRecOn with
    | nil => cases hf
    | append_singleton args a =>
      rw [List.foldl_append] at hf
      cases hf

-- ---------------------------------------------------------------------------
-- Remote calls before and after
-- ---------------------------------------------------------------------------

/-- Induction by all the proper parts of an expression. -/
theorem induct_nodes {P : Expression → Prop}
    (h : ∀ e, (∀ c ∈ e.children, ∀ x ∈ c.nodes, P x) → P e) (e : Expression) : P e := by
  suffices hall : ∀ x ∈ e.nodes, P x from hall e e.self_mem_nodes
  induction e using Expression.induct_children with
  | h e ih =>
    intro x hx
    rw [Expression.nodes_eq, List.mem_cons, List.mem_flatMap] at hx
    obtain rfl | ⟨c, hc, hx⟩ := hx
    · exact h x ih
    · exact ih c hc x hx

theorem forall₂_left_exists {α β : Type} {R : α → β → Prop} {l : List α} {l' : List β} {a : α}
    (h : List.Forall₂ R l l') (ha : a ∈ l) : ∃ b ∈ l', R a b := by
  induction h with
  | nil => cases ha
  | cons hab _ ih =>
    obtain rfl | ha := List.mem_cons.mp ha
    · exact ⟨_, List.mem_cons_self, hab⟩
    · obtain ⟨b, hb, hR⟩ := ih ha
      exact ⟨b, List.mem_cons_of_mem _ hb, hR⟩

theorem forall₂_right_exists {α β : Type} {R : α → β → Prop} {l : List α} {l' : List β} {b : β}
    (h : List.Forall₂ R l l') (hb : b ∈ l') : ∃ a ∈ l, R a b :=
  forall₂_left_exists h.flip hb

theorem ValueAlias.shape_eq (h : ValueAlias file f fm) (hshape : f'.shape = f.shape) : f' = f := by
  cases h <;> cases f' <;> simp_all [Expression.shape]

theorem ValueAlias.not_rpcCall (h : ValueAlias file f fm) : rpcCall cx f = none := by
  cases h <;> rfl

theorem shape_app {e f x : Expression} (h : e.shape = (Expression.app f x).shape) :
    ∃ f' x', e = .app f' x' := by
  cases e <;> simp_all [Expression.shape]

theorem shape_cApp {e f : Expression} (h : e.shape = (Expression.cApp f c).shape) :
    ∃ f', e = .cApp f' c := by
  cases e <;> simp_all [Expression.shape]

section
variable {file : File}

theorem Elaborated.head (h : Elaborated file f f') (ha : ValueAlias file f' fm) : f = f' := by
  cases h with
  | call => cases ha
  | node _ hshape _ => exact ha.shape_eq hshape.symm

theorem Elaborated.cApp (h : Elaborated file e (.cApp f' c)) :
    ∃ f, e = .cApp f c ∧ Elaborated file f f' := by
  cases h with
  | node _ hshape hparts =>
    obtain ⟨f, rfl⟩ := shape_cApp hshape.symm
    obtain ⟨hf, -⟩ := List.forall₂_cons.mp hparts
    exact ⟨f, rfl, hf⟩

theorem Elaborated.not_isRpc (h : Elaborated file e e') : ¬ IsRpc file e' := by
  rintro ⟨t', fm, f, c, rfl, ha⟩
  cases h with
  | node hnot hshape hparts =>
    obtain ⟨g, x, rfl⟩ := shape_app hshape.symm
    obtain ⟨hg, -⟩ := List.forall₂_cons.mp hparts
    obtain ⟨f0, rfl, hf⟩ := hg.cApp
    obtain rfl := hf.head ha
    exact hnot ⟨x, fm, f0, c, rfl, ha⟩

/-- No remote call is left. -/
theorem Elaborated.clean (h : Elaborated file e e') : ∀ x ∈ e'.nodes, ¬ IsRpc file x := by
  induction e using induct_nodes generalizing e' with
  | h e ih =>
    intro x hx
    rw [Expression.nodes_eq, List.mem_cons, List.mem_flatMap] at hx
    obtain rfl | ⟨c', hc', hx⟩ := hx
    · exact h.not_isRpc
    · cases h with
      | @call _ n args fm vi ran args' h hvi hid hran hargs =>
        obtain ⟨f, c, rfl, -⟩ := h
        obtain ⟨a, ha, hac⟩ := forall₂_right_exists hargs hc'
        exact ih (applied n args) (by simp [Expression.children]) a (arg_nodes ha a.self_mem_nodes)
          hac x hx
      | node hnot hshape hparts =>
        obtain ⟨c, hc, hcc⟩ := forall₂_right_exists hparts hc'
        exact ih c hc c c.self_mem_nodes hcc x hx

theorem Elaborated.refl {e : Expression} (h : ∀ x ∈ e.nodes, ¬ IsRpc file x) :
    Elaborated file e e := by
  induction e using Expression.induct_children with
  | h e ih =>
    refine .node (h e e.self_mem_nodes) rfl (List.forall₂_same.mpr fun c hc => ih c hc fun x hx => ?_)
    exact h x (Expression.nodes_trans (Expression.child_mem_nodes hc) hx)

theorem Rewritten.head (h : Rewritten cx f f') (ha : ValueAlias file f fm) : f' = f := by
  cases h with
  | call h => cases ha.not_rpcCall ▸ h
  | left => rfl
  | node _ _ hshape _ => exact ha.shape_eq hshape

theorem Rewritten.cApp (h : Rewritten cx (.cApp f c) e') : ∃ f', e' = .cApp f' c ∧ Rewritten cx f f' := by
  cases h with
  | call h => cases h
  | left _ hl => cases hl
  | node _ _ hshape hparts =>
    obtain ⟨f', rfl⟩ := shape_cApp hshape
    obtain ⟨hf, -⟩ := List.forall₂_cons.mp hparts
    exact ⟨f', rfl, hf⟩

/-- A remote call that the pass does not see to be one is left. -/
theorem Rewritten.keeps (h : Rewritten cx e e') (hnot : rpcCall cx e = none) (hrpc : IsRpc file e) :
    IsRpc file e' := by
  obtain ⟨t, fm, f, c, rfl, ha⟩ := hrpc
  cases h with
  | call h => cases hnot ▸ h
  | left => exact ⟨t, fm, f, c, rfl, ha⟩
  | node _ _ hshape hparts =>
    obtain ⟨g, x, rfl⟩ := shape_app hshape
    obtain ⟨hg, -⟩ := List.forall₂_cons.mp hparts
    obtain ⟨f', rfl, hf⟩ := hg.cApp
    obtain rfl := hf.head ha
    exact ⟨x, fm, f', c, rfl, ha⟩

/-- If no remote call is left, the pass has met them all. -/
theorem Rewritten.missed_clean (h : Rewritten (context file) e e')
    (hrec : ∀ t ∈ met (context file) e, Recognised (context file) t)
    (hclean : ∀ x ∈ e'.nodes, ¬ IsRpc file x) :
    ∀ x ∈ missed (context file) e, ¬ IsRpc file x := by
  induction e using Expression.induct_children generalizing e' with
  | h e ih =>
    cases h with
    | @call _ fm t hcall =>
      rw [met_call hcall] at hrec
      obtain ⟨n, args, tf, ht, hn⟩ := hrec t (List.mem_singleton_self t)
      obtain rfl := getApp_applied.mp ht
      obtain ⟨f, c, rfl, ha⟩ := rpcCall_isRpcOf hcall
      simp only [replacement, ht, hn] at hclean
      rw [missed_call hcall]
      simp only [Expression.children, List.flatMap_cons, List.flatMap_nil, List.append_nil,
        List.forall_mem_append]
      constructor
      · -- the primitive or the alias, applied to its type
        have hhead : f.nodes = [f] := by cases ha <;> rfl
        simp only [Expression.nodes, hhead, List.forall_mem_cons]
        refine ⟨?_, ?_, List.forall_mem_nil _⟩
        · rintro ⟨t, fm, f, c, h, -⟩
          cases h
        · rintro ⟨t, fm, f, c, rfl, -⟩
          cases ha
      · intro x hx
        obtain ⟨args', rfl⟩ | ⟨a, ha', hx⟩ := mem_nodes_applied hx
        · exact applied_not_isRpc
        · refine hclean x (Expression.nodes_trans (Expression.child_mem_nodes ?_) hx)
          exact ha'
    | left hnot hl =>
      rw [missed_left hnot hl]
      exact hclean
    | node hnot hl hshape hparts =>
      have hrew : Rewritten (context file) e e' := .node hnot hl hshape hparts
      rw [met_node hnot hl] at hrec
      rw [missed_node hnot hl]
      refine List.forall_mem_cons.mpr ⟨fun hrpc =>
        hclean e' e'.self_mem_nodes (hrew.keeps hnot hrpc), fun x hx => ?_⟩
      obtain ⟨c, hc, hx⟩ := List.mem_flatMap.mp hx
      obtain ⟨c', hc', hcc⟩ := forall₂_left_exists hparts hc
      refine ih c hc hcc (fun t ht => hrec t (List.mem_flatMap.mpr ⟨c, hc, ht⟩)) (fun x hx => ?_) x hx
      exact hclean x (Expression.nodes_trans (Expression.child_mem_nodes hc') hx)

theorem mem_missed_or_met {x : Expression} (hx : x ∈ e.nodes) :
    x ∈ missed cx e ∨ ∃ fm t, rpcCall cx x = some (fm, t) ∧ t ∈ met cx e := by
  induction e using Expression.induct_children with
  | h e ih =>
    cases hcall : rpcCall cx e with
    | some call =>
      obtain ⟨fm, t⟩ := call
      rw [missed_call hcall, met_call hcall]
      rw [Expression.nodes_eq] at hx
      obtain rfl | hx := List.mem_cons.mp hx
      · exact .inr ⟨fm, t, hcall, List.mem_singleton_self t⟩
      · exact .inl hx
    | none =>
      cases hl : isLeft e with
      | true =>
        rw [missed_left hcall hl]
        exact .inl hx
      | false =>
        rw [missed_node hcall hl, met_node hcall hl]
        rw [Expression.nodes_eq, List.mem_cons, List.mem_flatMap] at hx
        obtain rfl | ⟨c, hc, hx⟩ := hx
        · exact .inl List.mem_cons_self
        · obtain hx | ⟨fm, t, hcall, ht⟩ := ih c hc hx
          · exact .inl (List.mem_cons_of_mem _ (List.mem_flatMap.mpr ⟨c, hc, hx⟩))
          · exact .inr ⟨fm, t, hcall, List.mem_flatMap.mpr ⟨c, hc, ht⟩⟩

theorem exists_of_met (ht : t ∈ met cx e) : ∃ x ∈ e.nodes, ∃ fm, rpcCall cx x = some (fm, t) := by
  induction e using Expression.induct_children with
  | h e ih =>
    cases hcall : rpcCall cx e with
    | some call =>
      obtain ⟨fm, t'⟩ := call
      rw [met_call hcall] at ht
      obtain rfl := List.mem_singleton.mp ht
      exact ⟨e, e.self_mem_nodes, fm, hcall⟩
    | none =>
      cases hl : isLeft e with
      | true =>
        rw [met_left hcall hl] at ht
        cases ht
      | false =>
        rw [met_node hcall hl] at ht
        obtain ⟨c, hc, ht⟩ := List.mem_flatMap.mp ht
        obtain ⟨x, hx, hx'⟩ := ih c hc ht
        exact ⟨x, Expression.nodes_trans (Expression.child_mem_nodes hc) hx, hx'⟩

/-- Every remote call is elaborated if all are met and the results have the right types. -/
theorem Rewritten.elaborated (h : Rewritten (context file) e e')
    (hrec : ∀ t ∈ met (context file) e, Recognised (context file) t)
    (hmissed : ∀ x ∈ missed (context file) e, ¬ IsRpc file x)
    (htyped : ∀ n args, applied n args ∈ met (context file) e → ∀ vi ∈ bindings file, vi.id = n →
      ∀ ran, lastArgument vi.t = some ran → IsResult file vi.t args.length ran) :
    Elaborated file e e' := by
  induction e using Expression.induct_children generalizing e' with
  | h e ih =>
    cases h with
    | @call _ fm t hcall =>
      rw [met_call hcall] at hrec htyped
      obtain ⟨n, args, tf, ht, hn⟩ := hrec t (List.mem_singleton_self t)
      obtain rfl := getApp_applied.mp ht
      obtain ⟨vi, hvi, hid, hran⟩ := tfuncs_some hn
      have hresult := htyped n args (List.mem_singleton_self _) vi hvi hid _ hran
      rw [missed_call hcall] at hmissed
      have hargs : List.Forall₂ (Elaborated file) args args :=
        List.forall₂_same.mpr fun a ha => .refl fun x hx => hmissed x <| by
          obtain ⟨f, c, rfl, -⟩ := rpcCall_isRpcOf hcall
          simp [Expression.children, arg_nodes ha hx]
      simp only [replacement, ht, hn]
      exact .call (rpcCall_isRpcOf hcall) hvi hid hresult hargs
    | left hnot hl =>
      rw [missed_left hnot hl] at hmissed
      exact .refl hmissed
    | node hnot hl hshape hparts =>
      rw [met_node hnot hl] at hrec htyped
      rw [missed_node hnot hl] at hmissed
      obtain ⟨hself, hmissed⟩ := List.forall_mem_cons.mp hmissed
      refine .node hself hshape ?_
      have hall : ∀ c ∈ e.children, ∀ c', Rewritten (context file) c c' → Elaborated file c c' :=
        fun c hc c' hcc => ih c hc hcc (fun t ht => hrec t (List.mem_flatMap.mpr ⟨c, hc, ht⟩))
          (fun x hx => hmissed x (List.mem_flatMap.mpr ⟨c, hc, hx⟩))
          fun n args hmem => htyped n args (List.mem_flatMap.mpr ⟨c, hc, hmem⟩)
      exact ((List.forall₂_and_left (p := (· ∈ e.children)) _ _).mpr ⟨fun _ hc => hc, hparts⟩).imp
        fun c c' h => hall c h.1 c' h.2

theorem forall₂_both {α β : Type} {R S : α → β → Prop} {l : List α} {l' : List β} {a : α}
    (h : List.Forall₂ R l l') (h' : List.Forall₂ S l l') (ha : a ∈ l) : ∃ b ∈ l', R a b ∧ S a b := by
  induction h with
  | nil => cases ha
  | cons hab _ ih =>
    obtain ⟨hab', hrest⟩ := List.forall₂_cons.mp h'
    obtain rfl | ha := List.mem_cons.mp ha
    · exact ⟨_, List.mem_cons_self, hab, hab'⟩
    · obtain ⟨b, hb, hR⟩ := ih hrest ha
      exact ⟨b, List.mem_cons_of_mem _ hb, hR⟩

/-- If the results have the right types, the types end in them. -/
theorem Rewritten.typed (hnd : (file.flatMap Declaration.defines).Nodup)
    (h : Rewritten (context file) e e') (hel : Elaborated file e e')
    (hrec : ∀ t ∈ met (context file) e, Recognised (context file) t)
    (ht : applied n args ∈ met (context file) e) {vi : ValBinding} (hvi : vi ∈ bindings file)
    (hid : vi.id = n) (hran : lastArgument vi.t = some ran) : IsResult file vi.t args.length ran := by
  induction e using Expression.induct_children generalizing e' with
  | h e ih =>
    cases h with
    | @call _ fm t hcall =>
      rw [met_call hcall] at hrec ht
      obtain rfl := List.mem_singleton.mp ht
      obtain ⟨n', args', tf, hget, hn⟩ := hrec _ (List.mem_singleton_self _)
      obtain ⟨rfl, rfl⟩ := applied_inj (getApp_applied.mp hget)
      obtain ⟨vj, hvj, hjd, hjran⟩ := tfuncs_some hn
      obtain rfl := List.inj_on_of_nodup_map (bindings_nodup hnd) hvj hvi (hjd.trans hid.symm)
      obtain rfl := Option.some.inj (hran.symm.trans hjran)
      simp only [replacement, hget, hn] at hel
      cases hel with
      | call hrpc hvk hkd hresult =>
        obtain ⟨f, c, rfl, -⟩ := rpcCall_isRpcOf hcall
        obtain ⟨f', c', heq, -⟩ := hrpc
        obtain ⟨-, hargs⟩ := applied_inj (Expression.app.inj heq).2
        obtain rfl := List.inj_on_of_nodup_map (bindings_nodup hnd) hvk hvi (hkd.trans hid.symm)
        exact hargs ▸ hresult
      | node hnot => exact absurd ⟨_, _, rpcCall_isRpcOf hcall⟩ hnot
    | left hnot hl =>
      rw [met_left hnot hl] at ht
      cases ht
    | node hnot hl hshape hparts =>
      rw [met_node hnot hl] at hrec ht
      cases hel with
      | call hrpc =>
        obtain ⟨f, c, rfl, -⟩ := hrpc
        cases hshape
      | node _ _ hparts' =>
        obtain ⟨c, hc, ht⟩ := List.mem_flatMap.mp ht
        obtain ⟨c', -, hrew, hel⟩ := forall₂_both hparts hparts' hc
        exact ih c hc hrew hel (fun t ht => hrec t (List.mem_flatMap.mpr ⟨c, hc, ht⟩)) ht

-- ---------------------------------------------------------------------------
-- Declarations
-- ---------------------------------------------------------------------------

section
variable {R S : Expression → Expression → Prop}

theorem Redone.bodies (h : Redone R d d') : List.Forall₂ R (bodies d) (bodies d') := by
  cases h with
  | val h | policy h => exact .cons h .nil
  | task h1 h2 => exact .cons h1 (.cons h2 .nil)
  | valRec h =>
    refine forall₂_map_map h fun vi vi' hvi => ?_
    obtain ⟨body, rfl, hbody⟩ := hvi
    exact hbody
  | other h =>
    rw [h]
    exact .nil

theorem Redone.imp (h : Redone R d d') (hRS : ∀ e ∈ RpcElaboration.bodies d, ∀ e', R e e' → S e e') :
    Redone S d d' := by
  cases h with
  | val h => exact .val (hRS _ (List.mem_singleton_self _) _ h)
  | policy h => exact .policy (hRS _ (List.mem_singleton_self _) _ h)
  | task h1 h2 =>
    exact .task (hRS _ List.mem_cons_self _ h1) (hRS _ (by simp [RpcElaboration.bodies]) _ h2)
  | valRec h =>
    refine .valRec (((List.forall₂_and_left (p := (· ∈ _)) _ _).mpr ⟨fun _ hvi => hvi, h⟩).imp ?_)
    rintro vi vi' ⟨hvi, body, rfl, hbody⟩
    exact ⟨body, rfl, hRS _ (List.mem_map_of_mem hvi) _ hbody⟩
  | other h => exact .other h

theorem Redone.others (h : Redone R d d') (he : e ∈ others d') : e ∈ others d := by
  cases h with
  | other => exact he
  | _ => cases he

theorem others_kept (h : Redone R d d') (he : e ∈ others d) : d' = d := by
  cases h with
  | other => rfl
  | _ => cases he

def isExport : Declaration → Bool
  | .export _ _ _ => true
  | _ => false

theorem Redone.isExport (h : Redone R d d') : isExport d' = RpcElaboration.isExport d := by
  cases h <;> rfl

end

theorem mem_expressions : e ∈ MarshalCheck.expressions d ↔ e ∈ bodies d ∨ e ∈ others d := by
  cases d <;> simp [MarshalCheck.expressions, bodies, others]

section
variable {R S : Declaration → Declaration → Prop}

theorem Interleaved.imp (h : Interleaved R ds ds') (hRS : ∀ d ∈ ds, ∀ d', R d d' → S d d') :
    Interleaved S ds ds' := by
  induction h with
  | nil => exact .nil
  | cons hd _ ih =>
    obtain ⟨hhead, htail⟩ := List.forall_mem_cons.mp hRS
    exact .cons (hhead _ hd) (ih htail)
  | exported _ ih => exact .exported (ih hRS)

/-- Without the exports, the declarations are related one by one. -/
theorem Interleaved.filter (h : Interleaved R ds ds')
    (hR : ∀ d d', R d d' → isExport d' = isExport d) :
    List.Forall₂ R (ds.filter (!isExport ·)) (ds'.filter (!isExport ·)) := by
  induction h with
  | nil => exact .nil
  | @cons d d' _ _ hd _ ih =>
    rw [List.filter_cons, List.filter_cons, hR d d' hd]
    split
    · exact .cons hd ih
    · exact ih
  | exported _ ih => exact ih

theorem Interleaved.mem (h : Interleaved R ds ds') (hd : d ∈ ds) : ∃ d' ∈ ds', R d d' := by
  induction h with
  | nil => cases hd
  | cons hdd _ ih =>
    obtain rfl | hd := List.mem_cons.mp hd
    · exact ⟨_, List.mem_cons_self, hdd⟩
    · exact (ih hd).imp fun _ ⟨hd', hR⟩ => ⟨List.mem_cons_of_mem _ hd', hR⟩
  | exported _ ih => exact (ih hd).imp fun _ ⟨hd', hR⟩ => ⟨List.mem_cons_of_mem _ hd', hR⟩

theorem Interleaved.origin (h : Interleaved R ds ds') (hd : d' ∈ ds') :
    isExport d' = true ∨ ∃ d ∈ ds, R d d' := by
  induction h with
  | nil => cases hd
  | cons hdd _ ih =>
    obtain rfl | hd := List.mem_cons.mp hd
    · exact .inr ⟨_, List.mem_cons_self, hdd⟩
    · exact (ih hd).imp_right fun ⟨d, hd', hR⟩ => ⟨d, List.mem_cons_of_mem _ hd', hR⟩
  | exported _ ih =>
    obtain rfl | hd := List.mem_cons.mp hd
    · exact .inl rfl
    · exact ih hd

theorem Interleaved.bound (h : Interleaved R ds ds')
    (hR : ∀ d d', R d d' → (declBindings d').map ValBinding.id = (declBindings d).map ValBinding.id) :
    (bindings ds').map ValBinding.id = (bindings ds).map ValBinding.id := by
  induction h with
  | nil => rfl
  | cons hd _ ih =>
    simp only [bindings, List.flatMap_cons, List.map_append] at ih ⊢
    rw [hR _ _ hd, ih]
  | exported _ ih => exact ih

end

theorem Interleaved.exports {R : Declaration → Declaration → Prop} {new : File}
    (hnew : ∀ d ∈ new, isNewExport d) (h : Interleaved R ds ds') : Interleaved R ds (new ++ ds') := by
  induction new with
  | nil => exact h
  | cons d new ih =>
    obtain ⟨⟨n, rfl⟩, hrest⟩ := List.forall_mem_cons.mp hnew
    exact .exported (ih hrest)

theorem Placed.interleaved (h : Placed cx st ds out last) (hst : st.exportDecls = [])
    (hrec : ∀ d ∈ ds, ∀ t ∈ transactions cx d, Recognised cx t) :
    Interleaved (Redone (ReducedRewritten cx)) ds out := by
  induction h with
  | nil => exact .nil
  | @cons st' d st d' ds out last hst' hd h ih =>
    obtain ⟨hts, hds⟩ := List.forall_mem_cons.mp hrec
    obtain ⟨-, new, hnew, hall, -⟩ := registerAll_exports 0 st _ hts
    rw [← hst', hst, List.nil_append] at hnew
    rw [hnew]
    exact .exports hall (.cons hd (ih rfl hds))

-- ---------------------------------------------------------------------------
-- The whole pass
-- ---------------------------------------------------------------------------

theorem exists_first {α : Type} {P : α → Prop} {l pre post : List α} {a : α}
    (hl : l = pre ++ a :: post) (ha : P a) :
    ∃ pre' b post', l = pre' ++ b :: post' ∧ pre' ⊆ pre ∧ (∀ x ∈ pre', ¬ P x) ∧ P b := by
  subst hl
  induction pre with
  | nil => exact ⟨[], a, post, rfl, List.Subset.refl _, List.forall_mem_nil _, ha⟩
  | cons x pre ih =>
    by_cases hx : P x
    · exact ⟨[], x, pre ++ a :: post, rfl, List.nil_subset _, List.forall_mem_nil _, hx⟩
    · obtain ⟨pre', b, post', heq, hsub, hnone, hb⟩ := ih
      refine ⟨x :: pre', b, post', by simp [heq], List.cons_subset_cons x hsub, ?_, hb⟩
      exact List.forall_mem_cons.mpr ⟨hx, hnone⟩

theorem split_unique {α : Type} {p : α → Bool} {a b a' b' : List α} {x y : α}
    (h : a ++ x :: b = a' ++ y :: b') (hx : p x = true) (hy : p y = true)
    (hone : (a ++ x :: b).countP p = 1) : a = a' := by
  have hnone {u v : List α} {z : α} (hz : p z = true) (hone : (u ++ z :: v).countP p = 1) :
      ∀ w ∈ u, ¬ p w = true := by
    rw [List.countP_append, List.countP_cons_of_pos hz] at hone
    exact List.countP_eq_zero.mp (by omega)
  have hu := hnone hx hone
  have hu' := hnone hy (h ▸ hone)
  clear hone hnone
  induction a generalizing a' with
  | nil =>
    cases a' with
    | nil => rfl
    | cons z a' =>
      obtain ⟨rfl, -⟩ := List.cons.inj h
      exact absurd hx (hu' x List.mem_cons_self)
  | cons z a ih =>
    cases a' with
    | nil =>
      obtain ⟨rfl, -⟩ := List.cons.inj h
      exact absurd hy (hu z List.mem_cons_self)
    | cons z' a' =>
      obtain ⟨rfl, htail⟩ := List.cons.inj h
      obtain ⟨-, hu⟩ := List.forall_mem_cons.mp hu
      obtain ⟨-, hu'⟩ := List.forall_mem_cons.mp hu'
      rw [ih htail hu hu']

theorem mem_transactions (hmissed : ∀ e ∈ bodies d, ∀ r, Reduces e r →
      ∀ x ∈ missed (context file) r, ¬ IsRpc file x) (h : CallsWith file d f args) :
    applied f args ∈ transactions (context file) d := by
  obtain ⟨e, he, r, hr, x, hx, fm, hrpc⟩ := h
  refine List.mem_flatMap.mpr ⟨e, he, ?_⟩
  rw [reduced_eq hr]
  obtain hmiss | ⟨fm', t, hcall, ht⟩ := mem_missed_or_met hx
  · exact absurd ⟨_, _, hrpc⟩ (hmissed e he r hr x hmiss)
  · obtain ⟨g, c, rfl, -⟩ := rpcCall_isRpcOf hcall
    obtain ⟨g', c', heq, -⟩ := hrpc
    rwa [(Expression.app.inj heq).2] at ht

theorem callsWith_of_mem (hreduces : ∀ e ∈ bodies d, Reduces e (reduced e))
    (h : applied f args ∈ transactions (context file) d) : CallsWith file d f args := by
  obtain ⟨e, he, ht⟩ := List.mem_flatMap.mp h
  obtain ⟨x, hx, fm, hcall⟩ := exists_of_met ht
  exact ⟨e, he, reduced e, hreduces e he, x, hx, fm, rpcCall_isRpcOf hcall⟩

theorem mem_calledBy : f ∈ calledBy cx d ↔ ∃ args, applied f args ∈ transactions cx d := by
  simp only [calledBy, List.mem_filterMap, callee, Option.map_eq_some_iff, Prod.exists]
  constructor
  · rintro ⟨t, ht, n, args, hget, rfl⟩
    exact ⟨args, getApp_applied.mp hget ▸ ht⟩
  · rintro ⟨args, ht⟩
    exact ⟨_, ht, f, args, getApp_applied.mpr rfl, rfl⟩

/-- What a run of the pass that reports nothing has done. -/
structure Run (file out : File) : Prop where
  recognised : ∀ d ∈ file, ∀ t ∈ transactions (context file) d, Recognised (context file) t
  placed : ∃ last, Placed (context file) ⟨∅, [], []⟩ file out last

theorem rpcify_run (h : rpcify fuel file = some (out, [])) : Run file out := by
  obtain ⟨⟨result, last⟩, hrun, h⟩ := Option.bind_eq_some_iff.mp h
  obtain ⟨rfl, herr⟩ := Prod.mk.inj (Option.some.inj h)
  have hplaced := rewriteDecls_placed hrun
  exact ⟨(hplaced.recognised herr).2, last, hplaced⟩

namespace Run

theorem interleaved (h : Run file out) :
    Interleaved (Redone (ReducedRewritten (context file))) file out :=
  let ⟨_, hplaced⟩ := h.placed
  hplaced.interleaved rfl h.recognised

theorem count (h : Run file out) (hd : d ∈ file) (hf : f ∈ calledBy (context file) d) :
    out.countP (isRpcExport f) = file.countP (isRpcExport f) + 1 := by
  obtain ⟨_, hplaced⟩ := h.placed
  rw [hplaced.count rfl h.recognised, if_pos ⟨by simp, d, hd, hf⟩]

theorem position (h : Run file out) (hfile : file = pre ++ d :: post)
    (hd : f ∈ calledBy (context file) d) :
    ∃ first outPre outPost, first ⊆ pre ∧ out = outPre ++ .export (.rpc .readWrite) f false :: outPost ∧
      (bindings outPre).map ValBinding.id = (bindings first).map ValBinding.id ∧
      ∃ d' post', file = first ++ d' :: post' ∧ f ∈ calledBy (context file) d' := by
  obtain ⟨_, hplaced⟩ := h.placed
  obtain ⟨first, d', post', hsplit, hsub, hnone, hd'⟩ :=
    exists_first (P := fun d => f ∈ calledBy (context file) d) hfile hd
  obtain ⟨outPre, outPost, hout, hbound⟩ :=
    hplaced.position rfl h.recognised hsplit hnone hd' (by simp)
  exact ⟨first, outPre, outPost, hsub, hout, hbound, d', post', hsplit, hd'⟩

theorem reduces (h : Run file out) (hd : d ∈ file) (he : e ∈ bodies d) : Reduces e (reduced e) := by
  obtain ⟨d', -, hdd⟩ := h.interleaved.mem hd
  obtain ⟨e', -, r, hr, -⟩ := forall₂_left_exists hdd.bodies he
  exact reduces_reduced hr

theorem called (h : Run file out) (hd : d ∈ file) (hf : f ∈ calledBy (context file) d) :
    Calls file d f :=
  let ⟨args, hmem⟩ := mem_calledBy.mp hf
  ⟨args, callsWith_of_mem (fun _ he => h.reduces hd he) hmem⟩

/-- In a result without remote calls, every call has been met. -/
theorem missed_clean (h : Run file out)
    (hcomplete : ∀ d ∈ out, ∀ e ∈ MarshalCheck.expressions d, ∀ x ∈ e.nodes, ¬ IsRpc file x)
    (hd : d ∈ file) (he : e ∈ bodies d) (hr : Reduces e r) :
    ∀ x ∈ missed (context file) r, ¬ IsRpc file x := by
  obtain ⟨d', hd', hdd⟩ := h.interleaved.mem hd
  obtain ⟨e', he', r', hr', hrew⟩ := forall₂_left_exists hdd.bodies he
  obtain rfl := hr'.unique hr
  refine hrew.missed_clean (fun t ht => h.recognised d hd t (List.mem_flatMap.mpr ⟨e, he, ?_⟩))
    (hcomplete d' hd' e' (mem_expressions.mpr (.inl he')))
  rwa [reduced_eq hr']

end Run

/-- A run elaborates all remote calls exactly if the file is suitable. -/
theorem rpcify_elaborates_iff (fuel : Nat) (file out : File)
    (hnd : (file.flatMap Declaration.defines).Nodup) (h : rpcify fuel file = some (out, [])) :
    Elaboration file out ↔ Suitable file := by
  have hrun := rpcify_run h
  constructor
  · intro hel
    have hmissed {d : Declaration} (hd : d ∈ file) (e : Expression) (he : e ∈ bodies d)
        (r : Expression) (hr : Reduces e r) := hrun.missed_clean hel.complete hd he hr
    refine ⟨fun d hd => ⟨hmissed hd, fun e he => ?_⟩, ?_, ?_, ?_⟩
    · obtain ⟨d', hd', hdd⟩ := hrun.interleaved.mem hd
      obtain rfl := others_kept hdd he
      exact hel.complete d' hd' e (mem_expressions.mpr (.inr he))
    · intro pre d post hfile f hcalls
      have hd : d ∈ file := by simp [hfile]
      obtain ⟨args, hcalls'⟩ := hcalls
      have hf := mem_calledBy.mpr ⟨args, mem_transactions (hmissed hd) hcalls'⟩
      obtain ⟨first, outPre, outPost, hsub, hout, hbound, -⟩ := hrun.position hfile hf
      obtain ⟨vi, hvi, hid⟩ := hel.ordered d hd f ⟨args, hcalls'⟩ outPre _ _ outPost hout
      have hmem : f ∈ (bindings first).map ValBinding.id :=
        hbound ▸ hid ▸ List.mem_map_of_mem hvi
      obtain ⟨vj, hvj, hjd⟩ := List.mem_map.mp hmem
      obtain ⟨d', hd', hvj⟩ := List.mem_flatMap.mp hvj
      exact ⟨vj, List.mem_flatMap.mpr ⟨d', hsub hd', hvj⟩, hjd⟩
    · intro d hd f hcalls
      have hone := hel.exported d hd f hcalls
      obtain ⟨args, hcalls⟩ := hcalls
      have hf := mem_calledBy.mpr ⟨args, mem_transactions (hmissed hd) hcalls⟩
      have hcount := hrun.count hd hf
      omega
    · intro d hd f args hcalls vi hvi hid ran hran
      have hmem := mem_transactions (hmissed hd) hcalls
      obtain ⟨e, he, ht⟩ := List.mem_flatMap.mp hmem
      have hexport : d ∈ file.filter (!isExport ·) := by
        refine List.mem_filter.mpr ⟨hd, ?_⟩
        cases d <;> first | rfl | cases he
      obtain ⟨d', -, hrew, helab⟩ := forall₂_both
        (hrun.interleaved.filter fun _ _ => Redone.isExport)
        (hel.calls.filter fun _ _ => Redone.isExport) hexport
      obtain ⟨e', -, ⟨r, hr, hrew⟩, r', hr', helab⟩ := forall₂_both hrew.bodies helab.bodies he
      obtain rfl := hr.unique hr'
      rw [reduced_eq hr] at ht
      refine hrew.typed hnd helab (fun t ht => hrun.recognised d hd t ?_) ht hvi hid hran
      exact List.mem_flatMap.mpr ⟨e, he, by rwa [reduced_eq hr]⟩
  · intro hsuit
    have hinter : Interleaved (Redone fun e e' => ∃ r, Reduces e r ∧ Elaborated file r e') file out := by
      refine hrun.interleaved.imp fun d hd d' hdd => hdd.imp fun e he e' ⟨r, hr, hrew⟩ => ⟨r, hr, ?_⟩
      have hmem {t : Expression} (ht : t ∈ met (context file) r) :
          t ∈ transactions (context file) d :=
        List.mem_flatMap.mpr ⟨e, he, by rwa [reduced_eq hr]⟩
      exact hrew.elaborated (fun t ht => hrun.recognised d hd t (hmem ht))
        ((hsuit.met d hd).1 e he r hr) fun n args ht => hsuit.typed d hd n args
          (callsWith_of_mem (fun _ he => hrun.reduces hd he) (hmem ht))
    have hcalled {d : Declaration} {f : Nat} (hd : d ∈ file) (hcalls : Calls file d f) :
        f ∈ calledBy (context file) d :=
      let ⟨args, hcalls⟩ := hcalls
      mem_calledBy.mpr ⟨args, mem_transactions (hsuit.met d hd).1 hcalls⟩
    have hone {d : Declaration} {f : Nat} (hd : d ∈ file) (hcalls : Calls file d f) :
        out.countP (isRpcExport f) = 1 := by
      rw [hrun.count hd (hcalled hd hcalls), hsuit.fresh d hd f hcalls]
    have hordered {d : Declaration} {f : Nat} (hd : d ∈ file) (hcalls : Calls file d f)
        {pre post : File} {eff : Effect} {b : Bool}
        (hout : out = pre ++ .export (.rpc eff) f b :: post) : ∃ vi ∈ bindings pre, vi.id = f := by
      obtain ⟨before, after, hfile⟩ := List.append_of_mem hd
      obtain ⟨first, outPre, outPost, -, hout', hbound, d', post', hfirst, hd'⟩ :=
        hrun.position hfile (hcalled hd hcalls)
      obtain rfl : pre = outPre := split_unique (hout.symm.trans hout') (p := isRpcExport f)
        (by simp [isRpcExport]) (by simp [isRpcExport]) (hout ▸ hone hd hcalls)
      obtain ⟨vi, hvi, hid⟩ :=
        hsuit.earlier first d' post' hfirst f (hrun.called (by simp [hfirst]) hd')
      have hmem : f ∈ (bindings pre).map ValBinding.id :=
        hbound ▸ hid ▸ List.mem_map_of_mem hvi
      exact List.mem_map.mp hmem
    have hndout : ((bindings out).map ValBinding.id).Nodup := by
      rw [hinter.bound fun _ _ => Redone.bound]
      exact bindings_nodup hnd
    have hstatus (settings : Settings) {d : Declaration} {f : Nat} (hd : d ∈ file)
        (hcalls : Calls file d f) {pre post : File} {eff : Effect} {b : Bool}
        (hout : out = pre ++ .export (.rpc eff) f b :: post) :
        (EffectAnalysis.run settings pre).writers f = (EffectAnalysis.run settings out).writers f := by
      obtain ⟨vi, hvi, hid⟩ := hordered hd hcalls hout
      rw [hout, EffectAnalysis.run_other]
      intro vj hvj hjd
      rw [hout, bindings, List.flatMap_append, List.map_append] at hndout
      exact List.disjoint_of_nodup_append hndout (List.mem_map_of_mem hvi)
        (hid.trans hjd.symm ▸ List.mem_map_of_mem hvj)
    refine ⟨?_, hinter, fun d hd f => hone hd, fun d hd f hcalls pre eff b post => hordered hd hcalls,
      fun settings d hd f hcalls pre eff b post => hstatus settings hd hcalls, ?_, ?_⟩
    · intro d' hd' e' he' x hx
      obtain hexport | ⟨d, hd, hdd⟩ := hinter.origin hd'
      · cases d' with
        | «export» => cases he'
        | _ => cases hexport
      · obtain hbody | hother := mem_expressions.mp he'
        · obtain ⟨e, -, r, -, helab⟩ := forall₂_right_exists hdd.bodies hbody
          exact helab.clean x hx
        · exact (hsuit.met d hd).2 e' (hdd.others hother) x hx
    · intro settings d hd f hcalls pre eff b post hout
      obtain ⟨vi, hvi, hid⟩ := hordered hd hcalls hout
      have hsplit : bindings out = bindings pre ++ bindings (.export (.rpc eff) f b :: post) := by
        simp [hout, bindings]
      rw [hsplit] at hndout ⊢
      refine ⟨vi, List.mem_append_left _ hvi, hid, ?_⟩
      rw [MarshalCheck.run_emap, ← hid]
      exact (MarshalCheck.Knows.enter _ (List.map_append ▸ hndout).of_append_left).known vi hvi
    · intro settings d hd f hcalls b hexport
      obtain ⟨pre, ek, b', post, hout, hek⟩ := EffectAnalysis.annotated_export hexport
      obtain ⟨eff, rfl⟩ : ∃ eff, ek = .rpc eff := by
        cases ek <;> first | exact ⟨_, rfl⟩ | cases hek
      have hread : EffectAnalysis.computeEffect f (EffectAnalysis.run settings pre) = .readOnly := by
        simpa [EffectAnalysis.withEffect] using hek.symm
      rw [← hstatus settings hd hcalls hout]
      simpa using EffectAnalysis.computeEffect_readOnly.mp hread

end

-- ---------------------------------------------------------------------------
-- A recursive handler
-- ---------------------------------------------------------------------------

def unitType : Constructor := .tRecord (.record .type [])

def unitTransaction : Constructor := .app (.ffi "Basis" "transaction") unitType

/-- A handler that deletes what is in a table, with the given expression for a
remote call of itself. -/
def handler (call : Expression) : ValBinding :=
  ⟨"h", 1, .tFun unitType unitTransaction,
    .abs "u" unitType unitTransaction
      (.letIn "again" unitTransaction call
        (.ffiApp "Basis" "dml" [(.prim (.string .normal "DELETE FROM t"), .ffi "Basis" "string")])),
    "h"⟩

def selfCall : Expression := .app (.cApp (.ffi "Basis" "rpc") unitType) (.app (.named 1) (.rel 0))

def handlerFile : File := [.valRec [handler selfCall]]

def handlerResult : File :=
  [.export (.rpc .readWrite) 1 false, .valRec [handler (.serverCall 1 [.rel 0] unitType .none)]]

theorem rpcify_handler : rpcify 7 handlerFile = some (handlerResult, []) := by
  rfl

theorem handler_calls : Calls handlerFile (.valRec [handler selfCall]) 1 := by
  refine ⟨[.rel 0], _, List.mem_singleton_self _, _, ⟨7, rfl⟩, selfCall, ?_, .none, _, _, rfl, .rpc⟩
  exact List.mem_cons_of_mem _ (List.mem_cons_of_mem _ List.mem_cons_self)

theorem handler_elaboration : ¬ Elaboration handlerFile handlerResult := fun hel => by
  obtain ⟨vi, hvi, -⟩ := hel.ordered _ (List.mem_singleton_self _) 1 handler_calls [] .readWrite false
    [.valRec [handler (.serverCall 1 [.rel 0] unitType .none)]] rfl
  cases hvi

theorem handler_isWriter :
    ((EffectAnalysis.run EffectAnalysis.dmlWrites handlerResult).writers 1).isSome = true := by
  rfl

/-- The export of a recursive handler stands in front of the handler, and the effect
analysis takes it to be read-only although the handler is a writer. -/
theorem rpcify_misplaces_handler : DefinedBefore [] handlerFile ∧
    (handlerFile.flatMap Declaration.defines).Nodup ∧
    ∃ out, rpcify 7 handlerFile = some (out, []) ∧ ¬ Elaboration handlerFile out ∧
      .export (.rpc .readOnly) 1 false ∈ (EffectAnalysis.effectize EffectAnalysis.dmlWrites out).1 ∧
      ((EffectAnalysis.run EffectAnalysis.dmlWrites out).writers 1).isSome = true :=
  ⟨by decide, by decide, handlerResult, rpcify_handler, handler_elaboration,
    List.mem_cons_self, handler_isWriter⟩

theorem rpcify_elaborates_handler :
    (handlerFile.flatMap Declaration.defines).Nodup ∧
    rpcify 7 handlerFile = some (handlerResult, []) ∧ ¬ Suitable handlerFile := by
  have hnd : (handlerFile.flatMap Declaration.defines).Nodup := by decide
  exact ⟨hnd, rpcify_handler, fun hsuit => handler_elaboration
    ((rpcify_elaborates_iff 7 handlerFile handlerResult hnd rpcify_handler).mpr hsuit)⟩

end UrWeb.Core.RpcElaboration
