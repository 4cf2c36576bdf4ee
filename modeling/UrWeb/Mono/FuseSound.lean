import UrWeb.Mono.Correspondence
import UrWeb.Mono.FuseIds

/-!
# The fuse pass preserves behaviour

Every function of the file has the same behaviours after the pass, and a variant
behaves as the function followed by a write of the string returned. Code that
is part of a value or of an event is the rewritten code.
-/

namespace UrWeb.Mono

open Behaviour

section
variable (S : Signature) (decls : List Decl) (F : Nat → Option Nat)

/-- Rewritten code over related environments. -/
inductive FusedCode : CodeKind → List Value → Exp → List Value → Exp → Prop
  | mk : HasType S decls ctx e t → Extends m F → List.Forall₂ (ValueRel FusedCode) env env' →
      FusedCode kind env e env' (fuseExp m e)

/-- A body under binders and the variant's body under the same number of binders. -/
inductive Variant (m : Nat → Option Nat) : List Typ → Nat → Exp → Exp → Prop
  | body : HasType S decls ctx e .string → Variant m ctx 0 e (fuseExp m (.write e))
  | abs : Variant m (dom :: ctx) k e e' →
      Variant m ctx (k + 1) (.abs x dom ran e) (.abs x' dom' ran' e')

end

-- ---------------------------------------------------------------------------
-- Rewriting
-- ---------------------------------------------------------------------------

theorem fuseExp_write (m : Nat → Option Nat) (e : Exp) :
    fuseExp m (.write e) = (unravel m (fuseExp m e)).getD (.write (fuseExp m e)) := rfl

theorem fuseExp_eq (m : Nat → Option Nat) (e : Exp) (h : ∀ e', e ≠ .write e') :
    fuseExp m e = e.mapChildren (fuseExp m) := by
  rw [fuseExp, Exp.map_eq]
  cases e with
  | write e => exact absurd rfl (h e)
  | _ => rfl

theorem hasType_children (h : HasType S decls ctx e t) (hc : c ∈ e.children) :
    ∃ ctx' t', HasType S decls ctx' c t' := by
  cases h with
  | con _ _ harg => exact ⟨_, _, harg c (Option.mem_toList.mp hc)⟩
  | ffiApp hargs =>
    obtain ⟨a, ha, rfl⟩ := List.mem_map.mp hc
    exact ⟨_, _, hargs a ha⟩
  | record hxets =>
    obtain ⟨f, hf, rfl⟩ := List.mem_map.mp hc
    exact ⟨_, _, hxets f hf⟩
  | case hdisc harms =>
    rcases List.mem_cons.mp hc with rfl | hc
    · exact ⟨_, _, hdisc⟩
    · obtain ⟨a, ha, rfl⟩ := List.mem_map.mp hc
      exact ⟨_, _, harms a ha⟩
  | returnBlob hblob hmime =>
    rcases List.mem_append.mp hc with hc | hc
    · exact ⟨_, _, hblob c (Option.mem_toList.mp hc)⟩
    · exact List.mem_singleton.mp hc ▸ ⟨_, _, hmime⟩
  | closure henvs => exact ⟨_, _, henvs c hc⟩
  | query hq hbody hinit =>
    simp only [Exp.children, List.mem_cons, List.not_mem_nil, or_false] at hc
    rcases hc with rfl | rfl | rfl
    exacts [⟨_, _, hq⟩, ⟨_, _, hbody⟩, ⟨_, _, hinit⟩]
  | app h1 h2 | binop h1 h2 | strcat h1 h2 | seq h1 h2 | letIn h1 h2 | setval h1 h2
  | signalBind h1 h2 =>
    simp only [Exp.children, List.mem_cons, List.not_mem_nil, or_false] at hc
    rcases hc with rfl | rfl
    exacts [⟨_, _, h1⟩, ⟨_, _, h2⟩]
  | some h | abs h | unop h | field h | error h | redirect h | write h | dml h | nextval h
  | uurlify h | javaScript h | signalReturn h | signalSource h | serverCall h | recv h | sleep h
  | spawn h => exact List.mem_singleton.mp hc ▸ ⟨_, _, h⟩
  | prim | rel | named | none | ffi => simp [Exp.children] at hc

theorem rsInner_string (h : rsInner .string = some r) : r.1 = [] := by
  simp only [Typ.string, rsInner, and_self, ↓reduceIte, Option.some.injEq] at h
  exact h ▸ rfl

/-- Peeling the binders of a typed function and putting them around a write. -/
theorem variant_rebuild (hbody : getBody e k = some (b, binders)) (hargs : args.length = k)
    (ht : rsInner t = some (args, t')) (h : HasType S decls ctx e t) :
    Variant S decls m ctx k e (fuseExp m (rebuild binders (.write b)).1) := by
  induction k generalizing e ctx t args t' binders with
  | zero =>
    simp only [getBody, Option.some.injEq, Prod.mk.injEq] at hbody
    obtain ⟨rfl, rfl⟩ := hbody
    have hstring : t = .string := by
      cases t with
      | ffi x y =>
        rw [rsInner] at ht
        split at ht
        · rename_i hxy
          rw [hxy.1, hxy.2, Typ.string]
        · cases ht
      | func dom ran =>
        obtain ⟨r, -, hr⟩ := Option.map_eq_some_iff.mp ht
        simp only [Prod.mk.injEq] at hr
        rw [← hr.1] at hargs
        simp at hargs
      | _ => simp [rsInner] at ht
    exact .body (hstring ▸ h)
  | succ k ih =>
    cases e with
    | abs x dom ran body =>
      simp only [getBody, Option.map_eq_some_iff, Prod.mk.injEq] at hbody
      obtain ⟨⟨b', binders'⟩, hbody, rfl, rfl⟩ := hbody
      cases h with
      | abs h =>
        obtain ⟨r, hr, heq⟩ := Option.map_eq_some_iff.mp ht
        simp only [Prod.mk.injEq] at heq
        refine .abs (ih hbody ?_ hr h)
        rw [← heq.1] at hargs
        simpa using hargs
    | _ => simp [getBody] at hbody

/-- What the entry of a function in the map means. -/
theorem doVi_spec (h : doVi vi n' = some vi') : ∃ args t' k b binders,
    rsInner vi.t = some (args, t') ∧ args.length = k + 1 ∧ getBody vi.e (k + 1) = some (b, binders) ∧
      vi'.n = n' ∧ vi'.e = (rebuild binders (.write b)).1 := by
  obtain ⟨⟨args, t'⟩, hr, hb⟩ := Option.bind_eq_some_iff.mp h
  obtain ⟨⟨b, binders⟩, hbody, rfl⟩ := Option.map_eq_some_iff.mp hb
  cases ht : vi.t with
  | func dom ran =>
    rw [ht] at hr
    obtain ⟨r, hr', heq⟩ := Option.map_eq_some_iff.mp hr
    simp only [Prod.mk.injEq] at heq
    obtain ⟨rfl, rfl⟩ := heq
    exact ⟨_, _, r.1.length, b, binders, hr, rfl, hbody, rfl, rfl⟩
  | _ => simp [ht, returnsString] at hr

theorem decl_body_none (h : ∀ vi ∈ d.bindings, vi.n ≠ n) : Decl.body n d = none := by
  cases d with
  | val vi => exact if_neg (h vi List.mem_cons_self)
  | valRec vis =>
    rw [Decl.body, List.find?_eq_none.mpr (by simpa [Decl.bindings] using h), Option.map_none]
  | _ => rfl

theorem decl_body_some (h : vi ∈ d.bindings) (hnd : (d.bindings.map ValBinding.n).Nodup) :
    Decl.body vi.n d = some vi.e := by
  cases d with
  | val vj =>
    obtain rfl := List.mem_singleton.mp h
    exact if_pos rfl
  | valRec vis =>
    replace h : vi ∈ vis := h
    obtain ⟨vj, hvj⟩ := Option.isSome_iff_exists.mp
      (List.find?_isSome (p := fun vj : ValBinding => vj.n = vi.n).mpr ⟨vi, h, by simp⟩)
    have hn : vj.n = vi.n := by simpa using List.find?_some hvj
    obtain rfl := List.inj_on_of_nodup_map hnd (List.mem_of_find?_eq_some hvj) h hn
    rw [Decl.body, hvj, Option.map_some]
  | _ => simp [Decl.bindings] at h

theorem declBody_eq (hnd : ((bindings decls).map ValBinding.n).Nodup) (h : vi ∈ bindings decls) :
    declBody decls vi.n = some vi.e := by
  induction decls with
  | nil => simp [bindings] at h
  | cons d decls ih =>
    simp only [bindings, List.flatMap_cons, List.mem_append, List.map_append] at hnd h
    obtain ⟨hd, hdecls, hdisj⟩ := List.nodup_append'.mp hnd
    rw [declBody, List.findSome?_cons]
    rcases h with h | h
    · rw [decl_body_some h hd]
    · rw [decl_body_none fun vj hvj he => hdisj (List.mem_map.mpr ⟨vj, hvj, rfl⟩)
        (List.mem_map.mpr ⟨vi, h, he.symm⟩)]
      exact ih hdecls h

-- ---------------------------------------------------------------------------
-- Simulation
-- ---------------------------------------------------------------------------

section
variable {S : Signature} {W : World} {decls decls' : List Decl} {F : Nat → Option Nat}

/-- The two files, as far as their bindings are concerned. -/
structure FusePair (S : Signature) (decls decls' : List Decl) (F : Nat → Option Nat) : Prop where
  typed : WellTyped S decls
  nodup : ((bindings decls).map ValBinding.n).Nodup
  nodup' : ((bindings decls').map ValBinding.n).Nodup
  fused : Fused decls decls' F

abbrev FusedValue (S : Signature) (decls : List Decl) (F : Nat → Option Nat) : Value → Value → Prop :=
  ValueRel (FusedCode S decls F)

abbrev FusedSimilar (S : Signature) (decls : List Decl) (F : Nat → Option Nat) :
    Comp Value → Comp Value → Prop :=
  Similar (FusedCode S decls F)

/-- A function that waits for `k + 1` arguments and its variant. -/
inductive Pending (S : Signature) (decls : List Decl) (F : Nat → Option Nat) (k : Nat) :
    Value → Value → Prop
  | mk : Variant S decls m ctx k e e' → Extends m F →
      List.Forall₂ (FusedValue S decls F) env env' →
      Pending S decls F k (.code .function env e) (.code .function env' e')

abbrev PendingSimilar (S : Signature) (decls : List Decl) (F : Nat → Option Nat) (k : Nat) :
    Comp Value → Comp Value → Prop :=
  Corresponds (HistoryRel (FusedCode S decls F)) (Pending S decls F k)

/-- Everything that is true at one depth of calls. -/
def SimulatedAt (S : Signature) (W : World) (decls decls' : List Decl) (F : Nat → Option Nat)
    (depth : Nat) : Prop :=
  ∀ ctx e t m env env', HasType S decls ctx e t → Extends m F →
    List.Forall₂ (FusedValue S decls F) env env' →
    FusedSimilar S decls F (eval W decls depth e env) (eval W decls' depth (fuseExp m e) env')

theorem eval_abs (depth : Nat) :
    eval W decls depth (.abs x dom ran e) env = Run.pure (.code .function env e) := by
  rw [eval_eq, evalWith]

theorem eval_write (depth : Nat) : eval W decls depth (.write e) env =
    (eval W decls depth e env).bind fun v => perform W .write [v] := by
  rw [eval_eq, evalWith]

/-- A chain is the name of a function with a variant or the application of one. -/
theorem unravel_cases (ht : HasType S decls ctx e t) (hrs : rsInner t = some (args, t'))
    (hr : unravel m (fuseExp m e) = some r) :
    (∃ n n', e = .named n ∧ m n = some n' ∧ r = .named n') ∨
      ∃ e1 e2 r1, e = .app e1 e2 ∧ unravel m (fuseExp m e1) = some r1 ∧
        r = .app r1 (fuseExp m e2) := by
  cases e with
  | named n =>
    obtain ⟨n', hn, rfl⟩ := Option.map_eq_some_iff.mp hr
    exact .inl ⟨n, n', rfl, hn, rfl⟩
  | app e1 e2 =>
    obtain ⟨r1, hr1, rfl⟩ := Option.map_eq_some_iff.mp hr
    exact .inr ⟨e1, e2, r1, rfl, hr1, rfl⟩
  | write e =>
    cases ht with
    | write => simp [Typ.unit, rsInner] at hrs
  | _ =>
    rw [fuseExp_eq _ _ (by simp)] at hr
    simp [Exp.mapChildren, unravel] at hr

theorem eval_app (depth : Nat) : eval W decls depth (.app e1 e2) env =
    (eval W decls depth e1 env).bind fun f => (eval W decls depth e2 env).bind fun v =>
      apply W decls depth f v := by
  rw [eval_eq, evalWith]

/-- Running a function that waits for more, and its variant. -/
theorem variant_pending (depth : Nat) (h : Variant S decls m ctx (k + 1) e e') (hm : Extends m F)
    (henv : List.Forall₂ (FusedValue S decls F) env env') :
    PendingSimilar S decls F k (eval W decls depth e env) (eval W decls' depth e' env') := by
  cases h with
  | abs h =>
    rw [eval_abs, eval_abs]
    exact .pure (.mk h hm henv)

/-- Running the body and writing its result, and running the variant's body. -/
theorem variant_write (hsim : SimulatedAt S W decls decls' F depth)
    (h : Variant S decls m ctx 0 e e') (hm : Extends m F)
    (henv : List.Forall₂ (FusedValue S decls F) env env') :
    FusedSimilar S decls F ((eval W decls depth e env).bind fun v => perform W .write [v])
      (eval W decls' depth e' env') := by
  cases h with
  | body h =>
    rw [← eval_write]
    exact hsim ctx (.write e) .unit m env env' (.write h) hm henv

variable (hpair : FusePair S decls decls' F)

section
variable (hbelow : ∀ depth' < depth, SimulatedAt S W decls decls' F depth')
include hbelow

theorem apply_similar (hf : FusedValue S decls F f f') (hv : FusedValue S decls F v v') :
    FusedSimilar S decls F (apply W decls depth f v) (apply W decls' depth f' v') := by
  cases depth with
  | zero => exact .running
  | succ depth =>
    cases hf with
    | prim | node => exact .stuck
    | @code kind env e env' e' hcode =>
      cases hcode with
      | mk ht hm henv =>
        cases kind with
        | function => exact hbelow depth (Nat.lt_succ_self _) _ _ _ _ _ _ ht hm (.cons hv henv)
        | script => exact .stuck

theorem apply_pending (hf : Pending S decls F (k + 1) f f') (hv : FusedValue S decls F v v') :
    PendingSimilar S decls F k (apply W decls depth f v) (apply W decls' depth f' v') := by
  cases depth with
  | zero => exact .running
  | succ depth =>
    cases hf with
    | mk hvar hm henv => exact variant_pending depth hvar hm (.cons hv henv)

theorem apply_last (hf : Pending S decls F 0 f f') (hv : FusedValue S decls F v v') :
    FusedSimilar S decls F ((apply W decls depth f v).bind fun r => perform W .write [r])
      (apply W decls' depth f' v') := by
  cases depth with
  | zero =>
    simp only [apply, Run.bind_running]
    exact .running
  | succ depth =>
    cases hf with
    | mk hvar hm henv =>
      exact variant_write (hbelow depth (Nat.lt_succ_self _)) hvar hm (.cons hv henv)

include hpair

theorem global_similar (h : vi ∈ bindings decls) :
    FusedSimilar S decls F (global W decls depth vi.n) (global W decls' depth vi.n) := by
  cases depth with
  | zero => exact .running
  | succ depth =>
    obtain ⟨m, hm, hmem⟩ := hpair.fused.original h
    have hbody' := declBody_eq hpair.nodup' hmem
    simp only [global, declBody_eq hpair.nodup h, show declBody decls' vi.n = _ from hbody']
    exact hbelow depth (Nat.lt_succ_self _) _ _ _ _ _ _ (hpair.typed vi h) hm .nil

/-- A function and its variant as values. -/
theorem global_pending (h : F n = some n') : ∃ vi ∈ bindings decls, vi.n = n ∧
    ∃ args t' k, rsInner vi.t = some (args, t') ∧ args.length = k + 1 ∧
      PendingSimilar S decls F k (global W decls depth n) (global W decls' depth n') := by
  obtain ⟨vi, hvi, hn, vi', hdo, m, hm, hmem⟩ := hpair.fused.variant h
  obtain ⟨args, t', k, b, binders, hr, hlen, hbody, hn', he'⟩ := doVi_spec hdo
  refine ⟨vi, hvi, hn, args, t', k, hr, hlen, ?_⟩
  cases depth with
  | zero => exact .running
  | succ depth =>
    have hbody' : declBody decls' n' = some (fuseExp m vi'.e) := hn' ▸ declBody_eq hpair.nodup' hmem
    simp only [global, hn ▸ declBody_eq hpair.nodup hvi, hbody', he']
    exact variant_pending depth (variant_rebuild hbody hlen hr (hpair.typed vi hvi)) hm .nil

end

/-- What is shown of an expression: it evaluates as its image, and where it is an
application chain whose head is replaced, the new chain waits for what it still
waits for and otherwise writes its result. -/
structure Simulated (S : Signature) (W : World) (decls decls' : List Decl) (F : Nat → Option Nat)
    (depth : Nat) (e : Exp) : Prop where
  similar : HasType S decls ctx e t → Extends m F →
    List.Forall₂ (FusedValue S decls F) env env' →
    FusedSimilar S decls F (eval W decls depth e env) (eval W decls' depth (fuseExp m e) env')
  pending : HasType S decls ctx e t → Extends m F →
    List.Forall₂ (FusedValue S decls F) env env' → unravel m (fuseExp m e) = some r →
    rsInner t = some (args, t') → args.length = k + 1 →
    PendingSimilar S decls F k (eval W decls depth e env) (eval W decls' depth r env')
  written : HasType S decls ctx e .string → Extends m F →
    List.Forall₂ (FusedValue S decls F) env env' → unravel m (fuseExp m e) = some r →
    FusedSimilar S decls F ((eval W decls depth e env).bind fun v => perform W .write [v])
      (eval W decls' depth r env')

/-- A write of a chain becomes the new chain, other writes stay. -/
theorem simulated_write (ih : Simulated S W decls decls' F depth e)
    (ht : HasType S decls ctx (.write e) t) (hm : Extends m F)
    (henv : List.Forall₂ (FusedValue S decls F) env env') :
    FusedSimilar S decls F (eval W decls depth (.write e) env)
      (eval W decls' depth (fuseExp m (.write e)) env') := by
  cases ht with
  | write ht =>
    rw [fuseExp_write, eval_write]
    cases hr : unravel m (fuseExp m e) with
    | some r => exact ih.written ht hm henv hr
    | none =>
      rw [Option.getD_none, eval_write]
      exact (ih.similar ht hm henv).bind fun v v' hv => similar_perform _ (.cons hv .nil)

section
variable (hpair : FusePair S decls decls' F)
variable (hbelow : ∀ depth' < depth, SimulatedAt S W decls decls' F depth')
include hpair hbelow

theorem simulated_named (n : Nat) (ht : HasType S decls ctx (.named n) t) :
    FusedSimilar S decls F (global W decls depth n) (global W decls' depth n) := by
  cases ht with
  | named h => exact global_similar hpair hbelow h

/-- Every expression but a write is rewritten in its parts only. -/
theorem simulated_parts (hw : ∀ e', e ≠ .write e')
    (ih : ∀ c ∈ e.children, Simulated S W decls decls' F depth c)
    (ht : HasType S decls ctx e t) (hm : Extends m F)
    (henv : List.Forall₂ (FusedValue S decls F) env env') :
    FusedSimilar S decls F (eval W decls depth e env) (eval W decls' depth (fuseExp m e) env') := by
  rw [fuseExp_eq m e hw, eval_eq, eval_eq]
  refine similar_node e respects_history (fun _ _ => trivial)
    (fun f f' v v' hf hv => apply_similar hbelow hf hv) ?_ ?_ ?_ env env' henv
  · rintro n rfl
    exact simulated_named hpair hbelow n ht
  · intro _ c hc env env' henv
    obtain ⟨ctx', t', hct⟩ := hasType_children ht hc
    rw [← eval_eq, ← eval_eq]
    exact (ih c hc).similar hct hm henv
  · intro kind _ c hc env env' henv
    obtain ⟨ctx', t', hct⟩ := hasType_children ht hc
    exact .mk hct hm henv

theorem simulated_pending (ih : ∀ c ∈ e.children, Simulated S W decls decls' F depth c)
    (ht : HasType S decls ctx e t) (hm : Extends m F)
    (henv : List.Forall₂ (FusedValue S decls F) env env')
    (hr : unravel m (fuseExp m e) = some r) (hrs : rsInner t = some (args, t'))
    (hlen : args.length = k + 1) :
    PendingSimilar S decls F k (eval W decls depth e env) (eval W decls' depth r env') := by
  rcases unravel_cases ht hrs hr with ⟨n, n', rfl, hn, rfl⟩ | ⟨e1, e2, r1, rfl, hr1, rfl⟩
  · obtain ⟨vi, hvi, hid, args', t'', k', hrs', hlen', hglobal⟩ :=
      global_pending hpair hbelow (hm n n' hn)
    cases ht with
    | @named _ vj hvj =>
      obtain rfl := List.inj_on_of_nodup_map hpair.nodup hvi hvj hid
      obtain ⟨rfl, rfl⟩ := Prod.mk.inj (Option.some.inj (hrs.symm.trans hrs'))
      obtain rfl : k = k' := by omega
      rw [eval_eq, eval_eq]
      exact hglobal
  · cases ht with
    | app h1 h2 =>
      rw [eval_app, eval_app]
      refine ((ih e1 (by simp [Exp.children])).pending h1 hm henv hr1
        (k := k + 1) (by rw [rsInner, hrs, Option.map_some]) (by simp [hlen])).bind fun f f' hf => ?_
      exact ((ih e2 (by simp [Exp.children])).similar h2 hm henv).bind fun v v' hv =>
        apply_pending hbelow hf hv

theorem simulated_written (ih : ∀ c ∈ e.children, Simulated S W decls decls' F depth c)
    (ht : HasType S decls ctx e .string) (hm : Extends m F)
    (henv : List.Forall₂ (FusedValue S decls F) env env')
    (hr : unravel m (fuseExp m e) = some r) :
    FusedSimilar S decls F ((eval W decls depth e env).bind fun v => perform W .write [v])
      (eval W decls' depth r env') := by
  have hrs : rsInner .string = some ([], .record []) := rfl
  rcases unravel_cases ht hrs hr with ⟨n, n', rfl, hn, rfl⟩ | ⟨e1, e2, r1, rfl, hr1, rfl⟩
  · -- a function with a variant takes arguments
    obtain ⟨vi, hvi, hid, args', t'', k', hrs', hlen', -⟩ :=
      global_pending hpair hbelow (hm n n' hn)
    generalize hstring : Typ.string = t at ht
    cases ht with
    | @named _ vj hvj =>
      obtain rfl := List.inj_on_of_nodup_map hpair.nodup hvi hvj hid
      rw [← hstring, hrs] at hrs'
      obtain ⟨rfl, -⟩ := Prod.mk.inj (Option.some.inj hrs')
      simp at hlen'
  · generalize hstring : Typ.string = t at ht
    cases ht with
    | app h1 h2 =>
      subst hstring
      rw [eval_app, eval_app, Run.bind_assoc]
      refine ((ih e1 (by simp [Exp.children])).pending h1 hm henv hr1
        (k := 0) rfl rfl).bind fun f f' hf => ?_
      rw [Run.bind_assoc]
      exact ((ih e2 (by simp [Exp.children])).similar h2 hm henv).bind fun v v' hv =>
        apply_last hbelow hf hv

theorem simulated (e : Exp) : Simulated S W decls decls' F depth e := by
  induction e using Exp.induct_children with
  | h e ih =>
    refine ⟨fun ht hm henv => ?_, fun ht hm henv hr hrs hlen => ?_, fun ht hm henv hr => ?_⟩
    · by_cases hw : ∃ e', e = .write e'
      · obtain ⟨e', rfl⟩ := hw
        exact simulated_write (ih e' List.mem_cons_self) ht hm henv
      · exact simulated_parts hpair hbelow (fun e' he => hw ⟨e', he⟩) ih ht hm henv
    · exact simulated_pending hpair hbelow ih ht hm henv hr hrs hlen
    · exact simulated_written hpair hbelow ih ht hm henv hr

end

section
variable (hpair : FusePair S decls decls' F)
include hpair

theorem simulatedAt (depth : Nat) : SimulatedAt S W decls decls' F depth := by
  induction depth using Nat.strong_induction_on with
  | h depth ih =>
    intro ctx e t m env env' ht hm henv
    exact (simulated hpair ih e).similar ht hm henv

theorem applied_similar (hn : n ∈ (bindings decls).map ValBinding.n)
    (hargs : List.Forall₂ (FusedValue S decls F) args args') :
    FusedSimilar S decls F (applied W decls depth n args) (applied W decls' depth n args') := by
  obtain ⟨vi, hvi, rfl⟩ := List.mem_map.mp hn
  have hbelow (depth' : Nat) (_ : depth' < depth) := simulatedAt (W := W) hpair depth'
  have hglobal := global_similar hpair hbelow hvi
  rw [applied, applied]
  generalize global W decls depth vi.n = r, global W decls' depth vi.n = r' at hglobal
  induction hargs generalizing r r' with
  | nil => exact hglobal
  | cons hv _ ih =>
    exact ih _ _ (hglobal.bind fun f f' hf => apply_similar hbelow hf hv)

theorem applied_variant (depth : Nat) (h : F n = some n') : ∃ vi ∈ bindings decls, vi.n = n ∧
    ∃ r, rsInner vi.t = some r ∧ ∀ args args', args.length = r.1.length →
      List.Forall₂ (FusedValue S decls F) args args' →
      FusedSimilar S decls F ((applied W decls depth n args).bind fun v => perform W .write [v])
        (applied W decls' depth n' args') := by
  have hbelow (depth' : Nat) (_ : depth' < depth) := simulatedAt (W := W) hpair depth'
  obtain ⟨vi, hvi, hn, targs, t', k, hrs, hk, hglobal⟩ :=
    global_pending hpair hbelow h
  refine ⟨vi, hvi, hn, _, hrs, fun args args' hlen hargs => ?_⟩
  rw [applied, applied]
  rw [hk] at hlen
  clear hk
  generalize global W decls depth n = r, global W decls' depth n' = r' at hglobal
  induction k generalizing r r' args args' with
  | zero =>
    cases hargs with
    | nil => simp at hlen
    | cons hv hrest =>
      cases hrest with
      | nil =>
        rw [List.foldl_cons, List.foldl_nil, List.foldl_cons, List.foldl_nil, Run.bind_assoc]
        exact hglobal.bind fun f f' hf => apply_last hbelow hf hv
      | cons => simp at hlen
  | succ k ih =>
    cases hargs with
    | nil => simp at hlen
    | cons hv hrest =>
      exact ih _ _ (by simpa using hlen) hrest _ _
        (hglobal.bind fun f f' hf => apply_pending hbelow hf hv)

end

end

def Signature.empty : Signature :=
  ⟨fun _ _ _ => False, fun _ _ _ _ => False, fun _ _ _ => False, fun _ _ _ _ => False⟩

def echo : ValBinding := ⟨"echo", 1, .func .string .string, .abs "s" .string .string (.rel 0), "echo"⟩
def main : ValBinding :=
  ⟨"main", 2, .func .string .unit, .abs "s" .string .unit (.write (.app (.named 1) (.rel 0))), "main"⟩
def echoFile : File := ([.val echo, .val main], [])

theorem echoFile_wellTyped : WellTyped Signature.empty echoFile.1 := by
  intro vi hvi
  obtain rfl | rfl : vi = echo ∨ vi = main := by simpa [echoFile, bindings, Decl.bindings] using hvi
  · exact .abs (.rel rfl)
  · have hecho : echo ∈ bindings echoFile.1 := by simp [echoFile, bindings, Decl.bindings]
    exact .abs (.write (.app (.named hecho) (.rel rfl)))

end UrWeb.Mono
