import UrWeb.Mono.ShakeClosed
import UrWeb.Mono.SideSound

/-!
# The Mono shake preserves meaning

A name that the pass keeps behaves as before: whatever its body goes on to name,
also through code that it passes on, is kept and stands for what it stood for.
-/

namespace UrWeb.Mono.Shake

open Behaviour UrWeb.Mono.SideCheck

-- ---------------------------------------------------------------------------
-- The ids of the parts
-- ---------------------------------------------------------------------------

theorem mem_optRefs {arg : Option Exp} (he : e ∈ arg) : e.refs ⊆ Exp.optRefs arg := by
  obtain rfl := Option.mem_def.mp he
  exact List.Subset.refl _

theorem mem_argRefs {args : List (Exp × Typ)} (ha : a ∈ args) : a.1.refs ⊆ Exp.argRefs args := by
  induction args with
  | nil => cases ha
  | cons b args ih =>
    rw [Exp.argRefs]
    rcases List.mem_cons.mp ha with rfl | ha
    · exact fun r hr => List.mem_append_left _ (List.mem_append_left _ hr)
    · exact fun r hr => List.mem_append_right _ (ih ha hr)

theorem mem_fieldRefs {xets : List (String × Exp × Typ)} (hf : f ∈ xets) :
    f.2.1.refs ⊆ Exp.fieldRefs xets := by
  induction xets with
  | nil => cases hf
  | cons g xets ih =>
    rw [Exp.fieldRefs]
    rcases List.mem_cons.mp hf with rfl | hf
    · exact fun r hr => List.mem_append_left _ (List.mem_append_left _ hr)
    · exact fun r hr => List.mem_append_right _ (ih hf hr)

theorem mem_armRefs {arms : List (Pat × Exp)} (ha : a ∈ arms) : a.2.refs ⊆ Exp.armRefs arms := by
  induction arms with
  | nil => cases ha
  | cons b arms ih =>
    rw [Exp.armRefs]
    rcases List.mem_cons.mp ha with rfl | ha
    · exact fun r hr => List.mem_append_left _ (List.mem_append_right _ hr)
    · exact fun r hr => List.mem_append_right _ (ih ha hr)

theorem mem_listRefs {es : List Exp} (he : e ∈ es) : e.refs ⊆ Exp.listRefs es := by
  induction es with
  | nil => cases he
  | cons b es ih =>
    rw [Exp.listRefs]
    rcases List.mem_cons.mp he with rfl | he
    · exact fun r hr => List.mem_append_left _ hr
    · exact fun r hr => List.mem_append_right _ (ih he hr)

/-- A part mentions nothing that the node does not mention. -/
theorem refs_children {e : Exp} (hc : c ∈ e.children) : c.refs ⊆ e.refs := by
  intro r hr
  cases e with
  | con dk pc arg => exact List.mem_append_right _ (mem_optRefs (Option.mem_toList.mp hc) hr)
  | ffiApp m x args =>
    obtain ⟨a, ha, rfl⟩ := List.mem_map.mp hc
    exact mem_argRefs ha hr
  | record xets =>
    obtain ⟨f, hf, rfl⟩ := List.mem_map.mp hc
    exact mem_fieldRefs hf hr
  | case disc arms info =>
    rcases List.mem_cons.mp hc with rfl | hc
    · simp [Exp.refs, hr]
    · obtain ⟨a, ha, rfl⟩ := List.mem_map.mp hc
      simp [Exp.refs, mem_armRefs ha hr]
  | returnBlob blob mimeType t =>
    rcases List.mem_append.mp hc with hc | hc
    · simp [Exp.refs, mem_optRefs (Option.mem_toList.mp hc) hr]
    · obtain rfl := List.mem_singleton.mp hc
      simp [Exp.refs, hr]
  | closure n envs => exact mem_listRefs hc hr
  | prim | rel | named | none | ffi => cases hc
  | app | binop | strcat | seq | setval | signalBind | letIn | query =>
    simp only [Exp.children, List.mem_cons, List.not_mem_nil, or_false] at hc
    rcases hc with rfl | rfl | rfl <;> simp [Exp.refs, hr]
  | _ =>
    obtain rfl := List.mem_singleton.mp hc
    simp [Exp.refs, hr]

-- ---------------------------------------------------------------------------
-- What the kept ids stand for
-- ---------------------------------------------------------------------------

theorem findSome?_filter_eq {f : α → Option β} {keep : α → Bool} {l : List α}
    (h : ∀ a ∈ l, keep a = false → f a = none) : (l.filter keep).findSome? f = l.findSome? f := by
  induction l with
  | nil => rfl
  | cons a l ih =>
    have ih := ih fun b hb => h b (List.mem_cons_of_mem _ hb)
    cases ha : keep a with
    | true => simp [ha, List.findSome?_cons, ih]
    | false => simp [ha, ih, h a List.mem_cons_self ha]

theorem body_defines {d : Decl} (h : d.body n = some e) : .exp n ∈ d.defines := by
  cases d with
  | val vi =>
    rw [Decl.body, Option.ite_none_right_eq_some] at h
    simp [Decl.defines, h.1]
  | valRec vis =>
    obtain ⟨vi, hvi, -⟩ := Option.map_eq_some_iff.mp h
    have hn : vi.n = n := by simpa using List.find?_some hvi
    exact List.mem_map.mpr ⟨vi, List.mem_of_find?_eq_some hvi, by rw [hn]⟩
  | _ => cases h

/-- A marked id stands for what it stood for. -/
theorem declBody_shake (order : HashOrder) {file : File} (hm : .exp n ∈ marked file.1) :
    declBody (shake order file).1 n = declBody file.1 n := by
  refine findSome?_filter_eq fun d hd hk => ?_
  by_contra hne
  obtain ⟨e, he⟩ := Option.ne_none_iff_exists'.mp hne
  rw [(keep_iff order file.1 d).mpr (marked_kept hd (body_defines he) hm)] at hk
  cases hk

/-- The value ids that the expression mentions are marked. -/
def Within (decls : List Decl) (e : Exp) : Prop := ∀ n, .exp n ∈ e.refs → .exp n ∈ marked decls

theorem Within.children (h : Within decls e) (hc : c ∈ e.children) : Within decls c :=
  fun n hn => h n (refs_children hc hn)

theorem within_body {decls : List Decl} (hs : ∀ vi ∈ valBindings decls, SingleVal decls vi)
    (hm : .exp n ∈ marked decls) (he : declBody decls n = some e) : Within decls e := by
  obtain ⟨vi, hvi, rfl, rfl⟩ := declBody_mem he
  obtain ⟨d, hd, hvi⟩ := List.mem_flatMap.mp hvi
  have hv : vi ∈ valBindings decls := List.mem_flatMap.mpr ⟨d, hd, by cases d <;> exact hvi⟩
  exact fun n hn => body_marked hv (hs vi hv) hm hn

-- ---------------------------------------------------------------------------
-- Evaluation
-- ---------------------------------------------------------------------------

/-- The same code, mentioning marked ids only. -/
inductive KeptCode (decls : List Decl) : CodeKind → List Value → Exp → List Value → Exp → Prop
  | mk : Within decls e → List.Forall₂ (ValueRel (KeptCode decls)) env env' →
      KeptCode decls kind env e env' e

section
variable {W : World} {order : HashOrder} {file : File}

abbrev KeptSimilar (file : File) : Comp Value → Comp Value → Prop := Similar (KeptCode file.1)

/-- Marked code evaluates alike before and after the pass. -/
def KeptAt (W : World) (order : HashOrder) (file : File) (depth : Nat) : Prop :=
  ∀ e env env', Within file.1 e → ValuesRel (KeptCode file.1) env env' →
    KeptSimilar file (eval W file.1 depth e env) (eval W (shake order file).1 depth e env')

section
variable (hs : ∀ vi ∈ valBindings file.1, SingleVal file.1 vi)
variable (hbelow : ∀ depth' < depth, KeptAt W order file depth')
include hbelow

theorem apply_kept (hf : ValueRel (KeptCode file.1) f f') (hv : ValueRel (KeptCode file.1) v v') :
    KeptSimilar file (apply W file.1 depth f v) (apply W (shake order file).1 depth f' v') := by
  cases depth with
  | zero => exact .running
  | succ depth =>
    cases hf with
    | prim | node => exact .stuck
    | @code kind _ _ _ _ hcode =>
      obtain ⟨hbody, henv⟩ := hcode
      cases kind with
      | function => exact hbelow depth (Nat.lt_succ_self _) _ _ _ hbody (.cons hv henv)
      | script mode => exact .stuck

include hs

theorem global_kept (hm : .exp n ∈ marked file.1) :
    KeptSimilar file (global W file.1 depth n) (global W (shake order file).1 depth n) := by
  cases depth with
  | zero => exact .running
  | succ depth =>
    rw [global, global, declBody_shake order hm]
    cases he : declBody file.1 n with
    | none => exact .stuck
    | some e => exact hbelow depth (Nat.lt_succ_self _) _ _ _ (within_body hs hm he) .nil

theorem eval_kept (e : Exp) (h : Within file.1 e) (henv : ValuesRel (KeptCode file.1) env env') :
    KeptSimilar file (eval W file.1 depth e env) (eval W (shake order file).1 depth e env') := by
  induction e using Exp.induct_children generalizing env env' with
  | h e ih =>
    have hnode : EvaluatesAlike (HistoryRel (KeptCode file.1)) (KeptCode file.1) W
        (apply W file.1 depth) (apply W (shake order file).1 depth) (global W file.1 depth)
        (global W (shake order file).1 depth) e (e.mapChildren fun c => c) := by
      refine similar_node e respects_history (fun _ _ => trivial)
        (fun f f' v v' hf hv => apply_kept hbelow hf hv) ?_ ?_ ?_
      · rintro n rfl
        exact global_kept hs hbelow (h n (List.mem_singleton_self _))
      · intro _ c hc env env' henv
        simpa only [eval_eq] using ih c hc (h.children hc) henv
      · exact fun kind _ c hc env env' henv => .mk (h.children hc) henv
    rw [mapChildren_self] at hnode
    simpa only [eval_eq] using hnode env env' henv

end

theorem keptAt (hs : ∀ vi ∈ valBindings file.1, SingleVal file.1 vi) (depth : Nat) :
    KeptAt W order file depth := by
  induction depth using Nat.strong_induction_on with
  | h depth ih => exact fun e env env' h henv => eval_kept hs ih e h henv

/-- A function that the pass marks does what it did, applied to any data. -/
theorem shake_applied (W : World) (order : HashOrder) (file : File)
    (hs : ∀ vi ∈ valBindings file.1, SingleVal file.1 vi) (hn : n ∈ (marks order file.1).exp)
    (hargs : ∀ v ∈ args, v.isData = true) :
    KeptSimilar file (applied W file.1 depth n args)
      (applied W (shake order file).1 depth n args) := by
  have hbelow (depth' : Nat) (_ : depth' < depth) : KeptAt W order file depth' := keptAt hs depth'
  have hm : .exp n ∈ marked file.1 := marks_nodes order file.1 ▸ Marks.exp_mem_nodes.mpr hn
  have hglobal := global_kept hs hbelow hm
  rw [applied, applied]
  generalize global W file.1 depth n = r, global W (shake order file).1 depth n = r' at hglobal
  induction args generalizing r r' with
  | nil => exact hglobal
  | cons v args ih =>
    have hv : ValueRel (KeptCode file.1) v v :=
      (valueRel_iff_of_isData v (hargs v List.mem_cons_self)).mpr rfl
    exact ih (fun w hw => hargs w (List.mem_cons_of_mem _ hw)) _ _
      (hglobal.bind fun f f' hf => apply_kept hbelow hf hv)

end

end UrWeb.Mono.Shake
