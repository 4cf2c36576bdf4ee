import Mathlib.Data.List.Nodup
import UrWeb.Core.References
import UrWeb.Core.Utilities

/-!
# Scope

The values that a file binds, what the nodes of an expression mention, and where
that is defined when names are defined before use.
-/

namespace UrWeb.Core

def declBindings : Declaration → List ValBinding
  | .val vi => [vi]
  | .valRec vis => vis
  | _ => []

def bindings (file : File) : List ValBinding := file.flatMap declBindings

theorem mem_listRefs : r ∈ Constructor.listRefs cs ↔ ∃ c ∈ cs, r ∈ c.refs := by
  induction cs with
  | nil => simp [Constructor.listRefs]
  | cons c cs ih => simp [Constructor.listRefs, ih]

/-- What a node mentions the whole expression mentions. -/
theorem node_refs {e e' : Expression} (h : e' ∈ e.nodes) (hr : r ∈ e'.refsWith pcr) :
    r ∈ e.refsWith pcr := by
  induction e with
  | constructor dk pc ts payload ih =>
    simp only [Expression.nodes, List.mem_cons] at h
    obtain rfl | h := h
    · exact hr
    · cases payload with
      | none => cases h
      | some e => exact List.mem_append_right _ (ih e rfl h)
  | ffiApp m x args ih =>
    simp only [Expression.nodes, List.mem_cons] at h
    obtain rfl | h := h
    · exact hr
    rw [Expression.refsWith]
    induction args with
    | nil => cases h
    | cons a args iha =>
      obtain h | h := List.mem_append.mp h
      · exact List.mem_append_left _ (List.mem_append_left _ (ih a List.mem_cons_self h))
      · exact List.mem_append_right _ (iha (fun b hb => ih b (List.mem_cons_of_mem _ hb)) h)
  | record fields ih =>
    simp only [Expression.nodes, List.mem_cons] at h
    obtain rfl | h := h
    · exact hr
    rw [Expression.refsWith]
    induction fields with
    | nil => cases h
    | cons f fields ihf =>
      obtain h | h := List.mem_append.mp h
      · exact List.mem_append_left _ (List.mem_append_left _
          (List.mem_append_right _ (ih f List.mem_cons_self h)))
      · exact List.mem_append_right _ (ihf (fun b hb => ih b (List.mem_cons_of_mem _ hb)) h)
  | case disc arms info ihd ih =>
    simp only [Expression.nodes, List.mem_cons] at h
    obtain rfl | h := h
    · exact hr
    rw [Expression.refsWith]
    refine List.mem_append_left _ (List.mem_append_left _ ?_)
    rw [List.mem_append] at h
    obtain h | h := h
    · exact List.mem_append_left _ (ihd h)
    refine List.mem_append_right _ ?_
    induction arms with
    | nil => cases h
    | cons a arms iha =>
      obtain h | h := List.mem_append.mp h
      · exact List.mem_append_left _ (List.mem_append_right _ (ih a List.mem_cons_self h))
      · exact List.mem_append_right _ (iha (fun b hb => ih b (List.mem_cons_of_mem _ hb)) h)
  | closure n es ih | serverCall n es t fm ih =>
    simp only [Expression.nodes, List.mem_cons] at h
    obtain rfl | h := h
    · exact hr
    have hlist : r ∈ Expression.listRefs pcr es := by
      induction es with
      | nil => cases h
      | cons e es ihe =>
        obtain h | h := List.mem_append.mp h
        · exact List.mem_append_left _ (ih e List.mem_cons_self h)
        · exact List.mem_append_right _ (ihe (fun b hb => ih b (List.mem_cons_of_mem _ hb)) h)
    simp [Expression.refsWith, hlist]
  | app e1 e2 ih1 ih2 | concat e1 c1 e2 c2 ih1 ih2 | letIn x t e1 e2 ih1 ih2 =>
    simp only [Expression.nodes, List.mem_cons] at h
    obtain rfl | h := h
    · exact hr
    simp only [Expression.refsWith, List.mem_append]
    obtain h | h := List.mem_append.mp h
    · simp [ih1 h]
    · simp [ih2 h]
  | abs x dom ran e ih | cAbs x k e ih | kAbs x e ih | kApp e k ih | field e c info ih
  | cut e c info ih | cutMulti e c info ih | write e ih | cApp e t ih =>
    simp only [Expression.nodes, List.mem_cons] at h
    obtain rfl | h := h
    · exact hr
    · simp [Expression.refsWith, ih h]
  | _ =>
    obtain rfl := List.mem_singleton.mp h
    exact hr

theorem bindings_nodup (hnd : (file.flatMap Declaration.defines).Nodup) :
    ((bindings file).map ValBinding.id).Nodup := by
  refine .of_map Ref.exp (hnd.sublist ?_)
  induction file with
  | nil => exact .slnil
  | cons d file ih =>
    rw [List.flatMap_cons, bindings, List.flatMap_cons, List.map_append, List.map_append]
    refine .append ?_ (ih (List.flatMap_cons ▸ hnd).of_append_right)
    cases d <;> simp [declBindings, Declaration.defines, Function.comp_def]

/-- In a file whose names are defined before use, all that a declaration mentions
is defined by it or by an earlier one. -/
theorem definedBefore_split (h : DefinedBefore seen (pre ++ d :: post)) (hr : r ∈ d.refs) :
    r ∈ d.defines ∨ ∃ d' ∈ seen ++ pre, r ∈ d'.defines := by
  induction pre generalizing seen with
  | nil =>
    obtain ⟨d', hd', hdef⟩ := h.1 r hr
    obtain rfl | hd' := List.mem_cons.mp hd'
    · exact .inl hdef
    · exact .inr ⟨d', by simpa using hd', hdef⟩
  | cons e pre ih =>
    refine (ih h.2).imp_right fun ⟨d', hd', hdef⟩ => ⟨d', ?_, hdef⟩
    simp only [List.cons_append, List.mem_cons, List.mem_append] at hd' ⊢
    tauto

theorem exp_defined {vi : ValBinding} (h : vi ∈ declBindings d) : .exp vi.id ∈ d.defines := by
  cases d with
  | val vj =>
    obtain rfl := List.mem_singleton.mp h
    exact List.mem_singleton_self _
  | valRec vis => exact List.mem_map_of_mem h
  | _ => cases h

/-- A value that a declaration mentions is bound by it, before it or not at all. -/
theorem bindings_scoped (h : DefinedBefore [] (pre ++ d :: post))
    (hnd : ((pre ++ d :: post).flatMap Declaration.defines).Nodup) {vi : ValBinding}
    (hr : .exp vi.id ∈ d.refs) (hvi : vi ∈ bindings (pre ++ d :: post)) :
    vi ∈ bindings (pre ++ [d]) := by
  have happend : pre ++ d :: post = (pre ++ [d]) ++ post := by simp
  rw [happend, bindings, List.flatMap_append, List.mem_append] at hvi
  refine hvi.resolve_right fun hvi => ?_
  obtain ⟨d', hd', hdef⟩ : ∃ d' ∈ pre ++ [d], Ref.exp vi.id ∈ d'.defines := by
    obtain hdef | ⟨d', hd', hdef⟩ := definedBefore_split h hr
    · exact ⟨d, by simp, hdef⟩
    · exact ⟨d', by simpa using .inl hd', hdef⟩
  obtain ⟨d'', hd'', hvi⟩ := List.mem_flatMap.mp hvi
  rw [happend, List.flatMap_append] at hnd
  exact List.disjoint_of_nodup_append hnd (List.mem_flatMap.mpr ⟨d', hd', hdef⟩)
    (List.mem_flatMap.mpr ⟨d'', hd'', exp_defined hvi⟩)

/-- What an export names is bound before the export or not at all. -/
theorem bindings_before (h : DefinedBefore [] (pre ++ .export ek n b :: post))
    (hnd : ((pre ++ .export ek n b :: post).flatMap Declaration.defines).Nodup) {vi : ValBinding}
    (hid : vi.id = n) : vi ∈ bindings (pre ++ .export ek n b :: post) ↔ vi ∈ bindings pre := by
  constructor
  · intro hvi
    subst hid
    simpa [bindings, declBindings] using bindings_scoped h hnd (List.mem_singleton_self _) hvi
  · intro hvi
    rw [bindings, List.flatMap_append]
    exact List.mem_append_left _ hvi

end UrWeb.Core
