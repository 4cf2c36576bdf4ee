import UrWeb.Core.EffectAnalysis
import UrWeb.Core.ExecutionReach
import UrWeb.Core.Scope

/-!
# What the effect analysis finds

The analysis computes which values lead to an effectful function when every
record field that is named like a handler is left out. On the server only the
handlers of a tag's attributes are left out.
-/

namespace UrWeb.Core.EffectAnalysis

open Execution (executed)

-- ---------------------------------------------------------------------------
-- What the analysis follows
-- ---------------------------------------------------------------------------

def serverCallee : Expression → Option Nat
  | .serverCall n _ _ _ => some n
  | _ => none

def onloadCalls : Constructor × Expression × Constructor → List Nat
  | (.name s, body, _) => if s = "Onload" then body.nodes.filterMap serverCallee else []
  | _ => []

/-- The values whose effects a node has: a name, and what is called when the page
is loaded. -/
def reliedAt : Expression → List Nat
  | .named n => [n]
  | .record fields => fields.flatMap onloadCalls
  | _ => []

def relied (e : Expression) : List Nat := e.nodes.flatMap reliedAt

def mentioned (e : Expression) : List Ffi := e.nodes.filterMap executed

/-- A value mentions an effectful function, or relies on a value that does, without
its fields that are named like handlers. -/
inductive Flagged (settings : Settings) (vis : List ValBinding) : Nat → Prop
  | mentions : vi ∈ vis → p ∈ mentioned (dejsExp vi.body) → isEffectfulFfi settings p.1 p.2 = true →
      Flagged settings vis vi.id
  | relies : vi ∈ vis → n ∈ relied (dejsExp vi.body) → Flagged settings vis n →
      Flagged settings vis vi.id

section
variable {settings : Settings} {effects writers : EffectMap}

theorem couldWriteOnload_iff {e : Expression} : couldWriteOnloadNode settings writers e = true ↔
    (∃ p, executed e = some p ∧ isEffectfulFfi settings p.1 p.2 = true) ∨
      ∃ n, (e = .named n ∨ serverCallee e = some n) ∧ (writers n).isSome = true := by
  cases e <;> simp [couldWriteOnloadNode, executed, serverCallee]

theorem couldWriteNode_iff {e : Expression} : couldWriteNode settings writers e = true ↔
    (∃ p, executed e = some p ∧ isEffectfulFfi settings p.1 p.2 = true) ∨
      (∃ n, e = .named n ∧ (writers n).isSome = true) ∨
      ∃ fields, e = .record fields ∧ ∃ f ∈ fields, onloadCouldWrite settings writers f = true := by
  cases e <;> simp [couldWriteNode, executed]

theorem onload_nodes (hf : f ∈ fields) (hnode : node ∈ f.2.1.nodes) :
    node ∈ (Expression.record fields).nodes :=
  Expression.nodes_trans
    (Expression.child_mem_nodes (by rw [Expression.children]; exact List.mem_map_of_mem hf)) hnode

theorem expHasWrite_iff {e : Expression} : expHasWrite settings writers e = true ↔
    (∃ p ∈ mentioned e, isEffectfulFfi settings p.1 p.2 = true) ∨
      ∃ n ∈ relied e, (writers n).isSome = true := by
  simp only [expHasWrite, List.any_eq_true, mentioned, relied, List.mem_filterMap, List.mem_flatMap]
  constructor
  · rintro ⟨node, hnode, hw⟩
    obtain ⟨p, hp, heff⟩ | ⟨n, rfl, hn⟩ | ⟨fields, rfl, f, hf, hw⟩ := couldWriteNode_iff.mp hw
    · exact .inl ⟨p, ⟨node, hnode, hp⟩, heff⟩
    · exact .inr ⟨n, ⟨_, hnode, List.mem_singleton_self n⟩, hn⟩
    · obtain ⟨c, body, t⟩ := f
      cases c with
      | name s =>
        simp only [onloadCouldWrite, Bool.and_eq_true, decide_eq_true_eq, List.any_eq_true] at hw
        obtain ⟨rfl, inner, hinner, hw⟩ := hw
        have hmem := Expression.nodes_trans hnode (onload_nodes hf hinner)
        obtain ⟨p, hp, heff⟩ | ⟨n, rfl | hn, hs⟩ := couldWriteOnload_iff.mp hw
        · exact .inl ⟨p, ⟨inner, hmem, hp⟩, heff⟩
        · exact .inr ⟨n, ⟨_, hmem, List.mem_singleton_self n⟩, hs⟩
        · refine .inr ⟨n, ⟨_, hnode, List.mem_flatMap.mpr ⟨_, hf, ?_⟩⟩, hs⟩
          rw [onloadCalls, if_pos rfl]
          exact List.mem_filterMap.mpr ⟨inner, hinner, hn⟩
      | _ => simp [onloadCouldWrite] at hw
  · rintro (⟨p, ⟨node, hnode, hp⟩, heff⟩ | ⟨n, ⟨node, hnode, hn⟩, hs⟩)
    · exact ⟨node, hnode, couldWriteNode_iff.mpr (.inl ⟨p, hp, heff⟩)⟩
    · refine ⟨node, hnode, couldWriteNode_iff.mpr (.inr ?_)⟩
      unfold reliedAt at hn
      split at hn
      · exact .inl ⟨_, rfl, List.mem_singleton.mp hn ▸ hs⟩
      · rename_i fields
        obtain ⟨f, hf, hn⟩ := List.mem_flatMap.mp hn
        refine .inr ⟨fields, rfl, f, hf, ?_⟩
        unfold onloadCalls at hn
        split at hn
        · split at hn
          · rename_i hs'
            obtain ⟨inner, hinner, hcall⟩ := List.mem_filterMap.mp hn
            simp only [onloadCouldWrite, hs', decide_true, Bool.true_and, List.any_eq_true]
            exact ⟨inner, hinner, couldWriteOnload_iff.mpr (.inr ⟨n, .inr hcall, hs⟩)⟩
          · cases hn
        · cases hn
      · cases hn

end

-- ---------------------------------------------------------------------------
-- One declaration
-- ---------------------------------------------------------------------------

section
variable {settings : Settings} {effects writers : EffectMap} {vi : ValBinding}

theorem isSome_insertIf : (insertIf b vi effects n).isSome = true ↔
    (effects n).isSome = true ∨ b = true ∧ n = vi.id := by
  unfold insertIf
  split
  · rename_i hb
    by_cases hn : n = vi.id
    · simp [hn, hb]
    · simp [hn]
  · rename_i hb
    simp [hb]

theorem insertIf_path (h : insertIf b vi effects n = some s) :
    effects n = some s ∨ n = vi.id ∧ s = vi.s := by
  unfold insertIf at h
  split at h
  · by_cases hn : n = vi.id
    · subst hn
      exact .inr ⟨rfl, by simpa [eq_comm] using h⟩
    · exact .inl (by simpa [hn] using h)
  · exact .inl h

end

/-- What analysing the members of a group may do to the writers: they grow by
members only, under their paths, and by no more than what is closed. -/
structure Grows (settings : Settings) (vis : List ValBinding) (writers writers' : EffectMap) :
    Prop where
  keeps : ∀ n, (writers n).isSome = true → (writers' n).isSome = true
  path : ∀ n s, writers' n = some s → writers n = some s ∨ ∃ vi ∈ vis, vi.id = n ∧ vi.s = s
  least : ∀ S : Nat → Prop, (∀ n, (writers n).isSome = true → S n) →
    (∀ vi ∈ vis, (∃ p ∈ mentioned (dejsExp vi.body), isEffectfulFfi settings p.1 p.2 = true) →
      S vi.id) →
    (∀ vi ∈ vis, ∀ n ∈ relied (dejsExp vi.body), S n → S vi.id) →
    ∀ n, (writers' n).isSome = true → S n

/-- The writers hold every member that has the effect. -/
def Closed (settings : Settings) (vis : List ValBinding) (writers : EffectMap) : Prop :=
  ∀ vi ∈ vis, expHasWrite settings writers (dejsExp vi.body) = true → (writers vi.id).isSome = true

section
variable {settings : Settings} {vis : List ValBinding} {writers writers' : EffectMap}

theorem Grows.refl : Grows settings vis writers writers where
  keeps _ h := h
  path _ _ h := .inl h
  least _ hS _ _ := hS

theorem Grows.trans (h : Grows settings vis w1 w2) (h' : Grows settings vis w2 w3) :
    Grows settings vis w1 w3 where
  keeps n hn := h'.keeps n (h.keeps n hn)
  path n s hs := (h'.path n s hs).elim (h.path n s) .inr
  least S hS hm hr := h'.least S (h.least S hS hm hr) hm hr

theorem Grows.insertIf (hvi : vi ∈ vis)
    (hb : b = true → expHasWrite settings writers (dejsExp vi.body) = true) :
    Grows settings vis writers (insertIf b vi writers) where
  keeps n hn := isSome_insertIf.mpr (.inl hn)
  path n s hs := (insertIf_path hs).imp_right fun ⟨hn, hs⟩ => ⟨vi, hvi, hn.symm, hs.symm⟩
  least S hS hm hr n hn := by
    obtain hn | ⟨hb', rfl⟩ := isSome_insertIf.mp hn
    · exact hS n hn
    · obtain hp | ⟨m, hm', hs⟩ := expHasWrite_iff.mp (hb hb')
      · exact hm vi hvi hp
      · exact hr vi hvi m hm' (hS m hs)

theorem analyzeVal_spec (settings : Settings) (st : State) (vi : ValBinding) :
    Grows settings [vi] st.writers (analyzeVal settings st vi).writers ∧
      Closed settings [vi] (analyzeVal settings st vi).writers := by
  refine ⟨Grows.insertIf (List.mem_singleton_self vi) id, fun vi' hvi' hw => ?_⟩
  obtain rfl := List.mem_singleton.mp hvi'
  simp only [analyzeVal] at hw ⊢
  by_cases hb : expHasWrite settings st.writers (dejsExp vi'.body) = true
  · exact isSome_insertIf.mpr (.inr ⟨hb, rfl⟩)
  · rw [insertIf, if_neg hb] at hw
    exact absurd hw hb

/-- Members that are not known to have an effect. -/
def missing (vis : List ValBinding) (effects : EffectMap) : Nat :=
  vis.countP fun vi => (effects vi.id).isNone

theorem missing_insertIf (b : Bool) (effects : EffectMap) (hvi : vi ∈ vis) :
    missing vis (insertIf (isNew b vi effects) vi effects) ≤ missing vis effects ∧
      (isNew b vi effects = true →
        missing vis (insertIf (isNew b vi effects) vi effects) < missing vis effects) := by
  have hmono (l : List ValBinding) : missing l (insertIf (isNew b vi effects) vi effects) ≤
      missing l effects := by
    refine List.countP_mono_left fun x _ hx => ?_
    by_contra hne
    have hsome : (insertIf (isNew b vi effects) vi effects x.id).isSome = true :=
      isSome_insertIf.mpr (.inl (by simpa [Option.isSome_iff_ne_none] using hne))
    simp [Option.isNone_iff_eq_none.mp hx] at hsome
  refine ⟨hmono vis, fun hnew => ?_⟩
  obtain ⟨l, l', rfl⟩ := List.append_of_mem hvi
  have hold : (effects vi.id).isNone = true := (Bool.and_eq_true_iff.mp hnew).2
  have hin : (insertIf (isNew b vi effects) vi effects vi.id).isNone = false := by
    simp [insertIf, hnew]
  have h1 := hmono l
  have h2 := hmono l'
  simp only [missing, List.countP_append, List.countP_cons, hold, hin, if_true, Bool.false_eq_true,
    if_false] at h1 h2 ⊢
  omega

def pending (vis : List ValBinding) (st : State) : Nat :=
  missing vis st.writers + missing vis st.readers + missing vis st.pushers

theorem pending_analyzeMember (settings : Settings) (st : State × Bool) (hvi : vi ∈ vis) :
    pending vis (analyzeMember settings st vi).1 ≤ pending vis st.1 ∧
      ((analyzeMember settings st vi).2 = true → st.2 = true ∨
        pending vis (analyzeMember settings st vi).1 < pending vis st.1) := by
  simp only [analyzeMember, pending, Bool.or_eq_true]
  obtain ⟨hw, hw'⟩ := missing_insertIf (expHasWrite settings st.1.writers (dejsExp vi.body))
    st.1.writers hvi
  obtain ⟨hr, hr'⟩ := missing_insertIf (expHasReadCookie st.1.readers (dejsExp vi.body))
    st.1.readers hvi
  generalize hws : insertIf (isNew (expHasWrite settings st.1.writers (dejsExp vi.body)) vi
    st.1.writers) vi st.1.writers = writers at *
  generalize hrs : insertIf (isNew (expHasReadCookie st.1.readers (dejsExp vi.body)) vi
    st.1.readers) vi st.1.readers = readers at *
  obtain ⟨hp, hp'⟩ := missing_insertIf (expHasPush writers readers st.1.pushers vi.body)
    st.1.pushers hvi
  refine ⟨by omega, ?_⟩
  rintro (((hflag | hnew) | hnew) | hnew)
  · exact .inl hflag
  · have := hw' hnew
    exact .inr (by omega)
  · have := hr' hnew
    exact .inr (by omega)
  · have := hp' hnew
    exact .inr (by omega)

theorem analyzeMember_unchanged (st : State × Bool) (vi : ValBinding)
    (h : (analyzeMember settings st vi).2 = false) : analyzeMember settings st vi = st := by
  obtain ⟨⟨writers, readers, pushers⟩, flag⟩ := st
  simp only [analyzeMember, Bool.or_eq_false_iff] at h ⊢
  obtain ⟨⟨⟨hflag, hw⟩, hr⟩, hp⟩ := h
  simp [hflag, hw, hr, insertIf] at hp ⊢
  simp [hp]

theorem analyzeGroup_spec (settings : Settings) (st : State) (hsmall : vis.length < 3000) :
    Grows settings vis st.writers (analyzeGroup settings vis st).writers ∧
      Closed settings vis (analyzeGroup settings vis st).writers := by
  constructor
  · refine Rounds.loop_keeps (P := fun st' : State => Grows settings vis st.writers st'.writers)
      (fun s hs => ?_) _ Grows.refl
    refine Rounds.round_keeps (P := fun st' : State => Grows settings vis st.writers st'.writers)
      (fun s' vi hvi hs' => hs'.trans ?_) hs
    exact Grows.insertIf hvi fun hb => (Bool.and_eq_true_iff.mp hb).1
  · have hle : pending vis st < maxValRecIterations := by
      have hw := List.countP_le_length (p := fun vi => (st.writers vi.id).isNone) (l := vis)
      have hr := List.countP_le_length (p := fun vi => (st.readers vi.id).isNone) (l := vis)
      have hp := List.countP_le_length (p := fun vi => (st.pushers vi.id).isNone) (l := vis)
      simp only [pending, missing, maxValRecIterations]
      omega
    obtain ⟨s, heq, hlast⟩ := Rounds.loop_last
      (fun s hs => Rounds.round_lowers (fun s vi hvi => pending_analyzeMember settings s hvi) hs) hle
    obtain ⟨hsame, hmembers⟩ := Rounds.round_stable
      (fun s vi _ hs => analyzeMember_unchanged s vi hs) hlast
    rw [analyzeGroup, heq, hsame]
    intro vi hvi hw
    have hnew : isNew (expHasWrite settings s.writers (dejsExp vi.body)) vi s.writers = false := by
      have hflag := hmembers vi hvi
      simp only [analyzeMember, Bool.or_eq_false_iff] at hflag
      exact hflag.1.1.2
    simpa [isNew, hw, Option.isSome_iff_ne_none] using hnew

end

-- ---------------------------------------------------------------------------
-- The whole file
-- ---------------------------------------------------------------------------

theorem children_dejs (e : Expression) : (dejs e).children ⊆ e.children := by
  cases e with
  | record fields => exact (List.filter_sublist).map _ |>.subset
  | _ => exact List.Subset.refl _

/-- What an expression relies on it mentions. -/
theorem relied_refs (h : n ∈ relied (dejsExp e)) : Ref.exp n ∈ e.refsWith pcr := by
  have hnode {x : Expression} (hx : x ∈ (dejsExp e).nodes)
      (hcall : x = .named n ∨ serverCallee x = some n) : Ref.exp n ∈ e.refsWith pcr := by
    obtain ⟨y, hy, rfl⟩ := Expression.nodes_map children_dejs hx
    refine node_refs hy ?_
    cases y <;> simp_all [Expression.map, dejs, serverCallee, Expression.refsWith]
  obtain ⟨x, hx, hn⟩ := List.mem_flatMap.mp h
  unfold reliedAt at hn
  split at hn
  · exact hnode hx (.inl (by rw [List.mem_singleton.mp hn]))
  · obtain ⟨f, hf, hn⟩ := List.mem_flatMap.mp hn
    unfold onloadCalls at hn
    split at hn
    · split at hn
      · obtain ⟨inner, hinner, hcall⟩ := List.mem_filterMap.mp hn
        exact hnode (Expression.nodes_trans hx (onload_nodes hf hinner)) (.inr hcall)
      · cases hn
    · cases hn
  · cases hn

theorem body_refs {vi : ValBinding} (hvi : vi ∈ declBindings d) (hr : r ∈ vi.body.refsWith pcr) :
    r ∈ d.refsWith pcr := by
  cases d with
  | val vj =>
    obtain rfl := List.mem_singleton.mp hvi
    exact List.mem_append_right _ hr
  | valRec vis => exact List.mem_flatMap.mpr ⟨vi, hvi, List.mem_append_right _ hr⟩
  | _ => cases hvi

theorem Flagged.bound (h : Flagged settings vis n) : ∃ vi ∈ vis, vi.id = n := by
  cases h with
  | mentions hvi _ _ => exact ⟨_, hvi, rfl⟩
  | relies hvi _ _ => exact ⟨_, hvi, rfl⟩

/-- The writers are the flagged ones among the values bound so far. -/
structure Known (settings : Settings) (file pre : File) (writers : EffectMap) : Prop where
  flagged : (writers n).isSome = true ↔
    (∃ vi ∈ bindings pre, vi.id = n) ∧ Flagged settings (bindings file) n
  path : writers n = some s → ∃ vi ∈ bindings pre, vi.id = n ∧ vi.s = s

theorem bindings_concat (pre : File) (d : Declaration) :
    bindings (pre ++ [d]) = bindings pre ++ declBindings d := by
  simp [bindings]

theorem Known.step {file : File} (h : DefinedBefore [] file)
    (hnd : (file.flatMap Declaration.defines).Nodup) (hsplit : file = pre ++ d :: post)
    (hk : Known settings file pre writers) (hgrows : Grows settings (declBindings d) writers writers')
    (hclosed : Closed settings (declBindings d) writers') :
    Known settings file (pre ++ [d]) writers' where
  flagged {n} := by
    have hall {vi : ValBinding} (hvi : vi ∈ declBindings d) : vi ∈ bindings file := by
      rw [hsplit, bindings]
      exact List.mem_flatMap.mpr ⟨d, by simp, hvi⟩
    rw [bindings_concat]
    constructor
    · intro hn
      refine hgrows.least (fun n => (∃ vi ∈ bindings pre ++ declBindings d, vi.id = n) ∧
        Flagged settings (bindings file) n) ?_ ?_ ?_ n hn
      · intro n hn
        obtain ⟨⟨vi, hvi, hid⟩, hf⟩ := hk.flagged.mp hn
        exact ⟨⟨vi, List.mem_append_left _ hvi, hid⟩, hf⟩
      · rintro vi hvi ⟨p, hp, heff⟩
        exact ⟨⟨vi, List.mem_append_right _ hvi, rfl⟩, .mentions (hall hvi) hp heff⟩
      · rintro vi hvi m hm ⟨-, hf⟩
        exact ⟨⟨vi, List.mem_append_right _ hvi, rfl⟩, .relies (hall hvi) hm hf⟩
    · rintro ⟨hbound, hf⟩
      -- a binding of the declaration itself, or one from before
      have hcase {vi : ValBinding} (hvi : vi ∈ bindings file)
          (hb : ∃ vj ∈ bindings pre ++ declBindings d, vj.id = vi.id) :
          vi ∈ declBindings d ∨ ∃ vj ∈ bindings pre, vj.id = vi.id := by
        obtain ⟨vj, hvj, hid⟩ := hb
        obtain hvj | hvj := List.mem_append.mp hvj
        · exact .inr ⟨vj, hvj, hid⟩
        · obtain rfl : vj = vi := List.inj_on_of_nodup_map (bindings_nodup hnd) (hall hvj) hvi hid
          exact .inl hvj
      induction hf with
      | @mentions vi p hvi hp heff =>
        obtain hd | hb := hcase hvi hbound
        · exact hclosed vi hd (expHasWrite_iff.mpr (.inl ⟨p, hp, heff⟩))
        · exact hgrows.keeps _ (hk.flagged.mpr ⟨hb, .mentions hvi hp heff⟩)
      | @relies vi m hvi hm hf ih =>
        obtain hd | hb := hcase hvi hbound
        · obtain ⟨vj, hvj, hid⟩ := hf.bound
          have hscope : vj ∈ bindings (pre ++ [d]) := by
            subst hsplit
            exact bindings_scoped h hnd (hid ▸ body_refs hd (relied_refs hm)) hvj
          rw [bindings_concat] at hscope
          exact hclosed vi hd (expHasWrite_iff.mpr (.inr ⟨m, hm, ih ⟨vj, hscope, hid⟩⟩))
        · exact hgrows.keeps _ (hk.flagged.mpr ⟨hb, .relies hvi hm hf⟩)
  path {n s} hs := by
    rw [bindings_concat]
    obtain hs | ⟨vi, hvi, hvi'⟩ := hgrows.path n s hs
    · obtain ⟨vi, hvi, hvi'⟩ := hk.path hs
      exact ⟨vi, List.mem_append_left _ hvi, hvi'⟩
    · exact ⟨vi, List.mem_append_right _ hvi, hvi'⟩

theorem analyzeDecl_grows (settings : Settings) (st : State) (d : Declaration)
    (hsmall : ∀ vis, d = .valRec vis → vis.length < 3000) :
    Grows settings (declBindings d) st.writers (analyzeDecl settings st d).1.writers ∧
      Closed settings (declBindings d) (analyzeDecl settings st d).1.writers := by
  cases d with
  | val vi => exact analyzeVal_spec settings st vi
  | valRec vis => exact analyzeGroup_spec settings st (hsmall vis rfl)
  | «export» ek n b => cases ek <;> exact ⟨.refl, fun vi hvi => nomatch hvi⟩
  | _ => exact ⟨.refl, fun vi hvi => nomatch hvi⟩

/-- The state after some declarations. -/
def run (settings : Settings) (pre : File) : State :=
  pre.foldl (fun st d => (analyzeDecl settings st d).1) ⟨fun _ => none, fun _ => none, fun _ => none⟩

theorem run_known (settings : Settings) {file : File} (h : DefinedBefore [] file)
    (hnd : (file.flatMap Declaration.defines).Nodup)
    (hsmall : ∀ vis, .valRec vis ∈ file → vis.length < 3000) (hpre : file = pre ++ post) :
    Known settings file pre (run settings pre).writers := by
  induction pre using List.reverseRecOn generalizing post with
  | nil => exact ⟨by simp [run, bindings], by simp [run]⟩
  | append_singleton pre d ih =>
    have hsplit : file = pre ++ d :: post := by simpa using hpre
    obtain ⟨hgrows, hclosed⟩ := analyzeDecl_grows settings (run settings pre) d fun vis hd =>
      hsmall vis (by simp [hsplit, hd])
    rw [run, List.foldl_append]
    exact (ih hsplit).step h hnd hsplit hgrows hclosed

theorem insertIf_other (h : vi.id ≠ n) : insertIf b vi effects n = effects n := by
  unfold insertIf
  split
  · exact Function.update_of_ne (Ne.symm h) _ _
  · rfl

/-- A declaration leaves the status of what it does not bind. -/
theorem analyzeDecl_other (settings : Settings) (st : State) (d : Declaration)
    (h : ∀ vi ∈ declBindings d, vi.id ≠ n) :
    (analyzeDecl settings st d).1.writers n = st.writers n := by
  cases d with
  | val vi => exact insertIf_other (h vi (List.mem_singleton_self vi))
  | valRec vis =>
    refine Rounds.loop_keeps (P := fun st' : State => st'.writers n = st.writers n) (fun s hs => ?_) _ rfl
    refine Rounds.round_keeps (P := fun st' : State => st'.writers n = st.writers n) (fun s vi hvi hs => ?_) hs
    exact (insertIf_other (h vi hvi)).trans hs
  | «export» ek => cases ek <;> rfl
  | _ => rfl

theorem run_other (settings : Settings) (pre post : File) (h : ∀ vi ∈ bindings post, vi.id ≠ n) :
    (run settings (pre ++ post)).writers n = (run settings pre).writers n := by
  induction post using List.reverseRecOn with
  | nil => rw [List.append_nil]
  | append_singleton post d ih =>
    rw [bindings_concat] at h
    obtain ⟨hpost, hd⟩ := List.forall_mem_append.mp h
    rw [← List.append_assoc, run, List.foldl_append]
    exact (analyzeDecl_other settings _ d hd).trans (ih hpost)

theorem mem_annotated (settings : Settings) (st : State) (file : File) :
    x ∈ (analyzeFile settings st file).1 ↔ ∃ pre d post, file = pre ++ d :: post ∧
      x = (analyzeDecl settings (pre.foldl (fun st d => (analyzeDecl settings st d).1) st) d).2.1 := by
  induction file generalizing st with
  | nil => simp [analyzeFile]
  | cons d file ih =>
    simp only [analyzeFile, List.mem_cons, ih, List.cons_eq_append_iff]
    constructor
    · rintro (rfl | ⟨pre, d', post, rfl, rfl⟩)
      · exact ⟨[], d, file, .inl ⟨rfl, rfl⟩, rfl⟩
      · exact ⟨d :: pre, d', post, .inr ⟨pre, rfl, rfl⟩, rfl⟩
    · rintro ⟨pre, d', post, ⟨rfl, hd⟩ | ⟨pre', rfl, rfl⟩, rfl⟩
      · obtain ⟨rfl, rfl⟩ := List.cons.inj hd
        exact .inl rfl
      · exact .inr ⟨pre', d', post, rfl, rfl⟩

theorem mem_errors (settings : Settings) (st : State) (file : File) :
    m ∈ (analyzeFile settings st file).2 ↔ ∃ pre d post, file = pre ++ d :: post ∧
      m ∈ (analyzeDecl settings (pre.foldl (fun st d => (analyzeDecl settings st d).1) st) d).2.2 := by
  induction file generalizing st with
  | nil => simp [analyzeFile]
  | cons d file ih =>
    simp only [analyzeFile, List.mem_append, ih, List.cons_eq_append_iff]
    constructor
    · rintro (hm | ⟨pre, d', post, rfl, hm⟩)
      · exact ⟨[], d, file, .inl ⟨rfl, rfl⟩, hm⟩
      · exact ⟨d :: pre, d', post, .inr ⟨pre, rfl, rfl⟩, hm⟩
    · rintro ⟨pre, d', post, ⟨rfl, hd⟩ | ⟨pre', rfl, rfl⟩, hm⟩
      · obtain ⟨rfl, rfl⟩ := List.cons.inj hd
        exact .inl hm
      · exact .inr ⟨pre', d', post, rfl, hm⟩

-- ---------------------------------------------------------------------------
-- Soundness
-- ---------------------------------------------------------------------------

section
variable (W : Execution.World) (settings : Settings) (file : File)

/-- The server, evaluating a value applied to what a request may bring, executes
an effectful function. -/
def Writes (n : Nat) : Prop :=
  ∃ depth args h o, (∀ v ∈ args, Execution.IsData v) ∧
    Execution.applied W (Execution.serverFile file) depth n args [] h o ∧
    ∃ p ∈ h, isEffectfulFfi settings p.1 p.2 = true

/-- The server's part of what a value leads to mentions an effectful function. -/
def MayWrite (n : Nat) : Prop :=
  ∃ p, Execution.MayExecute (Execution.serverFile file) n p ∧ isEffectfulFfi settings p.1 p.2 = true

def exportEffect : ExportKind → Effect
  | .link effect | .action effect | .rpc effect | .external effect => effect

/-- What is annotated as read-only does not write. -/
def ReadOnlySound : Prop :=
  ∀ ek n b, .export ek n b ∈ (effectize settings file).1 → exportEffect ek = .readOnly →
    ¬ Writes W settings file n

/-- What writes and is reached by GET is reported, unless its name is safe. -/
def LinksReported : Prop :=
  ∀ eff n b, .export (.link eff) n b ∈ file → Writes W settings file n →
    ∀ vi ∈ bindings file, vi.id = n →
      settings.isSafeGet vi.s = true ∨ sideEffectError vi.s ∈ (effectize settings file).2

end

theorem analyzeDecl_export (settings : Settings) (st : State) (ek : ExportKind) (n : Nat) (b : Bool) :
    (analyzeDecl settings st (.export ek n b)).2.1 = annotate st ek n := by
  cases ek <;> rfl

theorem exportEffect_annotate : exportEffect (withEffect effect ek) = effect := by
  cases ek <;> rfl

theorem computeEffect_readOnly {st : State} :
    computeEffect n st = .readOnly ↔ (st.writers n).isSome = false := by
  unfold computeEffect
  split <;> simp_all

/-- An annotated export is an export with the effect found so far. -/
theorem annotated_export {settings : Settings} {file : File}
    (h : .export ek n b ∈ (effectize settings file).1) : ∃ pre ek' b' post,
    file = pre ++ .export ek' n b' :: post ∧ ek = withEffect (computeEffect n (run settings pre)) ek' := by
  obtain ⟨pre, d, post, hsplit, hd⟩ := (mem_annotated settings _ file).mp h
  cases d with
  | «export» ek' n' b' =>
    rw [analyzeDecl_export, annotate, Declaration.export.injEq] at hd
    obtain ⟨hek, rfl, -⟩ := hd
    exact ⟨pre, ek', b', post, hsplit, hek⟩
  | _ => cases hd

/-- A page that deletes what is in a table, through a record field that is named
like a handler. -/
def save : ValBinding :=
  let delete : Expression := .abs "y" .unit .unit
    (.ffiApp "Basis" "dml" [(.prim (.string .normal "DELETE FROM t"), .ffi "Basis" "string")])
  let handlers : Expression := .record [(.name "OnSave", delete, .tFun .unit .unit)]
  let info : FieldMeta := ⟨.tFun .unit .unit, .record .type []⟩
  ⟨"save", 1, .tFun .unit .unit,
    .abs "x" .unit .unit (.app (.field handlers (.name "OnSave") info) (.rel 0)), "save"⟩

def saveFile : File := [.val save, .export (.link .readOnly) 1 false]

def dmlWrites : Settings := ⟨∅, {("Basis", "dml")}, ∅, false, ∅⟩

theorem save_runs : Execution.applied Execution.World.silent (Execution.serverFile saveFile) 3 1
    [.unit] [] [("Basis", "dml")] (.ret .unit) := by
  simp [Execution.applied, Execution.global, Execution.apply, Execution.callAndGlobal,
    Execution.globalWith, Execution.applyWith, Execution.evalWith, Execution.evalArgs,
    Execution.evalFields, Execution.serverFile, Execution.serverDecl, Execution.serverBinding,
    saveFile, save, File.body, Declaration.body, Expression.map, Expression.mapArgs, Expression.mapFields,
    Execution.serverNode, Behaviour.Run.all, Behaviour.Run.ofOption, Execution.World.silent,
    Execution.record, Execution.Value.field]
  exact ⟨_, rfl, rfl, rfl⟩

theorem save_writes : Writes Execution.World.silent dmlWrites saveFile 1 :=
  ⟨3, [.unit], _, _, by simpa [Execution.Value.unit] using Execution.IsData.node (by simp), save_runs,
    ("Basis", "dml"), List.mem_singleton_self _, by decide⟩

theorem effectize_save :
    ∃ b, .export (.link .readOnly) 1 b ∈ (effectize dmlWrites saveFile).1 := by
  have hclean : mentioned (dejsExp save.body) = [] ∧ relied (dejsExp save.body) = [] := by
    simp [dejsExp, Expression.map, Expression.mapFields, save, dejs, isKept, mentioned, relied, reliedAt,
      executed, Expression.nodes, Expression.fieldNodes]
  have hw : expHasWrite dmlWrites (fun _ => none) (dejsExp save.body) = false := by
    simpa using mt expHasWrite_iff.mp (by simp [hclean])
  simp [effectize, saveFile, analyzeFile, analyzeDecl, analyzeVal, hw, insertIf, annotate, computeEffect,
    withEffect]

end UrWeb.Core.EffectAnalysis
