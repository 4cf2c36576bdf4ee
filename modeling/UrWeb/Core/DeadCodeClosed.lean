import UrWeb.Core.DeadCodeWalks

/-!
# What the Core shaker keeps is closed, except where it does not look

The used ids are those that the definition maps reach from the roots, so a kept
declaration can mention an undefined id only at the places that neither the
maps nor the walks look at, or when slicing drops the id's own declaration.
-/

namespace UrWeb.Core.DeadCodeElimination

open UrWeb.Core Saturation

-- ---------------------------------------------------------------------------
-- Definition maps
-- ---------------------------------------------------------------------------

theorem mem_mergeIds (ids ids' : List Nat) :
    n ∈ ids'.foldl (fun ids id => if id ∈ ids then ids else ids ++ [id]) ids ↔
      n ∈ ids ∨ n ∈ ids' := by
  induction ids' generalizing ids with
  | nil => simp
  | cons a ids' ih =>
    rw [List.foldl_cons, ih]
    split
    · rename_i ha
      simp only [List.mem_cons]
      constructor
      · tauto
      · rintro (h | rfl | h)
        · exact .inl h
        · exact .inl ha
        · exact .inr h
    · simp only [List.mem_append, List.mem_cons, List.not_mem_nil, or_false]
      tauto

/-- Merged definitions mention what either mentions. -/
theorem mem_refs_merge (a b : ExpressionDef) :
    r ∈ (mergeExpressionDef a b).refs ↔ r ∈ a.refs ∨ r ∈ b.refs := by
  have hc := Constructor.listRefs_append a.constructorDeps b.constructorDeps
  have he := Expression.listRefs_append (fun _ => []) a.expressionDeps b.expressionDeps
  simp only [ExpressionDef.refs, mergeExpressionDef, walkedList, List.mem_append, hc, he,
    List.mem_map, mem_mergeIds, or_and_right, exists_or]
  grind

theorem mem_refs_insert (m : Nat → Option ExpressionDef) (id n : Nat) (d : ExpressionDef) :
    r ∈ (((insertExpressionDef m id d) n).map ExpressionDef.refs).getD [] ↔
      r ∈ ((m n).map ExpressionDef.refs).getD [] ∨ (id = n ∧ r ∈ d.refs) := by
  by_cases h : n = id
  · subst h
    cases hm : m n with
    | none => simp [insertExpressionDef, hm]
    | some a => simp [insertExpressionDef, hm, mem_refs_merge]
  · simp [insertExpressionDef, h, Ne.symm h]

/-- The maps hold every definition of a value id. -/
theorem mem_expRefs (file : File) (n : Nat) :
    r ∈ (buildDefinitionMaps file).expRefs n ↔
      ∃ d ∈ file, ∃ e ∈ expressionEntries d, e.1 = n ∧ r ∈ e.2.refs := by
  have hfold (l : List (Nat × ExpressionDef)) (m : Nat → Option ExpressionDef) :
      r ∈ (((l.foldl (fun m e => insertExpressionDef m e.1 e.2) m) n).map
        ExpressionDef.refs).getD [] ↔
        r ∈ ((m n).map ExpressionDef.refs).getD [] ∨ ∃ e ∈ l, e.1 = n ∧ r ∈ e.2.refs := by
    induction l generalizing m with
    | nil => simp
    | cons e l ih =>
      rw [List.foldl_cons, ih, mem_refs_insert]
      simp [or_assoc]
  simp only [Defs.expRefs, buildDefinitionMaps, hfold, Option.map_none, Option.getD_none,
    List.not_mem_nil, false_or, List.mem_flatMap]
  constructor
  · rintro ⟨e, ⟨d, hd, he⟩, hn, hr⟩
    exact ⟨d, hd, e, he, hn, hr⟩
  · rintro ⟨d, hd, e, he, hn, hr⟩
    exact ⟨e, ⟨d, hd, he⟩, hn, hr⟩

/-- No other definition in the file has the constructor id of this one. -/
def SingleConstructor (file : File) (e : Nat × List Constructor) : Prop :=
  ∀ e' ∈ file.flatMap constructorEntries, e'.1 = e.1 → e' = e

theorem conRefs_single (hd : d ∈ file) (he : e ∈ constructorEntries d)
    (h : SingleConstructor file e) :
    (buildDefinitionMaps file).conRefs e.1 = Constructor.listRefs e.2 := by
  have hmem : e ∈ file.flatMap constructorEntries := List.mem_flatMap.mpr ⟨d, hd, he⟩
  have := foldl_update_some (fun e : Nat × List Constructor => e.1) Prod.snd _ (fun _ => none)
    hmem h
  simp [Defs.conRefs, buildDefinitionMaps, this]

theorem shaker_con (file : File) (n : Nat) :
    Pass (buildDefinitionMaps file).succ Marks.nodes (fun _ => True) ((shaker file).con n)
      {.con n} := by
  have hU : ∀ m ∉ ((file.flatMap constructorEntries).map Prod.fst).toFinset,
      (buildDefinitionMaps file).constructorDefs m = none := fun m hm =>
    foldl_update_none _ _ _ _ fun e he hk =>
      hm (List.mem_toFinset.mpr (List.mem_map.mpr ⟨e, he, hk⟩))
  intro s _
  have hle := s.conLeft_le ((file.flatMap constructorEntries).map Prod.fst)
  rw [List.length_map] at hle
  exact ⟨trivial, (markConstructorUsed_pass hU _ n s ⟨trivial, hle⟩).2⟩

theorem foldl_insert_none (l : List (Nat × ExpressionDef)) (m : Nat → Option ExpressionDef)
    (h : ∀ e ∈ l, e.1 ≠ n) :
    l.foldl (fun m e => insertExpressionDef m e.1 e.2) m n = m n := by
  induction l generalizing m with
  | nil => rfl
  | cons e l ih =>
    rw [List.foldl_cons, ih _ fun c hc => h c (by simp [hc])]
    exact Function.update_of_ne (Ne.symm (h e (by simp))) _ _

theorem shaker_exp (file : File) (n : Nat) :
    Pass (buildDefinitionMaps file).succ Marks.nodes (fun _ => True) ((shaker file).exp n)
      {.exp n} := by
  have hU : ∀ m ∉ ((file.flatMap constructorEntries).map Prod.fst).toFinset,
      (buildDefinitionMaps file).constructorDefs m = none := fun m hm =>
    foldl_update_none _ _ _ _ fun e he hk =>
      hm (List.mem_toFinset.mpr (List.mem_map.mpr ⟨e, he, hk⟩))
  have hV : ∀ m ∉ ((file.flatMap expressionEntries).map Prod.fst).toFinset,
      (buildDefinitionMaps file).expressionDefs m = none := fun m hm =>
    foldl_insert_none _ _ fun e he hk =>
      hm (List.mem_toFinset.mpr (List.mem_map.mpr ⟨e, he, hk⟩))
  intro s _
  have hleU := s.conLeft_le ((file.flatMap constructorEntries).map Prod.fst)
  have hleV := s.expLeft_le ((file.flatMap expressionEntries).map Prod.fst)
  rw [List.length_map] at hleU hleV
  exact ⟨trivial, (markExpressionUsed_pass hU hV _ _ n s ⟨hleU, hleV⟩).2⟩

-- ---------------------------------------------------------------------------
-- Used ids
-- ---------------------------------------------------------------------------

/-- The roots as the walks see them. -/
def seenRoots (file : File) (sliceForDb : Bool) : Set Ref :=
  rootsOf (fun d => refSet (d.rootRefsWith (fun _ => []) sliceForDb)) file

/-- The ids that the definition maps reach from the roots. -/
def used (file : File) (sliceForDb : Bool) : Set Ref :=
  saturate (buildDefinitionMaps file).succ ∅ (seenRoots file sliceForDb)

theorem used_closed (file : File) (sliceForDb : Bool) :
    Closed (buildDefinitionMaps file).succ (used file sliceForDb) :=
  saturate_closed fun _ h => h.elim

theorem seedRoot_pass (file : File) (sliceForDb : Bool) (d : Declaration) :
    Pass (buildDefinitionMaps file).succ Marks.nodes (fun _ => True)
      (fun s => seedRoot (shaker file) sliceForDb s d)
      (refSet (d.rootRefsWith (fun _ => []) sliceForDb)) := by
  have hc := collectNamedFromConstructor_pass (shaker_con file)
  have hcs := collectConstructors_pass (shaker_con file)
  have he := collectNamedFromExpression_pass (shaker_con file) (shaker_exp file)
  have hes := collectExpressions_pass (shaker_con file) (shaker_exp file)
  cases d with
  | «export» _ n _ | onError n =>
    cases sliceForDb with
    | true => simpa [seedRoot, Declaration.rootRefsWith] using Pass.rfl
    | false =>
      simpa [seedRoot, Declaration.rootRefsWith, Declaration.refsWith] using shaker_exp file n
  | table td =>
    simp only [seedRoot, Declaration.rootRefsWith, Declaration.refsWith, TableDecl.refsWith,
      refSet_append]
    exact (hcs _).comp (hes _)
  | view _ _ _ e c =>
    simp only [seedRoot, Declaration.rootRefsWith, Declaration.refsWith, refSet_append]
    exact (hc c).comp (he e)
  | index e1 e2 => exact hes _
  | task e1 e2 =>
    cases sliceForDb with
    | true => simpa [seedRoot, Declaration.rootRefsWith] using Pass.rfl
    | false => exact hes _
  | policy e =>
    cases sliceForDb with
    | true => simpa [seedRoot, Declaration.rootRefsWith] using Pass.rfl
    | false => exact he e
  | _ => simpa [seedRoot, Declaration.rootRefsWith] using Pass.rfl

/-- The used sets of a run are the ids reached from the roots. -/
theorem usedIds_nodes (file : File) (sliceForDb : Bool) :
    (usedIds file sliceForDb).nodes = used file sliceForDb := by
  have hpass : Pass (buildDefinitionMaps file).succ Marks.nodes (fun _ => True)
      (fun s => file.foldl (seedRoot (shaker file) sliceForDb) s) (seenRoots file sliceForDb) :=
    Pass.foldl file fun d _ => seedRoot_pass file sliceForDb d
  have := (hpass .empty trivial).2
  rwa [Marks.nodes_empty] at this

/-- The declarations the pass keeps. -/
def Kept (file : File) (sliceForDb : Bool) : Declaration → Prop
  | .constructor _ id _ _ => .con id ∈ used file sliceForDb
  | .datatype dts => ∃ dt ∈ dts, .con dt.id ∈ used file sliceForDb
  | .val vi => .exp vi.id ∈ used file sliceForDb
  | .valRec vis => ∃ vi ∈ vis, .exp vi.id ∈ used file sliceForDb
  | .view _ _ _ _ _ | .index _ _ | .sequence _ _ _ | .table _ => True
  | _ => sliceForDb = false

theorem keep_iff (file : File) (sliceForDb : Bool) (d : Declaration) :
    shouldKeepDeclaration (usedIds file sliceForDb) sliceForDb d = true ↔
      Kept file sliceForDb d := by
  cases d <;> simp [shouldKeepDeclaration, Kept, ← usedIds_nodes]

theorem mem_shake {file : File} {sliceForDb : Bool} :
    d ∈ shakeWithOptions file sliceForDb ↔ d ∈ file ∧ Kept file sliceForDb d := by
  simp [shakeWithOptions, keep_iff]

-- ---------------------------------------------------------------------------
-- What the used ids leave open
-- ---------------------------------------------------------------------------

/-- The places of a declaration that no walk looks at: the payloads of a
datatype that only its group keeps, any definition of a constructor id that has
another one, the constructor of a built value, and the type of a cookie that
nothing uses. When slicing, also the ids of what slicing drops. -/
inductive Overlooked (file : File) (sliceForDb : Bool) : Declaration → Ref → Prop
  | unusedDatatype : dt ∈ dts → .con dt.id ∉ used file sliceForDb → r ∈ dt.refs →
      Overlooked file sliceForDb (.datatype dts) r
  | sharedDatatype : dt ∈ dts → ¬ SingleConstructor file (dt.id, dt.payloads) → r ∈ dt.refs →
      Overlooked file sliceForDb (.datatype dts) r
  | sharedConstructor : ¬ SingleConstructor file (n, [body]) → r ∈ body.refs →
      Overlooked file sliceForDb (.constructor x n k body) r
  | builtValue : r ∈ d.refs → r ∉ d.refsWith (fun _ => []) → Overlooked file sliceForDb d r
  | unusedCookie : .exp n ∉ used file sliceForDb → r ∈ t.refs →
      Overlooked file sliceForDb (.cookie x n t s) r
  | sliced : sliceForDb = true → r ∈ d.refs →
      (∀ d' ∈ file, r ∈ d'.defines → (∃ x id t s, d' = .cookie x id t s) ∨
        ∃ x id s, d' = .style x id s) → Overlooked file sliceForDb d r

theorem Overlooked.mem_refs (h : Overlooked file sliceForDb d r) : r ∈ d.refs := by
  cases h with
  | unusedDatatype hd _ hr | sharedDatatype hd _ hr => exact List.mem_flatMap.mpr ⟨_, hd, hr⟩
  | sharedConstructor _ hr | builtValue hr _ | unusedCookie _ hr | sliced _ hr _ => exact hr

/-- What a value entry of a kept declaration mentions is used. -/
theorem entry_used {file : File} {sliceForDb : Bool} (hd : d ∈ file)
    (he : e ∈ expressionEntries d) (hu : .exp e.1 ∈ used file sliceForDb) (hr : r ∈ e.2.refs) :
    r ∈ used file sliceForDb :=
  used_closed file sliceForDb _ hu ((mem_expRefs file e.1).mpr ⟨d, hd, e, he, rfl, hr⟩)

theorem valDef_refs (ids : List Nat) (vi : ValBinding) (hr : r ∈ vi.refsWith fun _ => []) :
    r ∈ (⟨ids, [vi.t], [vi.body]⟩ : ExpressionDef).refs := by
  simp only [ValBinding.refsWith, List.mem_append] at hr
  simp only [ExpressionDef.refs, List.mem_append, Constructor.listRefs, Expression.listRefs,
    List.append_nil]
  tauto

/-- One used member makes the whole group used. -/
theorem group_used {file : File} {sliceForDb : Bool} (hd : .valRec vis ∈ file) (hv : vi ∈ vis)
    (hu : .exp vi.id ∈ used file sliceForDb) (hw : wi ∈ vis) :
    .exp wi.id ∈ used file sliceForDb := by
  refine entry_used hd (e := (vi.id, ⟨vis.map ValBinding.id, [vi.t], [vi.body]⟩))
    (List.mem_map.mpr ⟨vi, hv, rfl⟩) hu ?_
  refine List.mem_append_right _ ?_
  exact List.mem_map.mpr ⟨_, List.mem_map.mpr ⟨wi, hw, rfl⟩, rfl⟩

theorem constructor_used {file : File} {sliceForDb : Bool} (hd : d ∈ file)
    (he : e ∈ constructorEntries d) (hs : SingleConstructor file e)
    (hu : .con e.1 ∈ used file sliceForDb) (hr : r ∈ Constructor.listRefs e.2) :
    r ∈ used file sliceForDb := by
  refine used_closed file sliceForDb _ hu ?_
  simpa [Defs.succ, conRefs_single hd he hs] using hr

theorem roots_used {file : File} {sliceForDb : Bool} (hd : d ∈ file)
    (hr : r ∈ d.rootRefsWith (fun _ => []) sliceForDb) : r ∈ used file sliceForDb :=
  roots_subset_saturate ⟨d, hd, hr⟩

/-- What a kept declaration mentions is used, or sits where no walk looks. -/
theorem kept_refs {file : File} {sliceForDb : Bool} (hd : d ∈ file) (hk : Kept file sliceForDb d)
    (hr : r ∈ d.refs) : Overlooked file sliceForDb d r ∨ r ∈ used file sliceForDb := by
  by_cases hseen : r ∈ d.refsWith fun _ => []
  swap
  · exact .inl (.builtValue hr hseen)
  cases d with
  | constructor x id k body =>
    by_cases hs : SingleConstructor file (id, [body])
    · refine .inr (constructor_used hd (List.mem_singleton.mpr rfl) hs hk ?_)
      have hbody : r ∈ body.refs := hr
      simpa [Constructor.listRefs] using hbody
    · exact .inl (.sharedConstructor hs hr)
  | datatype dts =>
    obtain ⟨dt, hdt, hr⟩ := List.mem_flatMap.mp hr
    by_cases hs : SingleConstructor file (dt.id, dt.payloads)
    · by_cases hu : .con dt.id ∈ used file sliceForDb
      · exact .inr (constructor_used hd (List.mem_map.mpr ⟨dt, hdt, rfl⟩) hs hu hr)
      · exact .inl (.unusedDatatype hdt hu hr)
    · exact .inl (.sharedDatatype hdt hs hr)
  | val vi => exact .inr (entry_used hd (List.mem_singleton.mpr rfl) hk (valDef_refs _ vi hseen))
  | valRec vis =>
    obtain ⟨vi, hvi, hu⟩ := hk
    obtain ⟨wi, hwi, hr⟩ := List.mem_flatMap.mp hseen
    exact .inr (entry_used hd (List.mem_map.mpr ⟨wi, hwi, rfl⟩) (group_used hd hvi hu hwi)
      (valDef_refs _ wi hr))
  | cookie x id t s =>
    by_cases hu : .exp id ∈ used file sliceForDb
    · refine .inr (entry_used hd (List.mem_singleton.mpr rfl) hu ?_)
      simpa [ExpressionDef.refs, Constructor.listRefs, Expression.listRefs,
        Declaration.refsWith] using hr
    · exact .inl (.unusedCookie hu hr)
  | table | view | index => exact .inr (roots_used hd hseen)
  | «export» | onError | task | policy =>
    obtain rfl : sliceForDb = false := hk
    exact .inr (roots_used hd hseen)
  | «sequence» | database | style => simp [Declaration.refsWith] at hr

/-- A used id keeps what defines it, cookies and styles of a slice apart. -/
theorem used_kept {file : File} {sliceForDb : Bool} (hr : r ∈ d.defines)
    (hu : r ∈ used file sliceForDb) : Kept file sliceForDb d ∨ sliceForDb = true ∧
      ((∃ x id t s, d = .cookie x id t s) ∨ ∃ x id s, d = .style x id s) := by
  cases d with
  | constructor x id k body =>
    obtain rfl := List.mem_singleton.mp hr
    exact .inl hu
  | datatype dts =>
    obtain ⟨dt, hdt, rfl⟩ := List.mem_map.mp hr
    exact .inl ⟨dt, hdt, hu⟩
  | val vi =>
    obtain rfl := List.mem_singleton.mp hr
    exact .inl hu
  | valRec vis =>
    obtain ⟨vi, hvi, rfl⟩ := List.mem_map.mp hr
    exact .inl ⟨vi, hvi, hu⟩
  | table | view | «sequence» => exact .inl trivial
  | cookie x id t s =>
    cases sliceForDb with
    | true => exact .inr ⟨rfl, .inl ⟨x, id, t, s, rfl⟩⟩
    | false => exact .inl rfl
  | style x id s =>
    cases sliceForDb with
    | true => exact .inr ⟨rfl, .inr ⟨x, id, s, rfl⟩⟩
    | false => exact .inl rfl
  | _ => simp [Declaration.defines] at hr

/-- In a file where every id mentioned is defined, the output is closed exactly
if every id at an overlooked place of a kept declaration is defined by one. -/
theorem refsClosed_iff (file : File) (h : RefsClosed file) (sliceForDb : Bool) :
    RefsClosed (shakeWithOptions file sliceForDb) ↔
      ∀ d ∈ file, Kept file sliceForDb d → ∀ r, Overlooked file sliceForDb d r →
        ∃ d' ∈ file, Kept file sliceForDb d' ∧ r ∈ d'.defines := by
  constructor
  · intro hc d hd hk r hr
    obtain ⟨d', hd', hdef⟩ := hc d (mem_shake.mpr ⟨hd, hk⟩) r hr.mem_refs
    exact ⟨d', (mem_shake.mp hd').1, (mem_shake.mp hd').2, hdef⟩
  · intro hc d hd r hr
    obtain ⟨hd, hk⟩ := mem_shake.mp hd
    by_contra hopen
    have hno : ∀ d' ∈ file, r ∈ d'.defines → ¬ Kept file sliceForDb d' := fun d' hd' hdef hk' =>
      hopen ⟨d', mem_shake.mpr ⟨hd', hk'⟩, hdef⟩
    have hover : Overlooked file sliceForDb d r := by
      rcases kept_refs hd hk hr with ho | hu
      · exact ho
      · obtain ⟨d', hd', hdef⟩ := h d hd r hr
        have hs := ((used_kept hdef hu).resolve_left (hno d' hd' hdef)).1
        exact .sliced hs hr fun e he hdef' =>
          ((used_kept hdef' hu).resolve_left (hno e he hdef')).2
    obtain ⟨d', hd', hk', hdef⟩ := hc d hd hk r hover
    exact hno d' hd' hdef hk'

-- ---------------------------------------------------------------------------
-- What is reachable from the roots
-- ---------------------------------------------------------------------------

/-- The ids reached from `roots` through the declarations that define them. -/
inductive Reachable (file : File) (roots : Set Ref) : Ref → Prop
  | root : r ∈ roots → Reachable file roots r
  | step : Reachable file roots r → d ∈ file → r' ∈ d.refsOf r → Reachable file roots r'

/-- What the root declarations of normal mode mention. -/
def roots (file : File) : Set Ref :=
  rootsOf (fun d => refSet (d.rootRefsWith PatternConstructor.refs false)) file

/-- A reachable place that no walk looks at: in the constructor of a built
value, or in a definition of a constructor id that has another one. -/
inductive Missed (file : File) : Ref → Prop
  | root : d ∈ file → r ∈ d.rootRefsWith PatternConstructor.refs false →
      r ∉ d.rootRefsWith (fun _ => []) false → Missed file r
  | builtValue : Reachable file (roots file) r' → d ∈ file → r ∈ d.refsOf r' →
      r ∉ d.refsOfWith (fun _ => []) r' → Missed file r
  | shared : Reachable file (roots file) (.con e.1) → d ∈ file → e ∈ constructorEntries d →
      ¬ SingleConstructor file e → r ∈ Constructor.listRefs e.2 → Missed file r

theorem Reachable.mentioned (h : Reachable file (roots file) r) : ∃ d ∈ file, r ∈ d.refs := by
  cases h with
  | root h =>
    obtain ⟨d, hd, hr⟩ := h
    exact ⟨d, hd, Declaration.rootRefs_subset hr⟩
  | step _ hd hr => exact ⟨_, hd, Declaration.refsOf_subset hr⟩

/-- A constructor entry, read off what a declaration mentions in defining an id. -/
theorem constructor_entry {pcr : PatternConstructor → List Ref} {d : Declaration}
    (h : r ∈ d.refsOfWith pcr (.con n)) :
    ∃ e ∈ constructorEntries d, e.1 = n ∧ r ∈ Constructor.listRefs e.2 := by
  cases d with
  | constructor x id k body =>
    simp only [Declaration.refsOfWith] at h
    split at h
    next heq =>
      refine ⟨(id, [body]), List.mem_singleton.mpr rfl, (Ref.con.inj heq).symm, ?_⟩
      simpa [Constructor.listRefs] using h
    next => simp at h
  | datatype dts =>
    simp only [Declaration.refsOfWith, List.mem_flatMap] at h
    obtain ⟨dt, hdt, h⟩ := h
    split at h
    next heq =>
      exact ⟨(dt.id, dt.payloads), List.mem_map.mpr ⟨dt, hdt, rfl⟩, (Ref.con.inj heq).symm, h⟩
    next => simp at h
  | _ => simp [Declaration.refsOfWith] at h

theorem expression_entry {d : Declaration} (h : r ∈ d.refsOfWith (fun _ => []) (.exp n)) :
    ∃ e ∈ expressionEntries d, e.1 = n ∧ r ∈ e.2.refs := by
  cases d with
  | val vi =>
    simp only [Declaration.refsOfWith] at h
    split at h
    next heq =>
      exact ⟨_, List.mem_singleton.mpr rfl, (Ref.exp.inj heq).symm, valDef_refs _ vi h⟩
    next => simp at h
  | valRec vis =>
    simp only [Declaration.refsOfWith, List.mem_flatMap] at h
    obtain ⟨vi, hvi, h⟩ := h
    split at h
    next heq =>
      exact ⟨_, List.mem_map.mpr ⟨vi, hvi, rfl⟩, (Ref.exp.inj heq).symm, valDef_refs _ vi h⟩
    next => simp at h
  | table td =>
    simp only [Declaration.refsOfWith] at h
    split at h
    next heq =>
      refine ⟨_, List.mem_singleton.mpr rfl, (Ref.exp.inj heq).symm, ?_⟩
      exact List.mem_append_left _ h
    next => simp at h
  | view x id s e c =>
    simp only [Declaration.refsOfWith] at h
    split at h
    next heq =>
      refine ⟨_, List.mem_singleton.mpr rfl, (Ref.exp.inj heq).symm, ?_⟩
      simpa [ExpressionDef.refs, Constructor.listRefs, Expression.listRefs] using h
    next => simp at h
  | cookie x id t s =>
    simp only [Declaration.refsOfWith] at h
    split at h
    next heq =>
      refine ⟨_, List.mem_singleton.mpr rfl, (Ref.exp.inj heq).symm, ?_⟩
      simpa [ExpressionDef.refs, Constructor.listRefs, Expression.listRefs] using h
    next => simp at h
  | _ => simp [Declaration.refsOfWith] at h

/-- A reachable id is used, or reached from a place that no walk looks at. -/
theorem Reachable.used_or_missed (h : Reachable file (roots file) r) :
    r ∈ used file false ∨ ∃ m, Missed file m ∧ Reachable file {m} r := by
  induction h with
  | @root r h =>
    obtain ⟨d, hd, hr⟩ := h
    by_cases hseen : r ∈ d.rootRefsWith (fun _ => []) false
    · exact .inl (roots_used hd hseen)
    · exact .inr ⟨r, .root hd hr hseen, .root rfl⟩
  | @step r d r' hreach hd hr ih =>
    rcases ih with hu | ⟨m, hm, hreach'⟩
    swap
    · exact .inr ⟨m, hm, hreach'.step hd hr⟩
    cases r with
    | con n =>
      obtain ⟨e, he, rfl, hre⟩ := constructor_entry hr
      by_cases hs : SingleConstructor file e
      · exact .inl (constructor_used hd he hs hu hre)
      · exact .inr ⟨r', .shared hreach hd he hs hre, .root rfl⟩
    | exp n =>
      by_cases hseen : r' ∈ d.refsOfWith (fun _ => []) (.exp n)
      · obtain ⟨e, he, rfl, hre⟩ := expression_entry hseen
        exact .inl (entry_used hd he hu hre)
      · exact .inr ⟨r', .builtValue hreach hd hr hseen, .root rfl⟩

theorem Missed.reachable (h : Missed file m) : Reachable file (roots file) m := by
  cases h with
  | root hd hr _ => exact .root ⟨_, hd, hr⟩
  | builtValue hreach hd hr _ => exact hreach.step hd hr
  | shared hreach hd he _ hr =>
    rename_i e d _
    refine hreach.step hd ?_
    cases d with
    | constructor x id k body =>
      obtain rfl := List.mem_singleton.mp he
      simpa [Declaration.refsOfWith, Constructor.listRefs] using hr
    | datatype dts =>
      obtain ⟨dt, hdt, rfl⟩ := List.mem_map.mp he
      exact List.mem_flatMap.mpr ⟨dt, hdt, by simpa [DatatypeDecl.refs] using hr⟩
    | _ => simp [constructorEntries] at he

theorem Reachable.trans (h : Reachable file {m} r) (hm : Reachable file s m) :
    Reachable file s r := by
  induction h with
  | root h => exact h ▸ hm
  | step _ hd hr ih => exact ih.step hd hr

/-- Everything reachable is kept exactly if everything reachable from a missed
place is. -/
theorem reachable_kept_iff (file : File) (h : RefsClosed file) :
    (∀ r, Reachable file (roots file) r → ∃ d ∈ shake file, r ∈ d.defines) ↔
      ∀ m, Missed file m → ∀ r, Reachable file {m} r → ∃ d ∈ shake file, r ∈ d.defines := by
  constructor
  · exact fun hk m hm r hr => hk r (hr.trans hm.reachable)
  · intro hk r hr
    rcases hr.used_or_missed with hu | ⟨m, hm, hreach⟩
    · obtain ⟨d, hd, hrd⟩ := hr.mentioned
      obtain ⟨d', hd', hdef⟩ := h d hd r hrd
      have hkept := (used_kept hdef hu).resolve_right (by simp)
      exact ⟨d', mem_shake.mpr ⟨hd', hkept⟩, hdef⟩
    · exact hk m hm r hreach

/-- The function at id 5 takes `D1`, whose group also holds `D2` over `D3`; no
other declaration mentions `D2`. -/
def unusedMemberFile : File :=
  let v : DatatypeDecl := ⟨"D3", 3, [], [("C3", 13, none)]⟩
  let used : DatatypeDecl := ⟨"D1", 1, [], [("C1", 11, none)]⟩
  let unused : DatatypeDecl := ⟨"D2", 2, [], [("C2", 12, some (.named 3))]⟩
  [.datatype [v], .datatype [used, unused],
    .val ⟨"f", 5, .tFun (.named 1) .unit, .abs "x" (.named 1) .unit (.record []), "f"⟩,
    .export (.link .readOnly) 5 false]

end UrWeb.Core.DeadCodeElimination
