import UrWeb.Mono.ShakeWalks

/-!
# What the Mono shake keeps is closed, except where it does not look

The marks of a whole run are those of an abstract pass over the reference
graph, and a kept declaration can mention an undefined id only at the places
that pass never looks at.
-/

namespace UrWeb.Mono.Shake

open UrWeb.Mono Saturation

-- ---------------------------------------------------------------------------
-- Direct reachability
-- ---------------------------------------------------------------------------

/-- What a root declaration seeds. The types of an export are not among it. -/
def rootRefs : Decl → List Ref
  | .export _ _ n _ _ _ | .onError n => [.exp n]
  | .database _ expunge initial _ => [.exp expunge, .exp initial]
  | .task e1 e2 => e1.refs ++ e2.refs
  | .table _ xts e1 e2 => Typ.fieldRefs xts ++ e1.refs ++ e2.refs
  | .view _ xts e => Typ.fieldRefs xts ++ e.refs
  | .policy pol => pol.exp.refs
  | _ => []

/-- The ids reached from the root declarations through definitions. -/
def direct (decls : List Decl) : Set Ref :=
  saturate (buildDefs decls).succ ∅ (rootsOf (fun d => refSet (rootRefs d)) decls)

theorem direct_closed (decls : List Decl) : Closed (buildDefs decls).succ (direct decls) :=
  saturate_closed (by simp)

theorem roots_subset_direct (hd : d ∈ decls) : refSet (rootRefs d) ⊆ direct decls :=
  fun _ hr => roots_subset_saturate ⟨d, hd, hr⟩

theorem seedDecl_nodes {decls : List Decl} {T : Set Ref}
    (hT : Closed (buildDefs decls).succ T) (s : Free) (d : Decl) :
    s.nodes ∪ refSet (rootRefs d) ⊆ (seedDecl (visitor decls) s d).nodes ∧
      (s.nodes ∪ refSet (rootRefs d) ⊆ T → (seedDecl (visitor decls) s d).nodes ⊆ T) := by
  have hwalk (roots : Set Ref) :
      s.nodes ∪ roots ⊆ saturate (buildDefs decls).succ s.nodes roots ∧
        (s.nodes ∪ roots ⊆ T → saturate (buildDefs decls).succ s.nodes roots ⊆ T) :=
    ⟨Set.union_subset subset_saturate roots_subset_saturate, fun h =>
      saturate_subset (Set.subset_union_left.trans h) (Set.subset_union_right.trans h) hT⟩
  cases d with
  | «export» _ _ n _ _ _ => simp [seedDecl, rootRefs]
  | onError n => simp [seedDecl, rootRefs]
  | database _ expunge initial _ =>
    have hraw : ((s.markExp expunge).markExp initial).nodes =
        s.nodes ∪ refSet [.exp expunge, .exp initial] := by
      ext r; simp; tauto
    simp [seedDecl, rootRefs, hraw, -Marks.nodes_markExp]
  | task e1 e2 =>
    simp only [seedDecl, rootRefs, refSet_append, shakeExp_nodes, ← saturate_union]
    exact hwalk _
  | table _ xts e1 e2 =>
    simp only [seedDecl, rootRefs, refSet_append, shakeExp_nodes, shakeFields_nodes,
      ← saturate_union]
    exact hwalk _
  | view _ xts e =>
    simp only [seedDecl, rootRefs, refSet_append, shakeExp_nodes, shakeFields_nodes,
      ← saturate_union]
    exact hwalk _
  | policy pol =>
    simp only [seedDecl, rootRefs, shakeExp_nodes]
    exact hwalk _
  | _ => simp [seedDecl, rootRefs]

theorem seed_nodes (decls l : List Decl) {T : Set Ref} (hT : Closed (buildDefs decls).succ T)
    (s : Free) (h : s.nodes ∪ rootsOf (fun d => refSet (rootRefs d)) l ⊆ T) :
    s.nodes ∪ rootsOf (fun d => refSet (rootRefs d)) l ⊆
        (l.foldl (seedDecl (visitor decls)) s).nodes ∧
      (l.foldl (seedDecl (visitor decls)) s).nodes ⊆ T := by
  induction l generalizing s with
  | nil => simpa using h
  | cons d l ih =>
    rw [rootsOf_cons, ← Set.union_assoc] at h ⊢
    obtain ⟨hlow, hhigh⟩ := seedDecl_nodes hT s d
    have hin := hhigh (Set.subset_union_left.trans h)
    obtain ⟨h1, h2⟩ := ih _ (Set.union_subset hin (Set.subset_union_right.trans h))
    exact ⟨(Set.union_subset_union_left _ hlow).trans h1, h2⟩

theorem expandCons_nodes (order : HashOrder) (decls : List Decl) (s : Free) :
    (expandCons order (buildDefs decls) (visitor decls) s).nodes =
      saturate (buildDefs decls).succ s.nodes
        (rootsOf (fun n => (buildDefs decls).succ (.con n)) (order.walk s.con)) := by
  refine (Pass.foldl (Q := fun _ => True) (order.walk s.con) (fun n _ => ?_) s trivial).2
  cases hd : (buildDefs decls).cdef n with
  | none => simpa [Defs.succ, Defs.conRefs, hd] using Pass.rfl
  | some xncs =>
    simpa [Defs.succ, Defs.conRefs, hd] using shakeConstrs_pass (visitor_con decls) xncs

theorem expandExps_nodes (order : HashOrder) (decls : List Decl) (s : Free) :
    (expandExps order (buildDefs decls) (visitor decls) s).nodes =
      saturate (buildDefs decls).succ s.nodes
        (rootsOf (fun n => (buildDefs decls).succ (.exp n)) (order.walk s.exp)) := by
  refine (Pass.foldl (Q := fun _ => True) (order.walk s.exp) (fun n _ => ?_) s trivial).2
  cases hd : (buildDefs decls).edef n with
  | none => simpa [Defs.succ, Defs.expRefs, hd] using Pass.rfl
  | some d =>
    simpa [Defs.succ, Defs.expRefs, hd] using
      (shakeTyp_pass (visitor_con decls) d.1).comp
        (shakeExp_pass (visitor_con decls) (visitor_exp decls) d.2)

/-- Seeding leaves exported ids unexpanded; the two expansions make up for it. -/
theorem expand_seed_nodes (order : HashOrder) (decls : List Decl) :
    (expandExps order (buildDefs decls) (visitor decls)
      (expandCons order (buildDefs decls) (visitor decls)
        (decls.foldl (seedDecl (visitor decls)) .empty))).nodes = direct decls := by
  have hD := direct_closed decls
  have hroots : Marks.empty.nodes ∪ rootsOf (fun d => refSet (rootRefs d)) decls ⊆ direct decls := by
    rw [Marks.nodes_empty, Set.empty_union]
    exact roots_subset_saturate
  obtain ⟨hlow, hhigh⟩ := seed_nodes decls decls hD .empty hroots
  rw [Marks.nodes_empty, Set.empty_union] at hlow
  generalize decls.foldl (seedDecl (visitor decls)) .empty = s at hlow hhigh
  have hcons := expandCons_nodes order decls s
  generalize expandCons order (buildDefs decls) (visitor decls) s = s' at hcons
  have hexps := expandExps_nodes order decls s'
  generalize expandExps order (buildDefs decls) (visitor decls) s' = s'' at hexps
  have hsub : s.nodes ⊆ s'.nodes := hcons ▸ subset_saturate
  have hsub' : s'.nodes ⊆ s''.nodes := hexps ▸ subset_saturate
  have hs' : s'.nodes ⊆ direct decls := by
    rw [hcons]
    refine saturate_subset hhigh ?_ hD
    rintro r ⟨n, hn, hr⟩
    exact hD _ (hhigh (show Ref.con n ∈ s.nodes from (order.mem_walk).mp hn)) hr
  refine Set.Subset.antisymm ?_ ?_
  · rw [hexps]
    refine saturate_subset hs' ?_ hD
    rintro r ⟨n, hn, hr⟩
    exact hD _ (hs' (show Ref.exp n ∈ s'.nodes from (order.mem_walk).mp hn)) hr
  · refine saturate_subset (by simp) (hlow.trans (hsub.trans hsub')) ?_
    rw [hexps]
    refine saturate_closed fun x hx => ?_
    cases x with
    | exp n =>
      intro r hr
      exact roots_subset_saturate ⟨n, order.mem_walk.mpr hx, hr⟩
    | con n =>
      intro r hr
      refine subset_saturate ?_
      rw [hcons] at hx ⊢
      by_cases hs : Ref.con n ∈ s.nodes
      · exact roots_subset_saturate ⟨n, order.mem_walk.mpr hs, hr⟩
      · exact succ_subset_saturate hx hs hr

-- ---------------------------------------------------------------------------
-- Pulling in recursive groups
-- ---------------------------------------------------------------------------

open Classical in
/-- A member pulled in by its group: the body is walked, the type is not. -/
noncomputable def pull (succ : Ref → Set Ref) (S : Set Ref) (vi : ValBinding) : Set Ref :=
  if .exp vi.n ∈ S then S else saturate succ (insert (.exp vi.n) S) (refSet vi.e.refs)

open Classical in
noncomputable def pullDecl (succ : Ref → Set Ref) (S : Set Ref) : Decl → Set Ref
  | .valRec vis => if ∃ vi ∈ vis, .exp vi.n ∈ S then vis.foldl (pull succ) S else S
  | _ => S

/-- The ids of a file that the pass marks: those reached directly, and then what
at most 10,000 passes over the recursive groups pull in. -/
@[irreducible] noncomputable def marked (decls : List Decl) : Set Ref :=
  (fun S => decls.foldl (pullDecl (buildDefs decls).succ) S)^[maxShakeValrecIterations]
    (direct decls)

theorem pullMember_nodes (decls : List Decl) (s : Free × Bool) (vi : ValBinding) :
    (pullMember (visitor decls) s vi).1.nodes = pull (buildDefs decls).succ s.1.nodes vi := by
  by_cases h : vi.n ∈ s.1.exp
  · simp [pullMember, pull, h]
  · simp [pullMember, pull, h, shakeExp_nodes, Marks.nodes_markExp]

theorem pullGroup_nodes (decls : List Decl) (s : Free × Bool) (d : Decl) :
    (pullGroup (visitor decls) s d).1.nodes = pullDecl (buildDefs decls).succ s.1.nodes d := by
  cases d with
  | valRec vis =>
    have hfold (s : Free × Bool) (vis : List ValBinding) :
        (vis.foldl (pullMember (visitor decls)) s).1.nodes =
          vis.foldl (pull (buildDefs decls).succ) s.1.nodes := by
      induction vis generalizing s with
      | nil => rfl
      | cons vi vis ih => rw [List.foldl_cons, List.foldl_cons, ih, pullMember_nodes]
    by_cases h : ∃ vi ∈ vis, vi.n ∈ s.1.exp
    · simp [pullGroup, pullDecl, h, hfold]
    · simp [pullGroup, pullDecl, h]
  | _ => rfl

theorem pullGroups_step_nodes (decls l : List Decl) (s : Free × Bool) :
    (l.foldl (pullGroup (visitor decls)) s).1.nodes =
      l.foldl (pullDecl (buildDefs decls).succ) s.1.nodes := by
  induction l generalizing s with
  | nil => rfl
  | cons d l ih => rw [List.foldl_cons, List.foldl_cons, ih, pullGroup_nodes]

theorem foldl_unchanged {step : Free × Bool → β → Free × Bool}
    (h : ∀ s b, (step s b).2 = false → step s b = s) (l : List β) (s : Free × Bool)
    (hs : (l.foldl step s).2 = false) : l.foldl step s = s := by
  induction l generalizing s with
  | nil => rfl
  | cons b l ih =>
    rw [List.foldl_cons] at hs ⊢
    have heq := ih _ hs
    rw [heq] at hs ⊢
    exact h s b hs

theorem pullMember_unchanged (v : Visit) (s : Free × Bool) (vi : ValBinding)
    (h : (pullMember v s vi).2 = false) : pullMember v s vi = s := by
  by_cases hm : vi.n ∈ s.1.exp
  · simp [pullMember, hm]
  · simp [pullMember, hm] at h

theorem pullGroup_unchanged (v : Visit) (s : Free × Bool) (d : Decl)
    (h : (pullGroup v s d).2 = false) : pullGroup v s d = s := by
  cases d with
  | valRec vis =>
    by_cases hm : ∃ vi ∈ vis, vi.n ∈ s.1.exp
    · simp only [pullGroup, List.any_eq_true, decide_eq_true_eq, hm, if_true] at h ⊢
      exact foldl_unchanged (pullMember_unchanged v) vis s h
    · simp [pullGroup, hm]
  | _ => rfl

theorem pullGroups_nodes (decls : List Decl) (fuel : Nat) (s : Free) :
    (pullGroups (visitor decls) decls fuel s).nodes =
      (fun S => decls.foldl (pullDecl (buildDefs decls).succ) S)^[fuel] s.nodes := by
  induction fuel generalizing s with
  | zero => rfl
  | succ fuel ih =>
    have hstep := pullGroups_step_nodes decls decls (s, false)
    simp only [pullGroups]
    split
    · rw [ih, hstep, Function.iterate_succ_apply]
    · rename_i hr
      have hsame := foldl_unchanged (pullGroup_unchanged (visitor decls)) decls (s, false)
        (by simpa using hr)
      rw [hsame] at hstep ⊢
      exact (Function.iterate_fixed hstep.symm (fuel + 1)).symm

/-- The marks of the pass are those of the abstract one. -/
theorem marks_nodes (order : HashOrder) (decls : List Decl) :
    (marks order decls).nodes = marked decls := by
  unfold marks marked
  generalize maxShakeValrecIterations = k
  rw [pullGroups_nodes, expand_seed_nodes]

-- ---------------------------------------------------------------------------
-- What the marks leave open
-- ---------------------------------------------------------------------------

/-- A marked id has its definition marked, unless it is a value that its group
pulled in: then only the body it was pulled in with is. -/
def Settled (decls : List Decl) (S : Set Ref) : Prop :=
  ∀ r ∈ S, (buildDefs decls).succ r ⊆ S ∨
    ∃ vis, .valRec vis ∈ decls ∧ ∃ vi ∈ vis, r = .exp vi.n ∧ refSet vi.e.refs ⊆ S

theorem subset_pull (succ : Ref → Set Ref) (S : Set Ref) (vi : ValBinding) :
    S ⊆ pull succ S vi := by
  unfold pull
  split
  · exact subset_rfl
  · exact (Set.subset_insert _ _).trans subset_saturate

theorem Settled.pull {decls : List Decl} {S : Set Ref} (h : Settled decls S)
    (hd : .valRec vis ∈ decls) (hv : vi ∈ vis) : Settled decls (pull (buildDefs decls).succ S vi) := by
  unfold Shake.pull
  split
  · exact h
  · have hsub : S ⊆ saturate (buildDefs decls).succ (insert (.exp vi.n) S) (refSet vi.e.refs) :=
      (Set.subset_insert _ _).trans subset_saturate
    intro r hr
    by_cases hnew : r ∈ insert (.exp vi.n) S
    · rcases hnew with rfl | hold
      · exact .inr ⟨vis, hd, vi, hv, rfl, roots_subset_saturate⟩
      · rcases h r hold with hs | ⟨vis', hd', vi', hv', rfl, hs⟩
        · exact .inl (hs.trans hsub)
        · exact .inr ⟨vis', hd', vi', hv', rfl, hs.trans hsub⟩
    · exact .inl (succ_subset_saturate hr hnew)

theorem pullDecl_settled {decls : List Decl} {S : Set Ref} (h : Settled decls S) (hd : d ∈ decls) :
    S ⊆ pullDecl (buildDefs decls).succ S d ∧
      Settled decls (pullDecl (buildDefs decls).succ S d) := by
  cases d with
  | valRec vis =>
    have hfold (l : List ValBinding) (hl : ∀ vi ∈ l, vi ∈ vis) (S : Set Ref)
        (h : Settled decls S) : S ⊆ l.foldl (pull (buildDefs decls).succ) S ∧
          Settled decls (l.foldl (pull (buildDefs decls).succ) S) := by
      induction l generalizing S with
      | nil => exact ⟨subset_rfl, h⟩
      | cons vi l ih =>
        obtain ⟨h1, h2⟩ := ih (fun w hw => hl w (by simp [hw])) _
          (h.pull hd (hl vi (by simp)))
        exact ⟨(subset_pull _ S vi).trans h1, h2⟩
    by_cases hm : ∃ vi ∈ vis, .exp vi.n ∈ S
    · simp only [pullDecl, if_pos hm]
      exact hfold vis (fun _ hv => hv) S h
    · simp only [pullDecl, if_neg hm]
      exact ⟨subset_rfl, h⟩
  | _ => exact ⟨subset_rfl, h⟩

theorem pass_settled {decls : List Decl} {S : Set Ref} (h : Settled decls S) (l : List Decl)
    (hl : ∀ d ∈ l, d ∈ decls) : S ⊆ l.foldl (pullDecl (buildDefs decls).succ) S ∧
      Settled decls (l.foldl (pullDecl (buildDefs decls).succ) S) := by
  induction l generalizing S with
  | nil => exact ⟨subset_rfl, h⟩
  | cons d l ih =>
    obtain ⟨h1, h2⟩ := pullDecl_settled h (hl d (by simp))
    obtain ⟨h3, h4⟩ := ih h2 fun e he => hl e (by simp [he])
    exact ⟨h1.trans h3, h4⟩

theorem marked_settled (decls : List Decl) :
    direct decls ⊆ marked decls ∧ Settled decls (marked decls) := by
  unfold marked
  generalize maxShakeValrecIterations = k
  induction k with
  | zero => exact ⟨subset_rfl, fun r hr => .inl (direct_closed decls r hr)⟩
  | succ k ih =>
    rw [Function.iterate_succ_apply']
    obtain ⟨h1, h2⟩ := pass_settled ih.2 decls fun _ hd => hd
    exact ⟨ih.1.trans h1, h2⟩

/-- The declarations the pass keeps. -/
def Kept (decls : List Decl) : Decl → Prop
  | .datatype dts => ∃ dt ∈ dts, .con dt.id ∈ marked decls
  | .val vi => .exp vi.n ∈ marked decls
  | .valRec vis => ∃ vi ∈ vis, .exp vi.n ∈ marked decls
  | _ => True

theorem keep_iff (order : HashOrder) (decls : List Decl) (d : Decl) :
    keep (marks order decls) d = true ↔ Kept decls d := by
  cases d <;> simp [keep, Kept, ← marks_nodes order]

/-- The places of a declaration that no walk looks at: the payloads of a
datatype that only its group keeps, the declared type of a value that only its
group pulls in, a value that 10,000 passes have not pulled in, the types of an
export, and any declaration that shares an id with a different one. -/
inductive Overlooked (decls : List Decl) : Decl → Ref → Prop
  | unmarkedDatatype : dt ∈ dts → .con dt.id ∉ marked decls → r ∈ dt.refs →
      Overlooked decls (.datatype dts) r
  | sharedDatatype : dt ∈ dts → ¬ SingleDatatype decls dt → r ∈ dt.refs →
      Overlooked decls (.datatype dts) r
  | pulledType : vi ∈ vis → .exp vi.n ∉ direct decls → r ∈ vi.t.refs →
      Overlooked decls (.valRec vis) r
  | unmarkedVal : vi ∈ vis → .exp vi.n ∉ marked decls → r ∈ vi.refs →
      Overlooked decls (.valRec vis) r
  | sharedVal : ¬ SingleVal decls vi → r ∈ vi.refs → Overlooked decls (.val vi) r
  | sharedGroup : .valRec vis ∈ decls → vi ∈ vis → r ∈ vi.refs → Overlooked decls (.val vi) r
  | sharedValRec : vi ∈ vis → ¬ SingleVal decls vi → r ∈ vi.refs →
      Overlooked decls (.valRec vis) r
  | exportTypes : r ∈ ts.flatMap Typ.refs ++ t.refs →
      Overlooked decls (.export ek s n ts t b) r

theorem Overlooked.mem_refs (h : Overlooked decls d r) : r ∈ d.refs := by
  cases h with
  | unmarkedDatatype hd _ hr | sharedDatatype hd _ hr => exact List.mem_flatMap.mpr ⟨_, hd, hr⟩
  | pulledType hv _ hr => exact List.mem_flatMap.mpr ⟨_, hv, List.mem_append_left _ hr⟩
  | unmarkedVal hv _ hr | sharedValRec hv _ hr => exact List.mem_flatMap.mpr ⟨_, hv, hr⟩
  | sharedVal _ hr | sharedGroup _ _ hr => exact hr
  | exportTypes hr => exact List.mem_cons_of_mem _ hr

theorem datatype_marked {decls : List Decl} (hd : dt ∈ datatypeDecls decls)
    (hs : SingleDatatype decls dt) (hm : .con dt.id ∈ marked decls) :
    refSet dt.refs ⊆ marked decls := by
  rcases (marked_settled decls).2 _ hm with h | ⟨_, _, _, _, h, _⟩
  · simpa [Defs.succ, conRefs_single hd hs] using h
  · cases h

theorem mem_valBindings (hd : .valRec vis ∈ decls) (hv : vi ∈ vis) : vi ∈ valBindings decls :=
  List.mem_flatMap.mpr ⟨_, hd, hv⟩

theorem body_marked {decls : List Decl} (hv : vi ∈ valBindings decls) (hs : SingleVal decls vi)
    (hm : .exp vi.n ∈ marked decls) : refSet vi.e.refs ⊆ marked decls := by
  rcases (marked_settled decls).2 _ hm with h | ⟨vis, hd', vi', hv', h, hsub⟩
  · simp only [Defs.succ, expRefs_single hv hs, ValBinding.refs, refSet_append] at h
    exact Set.subset_union_right.trans h
  · obtain rfl : vi' = vi := hs vi' (mem_valBindings hd' hv') (Ref.exp.inj h).symm
    exact hsub

theorem direct_marked {decls : List Decl} (hv : vi ∈ valBindings decls)
    (hs : SingleVal decls vi) (hm : .exp vi.n ∈ direct decls) :
    refSet vi.refs ⊆ marked decls := by
  have h := direct_closed decls _ hm
  rw [Defs.succ, expRefs_single hv hs] at h
  exact h.trans (marked_settled decls).1

/-- No group pulls in a plain binding whose id is its own. -/
theorem val_marked {decls : List Decl} (hd : .val vi ∈ decls) (hs : SingleVal decls vi)
    (hg : ∀ vis, .valRec vis ∈ decls → vi ∉ vis) (hm : .exp vi.n ∈ marked decls) :
    refSet vi.refs ⊆ marked decls := by
  have hv : vi ∈ valBindings decls := List.mem_flatMap.mpr ⟨_, hd, by simp⟩
  rcases (marked_settled decls).2 _ hm with h | ⟨vis, hd', vi', hv', h, _⟩
  · simpa [Defs.succ, expRefs_single hv hs] using h
  · obtain rfl : vi' = vi := hs vi' (mem_valBindings hd' hv') (Ref.exp.inj h).symm
    exact absurd hv' (hg vis hd')

theorem roots_marked {decls : List Decl} (hd : d ∈ decls) (hr : r ∈ rootRefs d) :
    r ∈ marked decls :=
  (marked_settled decls).1 (roots_subset_direct hd hr)

/-- What a kept declaration mentions is marked, or sits where no walk looks. -/
theorem kept_refs {decls : List Decl} (hd : d ∈ decls) (hk : Kept decls d) (hr : r ∈ d.refs) :
    Overlooked decls d r ∨ r ∈ marked decls := by
  cases d with
  | datatype dts =>
    obtain ⟨dt, hdt, hr⟩ := List.mem_flatMap.mp hr
    have hmem : dt ∈ datatypeDecls decls := List.mem_flatMap.mpr ⟨_, hd, hdt⟩
    by_cases hs : SingleDatatype decls dt
    · by_cases hm : .con dt.id ∈ marked decls
      · exact .inr (datatype_marked hmem hs hm hr)
      · exact .inl (.unmarkedDatatype hdt hm hr)
    · exact .inl (.sharedDatatype hdt hs hr)
  | val vi =>
    by_cases hs : SingleVal decls vi
    · by_cases hg : ∃ vis, .valRec vis ∈ decls ∧ vi ∈ vis
      · obtain ⟨vis, hd', hv⟩ := hg
        exact .inl (.sharedGroup hd' hv hr)
      · refine .inr (val_marked hd hs ?_ hk hr)
        exact fun vis hd' hv => hg ⟨vis, hd', hv⟩
    · exact .inl (.sharedVal hs hr)
  | valRec vis =>
    obtain ⟨vi, hvi, hr⟩ := List.mem_flatMap.mp hr
    have hmem := mem_valBindings hd hvi
    by_cases hs : SingleVal decls vi
    · by_cases hm : .exp vi.n ∈ marked decls
      · by_cases hdir : .exp vi.n ∈ direct decls
        · exact .inr (direct_marked hmem hs hdir hr)
        · rcases List.mem_append.mp hr with ht | he
          · exact .inl (.pulledType hvi hdir ht)
          · exact .inr (body_marked hmem hs hm he)
      · exact .inl (.unmarkedVal hvi hm hr)
    · exact .inl (.sharedValRec hvi hs hr)
  | «export» ek s n ts t b =>
    rcases List.mem_cons.mp hr with rfl | hr
    · exact .inr (roots_marked hd (by simp [rootRefs]))
    · exact .inl (.exportTypes hr)
  | table | view | database | task | policy | onError => exact .inr (roots_marked hd hr)
  | «sequence» | index | javaScript | cookie | style => simp [Decl.refs] at hr

theorem marked_kept {decls : List Decl} (hd : d ∈ decls) (hr : r ∈ d.defines)
    (hm : r ∈ marked decls) : Kept decls d := by
  cases d with
  | datatype dts =>
    obtain ⟨dt, hdt, rfl⟩ := List.mem_map.mp hr
    exact ⟨dt, hdt, hm⟩
  | val vi =>
    obtain rfl := List.mem_singleton.mp hr
    exact hm
  | valRec vis =>
    obtain ⟨vi, hvi, rfl⟩ := List.mem_map.mp hr
    exact ⟨vi, hvi, hm⟩
  | _ => simp [Decl.defines] at hr

/-- In a file where every id mentioned is defined, the output of `shake` is
closed exactly if every id at an overlooked place of a kept declaration is
defined by a kept declaration. -/
theorem shake_refsClosed_iff (order : HashOrder) (file : File) (h : RefsClosed file.1) :
    RefsClosed (shake order file).1 ↔
      ∀ d ∈ file.1, Kept file.1 d → ∀ r, Overlooked file.1 d r →
        ∃ d' ∈ file.1, Kept file.1 d' ∧ r ∈ d'.defines := by
  have hmem (d : Decl) : d ∈ (shake order file).1 ↔ d ∈ file.1 ∧ Kept file.1 d := by
    simp [shake, keep_iff]
  constructor
  · intro hc d hd hk r hr
    obtain ⟨d', hd', hdef⟩ := hc d ((hmem d).mpr ⟨hd, hk⟩) r hr.mem_refs
    exact ⟨d', ((hmem d').mp hd').1, ((hmem d').mp hd').2, hdef⟩
  · intro hc d hd r hr
    obtain ⟨hd, hk⟩ := (hmem d).mp hd
    rcases kept_refs hd hk hr with ho | hm
    · obtain ⟨d', hd', hk', hdef⟩ := hc d hd hk r ho
      exact ⟨d', (hmem d').mpr ⟨hd', hk'⟩, hdef⟩
    · obtain ⟨d', hd', hdef⟩ := h d hd r hr
      exact ⟨d', (hmem d').mpr ⟨hd', marked_kept hd' hdef hm⟩, hdef⟩

/-- The function at id 5 takes `D1`, whose group also holds `D2` over `D3`; no
other declaration mentions `D2`. -/
def unusedMemberFile : File :=
  let v : DatatypeDecl := ⟨"D3", 3, [("C3", 13, none)]⟩
  let used : DatatypeDecl := ⟨"D1", 1, [("C1", 11, none)]⟩
  let unused : DatatypeDecl := ⟨"D2", 2, [("C2", 12, some (.datatype 3))]⟩
  ([.datatype [v], .datatype [used, unused],
    .val ⟨"f", 5, .func (.datatype 1) (.record []),
      .abs "x" (.datatype 1) (.record []) (.record []), "f"⟩,
    .export (.link .readOnly) "f" 5 [] (.record []) false], [])

/-- The group is kept for `D1`, and the payload of `D2` loses its datatype. -/
theorem shake_unusedMember : RefsClosed unusedMemberFile.1 ∧
    ¬ RefsClosed (shake .sorted unusedMemberFile).1 := by
  decide

theorem shake_unusedMember_iff : RefsClosed unusedMemberFile.1 ∧
    ¬ ∀ d ∈ unusedMemberFile.1, Kept unusedMemberFile.1 d → ∀ r, Overlooked unusedMemberFile.1 d r →
      ∃ d' ∈ unusedMemberFile.1, Kept unusedMemberFile.1 d' ∧ r ∈ d'.defines := by
  have hclosed : RefsClosed unusedMemberFile.1 := by decide
  have hopen : ¬ RefsClosed (shake .sorted unusedMemberFile).1 := by decide
  exact ⟨hclosed, fun h => hopen ((shake_refsClosed_iff .sorted _ hclosed).mpr h)⟩

end UrWeb.Mono.Shake
