import UrWeb.Mono.Typing
import UrWeb.Jscomp.WalkSound

/-!
# No dangling references

The declarations that come out of the pass are those that went in, with a
group of injectors before each one that needs them. If the JavaScript nodes of
a closed file are safe, every id in the output is declared, in order if it was
in order before, and everything that emitted code calls is in the script. A
node that is not safe can leave an injector in the tables that no declaration
defines, and a later node then mentions it.
-/

namespace UrWeb.Jscomp

open Mono Failing

-- ---------------------------------------------------------------------------
-- Declarations
-- ---------------------------------------------------------------------------

section
variable {env : Env} {D : List Nat} {src : Nat → Prop}

theorem valWalk_walks (hclosed : env.Closed) (hnamed : ∀ n, src n → (env.nameds.lookup n).isSome)
    (he : ∀ n, .exp n ∈ vi.refs → src n) (hs : ∀ site ∈ sites [] vi.e, SafeSite env site) :
    Walks D src ValBinding.refs (valWalk env vi) := by
  unfold valWalk
  refine (expWalk_walks hclosed hnamed vi.e [] (fun n hn => he n ?_) hs).map ?_
  · simp [ValBinding.refs, hn]
  · intro s e h
    simp [ValBinding.refs, h]

theorem visWalk_walks (hclosed : env.Closed) (hnamed : ∀ n, src n → (env.nameds.lookup n).isSome)
    (he : ∀ vi ∈ vis, ∀ n, .exp n ∈ vi.refs → src n)
    (hs : ∀ vi ∈ vis, ∀ site ∈ sites [] vi.e, SafeSite env site) :
    Walks D src (fun vis => vis.flatMap ValBinding.refs) (visWalk env vis) := by
  induction vis with
  | nil => exact Walks.pure (by simp)
  | cons vi vis ih =>
    obtain ⟨he, hes⟩ := List.forall_mem_cons.mp he
    obtain ⟨hs, hss⟩ := List.forall_mem_cons.mp hs
    rw [visWalk]
    refine (valWalk_walks hclosed hnamed he hs).map2 (ih hes hss) ?_
    intro s vi vis h1 h2
    simp [h1, h2]

theorem declWalk_walks (hclosed : env.Closed) (hnamed : ∀ n, src n → (env.nameds.lookup n).isSome)
    (he : ∀ n, .exp n ∈ d.refs → src n) (hs : ∀ site ∈ declSites d, SafeSite env site) :
    Walks D src Decl.refs (declWalk env d) := by
  cases d with
  | val vi =>
    exact (valWalk_walks hclosed hnamed he hs).map fun s vi h => h
  | valRec vis =>
    refine (visWalk_walks hclosed hnamed ?_ ?_).map fun s vis h => h
    · exact fun vi hvi n hn => he n (List.mem_flatMap.mpr ⟨vi, hvi, hn⟩)
    · exact fun vi hvi site h => hs site (List.mem_flatMap.mpr ⟨vi, hvi, h⟩)
  | _ =>
    simp only [declWalk]
    exact Walks.pure fun s => refsOk_of_src he

theorem valWalk_n (vi : ValBinding) (s : State) :
    Triple (valWalk env vi) s (fun vi' _ => vi'.n = vi.n) fun _ => True :=
  (Triple.trivial _ s).bind fun _ _ _ => Triple.pure rfl

theorem visWalk_n (vis : List ValBinding) (s : State) :
    Triple (visWalk env vis) s (fun vis' _ => vis'.map (·.n) = vis.map (·.n)) fun _ => True := by
  induction vis generalizing s with
  | nil => exact Triple.pure rfl
  | cons vi vis ih =>
    rw [visWalk]
    apply Triple.bind (valWalk_n vi s)
    intro vi' s' hvi
    apply Triple.bind (ih s')
    intro vis' s'' hvis
    exact Triple.pure (by simp [hvi, hvis])

theorem declWalk_defines (d : Decl) (s : State) :
    Triple (declWalk env d) s (fun d' _ => d'.defines = d.defines) fun _ => True := by
  cases d with
  | val vi => exact (valWalk_n vi s).bind fun vi' _ h => Triple.pure (by simp [Decl.defines, h])
  | valRec vis =>
    apply Triple.bind (visWalk_n vis s)
    intro vis' s' h
    refine Triple.pure ?_
    have hmap : ∀ vis : List ValBinding,
        vis.map (fun vi => Ref.exp vi.n) = (vis.map (·.n)).map Ref.exp := by simp
    rw [Decl.defines, Decl.defines, hmap, hmap, h]
  | _ => exact Triple.pure rfl

end

-- ---------------------------------------------------------------------------
-- The declarations that come out
-- ---------------------------------------------------------------------------

/-- `out` is `ds` with groups of helpers woven in, when the helpers in `D` are declared before:
every declaration mentions what it mentioned before, and helpers declared by then. -/
inductive Woven : List Nat → List Decl → List Decl → Prop
  | nil {D} : Woven D [] []
  | cons {D d d' ds out} (helpers : List ValBinding)
      (hbodies : ∀ vi ∈ helpers, ∀ n, .exp n ∈ vi.refs → n ∈ D ++ helpers.map (·.n))
      (hrefs : ∀ n, .exp n ∈ d'.refs → .exp n ∈ d.refs ∨ n ∈ D ++ helpers.map (·.n))
      (hdefines : d'.defines = d.defines) (hrest : Woven (D ++ helpers.map (·.n)) ds out) :
      Woven D (d :: ds) (if helpers.isEmpty then d' :: out else .valRec helpers :: d' :: out)

/-- Every id is declared by a declaration no later than the one that mentions it, where
`defined` is declared before. -/
def InOrder (defined : List Ref) : List Decl → Prop
  | [] => True
  | d :: ds => (∀ n, .exp n ∈ d.refs → .exp n ∈ defined ++ d.defines) ∧
      InOrder (defined ++ d.defines) ds

/-- Every id that is mentioned is declared. -/
def AllDeclared (decls : List Decl) : Prop :=
  ∀ d ∈ decls, ∀ n, .exp n ∈ d.refs → ∃ d' ∈ decls, .exp n ∈ d'.defines

theorem Woven.inOrder (h : Woven D ds out) (hD : ∀ n ∈ D, .exp n ∈ defined')
    (hsub : ∀ r ∈ defined, r ∈ defined') (hord : InOrder defined ds) : InOrder defined' out := by
  induction h generalizing defined defined' with
  | nil => trivial
  | @cons D d d' ds out helpers hbodies hrefs hdefines hrest ih =>
    obtain ⟨hd, hord⟩ := hord
    -- the helpers are declared between the two sets
    have hgroup : ∀ defined'', (∀ r ∈ defined', r ∈ defined'') →
        (∀ n ∈ D ++ helpers.map (·.n), .exp n ∈ defined'') → InOrder defined'' (d' :: out) := by
      intro defined'' hmono hD'
      refine ⟨?_, ih ?_ ?_ hord⟩
      · intro n hn
        rw [hdefines]
        rcases hrefs n hn with hn | hn
        · exact List.mem_append.mpr ((List.mem_append.mp (hd n hn)).imp_left
            fun h => hmono _ (hsub _ h))
        · exact List.mem_append_left _ (hD' n hn)
      · exact fun n hn => List.mem_append_left _ (hD' n hn)
      · intro r hr
        rw [hdefines]
        exact List.mem_append.mpr ((List.mem_append.mp hr).imp_left fun h => hmono _ (hsub _ h))
    split
    · next hempty =>
      rw [List.isEmpty_iff] at hempty
      subst hempty
      exact hgroup defined' (fun _ h => h) (by simpa using hD)
    · have hids : ∀ n ∈ D ++ helpers.map (·.n),
          .exp n ∈ defined' ++ (Decl.valRec helpers).defines := by
        intro n hn
        rcases List.mem_append.mp hn with hn | hn
        · exact List.mem_append_left _ (hD n hn)
        · obtain ⟨vi, hvi, rfl⟩ := List.mem_map.mp hn
          exact List.mem_append_right _ (List.mem_map.mpr ⟨vi, hvi, rfl⟩)
      refine ⟨?_, hgroup _ (fun _ h => List.mem_append_left _ h) hids⟩
      intro n hn
      obtain ⟨vi, hvi, hn⟩ := List.mem_flatMap.mp hn
      exact hids n (hbodies vi hvi n hn)

theorem Woven.defines (h : Woven D ds out) :
    ∀ d ∈ ds, ∀ r ∈ d.defines, ∃ d' ∈ out, r ∈ d'.defines := by
  induction h with
  | nil => simp
  | @cons D d d' ds out helpers hbodies hrefs hdefines hrest ih =>
    intro d0 hd0 r hr
    rcases List.mem_cons.mp hd0 with rfl | hd0
    · refine ⟨d', ?_, hdefines ▸ hr⟩
      split <;> simp
    · obtain ⟨d1, hd1, hr⟩ := ih d0 hd0 r hr
      refine ⟨d1, ?_, hr⟩
      split <;> simp [hd1]

theorem Woven.declared (h : Woven D ds out) :
    ∀ d' ∈ out, ∀ n, .exp n ∈ d'.refs →
      (∃ d ∈ ds, .exp n ∈ d.refs) ∨ n ∈ D ∨ ∃ d'' ∈ out, .exp n ∈ d''.defines := by
  induction h with
  | nil => simp
  | @cons D d d' ds out helpers hbodies hrefs hdefines hrest ih =>
    have hids : ∀ n ∈ D ++ helpers.map (·.n), n ∈ D ∨
        ∃ d'' ∈ if helpers.isEmpty then d' :: out else .valRec helpers :: d' :: out,
          .exp n ∈ d''.defines := by
      intro n hn
      rcases List.mem_append.mp hn with hn | hn
      · exact Or.inl hn
      · right
        obtain ⟨vi, hvi, rfl⟩ := List.mem_map.mp hn
        have hne : helpers.isEmpty = false := List.isEmpty_eq_false_iff_exists_mem.mpr ⟨vi, hvi⟩
        rw [hne]
        exact ⟨.valRec helpers, by simp, List.mem_map.mpr ⟨vi, hvi, rfl⟩⟩
    have hmem : ∀ d'' ∈ d' :: out,
        d'' ∈ if helpers.isEmpty then d' :: out else .valRec helpers :: d' :: out := by
      intro d'' hd''
      split
      · exact hd''
      · exact List.mem_cons_of_mem _ hd''
    have hone : ∀ d'' ∈ d' :: out, ∀ n, .exp n ∈ d''.refs → (∃ d0 ∈ d :: ds, .exp n ∈ d0.refs) ∨
        n ∈ D ∨ ∃ d3 ∈ if helpers.isEmpty then d' :: out else .valRec helpers :: d' :: out,
          .exp n ∈ d3.defines := by
      intro d'' hd'' n hn
      rcases List.mem_cons.mp hd'' with rfl | hd''
      · rcases hrefs n hn with hn | hn
        · exact Or.inl ⟨d, List.mem_cons_self, hn⟩
        · exact Or.inr (hids n hn)
      · rcases ih d'' hd'' n hn with ⟨d0, hd0, hn⟩ | hn | ⟨d3, hd3, hn⟩
        · exact Or.inl ⟨d0, List.mem_cons_of_mem _ hd0, hn⟩
        · exact Or.inr (hids n hn)
        · exact Or.inr (Or.inr ⟨d3, hmem d3 (List.mem_cons_of_mem _ hd3), hn⟩)
    intro d'' hd'' n hn
    split at hd''
    · exact hone d'' hd'' n hn
    · rcases List.mem_cons.mp hd'' with rfl | hd''
      · obtain ⟨vi, hvi, hn⟩ := List.mem_flatMap.mp hn
        exact Or.inr (hids n (hbodies vi hvi n hn))
      · exact hone d'' hd'' n hn

/-- The helpers of a declaration are declared: the tables start over behind it. -/
theorem WalkInv.reset (h : WalkInv D s) :
    WalkInv (D ++ s.decls.map (·.n)) { s with decls := [] } where
  inv := by
    refine ⟨⟨?_, by simp⟩, ⟨h.inv.dec.once, h.inv.dec.pending, h.inv.dec.bound, h.inv.dec.nodup⟩,
      ⟨h.inv.code.script, h.inv.code.emitted⟩, h.inv.urfuncs⟩
    intro n hn
    left
    rcases h.inv.inj.declared n hn with hD | ⟨vi, hvi, rfl⟩ | hb
    · exact List.mem_append_left _ hD
    · exact List.mem_append_right _ (List.mem_map.mpr ⟨vi, hvi, rfl⟩)
    · cases hb
  marked := h.marked

theorem declsWalk_woven {env : Env} (hclosed : env.Closed)
    (hnamed : ∀ d ∈ ds, ∀ n, .exp n ∈ d.refs → (env.nameds.lookup n).isSome)
    (hsafe : ∀ d ∈ ds, ∀ site ∈ declSites d, SafeSite env site)
    (hinv : WalkInv D s) (hdecls : s.decls = []) :
    Triple (declsWalk env ds) s (fun out s' => (∃ D', WalkInv D' s') ∧ Woven D ds out)
      fun _ => False := by
  induction ds generalizing D s with
  | nil => exact Triple.pure ⟨⟨D, hinv⟩, .nil⟩
  | cons d ds ih =>
    obtain ⟨hd, hds⟩ := List.forall_mem_cons.mp hnamed
    obtain ⟨hs, hss⟩ := List.forall_mem_cons.mp hsafe
    rw [declsWalk]
    have hwalk : Walks D (fun n => .exp n ∈ d.refs) Decl.refs (declWalk env d) :=
      declWalk_walks hclosed hd (fun _ h => h) hs
    apply Triple.bind (((hwalk s hinv).and (declWalk_defines d s)).conseq (fun _ _ h => h)
      fun _ h => h.1)
    rintro d' s1 ⟨⟨hinv1, -, hrefs⟩, hdefines⟩
    have hids : ∀ n, Registered s1 n → n ∈ D ++ s1.decls.map (·.n) := by
      intro n hn
      rcases hinv1.inv.inj.declared n hn with hD | ⟨vi, hvi, rfl⟩ | hb
      · exact List.mem_append_left _ hD
      · exact List.mem_append_right _ (List.mem_map.mpr ⟨vi, hvi, rfl⟩)
      · cases hb
    apply Triple.bind (Triple.get (Q := fun st s' => s1 = st ∧ s1 = s') ⟨rfl, rfl⟩)
    rintro _ _ ⟨rfl, rfl⟩
    show Triple (declsWalk env ds >>= _) { s1 with decls := [] } _ _
    apply Triple.bind (ih hds hss hinv1.reset rfl)
    rintro out s2 ⟨hinv2, hwoven⟩
    refine Triple.pure ⟨hinv2, .cons s1.decls ?_ ?_ hdefines hwoven⟩
    · intro vi hvi n hn
      have hbody : .exp n ∈ vi.e.refs := by
        simpa [ValBinding.refs, Typ.not_exp_mem_refs] using hn
      exact hids n (hinv1.inv.inj.bodies vi hvi n hbody)
    · exact fun n hn => (hrefs n hn).imp_right (hids n)

-- ---------------------------------------------------------------------------
-- Files
-- ---------------------------------------------------------------------------

theorem mem_foldl_bodies {vis : List ValBinding} {body : Nat × Exp} (acc : List (Nat × Exp)) :
    body ∈ vis.foldl (fun nameds vi => (vi.n, vi.e) :: nameds) acc ↔
      (∃ vi ∈ vis, body = (vi.n, vi.e)) ∨ body ∈ acc := by
  induction vis generalizing acc with
  | nil => simp
  | cons vi vis ih =>
    rw [List.foldl_cons, ih]
    simp [or_assoc, or_left_comm]

theorem mem_namedsOf {decls : List Decl} {body : Nat × Exp} :
    body ∈ namedsOf decls ↔ ∃ d ∈ decls, ∃ vi ∈ d.bindings, body = (vi.n, vi.e) := by
  have hnil : (∃ d ∈ decls, ∃ vi ∈ d.bindings, body = (vi.n, vi.e)) ↔
      (∃ d ∈ decls, ∃ vi ∈ d.bindings, body = (vi.n, vi.e)) ∨ body ∈ ([] : List (Nat × Exp)) := by
    simp
  rw [hnil, namedsOf]
  clear hnil
  generalize ([] : List (Nat × Exp)) = acc
  induction decls generalizing acc with
  | nil => simp
  | cons d decls ih =>
    rw [List.foldl_cons, List.exists_mem_cons_iff, or_assoc, or_left_comm]
    refine (ih _).trans (or_congr_right ?_)
    cases d with
    | val vi => simp [Decl.bindings]
    | valRec vis => exact mem_foldl_bodies acc
    | _ => simp [Decl.bindings]

theorem isSome_lookup_of_mem {l : List (Nat × β)} (h : (k, v) ∈ l) : (l.lookup k).isSome := by
  rw [Option.isSome_iff_ne_none, ne_eq, List.lookup_eq_none_iff]
  intro hne
  simpa using hne (k, v) h

/-- Every id that a closed file mentions has a body. -/
theorem AllDeclared.nameds (h : AllDeclared decls) (hd : d ∈ decls) (hn : .exp n ∈ d.refs) :
    ((namedsOf decls).lookup n).isSome := by
  obtain ⟨d', hd', hdef⟩ := h d hd n hn
  have hvi : ∃ vi ∈ d'.bindings, vi.n = n := by
    cases d' <;> simp_all [Decl.defines, Decl.bindings]
  obtain ⟨vi, hvi, rfl⟩ := hvi
  exact isSome_lookup_of_mem (mem_namedsOf.mpr ⟨d', hd', vi, hvi, rfl⟩)

theorem AllDeclared.closed (h : AllDeclared decls) (config : Config) : (config.env decls).Closed := by
  intro n e hbody m hm
  obtain ⟨d, hd, vi, hvi, heq⟩ := mem_namedsOf.mp (mem_of_lookup hbody)
  cases heq
  apply h.nameds hd
  cases d with
  | val vi' =>
    cases List.mem_singleton.mp hvi
    exact List.mem_append_right _ hm
  | valRec vis => exact List.mem_flatMap.mpr ⟨vi, hvi, List.mem_append_right _ hm⟩
  | _ => cases hvi

/-- The client code in the declarations and in the script. -/
def Result.code (r : Result) : List Js := r.state.emitted ++ r.state.script.map Fragment.code

/-- Every id in the declarations is declared, in order if it was in the file; every function and
decoder that emitted code calls is in the script, a decoder once; and if there is emitted code,
there is a script. -/
structure NoDangling (config : Config) (file : Mono.File) (r : Result) : Prop where
  declared : AllDeclared r.file.1
  inOrder : InOrder [] file.1 → InOrder [] r.file.1
  decoders : ∀ js ∈ r.code, ∀ n, .decoder n ∈ js → definitions r.state.script n = 1
  functions : ∀ js ∈ r.code, ∀ n, .func n ∈ js → ∃ code, .urfunc n code ∈ r.state.script
  script : r.state.emitted ≠ [] → ∃ rest, r.script = some (mainScript config r.state.script ++ rest)

/-- Every JavaScript node that the walk comes to is safe. -/
def SafeFile (config : Config) (file : Mono.File) : Prop :=
  ∀ d ∈ file.1, ∀ site ∈ declSites d, SafeSite (config.env file.1) site

theorem walkInv_new (maxName : Nat) : WalkInv [] (State.new maxName) where
  inv := by
    refine ⟨⟨?_, ?_⟩, ⟨?_, ?_, ?_, List.nodup_nil⟩, ⟨?_, ?_⟩, ?_⟩ <;>
      simp [State.new, Registered, definitions]
  marked := by simp [State.new]

theorem fileScript_of_found (config : Config) (decls : List Decl) (h : st.foundJavascript) :
    ∃ rest, fileScript config decls st = some (mainScript config st.script ++ rest) := by
  unfold fileScript
  rw [if_pos h]
  cases preJs decls with
  | nil => exact ⟨"", by simp⟩
  | cons x xs => exact ⟨"\n" ++ "\n".intercalate (x :: xs), by simp [String.append_assoc]⟩

theorem WalkInv.known (h : WalkInv D s) (hk : Known s js) :
    (∀ n, .decoder n ∈ js → definitions s.script n = 1) ∧
      ∀ n, .func n ∈ js → ∃ code, .urfunc n code ∈ s.script := by
  constructor
  · intro n hn
    obtain ⟨k, hk⟩ := hk.2 n hn
    exact (h.inv.dec.once k n hk).resolve_left List.not_mem_nil
  · exact fun n hn => (h.inv.urfuncs n (hk.1 n hn)).resolve_right List.not_mem_nil

/-- The pass leaves no dangling reference if the JavaScript nodes of the file are safe. -/
theorem process_noDangling (config : Config) (file : Mono.File) (hdeclared : AllDeclared file.1)
    (hsafe : SafeFile config file) :
    ∃ r, process config file = some r ∧ NoDangling config file r := by
  have hrun := declsWalk_woven (hdeclared.closed config) (fun d hd n hn => hdeclared.nameds hd hn)
    hsafe (walkInv_new (maxNameInFile file.1 + 1)) rfl
  unfold Triple at hrun
  unfold process
  rcases hwalk : declsWalk (config.env file.1) file.1 (State.new (maxNameInFile file.1 + 1)) with
    ⟨_ | out, st⟩
  · rw [hwalk] at hrun
    exact hrun.elim
  · rw [hwalk] at hrun
    obtain ⟨⟨D, hinv⟩, hwoven⟩ := hrun
    have hcode : ∀ js ∈ st.emitted ++ st.script.map Fragment.code, Known st js := by
      intro js hjs
      rcases List.mem_append.mp hjs with hjs | hjs
      · exact hinv.inv.code.emitted js hjs
      · obtain ⟨f, hf, rfl⟩ := List.mem_map.mp hjs
        exact hinv.inv.code.script f hf
    refine ⟨_, rfl, ?_, ?_, ?_, ?_, ?_⟩
    · intro d' hd' n hn
      rcases List.mem_cons.mp hd' with rfl | hd'
      · cases hn
      rcases hwoven.declared d' hd' n hn with ⟨d, hd, hn⟩ | hn | ⟨d'', hd'', hn⟩
      · obtain ⟨d0, hd0, hdef⟩ := hdeclared d hd n hn
        obtain ⟨d1, hd1, hdef⟩ := hwoven.defines d0 hd0 _ hdef
        exact ⟨d1, List.mem_cons_of_mem _ hd1, hdef⟩
      · cases hn
      · exact ⟨d'', List.mem_cons_of_mem _ hd'', hn⟩
    · intro hord
      exact ⟨by simp [Decl.refs], hwoven.inOrder (by simp) (by simp) hord⟩
    · exact fun js hjs => (hinv.known (hcode js hjs)).1
    · exact fun js hjs => (hinv.known (hcode js hjs)).2
    · exact fun hne => fileScript_of_found config file.1 (hinv.marked hne)

-- ---------------------------------------------------------------------------
-- Two pages
-- ---------------------------------------------------------------------------

/-- A page whose script shows its parameter. -/
def showing (n : Nat) (t : Typ) : Decl :=
  .val ⟨"page", n, .func t strTyp, .abs "x" t strTyp (.javaScript .script (.rel 0)), "page"⟩

def showingFile (t : List (String × Nat × Option Typ)) : Mono.File :=
  ([.datatype [⟨"t", 7, t⟩], showing 1 (.datatype 7), showing 2 (.datatype 7)], [])

def showingConfig (t : List (String × Nat × Option Typ)) : Config :=
  ⟨fun _ _ => none, "/", fun _ => "", [(7, ⟨.default, t⟩)], "", [], "%c"⟩

/-- A payload that can be embedded, and one that cannot. -/
def stringPayload : List (String × Nat × Option Typ) := [("A", 1, none), ("B", 2, some strTyp)]

def functionPayload : List (String × Nat × Option Typ) :=
  [("A", 1, none), ("B", 2, some (.func (.record []) (.record [])))]

theorem showingFile_refs {t : List (String × Nat × Option Typ)}
    (h : d ∈ (showingFile t).1) : .exp n ∉ d.refs := by
  simp only [showingFile, showing, List.mem_cons, List.not_mem_nil, or_false] at h
  rcases h with rfl | rfl | rfl
  · simp only [Decl.refs, DatatypeDecl.refs, constrRefs, List.mem_flatMap, not_exists, not_and]
    intro dt _ xnc _ hn
    cases hpayload : xnc.2.2 with
    | none => simp [hpayload] at hn
    | some t => exact t.not_exp_mem_refs (by simpa [hpayload] using hn)
  all_goals simp [Decl.refs, ValBinding.refs, Typ.refs, Exp.refs, strTyp, JavaScriptMode.refs]

theorem process_noDangling_showing :
    AllDeclared (showingFile stringPayload).1 ∧
    SafeFile (showingConfig stringPayload) (showingFile stringPayload) ∧
    ∃ r, process (showingConfig stringPayload) (showingFile stringPayload) = some r ∧
      NoDangling (showingConfig stringPayload) (showingFile stringPayload) r := by
  have hdeclared : AllDeclared (showingFile stringPayload).1 :=
    fun d hd n hn => absurd hn (showingFile_refs hd)
  set env := (showingConfig stringPayload).env (showingFile stringPayload).1 with henv
  have hstring : Embeddable env strTyp := by
    refine (embeddable_iff env).mpr ⟨?_, ?_⟩
    · simp [strTyp, Blocked, ffiInjectors]
    · rintro u ⟨⟩
  have hdatatype : Embeddable env (.datatype 7) := by
    refine (embeddable_iff env).mpr ⟨not_false, ?_⟩
    rintro u ⟨⟩
    next x c hpayload =>
      have hcell : env.cell 7 = ⟨.default, stringPayload⟩ := rfl
      simp only [hcell, stringPayload, List.mem_cons, Prod.mk.injEq, Option.some.injEq,
        List.not_mem_nil, or_false, reduceCtorEq, and_false, false_or] at hpayload
      rw [hpayload.2.2]
      exact hstring
  have hsafe : SafeFile (showingConfig stringPayload) (showingFile stringPayload) := by
    intro d hd site hsite
    have hcapture : SafeSite env ⟨[.datatype 7], .script, .rel 0⟩ := ⟨hdatatype, fun _ => trivial⟩
    simp only [showingFile, showing, List.mem_cons, List.not_mem_nil, or_false] at hd
    rcases hd with rfl | rfl | rfl
    · cases hsite
    all_goals
      cases List.mem_singleton.mp hsite
      exact hcapture
  exact ⟨hdeclared, hsafe, process_noDangling _ _ hdeclared hsafe⟩

/-- The first page gives up inside the injector of the datatype, and the second one calls it. -/
theorem process_dangling :
    AllDeclared (showingFile functionPayload).1 ∧ InOrder [] (showingFile functionPayload).1 ∧
      ∃ r, process (showingConfig functionPayload) (showingFile functionPayload) = some r ∧
        ¬ AllDeclared r.file.1 := by
  refine ⟨?_, ?_, _, rfl, ?_⟩
  · exact fun d hd n hn => absurd hn (showingFile_refs hd)
  · have hnone : ∀ d ∈ (showingFile functionPayload).1, ∀ n, .exp n ∉ d.refs :=
      fun d hd n => showingFile_refs hd
    obtain ⟨h1, h2, h3, -⟩ : _ ∧ _ ∧ _ ∧ _ := by
      simpa only [showingFile, List.forall_mem_cons] using hnone
    exact ⟨fun n hn => absurd hn (h1 n), fun n hn => absurd hn (h2 n),
      fun n hn => absurd hn (h3 n), trivial⟩
  · intro h
    -- the page mentions the id that the datatype was given, and nothing declares it
    obtain ⟨d, hd, hn⟩ := h (.val ⟨"page", 2, .func (.datatype 7) strTyp,
        .abs "x" (.datatype 7) strTyp (constJs (.app (.named 3) (.rel 0))).toExp, "page"⟩)
      (.tail _ (.tail _ (.tail _ (.head _)))) 3
      (by simp [Decl.refs, ValBinding.refs, Typ.refs, Exp.refs, strTyp, constJs, Js.toExp,
        Piece.toExp])
    rcases hd with _ | ⟨_, _ | ⟨_, _ | ⟨_, _ | ⟨_, hd⟩⟩⟩⟩
    · simp [Decl.defines] at hn
    · simp [Decl.defines] at hn
    · simp [Decl.defines] at hn
    · simp [Decl.defines] at hn
    · cases hd

end UrWeb.Jscomp
