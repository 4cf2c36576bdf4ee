import UrWeb.Mono.Fuse
import UrWeb.References

/-!
# What the fuse pass declares

The output keeps every binding, adds the variants under ids that nothing else
has, and rewrites all of them with maps that the final map extends.
-/

namespace UrWeb.Mono

-- ---------------------------------------------------------------------------
-- Declared ids
-- ---------------------------------------------------------------------------

def DatatypeDecl.ids (dt : DatatypeDecl) : List Nat := dt.id :: dt.constrs.map fun xnc => xnc.2.1

def Decl.ids (d : Decl) : List Nat :=
  (datatypes d).flatMap DatatypeDecl.ids ++ d.bindings.map ValBinding.n

def declaredIds (decls : List Decl) : List Nat := decls.flatMap Decl.ids

/-- An accumulator that grows to at least every id it meets. -/
theorem le_foldl (step : Nat → α → Nat) (ids : α → List Nat)
    (h : ∀ m a, m ≤ step m a ∧ ∀ k ∈ ids a, k ≤ step m a) (l : List α) (m : Nat) :
    m ≤ l.foldl step m ∧ ∀ k ∈ l.flatMap ids, k ≤ l.foldl step m := by
  induction l generalizing m with
  | nil => simp
  | cons a l ih =>
    obtain ⟨h1, h2⟩ := ih (step m a)
    refine ⟨(h m a).1.trans h1, fun k hk => ?_⟩
    rcases List.mem_append.mp (List.flatMap_cons ▸ hk) with hk | hk
    · exact ((h m a).2 k hk).trans h1
    · exact h2 k hk

theorem le_maxName (h : n ∈ declaredIds decls) : n ≤ maxName decls := by
  have hdatatype (m : Nat) (dt : DatatypeDecl) :
      m ≤ dt.constrs.foldl (fun m xnc => max m xnc.2.1) (max m dt.id) ∧
        ∀ k ∈ dt.ids, k ≤ dt.constrs.foldl (fun m xnc => max m xnc.2.1) (max m dt.id) := by
    obtain ⟨h1, h2⟩ := le_foldl (fun m (xnc : String × Nat × Option Typ) => max m xnc.2.1)
      (fun xnc => [xnc.2.1]) (by simp) dt.constrs (max m dt.id)
    refine ⟨(le_max_left _ _).trans h1, fun k hk => ?_⟩
    rcases List.mem_cons.mp hk with rfl | hk
    · exact (le_max_right _ _).trans h1
    · obtain ⟨xnc, hx, rfl⟩ := List.mem_map.mp hk
      exact h2 _ (List.mem_flatMap.mpr ⟨xnc, hx, List.mem_singleton_self _⟩)
  refine (le_foldl _ Decl.ids (fun m d => ?_) decls 0).2 n h
  cases d with
  | datatype dts =>
    obtain ⟨h1, h2⟩ := le_foldl _ DatatypeDecl.ids hdatatype dts m
    exact ⟨h1, fun k hk => h2 k (by simpa [Decl.ids, datatypes, Decl.bindings] using hk)⟩
  | val vi => simp [Decl.ids, datatypes, Decl.bindings]
  | valRec vis =>
    obtain ⟨h1, h2⟩ := le_foldl (fun m (vi : ValBinding) => max m vi.n) (fun vi => [vi.n])
      (by simp) vis m
    exact ⟨h1, fun k hk =>
      h2 k (by simpa [Decl.ids, datatypes, Decl.bindings, eq_comm] using hk)⟩
  | _ => simp [Decl.ids, datatypes, Decl.bindings]

theorem doVis_ids (vis : List ValBinding) (fresh : Nat) :
    (doVis vis fresh).map (fun v => v.2.n) = List.range' fresh (doVis vis fresh).length := by
  induction vis generalizing fresh with
  | nil => rfl
  | cons vi vis ih =>
    rw [doVis]
    split
    · rename_i vi' hvi
      obtain ⟨r, -, hb⟩ := Option.bind_eq_some_iff.mp hvi
      obtain ⟨b, -, rfl⟩ := Option.map_eq_some_iff.mp hb
      simp [ih, List.range'_succ]
    · exact ih fresh

theorem mem_doVis (h : v ∈ doVis vis fresh) :
    ∃ vi ∈ vis, vi.n = v.1 ∧ doVi vi v.2.n = some v.2 := by
  induction vis generalizing fresh with
  | nil => simp [doVis] at h
  | cons vi vis ih =>
    rw [doVis] at h
    split at h
    · rename_i vi1 hvi
      rcases List.mem_cons.mp h with heq | h
      · subst heq
        refine ⟨vi, List.mem_cons_self, rfl, ?_⟩
        obtain ⟨r, -, hb⟩ := Option.bind_eq_some_iff.mp hvi
        obtain ⟨b, -, rfl⟩ := Option.map_eq_some_iff.mp hb
        exact hvi
      · obtain ⟨vi0, hvi0, hrest⟩ := ih h
        exact ⟨vi0, List.mem_cons_of_mem _ hvi0, hrest⟩
    · obtain ⟨vi0, hvi0, hrest⟩ := ih h
      exact ⟨vi0, List.mem_cons_of_mem _ hvi0, hrest⟩

section
variable (s : FuseState) (d : Decl)

/-- The variants that are added for a declaration. -/
def variantsOf : List (Nat × ValBinding) := doVis d.bindings s.nextId

theorem fuseDecl_bindings : (fuseDecl s d).2.bindings =
    (d.bindings ++ (variantsOf s d).map Prod.snd).map
      (ValBinding.map (fuseNode (fuseDecl s d).1.funcs)) := by
  have hmap (d : Decl) (fe : Exp → Exp) : (d.map fe).bindings = d.bindings.map (ValBinding.map fe) := by
    cases d <;> rfl
  rw [fuseDecl, hmap, addVariants, variantsOf]
  split
  · rename_i hnone
    rw [List.isEmpty_iff.mp hnone, List.append_nil]
  · rfl

theorem fuseDecl_ids : (fuseDecl s d).2.ids =
    d.ids ++ List.range' s.nextId (variantsOf s d).length := by
  have hvariants : ((variantsOf s d).map Prod.snd).map ValBinding.n =
      List.range' s.nextId (variantsOf s d).length := by
    rw [List.map_map]
    exact doVis_ids d.bindings s.nextId
  have hdatatypes : datatypes (fuseDecl s d).2 = datatypes d := by
    cases d with
    | val vi => rw [fuseDecl, addVariants]; split <;> rfl
    | valRec vis => rw [fuseDecl, addVariants]; split <;> rfl
    | _ => rfl
  rw [Decl.ids, hdatatypes, fuseDecl_bindings, Decl.ids, List.append_assoc, ← hvariants,
    List.map_map, ← List.map_append]
  rfl

end

theorem fuseDecls_ids (s : FuseState) (decls : List Decl)
    (hbelow : ∀ n ∈ declaredIds decls, n < s.nextId) (hnd : (declaredIds decls).Nodup) :
    (declaredIds (fuseDecls s decls)).Nodup ∧
      ∀ n ∈ declaredIds (fuseDecls s decls), n ∈ declaredIds decls ∨ s.nextId ≤ n := by
  induction decls generalizing s with
  | nil => exact ⟨.nil, by simp [fuseDecls, declaredIds]⟩
  | cons d decls ih =>
    simp only [declaredIds, List.flatMap_cons, List.mem_append] at hbelow hnd
    obtain ⟨hd, hdecls, hdisj⟩ := List.nodup_append'.mp hnd
    have hnext : (fuseDecl s d).1.nextId = s.nextId + (variantsOf s d).length := rfl
    obtain ⟨hnd', hmem'⟩ := ih (fuseDecl s d).1
      (fun n hn => (hbelow n (.inr hn)).trans_le (hnext ▸ Nat.le_add_right _ _)) hdecls
    simp only [fuseDecls, declaredIds, List.flatMap_cons, fuseDecl_ids] at hnd' hmem' ⊢
    refine ⟨?_, fun n hn => ?_⟩
    · refine List.nodup_append'.mpr ⟨List.nodup_append'.mpr ⟨hd, List.nodup_range' .., ?_⟩, hnd', ?_⟩
      · intro n hn hn'
        have := hbelow n (.inl hn)
        have := List.mem_range'_1.mp hn'
        omega
      · intro n hn hn'
        rcases List.mem_append.mp hn with hn | hn
        · rcases hmem' n hn' with hn' | hn'
          · exact hdisj hn hn'
          · have := hbelow n (.inl hn)
            omega
        · have := List.mem_range'_1.mp hn
          rcases hmem' n hn' with hn' | hn'
          · have := hbelow n (.inr hn')
            omega
          · omega
    · rcases List.mem_append.mp hn with hn | hn
      · rcases List.mem_append.mp hn with hn | hn
        · exact .inl (List.mem_append_left _ hn)
        · exact .inr (List.mem_range'_1.mp hn).1
      · rcases hmem' n hn with hn | hn
        · exact .inl (List.mem_append_right _ hn)
        · exact .inr (by omega)

/-- Fresh ids differ from all others. -/
theorem fuse_ids (hnd : (declaredIds file.1).Nodup) : (declaredIds (fuse file).1).Nodup :=
  (fuseDecls_ids _ _ (fun _ hn => Nat.lt_succ_of_le (le_maxName hn)) hnd).1

-- ---------------------------------------------------------------------------
-- The bindings of the output
-- ---------------------------------------------------------------------------

def Extends (f g : Nat → Option Nat) : Prop := ∀ n n', f n = some n' → g n = some n'

def finalFuncs : FuseState → List Decl → Nat → Option Nat
  | s, [] => s.funcs
  | s, d :: decls => finalFuncs (fuseDecl s d).1 decls

/-- The output binds every binding of the input and a variant for each entry of
the map, all rewritten. -/
structure Fused (decls decls' : List Decl) (funcs : Nat → Option Nat) : Prop where
  original : vi ∈ bindings decls → ∃ m, Extends m funcs ∧ vi.map (fuseNode m) ∈ bindings decls'
  covered : vi' ∈ bindings decls' → vi'.n ∈ (bindings decls).map ValBinding.n ∨
    ∃ n, funcs n = some vi'.n
  variant : funcs n = some n' → ∃ vi ∈ bindings decls, vi.n = n ∧ ∃ vi', doVi vi n' = some vi' ∧
    ∃ m, Extends m funcs ∧ vi'.map (fuseNode m) ∈ bindings decls'

theorem fuseDecl_extends (s : FuseState) (d : Decl)
    (hnew : ∀ vi ∈ d.bindings, s.funcs vi.n = none) : Extends s.funcs (fuseDecl s d).1.funcs := by
  intro n n' h
  refine (foldl_update_none Prod.fst (fun v => v.2.n) (variantsOf s d) s.funcs
    fun v hv hk => ?_).trans h
  obtain ⟨vi, hvi, hid, -⟩ := mem_doVis hv
  rw [← hk, ← hid, hnew vi hvi] at h
  cases h

theorem doVis_keys (vis : List ValBinding) (fresh : Nat) :
    ((doVis vis fresh).map Prod.fst).Sublist (vis.map ValBinding.n) := by
  induction vis generalizing fresh with
  | nil => exact .slnil
  | cons vi vis ih =>
    rw [doVis]
    split
    · exact (ih _).cons_cons _
    · exact (ih _).cons _

/-- A variant is entered under the function it belongs to. -/
theorem fuseDecl_entry (s : FuseState) (d : Decl) (hnd : (d.bindings.map ValBinding.n).Nodup)
    (hv : v ∈ variantsOf s d) : (fuseDecl s d).1.funcs v.1 = some v.2.n :=
  foldl_update_some Prod.fst (fun v : Nat × ValBinding => v.2.n) _ _ hv fun _ hw hk =>
    List.inj_on_of_nodup_map (hnd.sublist (doVis_keys d.bindings s.nextId)) hw hv hk

theorem fuseDecls_fused (s : FuseState) (decls : List Decl)
    (hnew : ∀ vi ∈ bindings decls, s.funcs vi.n = none)
    (hnd : ((bindings decls).map ValBinding.n).Nodup) :
    Extends s.funcs (finalFuncs s decls) ∧
      (∀ vi ∈ bindings decls, ∃ m, Extends m (finalFuncs s decls) ∧
        vi.map (fuseNode m) ∈ bindings (fuseDecls s decls)) ∧
      (∀ n n', finalFuncs s decls n = some n' → s.funcs n = some n' ∨
        ∃ vi ∈ bindings decls, vi.n = n ∧ ∃ vi', doVi vi n' = some vi' ∧
          ∃ m, Extends m (finalFuncs s decls) ∧
            vi'.map (fuseNode m) ∈ bindings (fuseDecls s decls)) ∧
      ∀ vi' ∈ bindings (fuseDecls s decls), vi'.n ∈ (bindings decls).map ValBinding.n ∨
        ∃ n, finalFuncs s decls n = some vi'.n := by
  induction decls generalizing s with
  | nil => exact ⟨fun _ _ h => h, by simp [bindings], fun _ _ h => .inl h, by simp [fuseDecls, bindings]⟩
  | cons d decls ih =>
    simp only [bindings, List.flatMap_cons, List.mem_append, List.map_append] at hnew hnd ⊢
    obtain ⟨hd, hdecls, hdisj⟩ := List.nodup_append'.mp hnd
    have hext := fuseDecl_extends s d fun vi hvi => hnew vi (.inl hvi)
    have hold (n n') (h : (fuseDecl s d).1.funcs n = some n') :
        s.funcs n = some n' ∨ ∃ v ∈ variantsOf s d, v.1 = n ∧ v.2.n = n' :=
      foldl_update_eq_some Prod.fst (fun v : Nat × ValBinding => v.2.n) _ _ h
    have hnext (vi) (hvi : vi ∈ bindings decls) : (fuseDecl s d).1.funcs vi.n = none := by
      refine Option.eq_none_iff_forall_ne_some.mpr fun n' h => ?_
      obtain h | ⟨v, hv, hkey, -⟩ := hold _ _ h
      · rw [hnew vi (.inr hvi)] at h
        cases h
      · obtain ⟨vi0, hvi0, hid, -⟩ := mem_doVis hv
        exact hdisj (List.mem_map.mpr ⟨vi0, hvi0, hid.trans hkey⟩)
          (List.mem_map.mpr ⟨vi, hvi, rfl⟩)
    obtain ⟨h1, h2, h3, h4⟩ := ih (fuseDecl s d).1 hnext hdecls
    -- what the declaration binds is rewritten with the map as it is after it
    have hhere {vi} (hvi : vi ∈ d.bindings ++ (variantsOf s d).map Prod.snd) :
        vi.map (fuseNode (fuseDecl s d).1.funcs) ∈ bindings (fuseDecls s (d :: decls)) := by
      simp only [fuseDecls, bindings, List.flatMap_cons, fuseDecl_bindings]
      exact List.mem_append_left _ (List.mem_map_of_mem hvi)
    have hlater {vi} (hvi : vi ∈ bindings (fuseDecls (fuseDecl s d).1 decls)) :
        vi ∈ bindings (fuseDecls s (d :: decls)) := by
      simp only [fuseDecls, bindings, List.flatMap_cons]
      exact List.mem_append_right _ hvi
    refine ⟨fun n n' h => h1 n n' (hext n n' h), ?_, fun n n' h => ?_, fun vi' hvi' => ?_⟩
    · rintro vi (hvi | hvi)
      · exact ⟨_, h1, hhere (List.mem_append_left _ hvi)⟩
      · obtain ⟨m, hm, hmem⟩ := h2 vi hvi
        exact ⟨m, hm, hlater hmem⟩
    · obtain h | ⟨vi, hvi, hn, vi', hdo, m, hm, hmem⟩ := h3 n n' h
      · obtain h | ⟨v, hv, rfl, rfl⟩ := hold _ _ h
        · exact .inl h
        · obtain ⟨vi, hvi, hid, hdo⟩ := mem_doVis hv
          exact .inr ⟨vi, .inl hvi, hid, v.2, hdo, _, h1,
            hhere (List.mem_append_right _ (List.mem_map_of_mem hv))⟩
      · exact .inr ⟨vi, .inr hvi, hn, vi', hdo, m, hm, hlater hmem⟩
    · simp only [fuseDecls, List.flatMap_cons, fuseDecl_bindings, List.map_append,
        List.mem_append, List.mem_map] at hvi' ⊢
      rcases hvi' with (⟨vi, hvi, rfl⟩ | ⟨_, ⟨v, hv, rfl⟩, rfl⟩) | hvi'
      · exact .inl (.inl ⟨vi, hvi, rfl⟩)
      · exact .inr ⟨v.1, h1 _ _ (fuseDecl_entry s d hd hv)⟩
      · exact (h4 vi' hvi').imp (fun h => .inr (List.mem_map.mp h)) id

theorem bindings_ids (decls : List Decl) (h : (declaredIds decls).Nodup) :
    ((bindings decls).map ValBinding.n).Nodup := by
  refine List.Nodup.sublist ?_ h
  induction decls with
  | nil => exact .slnil
  | cons d decls ih =>
    simp only [bindings, declaredIds, List.flatMap_cons, List.map_append, Decl.ids] at ih ⊢
    exact (List.sublist_append_right _ _).append (ih (List.nodup_append'.mp h).2.1)

/-- The map that the pass ends with. -/
def fuseFuncs (decls : List Decl) : Nat → Option Nat :=
  finalFuncs ⟨fun _ => none, maxName decls + 1⟩ decls

theorem fuse_fused (hnd : (declaredIds file.1).Nodup) :
    Fused file.1 (fuse file).1 (fuseFuncs file.1) := by
  obtain ⟨-, h2, h3, h4⟩ := fuseDecls_fused ⟨fun _ => none, maxName file.1 + 1⟩ file.1
    (fun _ _ => rfl) (bindings_ids _ hnd)
  refine ⟨fun hvi => h2 _ hvi, fun hvi => h4 _ hvi, fun h => ?_⟩
  obtain h | h := h3 _ _ h
  · cases h
  · exact h

end UrWeb.Mono
