import UrWeb.Mono.Sqlcache

/-!
# Scoping of cached queries and of flushes

Caching keeps every index where it was, so it keeps scoping just when the indices
that it writes itself are in scope: the keys of a query around the query, and the
keys of every cache to be flushed around each DML command.
-/

namespace UrWeb.Mono.Sqlcache

-- ---------------------------------------------------------------------------
-- The nodes that the pass adds
-- ---------------------------------------------------------------------------

/-- What a condition on the indices and the DML commands asks of a cached query. -/
theorem everywhere_cachedQuery {K : Nat → Exp → Prop}
    (hK : ∀ d e, (∀ n, e ≠ .rel n) → (∀ inner fm, e ≠ .dml inner fm) → K d e) :
    (cachedQuery i free t q).Everywhere K d ↔ (q.Everywhere K d ∧ K (d + 1) (.rel 0)) ∧
      ∀ v ∈ free, K d (.rel v) ∧ K (d + 1) (.rel (v + 1)) := by
  have hcase : ∀ d disc arms info, K d (.case disc arms info) := fun _ _ _ _ => hK _ _ nofun nofun
  have hffi : ∀ d m x args, K d (.ffiApp m x args) := fun _ _ _ _ => hK _ _ nofun nofun
  have hlet : ∀ d x t e1 e2, K d (.letIn x t e1 e2) := fun _ _ _ _ _ => hK _ _ nofun nofun
  have hseq : ∀ d e1 e2, K d (.seq e1 e2) := fun _ _ _ => hK _ _ nofun nofun
  have hurl : ∀ d e t b, K d (.uurlify e t b) := fun _ _ _ _ => hK _ _ nofun nofun
  simp only [cachedQuery, cacheCall, everywhere_case, everywhere_ffiApp, everywhere_letIn,
    everywhere_seq, everywhere_uurlify, everywhere_rel, List.forall_mem_cons, List.forall_mem_map,
    List.not_mem_nil, patDepth, hcase, hffi, hlet, hseq, hurl, forall_and, true_and, false_imp_iff,
    Nat.add_zero]
  tauto

theorem scoped_cachedQuery : (cachedQuery i free t q).Scoped d ↔
    q.Scoped d ∧ ∀ v ∈ free, v < d := by
  rw [Exp.scoped_iff_everywhere, everywhere_cachedQuery fun d e hrel _ n he => absurd he (hrel n),
    ← Exp.scoped_iff_everywhere]
  simp [InScope]

theorem scoped_makeFlushCall : (makeFlushCall slot 0).Scoped d ↔ ∀ v ∈ slot.freeLevels, v < d := by
  rw [Exp.scoped_iff_everywhere, makeFlushCall, cacheCall, everywhere_ffiApp]
  simp [everywhere_some, everywhere_rel, InScope]

theorem scoped_prependFlush : (prependFlush slots ci e).Scoped d ↔
    e.Scoped d ∧ ∀ slot ∈ slotOf slots ci, ∀ v ∈ slot.freeLevels, v < d := by
  unfold prependFlush
  split
  next slot hs =>
    have hflush : (makeFlushCall slot 0).Scoped d ↔ _ := scoped_makeFlushCall
    rw [Exp.scoped_iff_everywhere] at hflush ⊢
    rw [everywhere_seq, hflush, ← Exp.scoped_iff_everywhere]
    simp [hs, InScope, and_comm]
  next hs => simp [hs]

theorem scoped_flushes {cis : List Nat} {e : Exp} : (cis.foldr (prependFlush slots) e).Scoped d ↔
    e.Scoped d ∧ ∀ ci ∈ cis, ∀ slot ∈ slotOf slots ci, ∀ v ∈ slot.freeLevels, v < d := by
  induction cis with
  | nil => simp
  | cons ci cis ih =>
    rw [List.foldr_cons, scoped_prependFlush, ih, List.forall_mem_cons]
    tauto

-- ---------------------------------------------------------------------------
-- Outermost queries and DML commands
-- ---------------------------------------------------------------------------

def isQuery : Exp → Bool
  | .query _ _ _ _ => true
  | _ => false

/-- The tables that a query reads. -/
def queryTables : Exp → List String
  | .query qm _ _ _ => qm.tables.map Prod.fst
  | _ => []

/-- `K` holds of the outermost queries, with their depths. -/
def QueriesMeet (K : Nat → Exp → Prop) : Nat → Exp → Prop :=
  Exp.Always (fun e => isQuery e = false) fun d q => isQuery q = true → K d q

theorem queriesMeet_query (h : isQuery q = true) : QueriesMeet K d q ↔ K d q := by
  rw [QueriesMeet, Exp.always_iff]
  simp [h]

theorem queriesMeet_node (h : isQuery e = false) :
    QueriesMeet K d e ↔ ∀ p ∈ e.scopes, QueriesMeet K (d + p.1.length) p.2 := by
  rw [QueriesMeet, Exp.always_iff_scopes]
  simp [h]

theorem stopAtQuery_some {r : Pass CachingState Exp} (h : stopAtQuery e = some r) :
    ∃ qm q body initial, e = .query qm q body initial ∧
      r = wrapQueryWithCache qm q body initial := by
  cases e with
  | query qm q body initial => exact ⟨qm, q, body, initial, rfl, (Option.some.inj h).symm⟩
  | _ => cases h

theorem stopAtQuery_none (h : stopAtQuery e = none) : isQuery e = false := by
  cases e with
  | query => cases h
  | _ => rfl

/-- The slots of queries numbered from `n`. -/
def slotsFrom : Nat → List Exp → List CacheSlot
  | _, [] => []
  | n, q :: qs => ⟨n, queryTables q, queryKeys q⟩ :: slotsFrom (n + 1) qs

def CachingState.record (st : CachingState) (qs : List Exp) : CachingState :=
  ⟨st.nextIndex + qs.length, st.slots ++ slotsFrom st.nextIndex qs⟩

theorem slotsFrom_append (n : Nat) (qs qs' : List Exp) :
    slotsFrom n (qs ++ qs') = slotsFrom n qs ++ slotsFrom (n + qs.length) qs' := by
  induction qs generalizing n with
  | nil => rfl
  | cons q qs ih =>
    rw [List.cons_append, slotsFrom, slotsFrom, ih, List.cons_append, List.length_cons]
    congr 3
    omega

theorem CachingState.record_append (st : CachingState) (qs qs' : List Exp) :
    st.record (qs ++ qs') = (st.record qs).record qs' := by
  simp [record, slotsFrom_append, Nat.add_assoc]

/-- One query cached, and one other node over its parts, make a walk of phase 1. -/
theorem phase1_induct {P : Exp → CachingState → Exp → CachingState → Prop}
    (query : ∀ qm q body initial st, P (.query qm q body initial) st
      (cachedQuery st.nextIndex (queryKeys (.query qm q body initial)) qm.state
        (.query qm q body initial)) (st.record [.query qm q body initial]))
    (node : ∀ e st e' st', isQuery e = false → Threads (fun _ => P) e.scopes st e'.scopes st' →
      e'.shape = e.shape → P e st e' st')
    (h : phase1Exp e st = some (e', st')) : P e st e' st' := by
  refine walk_induct (P := fun _ => P) ?_ ?_ e () st e' st' h
  · rintro _ e r st e' st' hs hr
    obtain ⟨qm, q, body, initial, rfl, rfl⟩ := stopAtQuery_some hs
    obtain ⟨rfl, rfl⟩ := Prod.mk.injEq .. ▸ Option.some.inj hr
    exact query qm q body initial st
  · intro _ e st e1 st1 e' st' hs ht hshape hf
    obtain ⟨rfl, rfl⟩ := Pass.pure_eq.mp hf
    exact node e st e1 st1 (stopAtQuery_none hs) ht hshape

theorem scoped_iff_scopes {e : Exp} : e.Scoped d ↔
    InScope d e ∧ ∀ p ∈ e.scopes, p.2.Scoped (d + p.1.length) := by
  simp only [Exp.scoped_iff_everywhere]
  rw [Exp.Everywhere, Exp.always_iff_scopes]
  simp

/-- Phase 1 keeps scoping just when the keys of every outermost query are in scope there. -/
theorem phase1_scoped (h : phase1Exp e st = some (e', st')) : ∀ d, e'.Scoped d ↔
    e.Scoped d ∧ QueriesMeet (fun d q => ∀ v ∈ queryKeys q, v < d) d e := by
  refine phase1_induct (P := fun e _ e' _ => ∀ d, e'.Scoped d ↔
    e.Scoped d ∧ QueriesMeet (fun d q => ∀ v ∈ queryKeys q, v < d) d e) ?_ ?_ h
  · intro qm q body initial st d
    rw [scoped_cachedQuery, queriesMeet_query rfl]
  · intro e st e1 st1 hq ht hshape d
    have hparts := ht.forall_iff (A := fun bs c => c.Scoped (d + bs.length))
      (B := fun bs c => c.Scoped (d + bs.length) ∧
        QueriesMeet (fun d q => ∀ v ∈ queryKeys q, v < d) (d + bs.length) c)
      fun bs _ _ _ _ hp => hp (d + bs.length)
    rw [scoped_iff_scopes, hparts, Exp.shape_inScope hshape, queriesMeet_node hq,
      scoped_iff_scopes (e := e), forall₂_and, and_assoc]

/-- The walk of `e` from `st` to `st'` adds the slots of the outermost queries of `e`. -/
def Records (e : Exp) (st st' : CachingState) : Prop :=
  ∃ qs, st' = st.record qs ∧ ∀ (K : Exp → Prop) d,
    (∀ q ∈ qs, K q) ↔ QueriesMeet (fun _ q => K q) d e

theorem Records.threads (h : Threads (fun _ c st _ st' => Records c st st') ps st ps' st') :
    ∃ qs, st' = st.record qs ∧ ∀ (K : Exp → Prop) d,
      (∀ q ∈ qs, K q) ↔ ∀ p ∈ ps, QueriesMeet (fun _ q => K q) (d + p.1.length) p.2 := by
  induction h with
  | nil => exact ⟨[], by simp [CachingState.record, slotsFrom], by simp⟩
  | cons hc _ ih =>
    obtain ⟨qs1, rfl, h1⟩ := hc
    obtain ⟨qs2, rfl, h2⟩ := ih
    refine ⟨qs1 ++ qs2, (CachingState.record_append ..).symm, fun K d => ?_⟩
    rw [List.forall_mem_append, List.forall_mem_cons, h1 K _, h2 K d]

theorem phase1_records (h : phase1Exp e st = some (e', st')) : Records e st st' := by
  refine phase1_induct (P := fun e st _ st' => Records e st st') ?_ ?_ h
  · intro qm q body initial st
    refine ⟨_, rfl, fun K d => ?_⟩
    rw [List.forall_mem_singleton, queriesMeet_query rfl]
  · intro e st e1 st1 hq ht _
    obtain ⟨qs, hst, hqs⟩ := Records.threads ht
    exact ⟨qs, hst, fun K d => (hqs K d).trans (queriesMeet_node hq).symm⟩

section
variable (u : CaseTables)

/-- The nodes that the scan for table names goes into. -/
def scanned : Exp → Bool
  | .dml _ _ | .app _ _ | .strcat _ _ | .letIn _ _ _ _ | .ffiApp _ _ _ => true
  | _ => false

/-- What the scan finds at a node itself. -/
def ownTables : Exp → Option (List String)
  | .prim (.string _ s) => (extractDmlTable u s).map Option.toList
  | _ => some []

def concatTables (tables : List (Option (List String))) : Option (List String) :=
  tables.foldr (fun ts1 ts2 => ts1.bind fun ts1 => ts2.bind fun ts2 => some (ts1 ++ ts2)) (some [])

theorem dmlTablesArgs_eq (args : List (Exp × Typ)) :
    dmlTablesArgs u args = concatTables (args.map fun a => dmlTables u a.1) := by
  induction args with
  | nil => rfl
  | cons a args ih =>
    rw [dmlTablesArgs, ih]
    rfl

theorem dmlTables_eq (e : Exp) : dmlTables u e =
    if scanned e then concatTables (e.scopes.map fun p => dmlTables u p.2) else ownTables u e := by
  cases e with
  | prim p => cases p <;> rfl
  | ffiApp m x args =>
    rw [dmlTables, dmlTablesArgs_eq]
    simp [scanned, Exp.scopes, Function.comp_def]
  | dml inner fm =>
    rw [dmlTables]
    cases h : dmlTables u inner <;> simp [scanned, Exp.scopes, concatTables, h]
  | app e1 e2 | strcat e1 e2 | letIn x t e1 e2 =>
    rw [dmlTables]
    cases h1 : dmlTables u e1 <;> cases h2 : dmlTables u e2 <;>
      simp [scanned, Exp.scopes, concatTables, h1, h2]
  | _ => rfl

theorem scanned_shape (e : Exp) : scanned e.shape = scanned e := by
  cases e <;> rfl

theorem ownTables_shape (e : Exp) : ownTables u e.shape = ownTables u e := by
  cases e <;> rfl

theorem dmlTables_rebuilt {e e1 : Exp}
    (hparts : e1.scopes.map (fun p => dmlTables u p.2) = e.scopes.map fun p => dmlTables u p.2)
    (hshape : e1.shape = e.shape) : dmlTables u e1 = dmlTables u e := by
  rw [dmlTables_eq, dmlTables_eq u e, hparts, ← scanned_shape, hshape, scanned_shape,
    ← ownTables_shape, hshape, ownTables_shape]

/-- `K` holds of what the scan of each DML command's text finds, with the command's depth. -/
def DmlsMeet (K : Nat → Option (List String) → Prop) : Nat → Exp → Prop :=
  Exp.Everywhere fun d e => ∀ inner fm, e = .dml inner fm → K d (dmlTables u inner)

theorem dmlsMeet_iff {e : Exp} : DmlsMeet u K d e ↔
    (∀ inner fm, e = .dml inner fm → K d (dmlTables u inner)) ∧
      ∀ p ∈ e.scopes, DmlsMeet u K (d + p.1.length) p.2 := by
  rw [DmlsMeet, Exp.Everywhere, Exp.always_iff_scopes]
  simp

/-- A rebuilt node is a DML command just when the node was one. -/
theorem shape_eq_dml {e e1 inner : Exp} (hshape : e1.shape = e.shape) (he : e = .dml inner fm) :
    ∃ inner1, e1 = .dml inner1 fm := by
  subst he
  cases e1 <;> simp_all [Exp.shape, Exp.mapChildren]

/-- Phase 1 leaves the DML commands where they are and their text alone. -/
theorem phase1_dmls (h : phase1Exp e st = some (e', st')) :
    ∀ d, DmlsMeet u K d e' ↔ DmlsMeet u K d e := by
  refine (phase1_induct (P := fun e _ e' _ => dmlTables u e' = dmlTables u e ∧
    ∀ d, DmlsMeet u K d e' ↔ DmlsMeet u K d e) ?_ ?_ h).2
  · intro qm q body initial st
    refine ⟨rfl, fun d => ?_⟩
    rw [DmlsMeet, everywhere_cachedQuery fun d e _ hdml inner fm he => absurd he (hdml inner fm)]
    simp
  · intro e st e1 st1 hq ht hshape
    have hown := dmlTables_rebuilt u (ht.map_eq fun _ _ _ _ _ hp => hp.1) hshape
    refine ⟨hown, fun d => ?_⟩
    have hparts := ht.forall_iff (A := fun bs c => DmlsMeet u K (d + bs.length) c)
      (B := fun bs c => DmlsMeet u K (d + bs.length) c) fun bs _ _ _ _ hp => hp.2 _
    have hhere : (∀ inner fm, e1 = .dml inner fm → K d (dmlTables u inner)) ↔
        ∀ inner fm, e = .dml inner fm → K d (dmlTables u inner) := by
      constructor
      · rintro hk inner fm rfl
        obtain ⟨inner1, rfl⟩ := shape_eq_dml hshape rfl
        exact ht.single.1 ▸ hk inner1 fm rfl
      · rintro hk inner1 fm rfl
        obtain ⟨inner, rfl⟩ := shape_eq_dml hshape.symm rfl
        exact ht.single.1 ▸ hk inner fm rfl
    rw [dmlsMeet_iff, hparts, hhere, ← dmlsMeet_iff]

/-- The keys of all caches to flush for the tables found are below `d`. -/
def FlushesInScope (slots : List CacheSlot) (d : Nat) (found : Option (List String)) : Prop :=
  ∀ tables ∈ found, ∀ ci ∈ flushIndices slots tables, ∀ slot ∈ slotOf slots ci,
    ∀ v ∈ slot.freeLevels, v < d

/-- Phase 2 keeps scoping just when the keys to flush are in scope at every DML command. -/
theorem phase2_scoped {slots : List CacheSlot} (h : phase2Exp u slots e () = some (e', ())) :
    ∀ d, e'.Scoped d ↔ e.Scoped d ∧ DmlsMeet u (FlushesInScope slots) d e := by
  refine walk_induct (P := fun _ e _ e' _ => ∀ d, e'.Scoped d ↔ e.Scoped d ∧
    DmlsMeet u (FlushesInScope slots) d e) ?_ ?_ e () () e' () h
  · intro _ _ _ _ _ _ hs
    cases hs
  · intro _ e s e1 s1 e' s' _ ht hshape hf d
    have hparts := ht.forall_iff (A := fun bs c => c.Scoped (d + bs.length))
      (B := fun bs c => c.Scoped (d + bs.length) ∧
        DmlsMeet u (FlushesInScope slots) (d + bs.length) c)
      fun bs _ _ _ _ hp => hp (d + bs.length)
    have hnode : e1.Scoped d ↔ e.Scoped d ∧
        ∀ p ∈ e.scopes, DmlsMeet u (FlushesInScope slots) (d + p.1.length) p.2 := by
      rw [scoped_iff_scopes, hparts, Exp.shape_inScope hshape, scoped_iff_scopes (e := e),
        forall₂_and, and_assoc]
    by_cases hdml : ∃ inner fm, e = .dml inner fm
    · obtain ⟨inner, fm, rfl⟩ := hdml
      simp only [flushDml, Option.bind_eq_bind, Option.bind_eq_some_iff] at hf
      obtain ⟨tables, hfound, hf⟩ := hf
      obtain ⟨rfl, -⟩ := Prod.mk.injEq .. ▸ Option.some.inj hf
      have hhere : (∀ inner' fm', Exp.dml inner fm = .dml inner' fm' →
          FlushesInScope slots d (dmlTables u inner')) ↔
          ∀ ci ∈ flushIndices slots tables, ∀ slot ∈ slotOf slots ci, ∀ v ∈ slot.freeLevels,
            v < d := by
        simp [FlushesInScope, hfound]
      rw [scoped_flushes, hnode, dmlsMeet_iff, hhere]
      tauto
    · have hne : ∀ inner fm, e ≠ .dml inner fm := fun inner fm he => hdml ⟨inner, fm, he⟩
      have hpure : flushDml u slots e e1 s1 = some (e1, s1) := by
        cases e with
        | dml inner fm => exact absurd rfl (hne inner fm)
        | _ => rfl
      obtain ⟨rfl, -⟩ := Prod.mk.injEq .. ▸ Option.some.inj (hpure.symm.trans hf)
      rw [hnode, dmlsMeet_iff]
      simp [hne]

end

-- ---------------------------------------------------------------------------
-- Which caches are flushed
-- ---------------------------------------------------------------------------

theorem mem_flushIndices {slots : List CacheSlot} {tables : List String} :
    ci ∈ flushIndices slots tables ↔
      ∃ slot ∈ slots, slot.index = ci ∧ ∃ t ∈ tables, t ∈ slot.tables := by
  have hpush : ∀ (cis acc : List Nat), ci ∈ cis.foldl
      (fun acc ci => if ci ∈ acc then acc else acc ++ [ci]) acc ↔ ci ∈ acc ∨ ci ∈ cis := by
    intro cis
    induction cis with
    | nil => simp
    | cons c cis ih =>
      intro acc
      rw [List.foldl_cons, ih]
      split
      · next hc =>
        rw [List.mem_cons]
        constructor
        · rintro (h | h)
          · exact .inl h
          · exact .inr (.inr h)
        · rintro (h | rfl | h)
          · exact .inl h
          · exact .inl hc
          · exact .inr h
      · simp [or_assoc]
  have htables : ∀ (tables : List String) (acc : List Nat), ci ∈ tables.foldl
      (fun acc t => (tableToCaches slots t).foldl
        (fun acc ci => if ci ∈ acc then acc else acc ++ [ci]) acc) acc ↔
      ci ∈ acc ∨ ∃ t ∈ tables, ci ∈ tableToCaches slots t := by
    intro tables
    induction tables with
    | nil => simp
    | cons t tables ih =>
      intro acc
      rw [List.foldl_cons, ih, hpush, List.exists_mem_cons_iff, or_assoc]
  rw [flushIndices, htables]
  simp only [tableToCaches, List.mem_flatMap, List.mem_map, List.mem_filter, decide_eq_true_eq,
    List.not_mem_nil, false_or]
  constructor
  · rintro ⟨t, ht, slot, hslot, _, ⟨htab, rfl⟩, rfl⟩
    exact ⟨slot, hslot, rfl, _, ht, htab⟩
  · rintro ⟨slot, hslot, rfl, t, ht, htab⟩
    exact ⟨t, ht, slot, hslot, t, ⟨htab, rfl⟩, rfl⟩

theorem slotsFrom_index {n : Nat} (h : slot ∈ slotsFrom n qs) : n ≤ slot.index := by
  induction qs generalizing n with
  | nil => cases h
  | cons q qs ih =>
    rcases List.mem_cons.mp h with rfl | h
    · exact Nat.le_refl _
    · exact Nat.le_of_succ_le (ih h)

/-- Two slots of one run have different indices. -/
theorem slotsFrom_unique {n : Nat} (h1 : slot1 ∈ slotsFrom n qs) (h2 : slot2 ∈ slotsFrom n qs)
    (he : slot1.index = slot2.index) : slot1 = slot2 := by
  induction qs generalizing n with
  | nil => cases h1
  | cons q qs ih =>
    rcases List.mem_cons.mp h1 with rfl | h1 <;> rcases List.mem_cons.mp h2 with rfl | h2
    · rfl
    · have := slotsFrom_index h2
      simp only at he
      omega
    · have := slotsFrom_index h1
      simp only at he
      omega
    · exact ih h1 h2

theorem slotOf_slotsFrom {n : Nat} (h : slot ∈ slotsFrom n qs) :
    slotOf (slotsFrom n qs) slot.index = some slot := by
  cases hf : slotOf (slotsFrom n qs) slot.index with
  | none =>
    have := List.find?_eq_none.mp hf slot (List.mem_reverse.mpr h)
    simp at this
  | some slot' =>
    have hidx := List.find?_some hf
    have hmem := List.mem_reverse.mp (List.mem_of_find?_eq_some hf)
    exact congrArg some (slotsFrom_unique hmem h (by simpa using hidx))

theorem mem_slotsFrom {n : Nat} : (∃ slot ∈ slotsFrom n qs, slot.tables = tables ∧
    slot.freeLevels = free) ↔ ∃ q ∈ qs, queryTables q = tables ∧ queryKeys q = free := by
  induction qs generalizing n with
  | nil => simp [slotsFrom]
  | cons q qs ih => rw [slotsFrom, List.exists_mem_cons_iff, List.exists_mem_cons_iff, ih]

/-- The keys flushed for a command are those of the queries that read one of its tables. -/
theorem flushesInScope_iff {n : Nat} : FlushesInScope (slotsFrom n qs) d found ↔
    ∀ tables ∈ found, ∀ q ∈ qs, (∃ t ∈ tables, t ∈ queryTables q) → ∀ v ∈ queryKeys q, v < d := by
  constructor
  · intro h tables hfound q hq ⟨t, ht, htab⟩ v hv
    obtain ⟨slot, hslot, htables, hfree⟩ := mem_slotsFrom.mpr ⟨q, hq, rfl, rfl⟩
    refine h tables hfound slot.index ?_ slot (slotOf_slotsFrom hslot) v (hfree ▸ hv)
    exact mem_flushIndices.mpr ⟨slot, hslot, rfl, t, ht, htables ▸ htab⟩
  · intro h tables hfound ci hci slot hs v hv
    obtain ⟨slot', hslot', rfl, t, ht, htab⟩ := mem_flushIndices.mp hci
    obtain rfl : slot' = slot := Option.some.inj ((slotOf_slotsFrom hslot').symm.trans hs)
    obtain ⟨q, hq, htables, hfree⟩ := mem_slotsFrom.mp ⟨slot', hslot', rfl, rfl⟩
    exact h tables hfound q hq ⟨t, ht, htables ▸ htab⟩ v (hfree ▸ hv)

-- ---------------------------------------------------------------------------
-- Files
-- ---------------------------------------------------------------------------

/-- The expressions of a declaration that the pass walks, and the others. -/
def walked : Decl → List Exp
  | .val vi => [vi.e]
  | .valRec vis => vis.map ValBinding.e
  | .table _ _ pe ce => [pe, ce]
  | .task e1 e2 => [e1, e2]
  | .policy pol => [pol.exp]
  | _ => []

def unwalked : Decl → List Exp
  | .view _ _ e => [e]
  | _ => []

/-- Every index refers to a binder around it. -/
def FileScoped (file : File) : Prop :=
  ∀ d ∈ file.1, ∀ e ∈ walked d ++ unwalked d, e.Scoped 0

section
variable {σ : Type} {f : Exp → Pass σ Exp} {s s' : σ}

theorem bindingNode_eq (h : bindingNode f vi s = some (vi', s')) :
    f vi.e s = some (vi'.e, s') := by
  simp only [bindingNode, Pass.bind_eq, Pass.pure_eq] at h
  obtain ⟨e, _, he, rfl, rfl⟩ := h
  exact he

theorem bindings_threads {vis vis' : List ValBinding} (h : vis.mapM (bindingNode f) s = some (vis', s')) :
    Threads (fun _ c s c' s' => f c s = some (c', s'))
      (vis.map fun vi => ([], vi.e)) s (vis'.map fun vi => ([], vi.e)) s' := by
  induction vis generalizing vis' s with
  | nil =>
    obtain ⟨rfl, rfl⟩ := Pass.pure_eq.mp h
    exact .nil
  | cons vi vis ih =>
    rw [List.mapM_cons] at h
    simp only [Pass.bind_eq, Pass.pure_eq] at h
    obtain ⟨vi1, s1, h1, vis1, s2, h2, rfl, rfl⟩ := h
    exact .cons (bindingNode_eq h1) (ih h2)

theorem policyNode_eq (h : policyNode f pol s = some (pol', s')) :
    f pol.exp s = some (pol'.exp, s') := by
  cases pol <;>
  · simp only [policyNode, Pass.bind_eq, Pass.pure_eq] at h
    obtain ⟨e, _, he, rfl, rfl⟩ := h
    exact he

theorem declNode_threads (h : declNode f d s = some (d', s')) :
    Threads (fun _ c s c' s' => f c s = some (c', s'))
      ((walked d).map ([], ·)) s ((walked d').map ([], ·)) s' ∧ unwalked d' = unwalked d := by
  cases d with
  | val vi =>
    simp only [declNode, Pass.bind_eq, Pass.pure_eq] at h
    obtain ⟨vi', _, hvi, rfl, rfl⟩ := h
    exact ⟨.cons (bindingNode_eq hvi) .nil, rfl⟩
  | valRec vis =>
    simp only [declNode, Pass.bind_eq, Pass.pure_eq] at h
    obtain ⟨vis', _, hvis, rfl, rfl⟩ := h
    exact ⟨by simpa [walked, Function.comp_def] using bindings_threads hvis, rfl⟩
  | table nm xts pe ce =>
    simp only [declNode, Pass.bind_eq, Pass.pure_eq] at h
    obtain ⟨pe', _, h1, ce', _, h2, rfl, rfl⟩ := h
    exact ⟨.cons h1 (.cons h2 .nil), rfl⟩
  | task e1 e2 =>
    simp only [declNode, Pass.bind_eq, Pass.pure_eq] at h
    obtain ⟨e1', _, h1, e2', _, h2, rfl, rfl⟩ := h
    exact ⟨.cons h1 (.cons h2 .nil), rfl⟩
  | policy pol =>
    simp only [declNode, Pass.bind_eq, Pass.pure_eq] at h
    obtain ⟨pol', _, hpol, rfl, rfl⟩ := h
    exact ⟨.cons (policyNode_eq hpol) .nil, rfl⟩
  | _ =>
    obtain ⟨rfl, rfl⟩ := Pass.pure_eq.mp h
    exact ⟨.nil, rfl⟩

theorem declNodes_threads {decls decls' : List Decl}
    (h : decls.mapM (declNode f) s = some (decls', s')) :
    Threads (fun _ c s c' s' => f c s = some (c', s'))
      ((decls.flatMap walked).map ([], ·)) s ((decls'.flatMap walked).map ([], ·)) s' ∧
    decls'.flatMap unwalked = decls.flatMap unwalked := by
  induction decls generalizing decls' s with
  | nil =>
    obtain ⟨rfl, rfl⟩ := Pass.pure_eq.mp h
    exact ⟨.nil, rfl⟩
  | cons d decls ih =>
    rw [List.mapM_cons] at h
    simp only [Pass.bind_eq, Pass.pure_eq] at h
    obtain ⟨d1, s1, h1, decls1, s2, h2, rfl, rfl⟩ := h
    obtain ⟨hd, hdu⟩ := declNode_threads h1
    obtain ⟨hds, hdsu⟩ := ih h2
    simp only [List.flatMap_cons, List.map_append, hdu, hdsu]
    exact ⟨hd.append hds, trivial⟩

end

theorem fileScoped_iff : FileScoped file ↔
    (∀ e ∈ file.1.flatMap walked, e.Scoped 0) ∧ ∀ e ∈ file.1.flatMap unwalked, e.Scoped 0 := by
  simp only [FileScoped, List.forall_mem_append, List.mem_flatMap, forall_exists_index, and_imp,
    forall₂_and]
  constructor
  · exact fun ⟨h1, h2⟩ => ⟨fun e d hd he => h1 d hd e he, fun e d hd he => h2 d hd e he⟩
  · exact fun ⟨h1, h2⟩ => ⟨fun d hd e he => h1 e d hd he, fun d hd e he => h2 e d hd he⟩

/-- The key arguments of the look-up and of the store around a query, and the query. -/
def keyArguments : Exp → Option (List Exp × List Exp × Exp)
  | .case (.ffiApp _ _ checkArgs)
      [(_, .letIn _ _ query (.seq (.ffiApp _ _ (_ :: storeArgs)) _)), _] _ =>
    some (checkArgs.map Prod.fst, storeArgs.map Prod.fst, query)
  | _ => none

/-- Each key argument denotes a variable that is free in the query; the store is under
one more binder. -/
def KeysDenote (e : Exp) : Prop :=
  ∀ checkArgs storeArgs query, keyArguments e = some (checkArgs, storeArgs, query) →
    (∀ a ∈ checkArgs, ∃ v, a = .rel v ∧ Exp.Free v query) ∧
      ∀ a ∈ storeArgs, ∃ v, a = .rel (v + 1) ∧ Exp.Free v query

theorem keysDenote_cachedQuery : KeysDenote (cachedQuery i free t q) ↔
    ∀ v ∈ free, Exp.Free v q := by
  constructor
  · intro h v hv
    obtain ⟨w, hw, hfree⟩ := (h _ _ _ rfl).1 (.rel v) (by simpa using hv)
    obtain rfl := Exp.rel.inj hw
    exact hfree
  · intro h _ _ _ he
    simp only [cachedQuery, cacheCall, keyArguments, Option.some.injEq, Prod.mk.injEq,
      List.map_map] at he
    obtain ⟨rfl, rfl, rfl⟩ := he
    refine ⟨?_, ?_⟩ <;>
    · rintro a ha
      obtain ⟨v, hv, rfl⟩ := List.mem_map.mp ha
      exact ⟨v, rfl, h v hv⟩

/-- What phase 1 puts in the place of a query has key arguments that denote its free
variables. -/
def QueryKeysDenote (q : Exp) : Prop :=
  ∀ st e' st', phase1Exp q st = some (e', st') → KeysDenote e'

theorem queryKeysDenote_iff (h : isQuery q = true) : QueryKeysDenote q ↔
    ∀ v, Exp.Occurs 0 v q → Exp.Free v q := by
  have hkeys : ∀ v, v ∈ queryKeys q ↔ Exp.Occurs 0 v q := fun v => mem_freeVars 0 q
  cases q with
  | query qm q body initial =>
    have hrun : ∀ st, phase1Exp (.query qm q body initial) st =
        some (cachedQuery st.nextIndex (queryKeys (.query qm q body initial)) qm.state
          (.query qm q body initial), st.record [.query qm q body initial]) := fun _ => rfl
    constructor
    · intro hd v hv
      exact keysDenote_cachedQuery.mp (hd ⟨0, []⟩ _ _ (hrun _)) v ((hkeys v).mpr hv)
    · intro hfree st e' st' hr
      obtain ⟨rfl, -⟩ := Prod.mk.injEq .. ▸ Option.some.inj ((hrun st).symm.trans hr)
      exact keysDenote_cachedQuery.mpr fun v hv => hfree v ((hkeys v).mp hv)
  | _ => cases h

/-- The outermost queries of a file have `K`. -/
def FileQueriesMeet (K : Exp → Prop) (file : File) : Prop :=
  ∀ e ∈ file.1.flatMap walked, QueriesMeet (fun _ q => K q) 0 e

/-- An index that occurs free in an outermost query, when the row and the accumulator of
its queries are not counted as binders, is also free in it when they are. -/
def KeysStable (file : File) : Prop :=
  FileQueriesMeet (fun q => ∀ v, Exp.Occurs 0 v q → Exp.Free v q) file

/-- Where a DML command names a table that some outermost query reads, the indices that
occur in the query, so counted, are below the depth of the command. -/
def FlushesReach (u : CaseTables) (file : File) : Prop :=
  ∀ e ∈ file.1.flatMap walked, DmlsMeet u (fun d found => ∀ tables ∈ found,
    FileQueriesMeet (fun q => (∃ t ∈ tables, t ∈ queryTables q) →
      ∀ v, Exp.Occurs 0 v q → v < d) file) 0 e

theorem queriesMeet_congr {K K' : Nat → Exp → Prop}
    (hiff : ∀ d q, isQuery q = true → (K d q ↔ K' d q)) :
    QueriesMeet K d e ↔ QueriesMeet K' d e :=
  ⟨fun h d' q hr hq => (hiff d' q hq).mp (h d' q hr hq),
    fun h d' q hr hq => (hiff d' q hq).mpr (h d' q hr hq)⟩

theorem fileQueriesMeet_denote : FileQueriesMeet QueryKeysDenote file ↔ KeysStable file :=
  forall₂_congr fun _ _ => queriesMeet_congr fun _ _ hq => queryKeysDenote_iff hq

/-- In a scoped expression free indices are in scope where they are free. -/
theorem keys_inScope (hs : e.Scoped d)
    (h : QueriesMeet (fun _ q => ∀ v, Exp.Occurs 0 v q → Exp.Free v q) d e) :
    QueriesMeet (fun d q => ∀ v ∈ queryKeys q, v < d) d e := by
  intro d' q hr hq v hv
  have hfree := h d' q hr hq v ((mem_freeVars 0 q).mp hv)
  exact Exp.scoped_iff_free.mp (hs.of_has (hr.imp fun _ _ => trivial)) v hfree

/-- Scoping and keys are right after the pass just when an index of a query's own row and
accumulator is not taken for a variable around the query, and no cache is flushed where
its keys are out of scope. -/
theorem go_scoped_iff (hfile : FileScoped file) (hgo : go u true file = some out) :
    FileScoped out ∧ FileQueriesMeet QueryKeysDenote file ↔
      KeysStable file ∧ FlushesReach u file := by
  simp only [go, Bool.not_true, Bool.false_eq_true, if_false, Option.bind_eq_bind,
    Option.bind_eq_some_iff] at hgo
  obtain ⟨⟨decls1, st⟩, h1, ⟨decls2, _⟩, h2, hout⟩ := hgo
  obtain rfl := Option.some.inj hout
  obtain ⟨ht1, hu1⟩ := declNodes_threads h1
  obtain ⟨ht2, hu2⟩ := declNodes_threads h2
  -- the slots of the run are those of the file's outermost queries
  obtain ⟨qs, rfl, hqs⟩ := Records.threads (ht1.imp fun _ _ _ _ _ h => phase1_records h)
  have hmem : ∀ K : Exp → Prop, (∀ q ∈ qs, K q) ↔ FileQueriesMeet K file := by
    intro K
    rw [hqs K 0, List.forall_mem_map]
    rfl
  obtain ⟨hwalked, hrest⟩ := fileScoped_iff.mp hfile
  have hphase1 : (∀ e ∈ decls1.flatMap walked, e.Scoped 0) ↔ ∀ e ∈ file.1.flatMap walked,
      e.Scoped 0 ∧ QueriesMeet (fun d q => ∀ v ∈ queryKeys q, v < d) 0 e := by
    simpa only [List.forall_mem_map] using ht1.forall_iff (A := fun _ c => c.Scoped 0)
      (B := fun _ c => c.Scoped 0 ∧ QueriesMeet (fun d q => ∀ v ∈ queryKeys q, v < d) 0 c)
      fun _ _ _ _ _ h => phase1_scoped h 0
  have hdmls : (∀ e ∈ decls1.flatMap walked, DmlsMeet u (FlushesInScope (slotsFrom 0 qs)) 0 e) ↔
      ∀ e ∈ file.1.flatMap walked, DmlsMeet u (FlushesInScope (slotsFrom 0 qs)) 0 e := by
    simpa only [List.forall_mem_map] using ht1.forall_iff
      (A := fun _ c => DmlsMeet u (FlushesInScope (slotsFrom 0 qs)) 0 c)
      (B := fun _ c => DmlsMeet u (FlushesInScope (slotsFrom 0 qs)) 0 c)
      fun _ _ _ _ _ h => phase1_dmls u h 0
  have hphase2 : (∀ e ∈ decls2.flatMap walked, e.Scoped 0) ↔ ∀ e ∈ decls1.flatMap walked,
      e.Scoped 0 ∧ DmlsMeet u (FlushesInScope (slotsFrom 0 qs)) 0 e := by
    simpa only [List.forall_mem_map] using ht2.forall_iff (A := fun _ c => c.Scoped 0)
      (B := fun _ c => c.Scoped 0 ∧ DmlsMeet u (FlushesInScope (slotsFrom 0 qs)) 0 c)
      fun _ _ _ _ _ h => phase2_scoped u h 0
  have hflush : (∀ e ∈ file.1.flatMap walked, DmlsMeet u (FlushesInScope (slotsFrom 0 qs)) 0 e) ↔
      FlushesReach u file := by
    have hk : ∀ d found, FlushesInScope (slotsFrom 0 qs) d found ↔ ∀ tables ∈ found,
        FileQueriesMeet (fun q => (∃ t ∈ tables, t ∈ queryTables q) →
          ∀ v, Exp.Occurs 0 v q → v < d) file := by
      intro d found
      simp only [flushesInScope_iff, ← hmem, queryKeys, mem_freeVars]
    simp only [FlushesReach, DmlsMeet, hk]
  have hout : FileScoped (decls2, file.2) ↔
      (∀ e ∈ file.1.flatMap walked, QueriesMeet (fun d q => ∀ v ∈ queryKeys q, v < d) 0 e) ∧
        FlushesReach u file := by
    rw [fileScoped_iff, hphase2, forall₂_and, hphase1, hdmls, hflush, forall₂_and, hu2, hu1]
    exact ⟨fun h => ⟨h.1.1.2, h.1.2⟩, fun h => ⟨⟨⟨hwalked, h.1⟩, h.2⟩, hrest⟩⟩
  rw [hout, fileQueriesMeet_denote]
  constructor
  · exact fun h => ⟨h.2, h.1.2⟩
  · exact fun h => ⟨⟨fun e he => keys_inScope (hwalked e he) (h.1 e he), h.2⟩, h.1⟩

instance (file : File) : Decidable (FileScoped file) := by
  unfold FileScoped
  infer_instance

/-- `fn x => query t1 x (fn row acc => acc)` and `fn y => dml "DELETE FROM t1"`. -/
def lookup : Exp := .query ⟨[], [("t1", [])], .unit⟩ (.rel 0) (.rel 0) (.record [])
def deletion : Exp := .dml (.prim (.string .normal "DELETE FROM t1")) .error
def cachedFile : File :=
  ([.val ⟨"f", 1, .func .string .unit, .abs "x" .string .unit lookup, "f"⟩,
    .val ⟨"g", 2, .func .string .unit, .abs "y" .string .unit deletion, "g"⟩], [])

theorem go_scoped_cachedFile : ∃ out, go .ascii true cachedFile = some out ∧
    FileScoped out ∧ FileQueriesMeet QueryKeysDenote cachedFile := by
  have hkeys : ∀ v, Exp.Occurs 0 v lookup → v = 0 := by
    intro v hv
    have hall : ∀ v ∈ freeVars 0 lookup, v = 0 := by decide
    exact hall v ((mem_freeVars 0 lookup).mpr hv)
  have hmeet : ∀ K : Exp → Prop, K lookup → FileQueriesMeet K cachedFile := by
    intro K hK
    have hf : QueriesMeet (fun _ q => K q) 0 (.abs "x" .string .unit lookup) :=
      (queriesMeet_node rfl).mpr (List.forall_mem_singleton.mpr ((queriesMeet_query rfl).mpr hK))
    have hg : QueriesMeet (fun _ q => K q) 0 (.abs "y" .string .unit deletion) :=
      (queriesMeet_node rfl).mpr (List.forall_mem_singleton.mpr ((queriesMeet_node rfl).mpr
        (List.forall_mem_singleton.mpr ((queriesMeet_node rfl).mpr nofun))))
    exact List.forall_mem_cons.mpr ⟨hf, List.forall_mem_singleton.mpr hg⟩
  have hreach : FlushesReach .ascii cachedFile := by
    refine List.forall_mem_cons.mpr ⟨?_, List.forall_mem_singleton.mpr ?_⟩
    · refine (dmlsMeet_iff _).mpr ⟨nofun, List.forall_mem_singleton.mpr ?_⟩
      refine (dmlsMeet_iff _).mpr ⟨nofun, List.forall_mem_cons.mpr ⟨?_, ?_⟩⟩
      · exact (dmlsMeet_iff _).mpr ⟨nofun, nofun⟩
      · refine List.forall_mem_cons.mpr ⟨?_, List.forall_mem_singleton.mpr ?_⟩
        · exact (dmlsMeet_iff _).mpr ⟨nofun, nofun⟩
        · exact (dmlsMeet_iff _).mpr ⟨nofun, nofun⟩
    · refine (dmlsMeet_iff _).mpr ⟨nofun, List.forall_mem_singleton.mpr ?_⟩
      refine (dmlsMeet_iff _).mpr ⟨fun _ _ _ _ _ => ?_, List.forall_mem_singleton.mpr ?_⟩
      · exact hmeet _ fun _ v hv => Nat.lt_of_le_of_lt (Nat.le_of_eq (hkeys v hv)) Nat.one_pos
      · exact (dmlsMeet_iff _).mpr ⟨nofun, nofun⟩
  have hfree : Exp.Free 0 lookup := by decide
  exact ⟨_, rfl, (go_scoped_iff (u := .ascii) (by decide) rfl).mpr
    ⟨hmeet _ fun v hv => hkeys v hv ▸ hfree, hreach⟩⟩

/-- `query t1 "SELECT …" (fn row acc => row)`: the row is taken for a variable outside. -/
def rowQuery : Exp :=
  .query ⟨[], [("t1", [])], .unit⟩ (.prim (.string .normal "SELECT * FROM t1")) (.rel 1)
    (.record [])
def rowFile : File := ([.val ⟨"f", 1, .unit, rowQuery, "f"⟩], [])

theorem go_unscoped : FileScoped rowFile ∧ ∃ out, go .ascii true rowFile = some out ∧
    ¬ FileScoped out ∧ ¬ FileQueriesMeet QueryKeysDenote rowFile := by
  refine ⟨by decide, _, rfl, by decide, fun h => ?_⟩
  have hdenote : QueryKeysDenote rowQuery := h _ List.mem_cons_self 0 _ .here rfl
  have hseen : Exp.Occurs 0 1 rowQuery := by decide
  have hbound : ¬ Exp.Free 1 rowQuery := by decide
  exact hbound ((queryKeysDenote_iff rfl).mp hdenote 1 hseen)

end UrWeb.Mono.Sqlcache
