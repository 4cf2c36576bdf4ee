import UrWeb.Lib.DependencyCache
import UrWeb.Elaborated.Mentions

/-!
# The module database never serves a stale module

The database refines a cache with recorded dependencies: its two indices agree
on what is stored, and an insertion stores the new entry and drops the
dependents of its name. Over a run of database calls, an entry that can be
handed out mentions only modules that are stored as the insertions it was
elaborated against, as long as every module's mentions can be seen by the
walkers and every module left with an unsolved cell is recognised as such.
-/

namespace UrWeb.Elaborated

open DependencyCache

-- ---------------------------------------------------------------------------
-- The database as a cache
-- ---------------------------------------------------------------------------

/-- Entries depend on names and are identified by module ids. -/
def moduleView : View String Nat OneMod where
  deps r := {y | y ∈ r.deps}
  Is r n := ∃ x, ModDb.xn r.decl = some (x, n)

/-- Every entry is stored under its own name, and its id leads to it. -/
def Indexed (byName : ByName) (byId : ById) : Prop :=
  ∀ x r, byName.lookup x = some r →
    ∃ n, ModDb.xn r.decl = some (x, n) ∧ byId.lookup n = some x

/-- The id `n` belongs to no entry. -/
def Unstored (byName : ByName) (n : Nat) : Prop :=
  ∀ y r, byName.lookup y = some r → ¬ moduleView.Is r n

theorem Indexed.name_unique {byName : ByName} {byId : ById} (h : Indexed byName byId)
    (hx : byName.lookup x = some r) (hy : byName.lookup y = some s)
    (hr : moduleView.Is r n) (hs : moduleView.Is s n) : x = y := by
  obtain ⟨m, hrm, hm⟩ := h x r hx
  obtain ⟨k, hsk, hk⟩ := h y s hy
  obtain ⟨_, hr⟩ := hr
  obtain ⟨_, hs⟩ := hs
  cases hrm.symm.trans hr
  cases hsk.symm.trans hs
  exact Option.some.inj (hm.symm.trans hk)

namespace ModDb

theorem remove_byName (db : ModDb) (name : String) :
    (db.remove name).byName = db.byName.erase name := by
  unfold remove
  cases hr : db.byName.lookup name with
  | none =>
    apply AList.ext
    exact (List.kerase_of_notMem_keys (AList.lookup_eq_none.mp hr)).symm
  | some r => cases hx : xn r.decl <;> simp only [hx]

theorem lookup_remove (db : ModDb) (name y : String) :
    (db.remove name).byName.lookup y = if y = name then none else db.byName.lookup y := by
  rw [remove_byName]
  split
  · next hy => rw [hy, AList.lookup_erase]
  · next hy => exact AList.lookup_erase_ne hy

theorem indexed_remove {db : ModDb} (h : Indexed db.byName db.byId) (name : String) :
    Indexed (db.remove name).byName (db.remove name).byId := by
  intro x r hr
  rw [lookup_remove] at hr
  split at hr
  · cases hr
  next hx =>
    obtain ⟨n, hn, hid⟩ := h x r hr
    refine ⟨n, hn, ?_⟩
    unfold remove
    cases hs : db.byName.lookup name with
    | none => exact hid
    | some s =>
      obtain ⟨m, hm, hmid⟩ := h name s hs
      have hne : n ≠ m := by
        rintro rfl
        exact hx (Option.some.inj (hid.symm.trans hmid))
      simp only [hm]
      exact (AList.lookup_erase_ne hne).trans hid

theorem lookup_foldl_remove (names : List String) (db : ModDb) (y : String) :
    (names.foldl remove db).byName.lookup y =
      if y ∈ names then none else db.byName.lookup y := by
  induction names generalizing db with
  | nil => rfl
  | cons name names ih =>
    rw [List.foldl_cons, ih, lookup_remove]
    by_cases hy : y = name <;> simp [hy]

theorem indexed_foldl_remove (names : List String) {db : ModDb}
    (h : Indexed db.byName db.byId) :
    Indexed (names.foldl remove db).byName (names.foldl remove db).byId := by
  induction names generalizing db with
  | nil => exact h
  | cons name names ih => exact ih (indexed_remove h name)

theorem remove_backup (db : ModDb) (name : String) :
    (db.remove name).byNameBackup = db.byNameBackup ∧
      (db.remove name).byIdBackup = db.byIdBackup := by
  unfold remove
  repeat' split
  all_goals exact ⟨rfl, rfl⟩

theorem foldl_remove_backup (names : List String) (db : ModDb) :
    (names.foldl remove db).byNameBackup = db.byNameBackup ∧
      (names.foldl remove db).byIdBackup = db.byIdBackup := by
  induction names generalizing db with
  | nil => exact ⟨rfl, rfl⟩
  | cons name names ih =>
    obtain ⟨h1, h2⟩ := ih (db.remove name)
    obtain ⟨h3, h4⟩ := remove_backup db name
    exact ⟨h1.trans h3, h2.trans h4⟩

theorem mem_toRemove {db : ModDb} {x y : String} :
    y ∈ db.toRemove x ↔ ∃ r, db.byName.lookup y = some r ∧ x ∈ r.deps := by
  simp only [toRemove, List.mem_map, List.mem_filter, decide_eq_true_eq]
  constructor
  · rintro ⟨⟨z, r⟩, ⟨hmem, hx⟩, rfl⟩
    exact ⟨r, AList.mem_lookup_iff.mpr hmem, hx⟩
  · rintro ⟨r, hr, hx⟩
    exact ⟨⟨y, r⟩, ⟨AList.mem_lookup_iff.mp hr, hx⟩, rfl⟩

/-- The two ways in which an insertion goes. -/
theorem insert_cases (db : ModDb) (d : Declaration) (tm : SystemTime) (err : Bool) :
    (db.insert d tm err = db ∧ ∀ x n, xn d = some (x, n) → db.skipIt x tm = true) ∨
    ∃ x n, xn d = some (x, n) ∧ db.skipIt x tm = false ∧
      db.insert d tm err =
        { (db.toRemove x).foldl remove db with
          byName := ((db.toRemove x).foldl remove db).byName.insert x
            ⟨d, tm, computeDeps db.byId db.byName d, err⟩
          byId := ((db.toRemove x).foldl remove db).byId.insert n x } := by
  unfold insert
  cases hx : xn d with
  | none =>
    refine Or.inl ⟨rfl, ?_⟩
    intro x n h
    cases h
  | some p =>
    obtain ⟨x, n⟩ := p
    cases hs : db.skipIt x tm with
    | true =>
      refine Or.inl ⟨by simp [hs], ?_⟩
      rintro _ _ ⟨⟩
      exact hs
    | false => exact Or.inr ⟨x, n, rfl, hs, by simp [hs]⟩

/-- What a database call that stores `e` under `x` does to the first index. -/
theorem lookup_stored (db : ModDb) (x : String) (e : OneMod) :
    (fun y => (((db.toRemove x).foldl remove db).byName.insert x e).lookup y) =
      store moduleView (fun y => db.byName.lookup y) x e := by
  funext y
  by_cases hy : y = x
  · subst hy
    rw [store_self, AList.lookup_insert]
  · rw [AList.lookup_insert_ne hy, lookup_foldl_remove]
    apply Option.ext
    intro r
    have hstore : store moduleView (fun y => db.byName.lookup y) x e y = some r ↔
        db.byName.lookup y = some r ∧ x ∉ r.deps := store_other hy
    rw [hstore]
    constructor
    · intro h
      split at h
      · cases h
      · next hy => exact ⟨h, fun hx => hy (mem_toRemove.mpr ⟨r, h, hx⟩)⟩
    · rintro ⟨hr, hx⟩
      rw [if_neg, hr]
      intro hy
      obtain ⟨s, hs, hxs⟩ := mem_toRemove.mp hy
      cases hr.symm.trans hs
      exact hx hxs

/-- An insertion under an unused id leaves every entry indexed. -/
theorem indexed_stored {db : ModDb} (h : Indexed db.byName db.byId) (hn : Unstored db.byName n)
    {e : OneMod} (he : xn e.decl = some (x, n)) :
    Indexed (((db.toRemove x).foldl remove db).byName.insert x e)
      (((db.toRemove x).foldl remove db).byId.insert n x) := by
  intro y r hr
  by_cases hy : y = x
  · subst hy
    obtain rfl : e = r := Option.some.inj ((AList.lookup_insert _).symm.trans hr)
    exact ⟨n, he, AList.lookup_insert _⟩
  · rw [AList.lookup_insert_ne hy] at hr
    obtain ⟨m, hm, hid⟩ := indexed_foldl_remove (db.toRemove x) h y r hr
    refine ⟨m, hm, ?_⟩
    rw [AList.lookup_insert_ne, hid]
    rintro rfl
    rw [lookup_foldl_remove] at hr
    split at hr
    · cases hr
    · exact hn y r hr ⟨y, hm⟩

end ModDb

-- ---------------------------------------------------------------------------
-- Recorded dependencies
-- ---------------------------------------------------------------------------

/-- The names under which the walkers find what `d` mentions. -/
def seenNames (byId : ById) (d : Declaration) : Set String :=
  {z | ∃ v ∈ d.mentions false, byId.lookup v = some z}

theorem mem_doMod {byId : ById} {byName : ByName} :
    y ∈ doMod byId byName n deps ↔
      y ∈ deps ∨ ∃ z, byId.lookup n = some z ∧
        (y = z ∨ ∃ r, byName.lookup z = some r ∧ y ∈ r.deps) := by
  unfold doMod
  cases hz : byId.lookup n with
  | none => simp
  | some z =>
    cases hr : byName.lookup z with
    | none => simp [hr, or_comm]
    | some r =>
      simp only [Finset.mem_insert, Finset.mem_union, Option.some.injEq, exists_eq_left', hr]
      exact or_left_comm

theorem mem_doMods {byId : ById} {byName : ByName} (ns : List Nat) (deps : Finset String) :
    y ∈ doMods byId byName ns deps ↔
      y ∈ deps ∨ ∃ v ∈ ns, ∃ z, byId.lookup v = some z ∧
        (y = z ∨ ∃ r, byName.lookup z = some r ∧ y ∈ r.deps) := by
  induction ns generalizing deps with
  | nil => simp
  | cons n ns ih =>
    rw [doMods_cons, ih, mem_doMod, or_assoc, List.exists_mem_cons_iff]

/-- The recorded dependencies are the cache's dependencies of the names seen. -/
theorem computeDeps_dependencies {byId : ById} {byName : ByName} (d : Declaration) :
    {y | y ∈ computeDeps byId byName d} =
      dependencies moduleView (fun x => byName.lookup x) (seenNames byId d) := by
  ext y
  rw [Set.mem_ofPred_eq, computeDeps_eq, mem_doMods]
  constructor
  · rintro (h | ⟨v, hv, z, hz, hy⟩)
    · simp at h
    · exact ⟨z, ⟨v, hv, hz⟩, hy⟩
  · rintro ⟨z, ⟨v, hv, hz⟩, hy⟩
    exact Or.inr ⟨v, hv, z, hz, hy⟩

-- ---------------------------------------------------------------------------
-- Runs
-- ---------------------------------------------------------------------------

/-- A call of the database. -/
inductive Op
  | insert (d : Declaration) (tm : SystemTime) (hasErrors : Bool)
  | snapshot
  | revert
  | reset
  | lookup (name : String) (tm : SystemTime)

def ModDb.apply (db : ModDb) : Op → ModDb
  | .insert d tm hasErrors => db.insert d tm hasErrors
  | .snapshot => db.snapshot
  | .revert => db.revert
  | .reset => db.reset
  | .lookup _ _ => db

def run (ops : List Op) : ModDb := ops.foldl ModDb.apply ModDb.new

/-- The id under which a call inserts. -/
def Op.ids : Op → List Nat
  | .insert d _ _ => ((ModDb.xn d).map Prod.snd).toList
  | _ => []

/-- The ids that an inserted declaration mentions. -/
def Op.mentions : Op → List Nat
  | .insert d _ _ => d.mentions true
  | _ => []

def insertedIds (ops : List Op) : List Nat := ops.flatMap Op.ids

def mentionedIds (ops : List Op) : List Nat := ops.flatMap Op.mentions

/-- A module is inserted under an id of its own, after what it mentions: no earlier call
inserts under the id or mentions it. -/
def Fresh (past : List Op) (op : Op) : Prop :=
  ∀ n ∈ op.ids, n ∉ insertedIds past ∧ n ∉ mentionedIds past

theorem Op.mem_ids : n ∈ (Op.insert d tm err).ids ↔ ∃ x, ModDb.xn d = some (x, n) := by
  simp [ids]

theorem mem_insertedIds (h : Op.insert d tm err ∈ ops) (hx : ModDb.xn d = some (x, n)) :
    n ∈ insertedIds ops :=
  List.mem_flatMap.mpr ⟨_, h, Op.mem_ids.mpr ⟨x, hx⟩⟩

theorem mem_mentionedIds (h : Op.insert d tm err ∈ ops) (hn : n ∈ d.mentions true) :
    n ∈ mentionedIds ops :=
  List.mem_flatMap.mpr ⟨_, h, hn⟩

theorem mem_insertedIds_append : n ∈ insertedIds (past ++ [op]) ↔ n ∈ insertedIds past ∨ n ∈ op.ids := by
  simp [insertedIds]

/-- `P` holds of every call of a run and the calls before it. -/
def EveryStep (P : List Op → Op → Prop) (ops : List Op) : Prop :=
  ∀ past op rest, ops = past ++ op :: rest → P past op

theorem EveryStep.last {P : List Op → Op → Prop} (h : EveryStep P (past ++ [op])) : P past op :=
  h past op [] rfl

theorem EveryStep.append {P : List Op → Op → Prop} (h : EveryStep P ops) (hop : P ops op) :
    EveryStep P (ops ++ [op]) := by
  intro past op' rest heq
  rcases List.eq_nil_or_concat rest with rfl | ⟨rest, last, rfl⟩
  · obtain ⟨rfl, hlast⟩ := List.append_inj' heq rfl
    cases hlast
    exact hop
  · rw [List.concat_eq_append, ← List.cons_append, ← List.append_assoc] at heq
    exact h past op' rest (List.append_inj_left' heq rfl)

theorem EveryStep.init {P : List Op → Op → Prop} (h : EveryStep P (past ++ rest)) :
    EveryStep P past := by
  rintro before op after rfl
  exact h before op (after ++ rest) (by simp)

/-- What is handed out for `name` and `tm` after the calls `past`: inserted for that time
stamp without errors, nothing in it is unsolved, and every module it mentions is stored as
the insertion with the mentioned id. -/
structure UpToDate (past : List Op) (db : ModDb) (name : String) (tm : SystemTime)
    (d : Declaration) : Prop where
  named : ∃ n, ModDb.xn d = some (name, n)
  origin : Op.insert d tm false ∈ past
  solved : d.unsolved = false
  backed : ∀ n ∈ d.mentions true, n ∈ insertedIds past →
    ∃ y r, db.byName.lookup y = some r ∧ ModDb.xn r.decl = some (y, n) ∧
      Op.insert r.decl r.when r.hasErrors ∈ past

-- ---------------------------------------------------------------------------
-- Which insertions keep the database coherent
-- ---------------------------------------------------------------------------

/-- The walkers see the name `y` from `d`: they find it, or something that depends on it. -/
def Noticed (db : ModDb) (d : Declaration) (y : String) : Prop :=
  ∃ v ∈ d.mentions false, ∃ z, db.byId.lookup v = some z ∧
    (y = z ∨ ∃ s, db.byName.lookup z = some s ∧ y ∈ s.deps)

/-- The module `m` that `d` mentions is stored, stays stored when `d` is inserted under `x`,
and the walkers notice it. -/
def Backed (db : ModDb) (d : Declaration) (x : String) (m : Nat) : Prop :=
  ∃ y r, db.byName.lookup y = some r ∧ ModDb.xn r.decl = some (y, m) ∧
    y ≠ x ∧ x ∉ r.deps ∧ Noticed db d y

/-- A declaration that is stored and passes for clean has no unsolved cell, and what it
mentions is backed. -/
def SoundInsert (past : List Op) : Op → Prop
  | .insert d tm hasErrors =>
    ∀ x n, ModDb.xn d = some (x, n) → (run past).skipIt x tm = false → hasErrors = false →
      containsUnifDecl d = false →
      d.unsolved = false ∧
        ∀ m ∈ d.mentions true, m ∈ insertedIds past → Backed (run past) d x m
  | _ => True

-- ---------------------------------------------------------------------------
-- The invariant
-- ---------------------------------------------------------------------------

/-- An entry that some lookup hands out. -/
def Servable (r : OneMod) : Prop := r.hasErrors = false ∧ containsUnifDecl r.decl = false

def needs (past : List Op) (r : OneMod) : Set Nat :=
  {n | Servable r ∧ n ∈ r.decl.mentions true ∧ n ∈ insertedIds past}

structure StoreInv (past : List Op) (byName : ByName) (byId : ById) : Prop where
  origin : ∀ x r, byName.lookup x = some r → Op.insert r.decl r.when r.hasErrors ∈ past
  indexed : Indexed byName byId
  coherent : Coherent moduleView (needs past) fun x => byName.lookup x
  solved : ∀ x r, byName.lookup x = some r → Servable r → r.decl.unsolved = false

theorem StoreInv.empty (past : List Op) : StoreInv past ∅ ∅ where
  origin := by simp
  indexed := by simp [Indexed]
  coherent := ⟨by simp [Saturated], by simp⟩
  solved := by simp

/-- A later call adds no need to the entries that are there already. -/
theorem StoreInv.later (h : StoreInv past byName byId) (hop : Fresh past op) :
    StoreInv (past ++ [op]) byName byId where
  origin x r hr := List.mem_append_left _ (h.origin x r hr)
  indexed := h.indexed
  coherent := by
    apply h.coherent.mono
    rintro x r hr n ⟨hserv, hmem, hins⟩
    rcases mem_insertedIds_append.mp hins with hins | hins
    · exact ⟨hserv, hmem, hins⟩
    · exact absurd (mem_mentionedIds (h.origin x r hr) hmem) (hop n hins).2
  solved := h.solved

theorem StoreInv.unstored (h : StoreInv past byName byId) (hn : n ∉ insertedIds past) :
    Unstored byName n := by
  rintro y r hr ⟨x, hx⟩
  exact hn (mem_insertedIds (h.origin y r hr) hx)

theorem StoreInv.insert {db : ModDb} (h : StoreInv past db.byName db.byId)
    (hdb : run past = db) (hfresh : Fresh past (.insert d tm err))
    (hsound : SoundInsert past (.insert d tm err)) :
    StoreInv (past ++ [.insert d tm err]) (db.insert d tm err).byName
      (db.insert d tm err).byId := by
  have hlater := h.later hfresh
  obtain ⟨heq, -⟩ | ⟨x, n, hx, hskip, heq⟩ := ModDb.insert_cases db d tm err
  · rw [heq]
    exact hlater
  have hn : n ∈ (Op.insert d tm err).ids := Op.mem_ids.mpr ⟨x, hx⟩
  set e : OneMod := ⟨d, tm, computeDeps db.byId db.byName d, err⟩ with he
  have hlook : ∀ y r, (((db.toRemove x).foldl ModDb.remove db).byName.insert x e).lookup y = some r →
      (y = x ∧ r = e) ∨ db.byName.lookup y = some r := by
    intro y r hr
    have hr := (congrFun (ModDb.lookup_stored db x e) y).symm.trans hr
    rcases store_cases hr with hnew | ⟨-, hold, -⟩
    · exact Or.inl hnew
    · exact Or.inr hold
  have hsolved : Servable e → d.unsolved = false ∧
      ∀ m ∈ d.mentions true, m ∈ insertedIds past → Backed (run past) d x m := by
    rintro ⟨herr, hunif⟩
    exact hsound x n hx (by rw [hdb]; exact hskip) herr hunif
  rw [heq]
  refine ⟨?_, ?_, ?_, ?_⟩
  · intro y r hr
    rcases hlook y r hr with ⟨-, rfl⟩ | hold
    · exact List.mem_append_right _ (List.mem_singleton_self _)
    · exact hlater.origin y r hold
  · exact ModDb.indexed_stored h.indexed (h.unstored (hfresh n hn).1) hx
  · rw [ModDb.lookup_stored]
    have hdeps : moduleView.deps e =
        dependencies moduleView (fun x => db.byName.lookup x) (seenNames db.byId d) :=
      computeDeps_dependencies d
    apply hlater.coherent.store
    · rw [hdeps]
      exact dependencies_closed h.coherent.saturated _
    · rintro m ⟨hserv, hmem, hins⟩
      rcases mem_insertedIds_append.mp hins with hins | hins
      · obtain ⟨y, r, hr, hid, hy, hxr, v, hv, z, hz, hyz⟩ := (hsolved hserv).2 m hmem hins
        rw [hdb] at hr hz hyz
        refine Or.inr ⟨y, r, hr, ⟨y, hid⟩, hy, hxr, ?_⟩
        rw [hdeps]
        exact ⟨z, ⟨v, hv, hz⟩, hyz⟩
      · exact Or.inl (Op.mem_ids.mp hins)
  · intro y r hr hserv
    rcases hlook y r hr with ⟨-, rfl⟩ | hold
    · exact (hsolved hserv).1
    · exact h.solved y r hold hserv

/-- The invariant of a run: it holds of the database and of its backup. -/
structure RunInv (past : List Op) (db : ModDb) : Prop where
  current : StoreInv past db.byName db.byId
  backup : StoreInv past db.byNameBackup db.byIdBackup

theorem ModDb.insert_backup (db : ModDb) (d : Declaration) (tm : SystemTime) (err : Bool) :
    (db.insert d tm err).byNameBackup = db.byNameBackup ∧
      (db.insert d tm err).byIdBackup = db.byIdBackup := by
  obtain ⟨heq, -⟩ | ⟨x, n, -, -, heq⟩ := insert_cases db d tm err
  · rw [heq]
    exact ⟨rfl, rfl⟩
  · rw [heq]
    exact foldl_remove_backup (db.toRemove x) db

theorem run_append (past : List Op) (op : Op) : run (past ++ [op]) = (run past).apply op := by
  simp [run]

theorem RunInv.step (h : RunInv past (run past)) (hfresh : Fresh past op)
    (hsound : SoundInsert past op) : RunInv (past ++ [op]) (run (past ++ [op])) := by
  have hcur := h.current.later hfresh
  have hback := h.backup.later hfresh
  rw [run_append]
  cases op with
  | insert d tm err =>
    obtain ⟨hname, hid⟩ := ModDb.insert_backup (run past) d tm err
    refine ⟨h.current.insert rfl hfresh hsound, ?_⟩
    rw [ModDb.apply, hname, hid]
    exact hback
  | snapshot => exact ⟨hcur, hcur⟩
  | revert => exact ⟨hback, hback⟩
  | reset => exact ⟨StoreInv.empty _, hback⟩
  | lookup name tm => exact ⟨hcur, hback⟩

theorem run_inv (ops : List Op) (hfresh : EveryStep Fresh ops)
    (hsound : EveryStep SoundInsert ops) : RunInv ops (run ops) := by
  induction ops using List.reverseRecOn with
  | nil => exact ⟨StoreInv.empty _, StoreInv.empty _⟩
  | append_singleton past op ih =>
    exact (ih hfresh.init hsound.init).step hfresh.last hsound.last

-- ---------------------------------------------------------------------------
-- Lookups and reverts
-- ---------------------------------------------------------------------------

theorem ModDb.lookup_eq_some {db : ModDb} (h : db.lookup name tm = some d) :
    ∃ r, db.byName.lookup name = some r ∧ r.decl = d ∧ r.when = tm ∧ Servable r := by
  unfold lookup at h
  cases hr : db.byName.lookup name with
  | none => simp [hr] at h
  | some r =>
    simp only [hr] at h
    split at h
    next hcur =>
      simp only [current, Bool.and_eq_true, beq_iff_eq, Bool.not_eq_true'] at hcur
      obtain ⟨⟨hwhen, herr⟩, hunif⟩ := hcur
      exact ⟨r, rfl, Option.some.inj h, hwhen, herr, hunif⟩
    · cases h

theorem StoreInv.upToDate {db : ModDb} (h : StoreInv past db.byName db.byId)
    (hlook : db.lookup name tm = some d) : UpToDate past db name tm d := by
  obtain ⟨r, hr, rfl, rfl, hserv⟩ := ModDb.lookup_eq_some hlook
  refine ⟨?_, ?_, h.solved name r hr hserv, ?_⟩
  · obtain ⟨n, hn, -⟩ := h.indexed name r hr
    exact ⟨n, hn⟩
  · have horigin := h.origin name r hr
    rwa [hserv.1] at horigin
  · intro n hn hins
    obtain ⟨y, s, hs, ⟨z, hz⟩, -⟩ := h.coherent.supported name r hr n ⟨hserv, hn, hins⟩
    obtain ⟨m, hm, -⟩ := h.indexed y s hs
    cases hm.symm.trans hz
    exact ⟨y, s, hs, hm, h.origin y s hs⟩

/-- Only a snapshot changes the backup. -/
theorem run_backup (pre mid : List Op) (hmid : Op.snapshot ∉ mid) :
    (run (pre ++ mid)).byNameBackup = (run pre).byNameBackup := by
  induction mid using List.reverseRecOn with
  | nil => rw [List.append_nil]
  | append_singleton mid op ih =>
    rw [List.mem_append, not_or] at hmid
    rw [← List.append_assoc, run_append, ← ih hmid.1]
    cases op with
    | insert d tm err => exact (ModDb.insert_backup _ d tm err).1
    | snapshot => exact absurd (List.mem_singleton_self _) hmid.2
    | revert | reset | lookup => rfl

theorem revert_lookup (pre mid : List Op) (hmid : Op.snapshot ∉ mid) (name : String)
    (tm : SystemTime) :
    (run (pre ++ .snapshot :: mid)).revert.lookup name tm = (run pre).lookup name tm := by
  have hback := run_backup (pre ++ [Op.snapshot]) mid hmid
  rw [run_append, List.append_assoc] at hback
  have hmap : (run (pre ++ .snapshot :: mid)).byNameBackup = (run pre).byName := hback
  simp only [ModDb.lookup, ModDb.revert, hmap]

/-- In a run in which every module is inserted under a fresh id, after what it mentions, and
every insertion is sound, whatever a lookup returns is up to date, and a revert brings back
the lookups of the last snapshot. -/
theorem served_upToDate (ops : List Op) (hfresh : EveryStep Fresh ops)
    (hsound : EveryStep SoundInsert ops) :
    (∀ name tm d, (run ops).lookup name tm = some d → UpToDate ops (run ops) name tm d) ∧
    ∀ pre mid, ops = pre ++ .snapshot :: mid → Op.snapshot ∉ mid →
      ∀ name tm, (run ops).revert.lookup name tm = (run pre).lookup name tm := by
  constructor
  · intro name tm d h
    exact (run_inv ops hfresh hsound).current.upToDate h
  · rintro pre mid rfl hmid name tm
    exact revert_lookup pre mid hmid name tm

-- ---------------------------------------------------------------------------
-- A module behind a solved cell
-- ---------------------------------------------------------------------------

def moduleA (n : Nat) : Declaration := .structure "A" n (.const []) (.const [])

/-- A module whose one value has type `t`. -/
def moduleB (t : Constructor) : Declaration :=
  .structure "B" 2 (.const []) (.const [.val "v" 5 t (.record [])])

/-- The type `A.t` of the first `A`. -/
def tOfA : Constructor := .modProj 1 [] "t"

/-- The same type, found by inference. -/
def inferred : Constructor := .unif 0 .star "t" (.known tOfA)

/-- `B` is compiled against `A`, and `A` is edited. -/
def edits (t : Constructor) : List Op :=
  [.insert (moduleA 1) 0 false, .insert (moduleB t) 0 false] ++ [.insert (moduleA 3) 1 false]

theorem everyStep_edits {P : List Op → Op → Prop} (t : Constructor)
    (h1 : P [] (.insert (moduleA 1) 0 false))
    (h2 : P [.insert (moduleA 1) 0 false] (.insert (moduleB t) 0 false))
    (h3 : P [.insert (moduleA 1) 0 false, .insert (moduleB t) 0 false]
      (.insert (moduleA 3) 1 false)) : EveryStep P (edits t) := by
  have h0 : EveryStep P [] := by
    intro past op rest h
    exact absurd h (by simp)
  exact ((h0.append h1).append h2).append h3

/-- With the type written out, `B` is handed out as long as this `A` is there, and again
after a revert. -/
theorem served_written :
    UpToDate [.insert (moduleA 1) 0 false, .insert (moduleB tOfA) 0 false]
      (run [.insert (moduleA 1) 0 false, .insert (moduleB tOfA) 0 false]) "B" 0 (moduleB tOfA) ∧
    (run ([.insert (moduleA 1) 0 false, .insert (moduleB tOfA) 0 false] ++
      [.snapshot, .insert (moduleA 3) 1 false])).revert.lookup "B" 0 = some (moduleB tOfA) := by
  have hnil : ∀ P : List Op → Op → Prop, EveryStep P [] := by
    intro P past op rest h
    exact absurd h (by simp)
  have hA : ∀ past n tm, SoundInsert past (.insert (moduleA n) tm false) := by
    intro past n tm x m hx hskip herr hunif
    exact ⟨rfl, fun k hk => absurd hk (List.not_mem_nil)⟩
  have hB : SoundInsert [.insert (moduleA 1) 0 false] (.insert (moduleB tOfA) 0 false) := by
    rintro x n ⟨⟩ hskip herr hunif
    refine ⟨rfl, ?_⟩
    intro m hm hins
    obtain rfl : m = 1 := by simpa using (show m ∈ [1] from hm)
    exact ⟨"A", ⟨moduleA 1, 0, ∅, false⟩, rfl, rfl, by decide, by simp,
      1, List.mem_cons_self, "A", rfl, Or.inl rfl⟩
  have hfresh2 : EveryStep Fresh [.insert (moduleA 1) 0 false, .insert (moduleB tOfA) 0 false] := by
    apply ((hnil Fresh).append _).append <;> unfold Fresh <;> decide
  have hsound2 : EveryStep SoundInsert
      [.insert (moduleA 1) 0 false, .insert (moduleB tOfA) 0 false] :=
    ((hnil SoundInsert).append (hA [] 1 0)).append hB
  have hfresh3 : EveryStep Fresh
      ([.insert (moduleA 1) 0 false, .insert (moduleB tOfA) 0 false] ++ [.snapshot]) := by
    apply hfresh2.append
    unfold Fresh
    decide
  have hfresh4 : EveryStep Fresh ([.insert (moduleA 1) 0 false, .insert (moduleB tOfA) 0 false] ++
      [.snapshot, .insert (moduleA 3) 1 false]) := by
    apply hfresh3.append
    unfold Fresh
    decide
  have hsound3 : EveryStep SoundInsert
      ([.insert (moduleA 1) 0 false, .insert (moduleB tOfA) 0 false] ++ [.snapshot]) :=
    hsound2.append trivial
  have hsound4 : EveryStep SoundInsert
      ([.insert (moduleA 1) 0 false, .insert (moduleB tOfA) 0 false] ++
        [.snapshot, .insert (moduleA 3) 1 false]) := hsound3.append (hA _ 3 1)
  refine ⟨(served_upToDate _ hfresh2 hsound2).1 "B" 0 _ rfl, ?_⟩
  rw [(served_upToDate _ hfresh4 hsound4).2 _ _ rfl (by simp) "B" 0]
  rfl

/-- The database keeps `B` when `A` is edited, if `B` mentions `A` in a solved cell only. -/
theorem served_stale :
    ¬ ∀ ops, EveryStep Fresh ops → ∀ name tm d,
      (run ops).lookup name tm = some d → UpToDate ops (run ops) name tm d := by
  intro h
  have hfresh : EveryStep Fresh (edits inferred) := by
    apply everyStep_edits <;> unfold Fresh <;> decide
  have hB := h (edits inferred) hfresh "B" 0 (moduleB inferred) rfl
  obtain ⟨y, r, hr, hid, -⟩ := hB.backed 1 (by decide) (by decide)
  have hkeys : y ∈ (run (edits inferred)).byName.keys :=
    AList.lookup_isSome.mp (Option.isSome_of_eq_some hr)
  have hy : y = "A" ∨ y = "B" := by simpa using (show y ∈ ["A", "B"] from hkeys)
  rcases hy with rfl | rfl
  · cases hr.symm.trans (show _ = some ⟨moduleA 3, 1, ∅, false⟩ from rfl)
    cases hid
  · cases hr.symm.trans (show _ = some ⟨moduleB inferred, 0, ∅, false⟩ from rfl)
    cases hid

end UrWeb.Elaborated
