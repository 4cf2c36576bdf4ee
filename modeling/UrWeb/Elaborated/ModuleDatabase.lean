import Mathlib.Data.List.AList
import Mathlib.Data.Finset.Basic
import UrWeb.Elaborated.Syntax

/-!
# The module database

A cache of elaborated modules for long-lived sessions. An entry keeps the
names of the modules it depends on; inserting a module drops the entries that
depend on its name. Dependencies are found by walking the declaration, and
looking each module id up in an index from ids to names. The walkers stop
where the source's do. Time stamps are only ever compared.
-/

namespace UrWeb.Elaborated

abbrev SystemTime := Nat

structure OneMod where
  decl : Declaration
  when : SystemTime
  deps : Finset String
  hasErrors : Bool

abbrev ByName := AList fun _ : String => OneMod
abbrev ById := AList fun _ : Nat => String

-- ---------------------------------------------------------------------------
-- Dependency computation
-- ---------------------------------------------------------------------------

section
variable (byId : ById) (byName : ByName)

/-- The module's own dependencies and its name. An id without a name is skipped. -/
def doMod (n : Nat) (deps : Finset String) : Finset String :=
  match byId.lookup n with
  | some name =>
    match byName.lookup name with
    | some r => insert name (deps ∪ r.deps)
    | none => insert name deps
  | none => deps

mutual
def collectDepsCon : Constructor → Finset String → Finset String
  | .modProj n _ _, deps => doMod byId byName n deps
  | .tFun c1 c2, deps | .app c1 c2, deps | .concat c1 c2, deps =>
    collectDepsCon c2 (collectDepsCon c1 deps)
  | .tCFun _ _ _ body, deps | .abs _ _ body, deps | .kAbs _ body, deps | .tKFun _ body, deps =>
    collectDepsCon body deps
  | .tRecord row, deps => collectDepsCon row deps
  | .tDisjoint c1 c2 body, deps => collectDepsCon body (collectDepsCon c2 (collectDepsCon c1 deps))
  | .kApp c _, deps | .proj c _, deps => collectDepsCon c deps
  | .record _ fields, deps => collectDepsFields fields deps
  | .tuple cs, deps => collectDepsCons cs deps
  | .rel _, deps | .named _, deps | .name _, deps | .map _ _, deps | .unit, deps | .error, deps
  | .unif _ _ _ _, deps | .enum _, deps => deps
def collectDepsFields : List (Constructor × Constructor) → Finset String → Finset String
  | [], deps => deps
  | (x, v) :: fields, deps => collectDepsFields fields (collectDepsCon v (collectDepsCon x deps))
def collectDepsCons : List Constructor → Finset String → Finset String
  | [], deps => deps
  | c :: cs, deps => collectDepsCons cs (collectDepsCon c deps)
end

mutual
/-- The patterns of a `case` are not walked, nor are cells and holes. -/
def collectDepsExp : Expression → Finset String → Finset String
  | .modProj n _ _, deps => doMod byId byName n deps
  | .app e1 e2, deps => collectDepsExp e2 (collectDepsExp e1 deps)
  | .abs _ c1 c2 body, deps =>
    collectDepsExp body (collectDepsCon byId byName c2 (collectDepsCon byId byName c1 deps))
  | .cApp e c, deps => collectDepsCon byId byName c (collectDepsExp e deps)
  | .cAbs _ _ _ body, deps | .kAbs _ body, deps | .kApp body _, deps => collectDepsExp body deps
  | .record fields, deps => collectDepsExpFields fields deps
  | .field e c info, deps | .cut e c info, deps =>
    collectDepsCon byId byName info.rest (collectDepsCon byId byName info.field
      (collectDepsCon byId byName c (collectDepsExp e deps)))
  | .concat e1 c1 e2 c2, deps =>
    collectDepsCon byId byName c2 (collectDepsExp e2
      (collectDepsCon byId byName c1 (collectDepsExp e1 deps)))
  | .cutMulti e c info, deps =>
    collectDepsCon byId byName info.rest (collectDepsCon byId byName c (collectDepsExp e deps))
  | .case disc arms info, deps =>
    collectDepsCon byId byName info.result (collectDepsCon byId byName info.disc
      (collectDepsArms arms (collectDepsExp disc deps)))
  | .letIn decls body t, deps =>
    collectDepsCon byId byName t (collectDepsExp body (collectDepsEdecls decls deps))
  | .prim _, deps | .rel _, deps | .named _, deps | .error, deps | .unif _, deps
  | .hole _, deps => deps
def collectDepsExpFields :
    List (Constructor × Expression × Constructor) → Finset String → Finset String
  | [], deps => deps
  | (n, v, t) :: fields, deps =>
    collectDepsExpFields fields
      (collectDepsCon byId byName t (collectDepsExp v (collectDepsCon byId byName n deps)))
def collectDepsArms : List (Pattern × Expression) → Finset String → Finset String
  | [], deps => deps
  | (_, e) :: arms, deps => collectDepsArms arms (collectDepsExp e deps)
def collectDepsEdecls : List ElaboratedDeclaration → Finset String → Finset String
  | [], deps => deps
  | ed :: decls, deps => collectDepsEdecls decls (collectDepsEdecl ed deps)
def collectDepsEdecl : ElaboratedDeclaration → Finset String → Finset String
  | .val _ t e, deps => collectDepsExp e (collectDepsCon byId byName t deps)
  | .valRec vis, deps => collectDepsRecs vis deps
def collectDepsRecs : List (String × Constructor × Expression) → Finset String → Finset String
  | [], deps => deps
  | (_, t, e) :: vis, deps =>
    collectDepsRecs vis (collectDepsExp e (collectDepsCon byId byName t deps))
end

def collectDepsConstrs :
    List (String × Nat × Option Constructor) → Finset String → Finset String
  | [], deps => deps
  | (_, _, some c) :: constrs, deps =>
    collectDepsConstrs constrs (collectDepsCon byId byName c deps)
  | (_, _, none) :: constrs, deps => collectDepsConstrs constrs deps

def collectDepsDatatypes : List DatatypeDecl → Finset String → Finset String
  | [], deps => deps
  | dt :: dts, deps => collectDepsDatatypes dts (collectDepsConstrs byId byName dt.constrs deps)

mutual
def collectDepsSgn : Signature → Finset String → Finset String
  | .const items, deps => collectDepsSgnItems items deps
  | .func _ _ dom ran, deps => collectDepsSgn ran (collectDepsSgn dom deps)
  | .where s _ _ c, deps => collectDepsCon byId byName c (collectDepsSgn s deps)
  | .proj n _ _, deps => doMod byId byName n deps
  | .var _, deps | .error, deps => deps
def collectDepsSgnItems : List SignatureItem → Finset String → Finset String
  | [], deps => deps
  | item :: items, deps => collectDepsSgnItems items (collectDepsSgnItem item deps)
def collectDepsSgnItem : SignatureItem → Finset String → Finset String
  | .constructor _ _ _ c, deps | .val _ _ c, deps | .class _ _ _ c, deps =>
    collectDepsCon byId byName c deps
  | .datatype dts, deps => collectDepsDatatypes byId byName dts deps
  | .datatypeImp imp, deps => doMod byId byName imp.origMod deps
  | .structure _ _ _ s, deps | .signature _ _ s, deps => collectDepsSgn s deps
  | .constraint c1 c2, deps =>
    collectDepsCon byId byName c2 (collectDepsCon byId byName c1 deps)
  | .conAbs _ _ _, deps | .classAbs _ _ _, deps => deps
end

def collectDepsVals :
    List (String × Nat × Constructor × Expression) → Finset String → Finset String
  | [], deps => deps
  | (_, _, t, e) :: vis, deps =>
    collectDepsVals vis (collectDepsExp byId byName e (collectDepsCon byId byName t deps))

mutual
def collectDepsDecl : Declaration → Finset String → Finset String
  | .constructor _ _ _ c, deps | .cookie _ _ _ c, deps | .ffi _ _ c, deps =>
    collectDepsCon byId byName c deps
  | .datatype dts, deps => collectDepsDatatypes byId byName dts deps
  | .datatypeImp imp, deps => doMod byId byName imp.origMod deps
  | .val _ _ t e, deps => collectDepsExp byId byName e (collectDepsCon byId byName t deps)
  | .valRec vis, deps => collectDepsVals byId byName vis deps
  | .signature _ _ s, deps | .ffiStr _ _ s, deps => collectDepsSgn byId byName s deps
  | .structure _ _ s st, deps | .export _ s st, deps =>
    collectDepsStr st (collectDepsSgn byId byName s deps)
  | .constraint c1 c2, deps => collectDepsCon byId byName c2 (collectDepsCon byId byName c1 deps)
  | .table td, deps =>
    collectDepsCon byId byName td.uniqueCon (collectDepsExp byId byName td.pkExp
      (collectDepsCon byId byName td.pkCon (collectDepsExp byId byName td.exp
        (collectDepsCon byId byName td.con deps))))
  | .view _ _ _ e c, deps => collectDepsCon byId byName c (collectDepsExp byId byName e deps)
  | .index e1 e2, deps | .task e1 e2, deps =>
    collectDepsExp byId byName e2 (collectDepsExp byId byName e1 deps)
  | .policy e, deps => collectDepsExp byId byName e deps
  | .onError n _ _, deps => doMod byId byName n deps
  | .sequence _ _ _, deps | .style _ _ _, deps | .database _, deps => deps
def collectDepsDecls : List Declaration → Finset String → Finset String
  | [], deps => deps
  | d :: ds, deps => collectDepsDecls ds (collectDepsDecl d deps)
def collectDepsStr : Structure → Finset String → Finset String
  | .const ds, deps => collectDepsDecls ds deps
  | .var n, deps => doMod byId byName n deps
  | .proj st _, deps => collectDepsStr st deps
  | .func _ _ dom ran body, deps =>
    collectDepsStr body (collectDepsSgn byId byName ran (collectDepsSgn byId byName dom deps))
  | .app st1 st2, deps => collectDepsStr st2 (collectDepsStr st1 deps)
  | .error, deps => deps
end

def computeDeps (d : Declaration) : Finset String := collectDepsDecl byId byName d ∅

end

-- ---------------------------------------------------------------------------
-- Undetermined unification variables
-- ---------------------------------------------------------------------------

mutual
/-- An unsolved expression cell. A solved one is not looked into. -/
def containsUnifExp : Expression → Bool
  | .unif cell => cell.isNone
  | .app e1 e2 | .concat e1 _ e2 _ => containsUnifExp e1 || containsUnifExp e2
  | .abs _ _ _ e | .cApp e _ | .cAbs _ _ _ e | .kAbs _ e | .kApp e _ | .field e _ _ | .cut e _ _
  | .cutMulti e _ _ => containsUnifExp e
  | .record fields => containsUnifFields fields
  | .case disc arms _ => containsUnifExp disc || containsUnifArms arms
  | .letIn decls body _ => containsUnifEdecls decls || containsUnifExp body
  | .prim _ | .rel _ | .named _ | .modProj _ _ _ | .error | .hole _ => false
def containsUnifFields : List (Constructor × Expression × Constructor) → Bool
  | [] => false
  | (_, v, _) :: fields => containsUnifExp v || containsUnifFields fields
def containsUnifArms : List (Pattern × Expression) → Bool
  | [] => false
  | (_, e) :: arms => containsUnifExp e || containsUnifArms arms
def containsUnifEdecls : List ElaboratedDeclaration → Bool
  | [] => false
  | ed :: decls => containsUnifEdecl ed || containsUnifEdecls decls
def containsUnifEdecl : ElaboratedDeclaration → Bool
  | .val _ _ e => containsUnifExp e
  | .valRec vis => containsUnifRecs vis
def containsUnifRecs : List (String × Constructor × Expression) → Bool
  | [] => false
  | (_, _, e) :: vis => containsUnifExp e || containsUnifRecs vis
end

mutual
def containsUnifDecl : Declaration → Bool
  | .val _ _ _ e => containsUnifExp e
  | .valRec vis => vis.any fun vi => containsUnifExp vi.2.2.2
  | .structure _ _ _ st => containsUnifStr st
  | _ => false
def containsUnifDecls : List Declaration → Bool
  | [] => false
  | d :: ds => containsUnifDecl d || containsUnifDecls ds
def containsUnifStr : Structure → Bool
  | .const ds => containsUnifDecls ds
  | .func _ _ _ _ body => containsUnifStr body
  | .app st1 st2 => containsUnifStr st1 || containsUnifStr st2
  | .var _ | .proj _ _ | .error => false
end

-- ---------------------------------------------------------------------------
-- The database
-- ---------------------------------------------------------------------------

structure ModDb where
  byName : ByName
  byId : ById
  byNameBackup : ByName
  byIdBackup : ById

namespace ModDb

def new : ModDb := ⟨∅, ∅, ∅, ∅⟩

/-- Clears the entries and keeps the backup. -/
def reset (db : ModDb) : ModDb := { db with byName := ∅, byId := ∅ }

/-- The name and the id under which a declaration is stored. -/
def xn : Declaration → Option (String × Nat)
  | .structure x n _ _ => some (x, n)
  | .ffiStr x n _ => some (x, n)
  | _ => none

/-- Whether an entry can be handed out for a file with time stamp `tm`. -/
def current (r : OneMod) (tm : SystemTime) : Bool :=
  r.when == tm && !r.hasErrors && !containsUnifDecl r.decl

def skipIt (db : ModDb) (x : String) (tm : SystemTime) : Bool :=
  match db.byName.lookup x with
  | some r => current r tm
  | none => false

/-- Drops the entry of `name`, and its id from the other index. -/
def remove (db : ModDb) (name : String) : ModDb :=
  match db.byName.lookup name with
  | some r =>
    match xn r.decl with
    | some (_, n) => { db with byName := db.byName.erase name, byId := db.byId.erase n }
    | none => { db with byName := db.byName.erase name }
  | none => db

/-- The names of the entries that depend on `x`. -/
def toRemove (db : ModDb) (x : String) : List String :=
  (db.byName.entries.filter fun e => x ∈ e.2.deps).map Sigma.fst

def insert (db : ModDb) (d : Declaration) (tm : SystemTime) (hasErrors : Bool) : ModDb :=
  match xn d with
  | none => db
  | some (x, n) =>
    if db.skipIt x tm then db
    else
      let deps := computeDeps db.byId db.byName d
      let kept := (db.toRemove x).foldl remove db
      { kept with
        byName := kept.byName.insert x ⟨d, tm, deps, hasErrors⟩
        byId := kept.byId.insert n x }

def lookup (db : ModDb) (name : String) (tm : SystemTime) : Option Declaration :=
  match db.byName.lookup name with
  | some r => if current r tm then some r.decl else none
  | none => none

def snapshot (db : ModDb) : ModDb :=
  { db with byNameBackup := db.byName, byIdBackup := db.byId }

def revert (db : ModDb) : ModDb :=
  { db with byName := db.byNameBackup, byId := db.byIdBackup }

end ModDb

end UrWeb.Elaborated
