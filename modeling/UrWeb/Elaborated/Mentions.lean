import UrWeb.Elaborated.ModuleDatabase

/-!
# Module ids in elaborated declarations

The ids of the structures that a declaration mentions: in types, expressions,
patterns, signatures and structures, and in what cells have been solved to.
The walkers of the module database see only part of them, and their answer is
determined by that part. A declaration is unsolved when a cell of any sort in
it holds nothing.
-/

namespace UrWeb.Elaborated

-- ---------------------------------------------------------------------------
-- Mentioned modules
-- ---------------------------------------------------------------------------

section
/- With `deep` every mention counts, otherwise those at which the walkers look. -/
variable (deep : Bool)

/-- Mentions at a place that the walkers pass over. -/
def passedOver (ns : List Nat) : List Nat := if deep then ns else []

mutual
def Constructor.mentions : Constructor → List Nat
  | .modProj n _ _ => [n]
  | .tFun c1 c2 | .app c1 c2 | .concat c1 c2 => c1.mentions ++ c2.mentions
  | .tCFun _ _ _ c | .abs _ _ c | .kAbs _ c | .tKFun _ c | .tRecord c | .kApp c _ | .proj c _ =>
    c.mentions
  | .tDisjoint c1 c2 c3 => c1.mentions ++ c2.mentions ++ c3.mentions
  | .record _ fields => Constructor.fieldMentions fields
  | .tuple cs => Constructor.listMentions cs
  | .unif _ _ _ cell => passedOver deep cell.mentions
  | .enum arms => passedOver deep (Constructor.armMentions arms)
  | .rel _ | .named _ | .name _ | .map _ _ | .unit | .error => []
def CUnif.mentions : CUnif → List Nat
  | .unknown => []
  | .known c => c.mentions
def Constructor.fieldMentions : List (Constructor × Constructor) → List Nat
  | [] => []
  | (x, v) :: fields => x.mentions ++ v.mentions ++ Constructor.fieldMentions fields
def Constructor.listMentions : List Constructor → List Nat
  | [] => []
  | c :: cs => c.mentions ++ Constructor.listMentions cs
def Constructor.armMentions : List (String × List Constructor) → List Nat
  | [] => []
  | (_, cs) :: arms => Constructor.listMentions cs ++ Constructor.armMentions arms
end

def PatternConstructor.mentions : PatternConstructor → List Nat
  | .var _ => []
  | .proj n _ _ => [n]

mutual
def Pattern.mentions : Pattern → List Nat
  | .var _ t => t.mentions deep
  | .prim _ => []
  | .constructor _ pc args sub =>
    pc.mentions ++ Constructor.listMentions deep args ++ Pattern.subMentions sub
  | .record fields => Pattern.fieldMentions fields
def Pattern.subMentions : Option Pattern → List Nat
  | none => []
  | some p => p.mentions
def Pattern.fieldMentions : List (String × Pattern × Constructor) → List Nat
  | [] => []
  | (_, p, t) :: fields => p.mentions ++ t.mentions deep ++ Pattern.fieldMentions fields
end

mutual
def Expression.mentions : Expression → List Nat
  | .modProj n _ _ => [n]
  | .app e1 e2 => e1.mentions ++ e2.mentions
  | .abs _ c1 c2 e => c1.mentions deep ++ c2.mentions deep ++ e.mentions
  | .cApp e c => e.mentions ++ c.mentions deep
  | .cAbs _ _ _ e | .kAbs _ e | .kApp e _ => e.mentions
  | .record fields => Expression.fieldMentions fields
  | .field e c info | .cut e c info =>
    e.mentions ++ c.mentions deep ++ info.field.mentions deep ++ info.rest.mentions deep
  | .concat e1 c1 e2 c2 => e1.mentions ++ c1.mentions deep ++ e2.mentions ++ c2.mentions deep
  | .cutMulti e c info => e.mentions ++ c.mentions deep ++ info.rest.mentions deep
  | .case disc arms info =>
    disc.mentions ++ Expression.armMentions arms ++ info.disc.mentions deep ++
      info.result.mentions deep
  | .unif cell => passedOver deep (Expression.cellMentions cell)
  | .hole cell => passedOver deep (cell.mentions deep)
  | .letIn decls e t => Expression.declMentions decls ++ e.mentions ++ t.mentions deep
  | .prim _ | .rel _ | .named _ | .error => []
def Expression.cellMentions : Option Expression → List Nat
  | none => []
  | some e => e.mentions
def Expression.fieldMentions : List (Constructor × Expression × Constructor) → List Nat
  | [] => []
  | (n, v, t) :: fields =>
    n.mentions deep ++ v.mentions ++ t.mentions deep ++ Expression.fieldMentions fields
def Expression.armMentions : List (Pattern × Expression) → List Nat
  | [] => []
  | (p, e) :: arms =>
    passedOver deep (p.mentions deep) ++ e.mentions ++ Expression.armMentions arms
def Expression.declMentions : List ElaboratedDeclaration → List Nat
  | [] => []
  | ed :: decls => ed.mentions ++ Expression.declMentions decls
def ElaboratedDeclaration.mentions : ElaboratedDeclaration → List Nat
  | .val p t e => passedOver deep (p.mentions deep) ++ t.mentions deep ++ e.mentions
  | .valRec vis => Expression.recMentions vis
def Expression.recMentions : List (String × Constructor × Expression) → List Nat
  | [] => []
  | (_, t, e) :: vis => t.mentions deep ++ e.mentions ++ Expression.recMentions vis
end

def constrMentions : List (String × Nat × Option Constructor) → List Nat
  | [] => []
  | (_, _, some c) :: constrs => c.mentions deep ++ constrMentions constrs
  | (_, _, none) :: constrs => constrMentions constrs

def datatypeMentions : List DatatypeDecl → List Nat
  | [] => []
  | dt :: dts => constrMentions deep dt.constrs ++ datatypeMentions dts

/-- The payload types of an imported datatype are passed over. -/
def DatatypeImp.mentions (imp : DatatypeImp) : List Nat :=
  imp.origMod :: passedOver deep (constrMentions deep imp.constrs)

mutual
def Signature.mentions : Signature → List Nat
  | .const items => Signature.itemMentions items
  | .func _ _ dom ran => dom.mentions ++ ran.mentions
  | .where s _ _ c => s.mentions ++ c.mentions deep
  | .proj n _ _ => [n]
  | .var _ | .error => []
def Signature.itemMentions : List SignatureItem → List Nat
  | [] => []
  | item :: items => item.mentions ++ Signature.itemMentions items
def SignatureItem.mentions : SignatureItem → List Nat
  | .constructor _ _ _ c | .val _ _ c | .class _ _ _ c => c.mentions deep
  | .datatype dts => datatypeMentions deep dts
  | .datatypeImp imp => imp.mentions deep
  | .structure _ _ _ s | .signature _ _ s => s.mentions
  | .constraint c1 c2 => c1.mentions deep ++ c2.mentions deep
  | .conAbs _ _ _ | .classAbs _ _ _ => []
end

def valMentions : List (String × Nat × Constructor × Expression) → List Nat
  | [] => []
  | (_, _, t, e) :: vis => t.mentions deep ++ e.mentions deep ++ valMentions vis

/-- The module that declares the type of tables is passed over. -/
def TableDecl.mentions (td : TableDecl) : List Nat :=
  passedOver deep [td.modId] ++ td.con.mentions deep ++ td.exp.mentions deep ++
    td.pkCon.mentions deep ++ td.pkExp.mentions deep ++ td.uniqueCon.mentions deep

mutual
def Declaration.mentions : Declaration → List Nat
  | .constructor _ _ _ c | .ffi _ _ c => c.mentions deep
  | .datatype dts => datatypeMentions deep dts
  | .datatypeImp imp => imp.mentions deep
  | .val _ _ t e => t.mentions deep ++ e.mentions deep
  | .valRec vis => valMentions deep vis
  | .signature _ _ s | .ffiStr _ _ s => s.mentions deep
  | .structure _ _ s st | .export _ s st => s.mentions deep ++ st.mentions
  | .constraint c1 c2 => c1.mentions deep ++ c2.mentions deep
  | .table td => td.mentions deep
  | .view n _ _ e c => passedOver deep [n] ++ e.mentions deep ++ c.mentions deep
  | .cookie n _ _ c => passedOver deep [n] ++ c.mentions deep
  | .index e1 e2 | .task e1 e2 => e1.mentions deep ++ e2.mentions deep
  | .policy e => e.mentions deep
  | .onError n _ _ => [n]
  | .sequence n _ _ | .style n _ _ => passedOver deep [n]
  | .database _ => []
def Structure.declMentions : List Declaration → List Nat
  | [] => []
  | d :: ds => d.mentions ++ Structure.declMentions ds
def Structure.mentions : Structure → List Nat
  | .const ds => Structure.declMentions ds
  | .var n => [n]
  | .proj st _ => st.mentions
  | .func _ _ dom ran body => dom.mentions deep ++ ran.mentions deep ++ body.mentions
  | .app st1 st2 => st1.mentions ++ st2.mentions
  | .error => []
end

end

-- ---------------------------------------------------------------------------
-- The walkers visit the shallow mentions
-- ---------------------------------------------------------------------------

section
variable {byId : ById} {byName : ByName}

/-- Looks up the modules `ns` one after another. -/
def doMods (byId : ById) (byName : ByName) (ns : List Nat) (deps : Finset String) :
    Finset String :=
  ns.foldl (fun deps n => doMod byId byName n deps) deps

@[simp] theorem doMods_nil (deps) : doMods byId byName [] deps = deps := rfl

@[simp] theorem doMods_cons (n ns deps) :
    doMods byId byName (n :: ns) deps = doMods byId byName ns (doMod byId byName n deps) := rfl

@[simp] theorem doMods_append (ms ns deps) :
    doMods byId byName (ms ++ ns) deps = doMods byId byName ns (doMods byId byName ms deps) :=
  List.foldl_append

@[simp] theorem passedOver_false (ns) : passedOver false ns = [] := rfl

@[simp] theorem passedOver_true (ns) : passedOver true ns = ns := rfl

mutual
theorem collectDepsCon_eq (c : Constructor) (deps) :
    collectDepsCon byId byName c deps = doMods byId byName (c.mentions false) deps := by
  cases c with
  | modProj | rel | named | name | map | unit | error | unif | enum =>
    simp [collectDepsCon, Constructor.mentions]
  | tFun c1 c2 | app c1 c2 | concat c1 c2 =>
    simp [collectDepsCon, Constructor.mentions, collectDepsCon_eq c1, collectDepsCon_eq c2]
  | tDisjoint c1 c2 c3 =>
    simp [collectDepsCon, Constructor.mentions, collectDepsCon_eq c1, collectDepsCon_eq c2,
      collectDepsCon_eq c3]
  | tCFun _ _ _ c | abs _ _ c | kAbs _ c | tKFun _ c | tRecord c | kApp c _ | proj c _ =>
    simp [collectDepsCon, Constructor.mentions, collectDepsCon_eq c]
  | record _ fields => simp [collectDepsCon, Constructor.mentions, collectDepsFields_eq fields]
  | tuple cs => simp [collectDepsCon, Constructor.mentions, collectDepsCons_eq cs]
theorem collectDepsFields_eq (fields : List (Constructor × Constructor)) (deps) :
    collectDepsFields byId byName fields deps =
      doMods byId byName (Constructor.fieldMentions false fields) deps := by
  match fields with
  | [] => rfl
  | (x, v) :: fields =>
    simp [collectDepsFields, Constructor.fieldMentions, collectDepsCon_eq x, collectDepsCon_eq v,
      collectDepsFields_eq fields]
theorem collectDepsCons_eq (cs : List Constructor) (deps) :
    collectDepsCons byId byName cs deps =
      doMods byId byName (Constructor.listMentions false cs) deps := by
  match cs with
  | [] => rfl
  | c :: cs =>
    simp [collectDepsCons, Constructor.listMentions, collectDepsCon_eq c, collectDepsCons_eq cs]
end

mutual
theorem collectDepsExp_eq (e : Expression) (deps) :
    collectDepsExp byId byName e deps = doMods byId byName (e.mentions false) deps := by
  cases e with
  | prim | rel | named | modProj | error | unif | hole =>
    simp [collectDepsExp, Expression.mentions]
  | app e1 e2 =>
    simp [collectDepsExp, Expression.mentions, collectDepsExp_eq e1, collectDepsExp_eq e2]
  | concat e1 c1 e2 c2 =>
    simp [collectDepsExp, Expression.mentions, collectDepsExp_eq e1, collectDepsExp_eq e2,
      collectDepsCon_eq]
  | abs _ _ _ e | cApp e _ | cAbs _ _ _ e | kAbs _ e | kApp e _ | field e _ _ | cut e _ _
  | cutMulti e _ _ =>
    simp [collectDepsExp, Expression.mentions, collectDepsExp_eq e, collectDepsCon_eq]
  | record fields => simp [collectDepsExp, Expression.mentions, collectDepsExpFields_eq fields]
  | case disc arms info =>
    simp [collectDepsExp, Expression.mentions, collectDepsExp_eq disc, collectDepsArms_eq arms,
      collectDepsCon_eq]
  | letIn decls e t =>
    simp [collectDepsExp, Expression.mentions, collectDepsEdecls_eq decls, collectDepsExp_eq e,
      collectDepsCon_eq]
theorem collectDepsExpFields_eq (fields : List (Constructor × Expression × Constructor)) (deps) :
    collectDepsExpFields byId byName fields deps =
      doMods byId byName (Expression.fieldMentions false fields) deps := by
  match fields with
  | [] => rfl
  | (n, v, t) :: fields =>
    simp [collectDepsExpFields, Expression.fieldMentions, collectDepsExp_eq v,
      collectDepsExpFields_eq fields, collectDepsCon_eq]
theorem collectDepsArms_eq (arms : List (Pattern × Expression)) (deps) :
    collectDepsArms byId byName arms deps =
      doMods byId byName (Expression.armMentions false arms) deps := by
  match arms with
  | [] => rfl
  | (p, e) :: arms =>
    simp [collectDepsArms, Expression.armMentions, collectDepsExp_eq e, collectDepsArms_eq arms]
theorem collectDepsEdecls_eq (decls : List ElaboratedDeclaration) (deps) :
    collectDepsEdecls byId byName decls deps =
      doMods byId byName (Expression.declMentions false decls) deps := by
  match decls with
  | [] => rfl
  | ed :: decls =>
    simp [collectDepsEdecls, Expression.declMentions, collectDepsEdecl_eq ed,
      collectDepsEdecls_eq decls]
theorem collectDepsEdecl_eq (ed : ElaboratedDeclaration) (deps) :
    collectDepsEdecl byId byName ed deps = doMods byId byName (ed.mentions false) deps := by
  match ed with
  | .val p t e =>
    simp [collectDepsEdecl, ElaboratedDeclaration.mentions, collectDepsExp_eq e, collectDepsCon_eq]
  | .valRec vis => simp [collectDepsEdecl, ElaboratedDeclaration.mentions, collectDepsRecs_eq vis]
theorem collectDepsRecs_eq (vis : List (String × Constructor × Expression)) (deps) :
    collectDepsRecs byId byName vis deps =
      doMods byId byName (Expression.recMentions false vis) deps := by
  match vis with
  | [] => rfl
  | (_, t, e) :: vis =>
    simp [collectDepsRecs, Expression.recMentions, collectDepsExp_eq e, collectDepsRecs_eq vis,
      collectDepsCon_eq]
end

theorem collectDepsConstrs_eq (constrs : List (String × Nat × Option Constructor)) (deps) :
    collectDepsConstrs byId byName constrs deps =
      doMods byId byName (constrMentions false constrs) deps := by
  fun_induction collectDepsConstrs byId byName constrs deps with
  | case1 => rfl
  | case2 _ _ _ c _ ih =>
    rw [ih]
    simp [constrMentions, collectDepsCon_eq]
  | case3 _ _ _ _ ih => simp [constrMentions, ih]

theorem collectDepsDatatypes_eq (dts : List DatatypeDecl) (deps) :
    collectDepsDatatypes byId byName dts deps =
      doMods byId byName (datatypeMentions false dts) deps := by
  fun_induction collectDepsDatatypes byId byName dts deps with
  | case1 => rfl
  | case2 _ _ _ ih =>
    rw [ih]
    simp [datatypeMentions, collectDepsConstrs_eq]

mutual
theorem collectDepsSgn_eq (s : Signature) (deps) :
    collectDepsSgn byId byName s deps = doMods byId byName (s.mentions false) deps := by
  match s with
  | .const items => simp [collectDepsSgn, Signature.mentions, collectDepsSgnItems_eq items]
  | .func _ _ dom ran =>
    simp [collectDepsSgn, Signature.mentions, collectDepsSgn_eq dom, collectDepsSgn_eq ran]
  | .where s _ _ c =>
    simp [collectDepsSgn, Signature.mentions, collectDepsSgn_eq s, collectDepsCon_eq]
  | .proj n _ _ | .var n | .error => simp [collectDepsSgn, Signature.mentions]
theorem collectDepsSgnItems_eq (items : List SignatureItem) (deps) :
    collectDepsSgnItems byId byName items deps =
      doMods byId byName (Signature.itemMentions false items) deps := by
  match items with
  | [] => rfl
  | item :: items =>
    simp [collectDepsSgnItems, Signature.itemMentions, collectDepsSgnItem_eq item,
      collectDepsSgnItems_eq items]
theorem collectDepsSgnItem_eq (item : SignatureItem) (deps) :
    collectDepsSgnItem byId byName item deps =
      doMods byId byName (item.mentions false) deps := by
  match item with
  | .constructor _ _ _ c | .val _ _ c | .class _ _ _ c | .constraint c _ =>
    simp [collectDepsSgnItem, SignatureItem.mentions, collectDepsCon_eq]
  | .datatype dts => simp [collectDepsSgnItem, SignatureItem.mentions, collectDepsDatatypes_eq]
  | .datatypeImp imp => simp [collectDepsSgnItem, SignatureItem.mentions, DatatypeImp.mentions]
  | .structure _ _ _ s | .signature _ _ s =>
    simp [collectDepsSgnItem, SignatureItem.mentions, collectDepsSgn_eq s]
  | .conAbs _ _ _ | .classAbs _ _ _ => simp [collectDepsSgnItem, SignatureItem.mentions]
end

theorem collectDepsVals_eq (vis : List (String × Nat × Constructor × Expression)) (deps) :
    collectDepsVals byId byName vis deps = doMods byId byName (valMentions false vis) deps := by
  fun_induction collectDepsVals byId byName vis deps with
  | case1 => rfl
  | case2 _ _ _ _ _ _ ih =>
    rw [ih]
    simp [valMentions, collectDepsCon_eq, collectDepsExp_eq]

mutual
theorem collectDepsDecl_eq (d : Declaration) (deps) :
    collectDepsDecl byId byName d deps = doMods byId byName (d.mentions false) deps := by
  cases d with
  | datatypeImp imp => simp [collectDepsDecl, Declaration.mentions, DatatypeImp.mentions]
  | «structure» _ _ s st | «export» _ s st =>
    simp [collectDepsDecl, Declaration.mentions, collectDepsSgn_eq, collectDepsStr_eq st]
  | table td =>
    simp [collectDepsDecl, Declaration.mentions, TableDecl.mentions, collectDepsCon_eq,
      collectDepsExp_eq]
  | _ =>
    simp [collectDepsDecl, Declaration.mentions, collectDepsCon_eq, collectDepsExp_eq,
      collectDepsSgn_eq, collectDepsDatatypes_eq, collectDepsVals_eq]
theorem collectDepsDecls_eq (ds : List Declaration) (deps) :
    collectDepsDecls byId byName ds deps =
      doMods byId byName (Structure.declMentions false ds) deps := by
  match ds with
  | [] => rfl
  | d :: ds =>
    simp [collectDepsDecls, Structure.declMentions, collectDepsDecl_eq d, collectDepsDecls_eq ds]
theorem collectDepsStr_eq (st : Structure) (deps) :
    collectDepsStr byId byName st deps = doMods byId byName (st.mentions false) deps := by
  match st with
  | .const ds => simp [collectDepsStr, Structure.mentions, collectDepsDecls_eq ds]
  | .var n | .error => simp [collectDepsStr, Structure.mentions]
  | .proj st _ => simp [collectDepsStr, Structure.mentions, collectDepsStr_eq st]
  | .func _ _ dom ran body =>
    simp [collectDepsStr, Structure.mentions, collectDepsSgn_eq, collectDepsStr_eq body]
  | .app st1 st2 =>
    simp [collectDepsStr, Structure.mentions, collectDepsStr_eq st1, collectDepsStr_eq st2]
end

/-- The dependencies are those of the modules mentioned where the walkers look. -/
theorem computeDeps_eq (d : Declaration) :
    computeDeps byId byName d = doMods byId byName (d.mentions false) ∅ :=
  collectDepsDecl_eq d ∅

end

-- ---------------------------------------------------------------------------
-- Unsolved cells
-- ---------------------------------------------------------------------------

mutual
def Kind.unsolved : Kind → Bool
  | .typed head => head.unsolved
  | .arrow k1 k2 => k1.unsolved || k2.unsolved
  | .record k | .kFun k => k.unsolved
  | .tuple ks => Kind.listUnsolved ks
  | .unif _ cell => cell.unsolved
  | .tupleUnif members cell => Kind.memberUnsolved members || cell.unsolved
  | .star | .name | .unit | .rel _ => false
def TypeHead.unsolved : TypeHead → Bool
  | .function k1 k2 => k1.unsolved || k2.unsolved
  | _ => false
def KUnif.unsolved : KUnif → Bool
  | .unknown => true
  | .known k => k.unsolved
def Kind.listUnsolved : List Kind → Bool
  | [] => false
  | k :: ks => k.unsolved || Kind.listUnsolved ks
def Kind.memberUnsolved : List (Nat × Kind) → Bool
  | [] => false
  | (_, k) :: members => k.unsolved || Kind.memberUnsolved members
end

mutual
def Constructor.unsolved : Constructor → Bool
  | .tFun c1 c2 | .app c1 c2 | .concat c1 c2 => c1.unsolved || c2.unsolved
  | .tCFun _ _ k c | .abs _ k c | .kApp c k => k.unsolved || c.unsolved
  | .tRecord c | .kAbs _ c | .tKFun _ c | .proj c _ => c.unsolved
  | .tDisjoint c1 c2 c3 => c1.unsolved || c2.unsolved || c3.unsolved
  | .record k fields => k.unsolved || Constructor.fieldUnsolved fields
  | .map k1 k2 => k1.unsolved || k2.unsolved
  | .tuple cs => Constructor.listUnsolved cs
  | .unif _ k _ cell => k.unsolved || cell.unsolved
  | .enum arms => Constructor.armUnsolved arms
  | .rel _ | .named _ | .modProj _ _ _ | .name _ | .unit | .error => false
def CUnif.unsolved : CUnif → Bool
  | .unknown => true
  | .known c => c.unsolved
def Constructor.fieldUnsolved : List (Constructor × Constructor) → Bool
  | [] => false
  | (x, v) :: fields => x.unsolved || v.unsolved || Constructor.fieldUnsolved fields
def Constructor.listUnsolved : List Constructor → Bool
  | [] => false
  | c :: cs => c.unsolved || Constructor.listUnsolved cs
def Constructor.armUnsolved : List (String × List Constructor) → Bool
  | [] => false
  | (_, cs) :: arms => Constructor.listUnsolved cs || Constructor.armUnsolved arms
end

mutual
def Pattern.unsolved : Pattern → Bool
  | .var _ t => t.unsolved
  | .prim _ => false
  | .constructor _ _ args sub => Constructor.listUnsolved args || Pattern.subUnsolved sub
  | .record fields => Pattern.fieldUnsolved fields
def Pattern.subUnsolved : Option Pattern → Bool
  | none => false
  | some p => p.unsolved
def Pattern.fieldUnsolved : List (String × Pattern × Constructor) → Bool
  | [] => false
  | (_, p, t) :: fields => p.unsolved || t.unsolved || Pattern.fieldUnsolved fields
end

mutual
def Expression.unsolved : Expression → Bool
  | .app e1 e2 => e1.unsolved || e2.unsolved
  | .abs _ c1 c2 e => c1.unsolved || c2.unsolved || e.unsolved
  | .cApp e c => e.unsolved || c.unsolved
  | .cAbs _ _ k e | .kApp e k => k.unsolved || e.unsolved
  | .kAbs _ e => e.unsolved
  | .record fields => Expression.fieldUnsolved fields
  | .field e c info | .cut e c info =>
    e.unsolved || c.unsolved || info.field.unsolved || info.rest.unsolved
  | .concat e1 c1 e2 c2 => e1.unsolved || c1.unsolved || e2.unsolved || c2.unsolved
  | .cutMulti e c info => e.unsolved || c.unsolved || info.rest.unsolved
  | .case disc arms info =>
    disc.unsolved || Expression.armUnsolved arms || info.disc.unsolved || info.result.unsolved
  | .unif cell => Expression.cellUnsolved cell
  | .hole cell => cell.unsolved
  | .letIn decls e t => Expression.declUnsolved decls || e.unsolved || t.unsolved
  | .prim _ | .rel _ | .named _ | .modProj _ _ _ | .error => false
def Expression.cellUnsolved : Option Expression → Bool
  | none => true
  | some e => e.unsolved
def Expression.fieldUnsolved : List (Constructor × Expression × Constructor) → Bool
  | [] => false
  | (n, v, t) :: fields =>
    n.unsolved || v.unsolved || t.unsolved || Expression.fieldUnsolved fields
def Expression.armUnsolved : List (Pattern × Expression) → Bool
  | [] => false
  | (p, e) :: arms => p.unsolved || e.unsolved || Expression.armUnsolved arms
def Expression.declUnsolved : List ElaboratedDeclaration → Bool
  | [] => false
  | ed :: decls => ed.unsolved || Expression.declUnsolved decls
def ElaboratedDeclaration.unsolved : ElaboratedDeclaration → Bool
  | .val p t e => p.unsolved || t.unsolved || e.unsolved
  | .valRec vis => Expression.recUnsolved vis
def Expression.recUnsolved : List (String × Constructor × Expression) → Bool
  | [] => false
  | (_, t, e) :: vis => t.unsolved || e.unsolved || Expression.recUnsolved vis
end

def constrUnsolved (constrs : List (String × Nat × Option Constructor)) : Bool :=
  constrs.any fun xnc => xnc.2.2.any Constructor.unsolved

def datatypeUnsolved (dts : List DatatypeDecl) : Bool :=
  dts.any fun dt => constrUnsolved dt.constrs

mutual
def Signature.unsolved : Signature → Bool
  | .const items => Signature.itemUnsolved items
  | .func _ _ dom ran => dom.unsolved || ran.unsolved
  | .where s _ _ c => s.unsolved || c.unsolved
  | .proj _ _ _ | .var _ | .error => false
def Signature.itemUnsolved : List SignatureItem → Bool
  | [] => false
  | item :: items => item.unsolved || Signature.itemUnsolved items
def SignatureItem.unsolved : SignatureItem → Bool
  | .conAbs _ _ k | .classAbs _ _ k => k.unsolved
  | .constructor _ _ k c | .class _ _ k c => k.unsolved || c.unsolved
  | .val _ _ c => c.unsolved
  | .datatype dts => datatypeUnsolved dts
  | .datatypeImp imp => constrUnsolved imp.constrs
  | .structure _ _ _ s | .signature _ _ s => s.unsolved
  | .constraint c1 c2 => c1.unsolved || c2.unsolved
end

def TableDecl.unsolved (td : TableDecl) : Bool :=
  td.con.unsolved || td.exp.unsolved || td.pkCon.unsolved || td.pkExp.unsolved ||
    td.uniqueCon.unsolved

mutual
def Declaration.unsolved : Declaration → Bool
  | .constructor _ _ k c => k.unsolved || c.unsolved
  | .ffi _ _ c | .cookie _ _ _ c => c.unsolved
  | .datatype dts => datatypeUnsolved dts
  | .datatypeImp imp => constrUnsolved imp.constrs
  | .val _ _ t e => t.unsolved || e.unsolved
  | .valRec vis => vis.any fun vi => vi.2.2.1.unsolved || vi.2.2.2.unsolved
  | .signature _ _ s | .ffiStr _ _ s => s.unsolved
  | .structure _ _ s st | .export _ s st => s.unsolved || st.unsolved
  | .constraint c1 c2 => c1.unsolved || c2.unsolved
  | .table td => td.unsolved
  | .view _ _ _ e c => e.unsolved || c.unsolved
  | .index e1 e2 | .task e1 e2 => e1.unsolved || e2.unsolved
  | .policy e => e.unsolved
  | .sequence _ _ _ | .style _ _ _ | .database _ | .onError _ _ _ => false
def Structure.declUnsolved : List Declaration → Bool
  | [] => false
  | d :: ds => d.unsolved || Structure.declUnsolved ds
def Structure.unsolved : Structure → Bool
  | .const ds => Structure.declUnsolved ds
  | .proj st _ => st.unsolved
  | .func _ _ dom ran body => dom.unsolved || ran.unsolved || body.unsolved
  | .app st1 st2 => st1.unsolved || st2.unsolved
  | .var _ | .error => false
end

end UrWeb.Elaborated
