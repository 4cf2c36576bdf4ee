import UrWeb.Core.Syntax
import UrWeb.References

/-!
# References between Core declarations

What a constructor, a pattern, an expression or a declaration mentions:
constructor ids, and the value ids of names and of server calls.
-/

namespace UrWeb.Core

mutual
def Constructor.refs : Constructor → List Ref
  | .named n => [.con n]
  | .tFun c1 c2 | .app c1 c2 | .concat c1 c2 => c1.refs ++ c2.refs
  | .tRecord c | .proj c _ | .tCFun _ _ c | .abs _ _ c | .kAbs _ c | .tKFun _ c | .kApp c _ =>
    c.refs
  | .record _ fields => Constructor.fieldRefs fields
  | .tuple cs => Constructor.listRefs cs
  | .rel _ | .ffi _ _ | .name _ | .unit | .map _ _ => []
def Constructor.fieldRefs : List (Constructor × Constructor) → List Ref
  | [] => []
  | (c1, c2) :: fields => (c1.refs ++ c2.refs) ++ Constructor.fieldRefs fields
def Constructor.listRefs : List Constructor → List Ref
  | [] => []
  | c :: cs => c.refs ++ Constructor.listRefs cs
end

/-- The argument type of a foreign constructor. -/
def PatternConstructor.refs : PatternConstructor → List Ref
  | .ffi _ _ _ _ (some c) _ => c.refs
  | _ => []

mutual
def Pattern.refs : Pattern → List Ref
  | .var _ t => t.refs
  | .prim _ => []
  | .constructor _ pc args sub =>
    pc.refs ++ Constructor.listRefs args ++ Pattern.subRefs sub
  | .record fields => Pattern.fieldRefs fields
def Pattern.subRefs : Option Pattern → List Ref
  | none => []
  | some p => p.refs
def Pattern.fieldRefs : List (String × Pattern × Constructor) → List Ref
  | [] => []
  | (_, p, t) :: fields => (p.refs ++ t.refs) ++ Pattern.fieldRefs fields
end

section
variable (pcr : PatternConstructor → List Ref)

mutual
/-- The ids of an expression, where `pcr` says what counts in the constructor
that a value is built with. -/
def Expression.refsWith : Expression → List Ref
  | .prim _ | .rel _ | .ffi _ _ => []
  | .named n => [.exp n]
  | .serverCall n args result _ => .exp n :: (Expression.listRefs args ++ result.refs)
  | .constructor _ pc args payload =>
    pcr pc ++ Constructor.listRefs args ++ Expression.payloadRefs payload
  | .ffiApp _ _ args => Expression.argRefs args
  | .app e1 e2 => e1.refsWith ++ e2.refsWith
  | .abs _ dom ran body => dom.refs ++ ran.refs ++ body.refsWith
  | .cApp e c => e.refsWith ++ c.refs
  | .cAbs _ _ e | .kAbs _ e | .kApp e _ | .write e => e.refsWith
  | .record fields => Expression.fieldRefs fields
  | .field e c info | .cut e c info =>
    e.refsWith ++ c.refs ++ info.field.refs ++ info.rest.refs
  | .concat e1 c1 e2 c2 => e1.refsWith ++ c1.refs ++ e2.refsWith ++ c2.refs
  | .cutMulti e c info => e.refsWith ++ c.refs ++ info.rest.refs
  | .case disc arms info =>
    disc.refsWith ++ Expression.armRefs arms ++ info.disc.refs ++ info.result.refs
  | .closure _ captured => Expression.listRefs captured
  | .letIn _ t e1 e2 => t.refs ++ e1.refsWith ++ e2.refsWith
def Expression.payloadRefs : Option Expression → List Ref
  | none => []
  | some e => e.refsWith
def Expression.argRefs : List (Expression × Constructor) → List Ref
  | [] => []
  | (e, t) :: args => (e.refsWith ++ t.refs) ++ Expression.argRefs args
def Expression.fieldRefs : List (Constructor × Expression × Constructor) → List Ref
  | [] => []
  | (c, e, t) :: fields => (c.refs ++ e.refsWith ++ t.refs) ++ Expression.fieldRefs fields
def Expression.armRefs : List (Pattern × Expression) → List Ref
  | [] => []
  | (p, e) :: arms => (p.refs ++ e.refsWith) ++ Expression.armRefs arms
def Expression.listRefs : List Expression → List Ref
  | [] => []
  | e :: es => e.refsWith ++ Expression.listRefs es
end

def ValBinding.refsWith (vi : ValBinding) : List Ref := vi.t.refs ++ vi.body.refsWith pcr

def TableDecl.refsWith (td : TableDecl) : List Ref :=
  Constructor.listRefs [td.con, td.pkCon, td.uniqueCon] ++
    Expression.listRefs pcr [td.exp, td.pkExp]

/-- The payload types of a datatype. -/
def DatatypeDecl.payloads (dt : DatatypeDecl) : List Constructor :=
  dt.constrs.filterMap fun xnc => xnc.2.2

def DatatypeDecl.refs (dt : DatatypeDecl) : List Ref := Constructor.listRefs dt.payloads

/-- What a declaration mentions, the ids of an export and of an error handler
included. -/
def Declaration.refsWith : Declaration → List Ref
  | .constructor _ _ _ body => body.refs
  | .datatype dts => dts.flatMap DatatypeDecl.refs
  | .val vi => vi.refsWith pcr
  | .valRec vis => vis.flatMap (ValBinding.refsWith pcr)
  | .export _ n _ => [.exp n]
  | .table td => td.refsWith pcr
  | .view _ _ _ e c => c.refs ++ e.refsWith pcr
  | .index e1 e2 | .task e1 e2 => Expression.listRefs pcr [e1, e2]
  | .cookie _ _ t _ => t.refs
  | .policy e => e.refsWith pcr
  | .onError n => [.exp n]
  | .sequence _ _ _ | .database _ | .style _ _ _ => []

/-- What a declaration mentions in defining `r`. -/
def Declaration.refsOfWith (r : Ref) : Declaration → List Ref
  | .constructor _ n _ body => if r = .con n then body.refs else []
  | .datatype dts => dts.flatMap fun dt => if r = .con dt.id then dt.refs else []
  | .val vi => if r = .exp vi.id then vi.refsWith pcr else []
  | .valRec vis => vis.flatMap fun vi => if r = .exp vi.id then vi.refsWith pcr else []
  | .table td => if r = .exp td.id then td.refsWith pcr else []
  | .view _ n _ e c => if r = .exp n then c.refs ++ e.refsWith pcr else []
  | .cookie _ n t _ => if r = .exp n then t.refs else []
  | _ => []

end

theorem Constructor.listRefs_append (cs cs' : List Constructor) :
    Constructor.listRefs (cs ++ cs') = Constructor.listRefs cs ++ Constructor.listRefs cs' := by
  induction cs with
  | nil => rfl
  | cons c cs ih => simp [Constructor.listRefs, ih]

theorem Expression.listRefs_append (pcr : PatternConstructor → List Ref)
    (es es' : List Expression) :
    Expression.listRefs pcr (es ++ es') =
      Expression.listRefs pcr es ++ Expression.listRefs pcr es' := by
  induction es with
  | nil => rfl
  | cons e es ih => simp [Expression.listRefs, ih]

/-- Everything a declaration mentions. -/
abbrev Declaration.refs (d : Declaration) : List Ref := d.refsWith PatternConstructor.refs

/-- Everything a declaration mentions in defining `r`. -/
abbrev Declaration.refsOf (r : Ref) (d : Declaration) : List Ref :=
  d.refsOfWith PatternConstructor.refs r

theorem Declaration.refsOf_subset {pcr : PatternConstructor → List Ref} {d : Declaration}
    (h : r' ∈ d.refsOfWith pcr r) : r' ∈ d.refsWith pcr := by
  cases d with
  | datatype dts | valRec vis =>
    simp only [refsOfWith, refsWith, List.mem_flatMap] at h ⊢
    obtain ⟨x, hx, h⟩ := h
    split at h
    · exact ⟨x, hx, h⟩
    · simp at h
  | constructor | val | table | view | cookie =>
    simp only [refsOfWith, refsWith] at h ⊢
    split at h
    · exact h
    · simp at h
  | _ => simp [refsOfWith] at h

/-- What a root declaration mentions, in the given mode; other declarations are
no roots. -/
def Declaration.rootRefsWith (pcr : PatternConstructor → List Ref) (sliceForDb : Bool)
    (d : Declaration) : List Ref :=
  match d with
  | .table _ | .view _ _ _ _ _ | .index _ _ => d.refsWith pcr
  | .export _ _ _ | .onError _ | .task _ _ | .policy _ =>
    if sliceForDb then [] else d.refsWith pcr
  | _ => []

theorem Declaration.rootRefs_subset {pcr : PatternConstructor → List Ref} {d : Declaration}
    (h : r ∈ d.rootRefsWith pcr sliceForDb) : r ∈ d.refsWith pcr := by
  cases d with
  | table | view | index => exact h
  | «export» | onError | task | policy =>
    simp only [rootRefsWith] at h
    split at h
    · simp at h
    · exact h
  | _ => simp [rootRefsWith] at h

/-- The ids a declaration defines. -/
def Declaration.defines : Declaration → List Ref
  | .constructor _ n _ _ => [.con n]
  | .datatype dts => dts.map fun dt => .con dt.id
  | .val vi => [.exp vi.id]
  | .valRec vis => vis.map fun vi => .exp vi.id
  | .table td => [.exp td.id]
  | .sequence _ n _ | .view _ n _ _ _ | .cookie _ n _ _ | .style _ n _ => [.exp n]
  | .export _ _ _ | .index _ _ | .database _ | .task _ _ | .policy _ | .onError _ => []

/-- Every id a declaration mentions is defined by some declaration. -/
def RefsClosed (decls : File) : Prop :=
  ∀ d ∈ decls, ∀ r ∈ d.refs, ∃ d' ∈ decls, r ∈ d'.defines

instance (decls : File) : Decidable (RefsClosed decls) := by
  unfold RefsClosed; infer_instance

/-- Every id a declaration mentions is defined by an earlier declaration or by
the same group. -/
def DefinedBefore : List Declaration → File → Prop
  | _, [] => True
  | seen, d :: decls =>
    (∀ r ∈ d.refs, ∃ d' ∈ d :: seen, r ∈ d'.defines) ∧ DefinedBefore (d :: seen) decls

instance instDecidableDefinedBefore (seen : List Declaration) :
    (decls : File) → Decidable (DefinedBefore seen decls)
  | [] => isTrue trivial
  | d :: decls =>
    haveI := instDecidableDefinedBefore (d :: seen) decls
    inferInstanceAs (Decidable (_ ∧ _))

theorem DefinedBefore.refsClosed (h : DefinedBefore seen decls) :
    ∀ d ∈ decls, ∀ r ∈ d.refs, ∃ d' ∈ seen ++ decls, r ∈ d'.defines := by
  induction decls generalizing seen with
  | nil => simp
  | cons d decls ih =>
    obtain ⟨hd, hrest⟩ := h
    intro e he r hr
    rcases List.mem_cons.mp he with rfl | he
    · obtain ⟨d', hd', hdef⟩ := hd r hr
      refine ⟨d', ?_, hdef⟩
      simp only [List.mem_cons] at hd'
      simp only [List.mem_append, List.mem_cons]
      tauto
    · obtain ⟨d', hd', hdef⟩ := ih hrest e he r hr
      refine ⟨d', ?_, hdef⟩
      simp only [List.mem_append, List.mem_cons] at hd' ⊢
      tauto

end UrWeb.Core
