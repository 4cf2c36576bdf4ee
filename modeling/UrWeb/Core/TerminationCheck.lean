import Mathlib.Data.Finset.Insert
import Mathlib.Logic.Function.Basic
import UrWeb.Core.Syntax

/-!
# The termination checker

What the checker computes for a recursive group: the pedigrees of expressions,
the calls it records, and the search for an argument of each function that
every kept call makes smaller. An environment has the innermost variable first.
-/

namespace UrWeb.Core.Termination

/-- Where a value comes from: a function of the group, argument `j` of function
`i`, or a proper part of that argument. -/
inductive Pedigree
  | func (i : Nat)
  | arg (i j : Nat) (t : Constructor)
  | subarg (i j : Nat) (t : Constructor)
  | rabble

abbrev PayloadMap := Nat → Option Constructor

def constrPayloads (dt : DatatypeDecl) : List (Nat × Constructor) :=
  dt.constrs.filterMap fun xnc => xnc.2.2.map fun t => (xnc.2.1, t)

def buildConPayloadMap (file : File) : PayloadMap :=
  let payloads := file.flatMap fun
    | .datatype dts => dts.flatMap constrPayloads
    | _ => []
  payloads.foldl (fun m nt => Function.update m nt.1 (some nt.2)) fun _ => none

def isDatatype : Constructor → Bool
  | .named _ => true
  | .ffi _ _ => true
  | .app f _ => isDatatype f
  | _ => false

def namesEq : Constructor → Constructor → Bool
  | .name s1, .name s2 => s1 = s2
  | .rel n1, .rel n2 => n1 = n2
  | .named n1, .named n2 => n1 = n2
  | .ffi m1 x1, .ffi m2 x2 => m1 = m2 ∧ x1 = x2
  | _, _ => false

def patCon (payloads : PayloadMap) : PatternConstructor → Option Constructor
  | .var n => payloads n
  | .ffi .. => none

def extractRecordFields : Constructor → Option (List (Constructor × Constructor))
  | .tRecord (.record _ fields) => some fields
  | _ => none

/-- The type that a record type gives a field. -/
def fieldType (t x : Constructor) : Option Constructor :=
  (extractRecordFields t).bind fun fields =>
    (fields.find? fun f => namesEq f.1 x).map Prod.snd

/-- A payload or a field, if its type is known. -/
def Pedigree.part (typeOf : Constructor → Option Constructor) : Pedigree → Pedigree
  | .arg i j t | .subarg i j t =>
    match typeOf t with
    | some t' => .subarg i j t'
    | none => .rabble
  | _ => .rabble

section
variable (payloads : PayloadMap)

mutual
/-- Push the pedigrees of a pattern's variables. -/
def processPat : Pattern → Pedigree → List Pedigree → List Pedigree
  | .var _ _, ped, penv => ped :: penv
  | .prim _, _, penv => penv
  | .constructor _ pc _ sub, ped, penv =>
    processSub sub (ped.part fun _ => patCon payloads pc) penv
  | .record fields, ped, penv => processFields fields ped penv
def processSub : Option Pattern → Pedigree → List Pedigree → List Pedigree
  | none, _, penv => penv
  | some p, ped, penv => processPat p ped penv
def processFields : List (String × Pattern × Constructor) → Pedigree → List Pedigree →
    List Pedigree
  | [], _, penv => penv
  | (x, p, _) :: fields, ped, penv =>
    processFields fields ped (processPat p (ped.part fun t => fieldType t (.name x)) penv)
end

structure Call where
  caller : Nat
  callee : Nat
  args : List Pedigree

def isApplication : Expression → Bool
  | .app _ _ | .cApp _ _ | .kApp _ _ => true
  | _ => false

/-- What the walk over an application chain returns: the pedigree of the whole,
those of the head and of the arguments, and the calls seen. -/
structure Spine where
  ped : Pedigree
  peds : List Pedigree
  calls : List Call

def Spine.leaf (ped : Pedigree) (calls : List Call) : Spine := ⟨ped, [ped], calls⟩

section
variable (parent : Nat) (fenv : Nat → Option Nat)

/-- The chain as an expression: it has no pedigree, and is a call if its head is
a function of the group. -/
def Spine.close (e : Expression) (r : Spine) : Pedigree × List Call :=
  if isApplication e then
    match r.peds with
    | .func callee :: args => (.rabble, r.calls ++ [⟨parent, callee, args⟩])
    | _ => (.rabble, r.calls)
  else (r.ped, r.calls)

/-- The pedigree of a field: only proper parts are looked into. -/
def fieldPedigree (c : Constructor) : Pedigree → Pedigree
  | .subarg i j t => Pedigree.part (fun t => fieldType t c) (.subarg i j t)
  | _ => .rabble

def appliedPedigree : Pedigree → Pedigree
  | .subarg i j (.tFun _ ran) => .subarg i j ran
  | _ => .rabble

def cAppliedPedigree : Pedigree → Pedigree
  | .subarg i j (.tCFun _ _ body) => .subarg i j body
  | _ => .rabble

mutual
/-- The walk over a chain; an expression that is none is its own head. -/
def combiner : Expression → List Pedigree → Spine
  | .app e1 e2, penv =>
    let r1 := combiner e1 penv
    let r2 := (combiner e2 penv).close parent e2
    ⟨appliedPedigree r1.ped, r1.peds ++ [r2.1], r1.calls ++ r2.2⟩
  | .cApp e1 _, penv =>
    let r1 := combiner e1 penv
    ⟨cAppliedPedigree r1.ped, r1.peds, r1.calls⟩
  | .kApp e1 _, penv => combiner e1 penv
  | .prim _, _ | .ffi _ _, _ => .leaf .rabble []
  | .rel n, penv => .leaf ((penv[n]?).getD .rabble) []
  | .named n, _ =>
    .leaf (match fenv n with
      | some i => .func i
      | none => .rabble) []
  | .ffiApp _ _ args, penv => .leaf .rabble (argCalls args penv)
  | .constructor _ _ _ payload, penv => .leaf .rabble (payloadCalls payload penv)
  | .abs _ _ _ body, penv =>
    .leaf .rabble ((combiner body (.rabble :: penv)).close parent body).2
  | .cAbs _ _ body, penv | .kAbs _ body, penv =>
    .leaf .rabble ((combiner body penv).close parent body).2
  | .record fields, penv => .leaf .rabble (fieldCalls fields penv)
  | .field base c _, penv =>
    let r := (combiner base penv).close parent base
    .leaf (fieldPedigree c r.1) r.2
  | .concat e1 _ e2 _, penv =>
    .leaf .rabble (((combiner e1 penv).close parent e1).2 ++ ((combiner e2 penv).close parent e2).2)
  | .cut e _ _, penv | .cutMulti e _ _, penv | .write e, penv =>
    .leaf .rabble ((combiner e penv).close parent e).2
  | .case disc arms _, penv =>
    let r := (combiner disc penv).close parent disc
    .leaf .rabble (r.2 ++ armCalls arms r.1 penv)
  | .letIn _ _ e1 e2, penv =>
    .leaf .rabble (((combiner e1 penv).close parent e1).2 ++
      ((combiner e2 (.rabble :: penv)).close parent e2).2)
  | .serverCall _ args _ _, penv | .closure _ args, penv => .leaf .rabble (listCalls args penv)
def payloadCalls : Option Expression → List Pedigree → List Call
  | none, _ => []
  | some e, penv => ((combiner e penv).close parent e).2
def argCalls : List (Expression × Constructor) → List Pedigree → List Call
  | [], _ => []
  | (e, _) :: args, penv => ((combiner e penv).close parent e).2 ++ argCalls args penv
def fieldCalls : List (Constructor × Expression × Constructor) → List Pedigree → List Call
  | [], _ => []
  | (_, e, _) :: fields, penv => ((combiner e penv).close parent e).2 ++ fieldCalls fields penv
def armCalls : List (Pattern × Expression) → Pedigree → List Pedigree → List Call
  | [], _, _ => []
  | (p, e) :: arms, ped, penv =>
    ((combiner e (processPat payloads p ped penv)).close parent e).2 ++ armCalls arms ped penv
def listCalls : List Expression → List Pedigree → List Call
  | [], _ => []
  | e :: es, penv => ((combiner e penv).close parent e).2 ++ listCalls es penv
end

def expPedigree (e : Expression) (penv : List Pedigree) : Pedigree × List Call :=
  (combiner payloads parent fenv e penv).close parent e

/-- Peel the leading abstractions: how many arguments, and the calls of the rest. -/
def unravel : Expression → Nat → List Pedigree → Nat × List Call
  | .abs _ dom _ body, argPos, penv =>
    unravel body (argPos + 1) (.arg parent argPos dom :: penv)
  | .cAbs _ _ body, argPos, penv | .kAbs _ body, argPos, penv => unravel body argPos penv
  | e, argPos, penv => (argPos, (expPedigree payloads parent fenv e penv).2)

end

end

-- ---------------------------------------------------------------------------
-- The calls that are checked
-- ---------------------------------------------------------------------------

/-- Depth-first search from `at` for `goal`, with the functions entered so far. -/
def reachable (calls : List Call) (goal : Nat) : Nat → Nat → Finset Nat → Bool × Finset Nat
  | 0, _, visited => (false, visited)
  | fuel + 1, i, visited =>
    if i = goal then (true, visited)
    else
      ((calls.filter fun c => c.caller = i).map Call.callee).foldl (fun r next =>
        if r.1 ∨ next ∈ r.2 then r else reachable calls goal fuel next (insert next r.2))
        (false, visited)

def recursiveCalls (calls : List Call) : List Call :=
  calls.filter fun c =>
    (reachable calls c.caller (calls.length + 1) c.callee {c.caller}).1

/-- A kept call makes the chosen argument smaller. -/
def callDecreases (choices : List Nat) (c : Call) : Bool :=
  match c.args[choices.getD c.callee 0]? with
  | some (.subarg i j t) => isDatatype t && j = choices.getD i 0
  | _ => false

def search (calls : List Call) : List Nat → List Nat → Bool
  | [], choices => calls.all (callDecreases choices)
  | n :: ns, choices => (List.range n).any fun choice => search calls ns (choices ++ [choice])

section
variable (vis : List ValBinding)

def functionEnv : Nat → Option Nat :=
  (vis.zipIdx).foldl (fun m vi => Function.update m vi.1.id (some vi.2)) fun _ => none

/-- For each function, how many arguments it takes and the calls it makes. -/
def unravelAll (payloads : PayloadMap) : List (Nat × List Call) :=
  vis.zipIdx.map fun vi => unravel payloads vi.2 (functionEnv vis) vi.1.body 0 []

/-- Whether the group passes. -/
def checkValRec (payloads : PayloadMap) : Bool :=
  let rs := unravelAll vis payloads
  let calls := recursiveCalls (rs.flatMap Prod.snd)
  calls.isEmpty || search calls (rs.map Prod.fst) []

end

/-- The groups that are reported. -/
def check (file : File) : List (List ValBinding) :=
  file.flatMap fun
    | .valRec vis => if checkValRec vis (buildConPayloadMap file) then [] else [vis]
    | _ => []

end UrWeb.Core.Termination
