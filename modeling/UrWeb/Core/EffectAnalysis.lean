import Mathlib.Logic.Function.Basic
import UrWeb.Core.Utilities
import UrWeb.Lib.Rounds
import UrWeb.Settings

/-!
# The effect analysis

Which exported values can write, read cookies or push: declaration by
declaration the analysis collects the values that can, and annotates exports. A
page that can write although it is reached by GET is reported.
-/

namespace UrWeb.Core.EffectAnalysis

/-- The values that have an effect, with their paths. -/
abbrev EffectMap := Nat → Option String

section
variable (settings : Settings)

def isEffectfulFfi (m x : String) : Bool :=
  settings.isEffectful (m, x) && !settings.isClientOnly (m, x)

section
variable (writers readers pushers : EffectMap)

def couldWriteOnloadNode : Expression → Bool
  | .ffi m x | .ffiApp m x _ => isEffectfulFfi settings m x
  | .named n | .serverCall n _ _ _ => (writers n).isSome
  | _ => false

def onloadCouldWrite : Constructor × Expression × Constructor → Bool
  | (.name s, body, _) => s = "Onload" && body.nodes.any (couldWriteOnloadNode settings writers)
  | _ => false

def couldWriteNode : Expression → Bool
  | .ffi m x | .ffiApp m x _ => isEffectfulFfi settings m x
  | .named n => (writers n).isSome
  | .record fields => fields.any (onloadCouldWrite settings writers)
  | _ => false

def couldReadCookieNode : Expression → Bool
  | .ffi m x => m = "Basis" && x = "getCookie"
  | .ffiApp m x _ => m = "Basis" && (x = "getHeader" || x = "getenv")
  | .named n | .serverCall n _ _ _ => (readers n).isSome
  | _ => false

def couldWriteWithRpcNode : Expression → Bool
  | .named n => (pushers n).isSome
  | .serverCall n _ _ _ => (writers n).isSome && (readers n).isSome
  | _ => false

def expHasWrite (e : Expression) : Bool := e.nodes.any (couldWriteNode settings writers)

def expHasReadCookie (e : Expression) : Bool := e.nodes.any (couldReadCookieNode readers)

def expHasPush (e : Expression) : Bool := e.nodes.any (couldWriteWithRpcNode writers readers pushers)

end

/-- Whether a field of this name is kept. -/
def isKept : Constructor → Bool
  | .name s => s = "Onload" || !s.startsWith "On"
  | _ => true

/-- Handlers of client events are stripped. -/
def dejs : Expression → Expression
  | .record fields => .record (fields.filter fun f => isKept f.1)
  | e => e

def dejsExp (e : Expression) : Expression := e.map dejs

structure State where
  writers : EffectMap
  readers : EffectMap
  pushers : EffectMap

/-- Record a value under its path if it has the effect. -/
def insertIf (b : Bool) (vi : ValBinding) (effects : EffectMap) : EffectMap :=
  if b then Function.update effects vi.id (some vi.s) else effects

def analyzeVal (st : State) (vi : ValBinding) : State :=
  let e := dejsExp vi.body
  let writers := insertIf (expHasWrite settings st.writers e) vi st.writers
  let readers := insertIf (expHasReadCookie st.readers e) vi st.readers
  ⟨writers, readers, insertIf (expHasPush writers readers st.pushers vi.body) vi st.pushers⟩

/-- Whether a member has the effect and is not known to have it. -/
def isNew (b : Bool) (vi : ValBinding) (effects : EffectMap) : Bool := b && (effects vi.id).isNone

/-- Look at one member of a group; the flag says that something was added. -/
def analyzeMember (st : State × Bool) (vi : ValBinding) : State × Bool :=
  let e := dejsExp vi.body
  let newWriter := isNew (expHasWrite settings st.1.writers e) vi st.1.writers
  let writers := insertIf newWriter vi st.1.writers
  let newReader := isNew (expHasReadCookie st.1.readers e) vi st.1.readers
  let readers := insertIf newReader vi st.1.readers
  let newPusher := isNew (expHasPush writers readers st.1.pushers vi.body) vi st.1.pushers
  (⟨writers, readers, insertIf newPusher vi st.1.pushers⟩,
    st.2 || newWriter || newReader || newPusher)

def maxValRecIterations : Nat := 10000

/-- Go through the group until nothing is added. -/
def analyzeGroup (vis : List ValBinding) (st : State) : State :=
  Rounds.loop (Rounds.round (analyzeMember settings) vis) maxValRecIterations st

def computeEffect (n : Nat) (st : State) : Effect :=
  match (st.writers n).isSome, (st.readers n).isSome with
  | true, true => .readCookieWrite
  | true, false => .readWrite
  | false, _ => .readOnly

def sideEffectError (s : String) : String :=
  "A handler (URI prefix \"" ++ s ++ "\") accessible via GET could cause side effects; " ++
    "try accessing it only via forms, removing it from the signature of the main program module, " ++
    "or whitelisting it with the 'safeGet' .urp directive"

/-- What is reported of a page reached by GET. -/
def linkErrors (n : Nat) (st : State) : List String :=
  match st.writers n with
  | some s => if settings.isSafeGet s then [] else [sideEffectError s]
  | none => []

def withEffect (effect : Effect) : ExportKind → ExportKind
  | .link _ => .link effect
  | .action _ => .action effect
  | .rpc _ => .rpc effect
  | .external _ => .external effect

def annotate (st : State) (ek : ExportKind) (n : Nat) : Declaration :=
  .export (withEffect (computeEffect n st) ek) n (st.pushers n).isSome

/-- The state after a declaration, the annotated declaration and what is reported. -/
def analyzeDecl (st : State) : Declaration → State × Declaration × List String
  | .val vi => (analyzeVal settings st vi, .val vi, [])
  | .valRec vis => (analyzeGroup settings vis st, .valRec vis, [])
  | .export (.link eff) n _ => (st, annotate st (.link eff) n, linkErrors settings n st)
  | .export ek n _ => (st, annotate st ek n, [])
  | d => (st, d, [])

def analyzeFile (st : State) : File → File × List String
  | [] => ([], [])
  | d :: ds =>
    let (st', d', errors) := analyzeDecl settings st d
    let (ds', errors') := analyzeFile st' ds
    (d' :: ds', errors ++ errors')

/-- The annotated file and the errors. -/
def effectize (file : File) : File × List String :=
  analyzeFile settings ⟨fun _ => none, fun _ => none, fun _ => none⟩ file

end

end UrWeb.Core.EffectAnalysis
