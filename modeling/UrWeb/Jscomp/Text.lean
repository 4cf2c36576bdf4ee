import UrWeb.Mono.References

/-!
# JavaScript text

The client code that the pass emits is a list of pieces: literal text, a
reference to a compiled function, a call of a decoder, or an expression that
the server evaluates to text. Concatenations are flat lists of pieces. The
literals of the source language are escaped here, and patterns are printed.
Diagnostics are left out.
-/

namespace UrWeb.Jscomp

open Mono

inductive Piece where
  | text (s : String)
  | func (n : Nat)
  | decoder (n : Nat)
  | server (e : Exp)

abbrev Js := List Piece

/-- The contents of the cell that references to a datatype share. -/
structure DatatypeDef where
  kind : DatatypeKind
  constrs : List (String × Nat × Option Typ)

/-- What the pass reads: settings, how floats are written, the datatype cells, and what
the first walk over the file collects. -/
structure Env where
  jsFunc : String → String → Option String
  urlPrefix : String
  floatToString : UInt64 → String
  cells : List (Nat × DatatypeDef)
  nameds : List (Nat × Exp)
  someTs : List (Nat × Typ)

def Env.cell (env : Env) (n : Nat) : DatatypeDef := (env.cells.lookup n).getD ⟨.default, []⟩

inductive JsMode
  | attribute
  | script
  | source
  deriving DecidableEq

def javaScriptModeToJsMode : JavaScriptMode → JsMode
  | .attribute => .attribute
  | .script => .script
  | .source _ => .source

-- ---------------------------------------------------------------------------
-- Pieces
-- ---------------------------------------------------------------------------

def strLit (s : String) : Exp := .prim (.string .normal s)

def strcatExp : List Exp → Exp
  | [] => strLit ""
  | [e] => e
  | e :: es => .strcat e (strcatExp es)

def funcText (n : Nat) : String := "\x7bc:\"n\",n:" ++ toString n ++ "\x7d"

def decoderText (n : Nat) : String :=
  "(tmp=_n" ++ toString n ++ "(t,i),i=tmp._1,tmp._2)"

def Piece.toExp : Piece → Exp
  | .text s => strLit s
  | .func n => strLit (funcText n)
  | .decoder n => strLit (decoderText n)
  | .server e => e

/-- The server expression that puts the text together. -/
def Js.toExp (js : Js) : Exp := strcatExp (js.map Piece.toExp)

-- ---------------------------------------------------------------------------
-- Escapes
-- ---------------------------------------------------------------------------

def padWith (ch : Char) (s : List Char) (len : Nat) : List Char :=
  List.replicate (len - s.length) ch ++ s

def jsChar (mode : JsMode) (ch : Char) : List Char :=
  if ch = '\x27' then if mode = .attribute then "\\047".toList else ['\x27']
  else if ch = '\x22' then "\\\"".toList
  else if ch = '<' then "\\074".toList
  else if ch = '\x5c' then "\\\\".toList
  else if ch = '\n' then "\\n".toList
  else if ch = '\r' then "\\r".toList
  else if ch = '\t' then "\\t".toList
  else if (32 ≤ ch.toNat ∧ ch.toNat ≤ 126) ∨ 128 ≤ ch.toNat then [ch]
  else '\x5c' :: padWith '0' (Nat.toDigits 8 ch.toNat) 3

def jsString (mode : JsMode) (cs : List Char) : String :=
  "\"" ++ String.ofList (cs.flatMap (jsChar mode)) ++ "\""

def jsifyString (s : String) : String :=
  String.ofList (s.toList.flatMap fun ch =>
    if ch = '\x22' then "\\\"".toList else if ch = '\x5c' then "\\\\".toList else [ch])

def jsifyStringMulti (n : Nat) (s : String) : String := jsifyString^[n] s

/-- The constant text of a server expression. Other parts are reported and left out. -/
def deStrcatExp (level : Nat) : Exp → String
  | .prim (.string _ s) => jsifyStringMulti level s
  | .strcat e1 e2 => deStrcatExp level e1 ++ deStrcatExp level e2
  | .ffiApp "Basis" "jsifyString" [(e, _)] => "\"" ++ deStrcatExp (level + 1) e ++ "\""
  | _ => ""

/-- The constant text of emitted code. -/
def deStrcat (js : Js) : Js :=
  js.map fun
    | .server e => .text (deStrcatExp 0 e)
    | piece => piece

-- ---------------------------------------------------------------------------
-- Types
-- ---------------------------------------------------------------------------

mutual
/-- The key under which list injectors are filed. -/
def fmtTyp : Typ → String
  | .func a b => "Fun(" ++ fmtTyp a ++ "," ++ fmtTyp b ++ ")"
  | .record fields => "Rec(" ++ ",".intercalate (fmtFields fields) ++ ")"
  | .datatype n => "Dt(" ++ toString n ++ ")"
  | .ffi m f => "Ffi(" ++ m ++ "." ++ f ++ ")"
  | .option t => "Opt(" ++ fmtTyp t ++ ")"
  | .list t => "List(" ++ fmtTyp t ++ ")"
  | .source => "Source"
  | .signal t => "Signal(" ++ fmtTyp t ++ ")"
  | .transaction t => "Tx(" ++ fmtTyp t ++ ")"
def fmtFields : List (String × Typ) → List String
  | [] => []
  | (n, t) :: fields => (n ++ ":" ++ fmtTyp t) :: fmtFields fields
end

def isNullable (env : Env) : Typ → Bool
  | .option _ | .list _ => true
  | .datatype n => (env.cell n).kind == .option
  | .record fields => fields.isEmpty
  | _ => false

-- ---------------------------------------------------------------------------
-- Literals and patterns
-- ---------------------------------------------------------------------------

def jsPrim (env : Env) (mode : JsMode) : Prim → String
  | .string _ s => jsString mode s.toList
  | .char ch => jsString mode [ch]
  | .int n => toString n
  | .float bits => env.floatToString bits

def patConJs : PatCon → String
  | .var n => toString n
  | .ffi m _ con _ =>
    if m = "Basis" ∧ con = "True" then "true"
    else if m = "Basis" ∧ con = "False" then "false"
    else "\"" ++ con ++ "\""

mutual
def jsPat (env : Env) : Pat → String
  | .var _ _ => "\x7b/*hoho*/c:\"v\"\x7d"
  | .prim p => "\x7bc:\"c\",v:" ++ jsPrim env .script p ++ "\x7d"
  | .con dk pc none =>
    match pc with
    | .ffi "Basis" _ "True" _ => "\x7bc:\"c\",v:true\x7d"
    | .ffi "Basis" _ "False" _ => "\x7bc:\"c\",v:false\x7d"
    | _ =>
      if dk = .option then "\x7bc:\"c\",v:null\x7d"
      else "\x7bc:\"c\",v:" ++ patConJs pc ++ "\x7d"
  | .con dk pc (some p) =>
    match dk, pc with
    | .option, .var n =>
      match env.someTs.lookup n with
      | none => "\x7bc:\"c\",v:null\x7d"
      | some t => jsSome env t (jsPat env p)
    | _, _ => "\x7bc:\"1\",n:" ++ patConJs pc ++ ",p:" ++ jsPat env p ++ "\x7d"
  | .record xps => "\x7bc:\"r\",l:" ++ jsPatFields env xps ++ "\x7d"
  | .none _ => "\x7bc:\"c\",v:null\x7d"
  | .some t p => jsSome env t (jsPat env p)
where
  jsSome (env : Env) (t : Typ) (inner : String) : String :=
    "\x7bc:\"s\",n:" ++ (if isNullable env t then "true" else "false") ++ ",p:" ++ inner ++ "\x7d"
def jsPatFields (env : Env) : List (String × Pat × Typ) → String
  | [] => "null"
  | (x, p, _) :: xps =>
    "cons(\x7bn:\"" ++ x ++ "\",p:" ++ jsPat env p ++ "\x7d," ++ jsPatFields env xps ++ ")"
end

def patBindsN : Pat → Nat
  | .var _ _ => 1
  | .prim _ | .con _ _ none | .none _ => 0
  | .con _ _ (some p) | .some _ p => patBindsN p
  | .record xpts => patFieldsBindsN xpts
where
  patFieldsBindsN : List (String × Pat × Typ) → Nat
    | [] => 0
    | (_, p, _) :: xpts => patBindsN p + patFieldsBindsN xpts

mutual
/-- The types of the variables that a pattern binds, added in front of `outer`. -/
def patBindsOuter : Pat → List Typ → List Typ
  | .var _ t, outer => t :: outer
  | .prim _, outer | .con _ _ none, outer | .none _, outer => outer
  | .con _ _ (some p), outer | .some _ p, outer => patBindsOuter p outer
  | .record xpts, outer => patFieldsBindsOuter xpts outer
def patFieldsBindsOuter : List (String × Pat × Typ) → List Typ → List Typ
  | [], outer => outer
  | (_, p, _) :: xpts, outer => patFieldsBindsOuter xpts (patBindsOuter p outer)
end

end UrWeb.Jscomp
