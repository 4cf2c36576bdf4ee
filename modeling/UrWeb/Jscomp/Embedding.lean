import UrWeb.Lib.FailingState
import UrWeb.Jscomp.Text

/-!
# Embedding server values in client code

The state of the pass, the injectors that turn a server value into JavaScript
text, and the decoders that read one back from a URL. An injector or a decoder
for a datatype is entered in its table before its body is made, so that
recursive types find it; a type that cannot be embedded makes the computation
fail and leaves the tables as they are by then.

The recursion through a datatype's cell runs on fuel. A caller that allows
more fuel than there are cells without an entry in the table never runs out.
-/

namespace UrWeb.Jscomp

open Mono

/-- A piece of the script: the definition of a decoder or of a compiled function. -/
inductive Fragment where
  | decoder (n : Nat) (result : Js)
  | urfunc (n : Nat) (code : Js)

/-- `emitted` is the client code that has been put into declarations so far. -/
structure State where
  decls : List ValBinding
  script : List Fragment
  included : List Nat
  injectors : List (Nat × Nat)
  listInjectors : List (String × Nat)
  decoders : List (Nat × Nat)
  maxName : Nat
  foundJavascript : Bool
  emitted : List Js

def State.new (maxName : Nat) : State := ⟨[], [], [], [], [], [], maxName, false, []⟩

abbrev JsM := Failing State

def allocName : JsM Nat := do
  let st ← Failing.get
  Failing.modify fun st => { st with maxName := st.maxName + 1 }
  pure st.maxName

def pushDecl (n : Nat) (t : Typ) (e : Exp) : JsM Unit :=
  Failing.modify fun st => { st with decls := st.decls ++ [⟨"jsify", n, t, e, "jsify"⟩] }

def pushScript (fragment : Fragment) : JsM Unit :=
  Failing.modify fun st => { st with script := st.script ++ [fragment] }

-- ---------------------------------------------------------------------------
-- Injectors
-- ---------------------------------------------------------------------------

def strTyp : Typ := .ffi "Basis" "string"

/-- The foreign types that can be embedded, with the functions that embed them. -/
def ffiInjectors : List (String × String) :=
  [("string", "jsifyString"), ("char", "jsifyChar"), ("int", "htmlifyInt"),
    ("float", "htmlifyFloat"), ("channel", "jsifyChannel"), ("time", "jsifyTime"),
    ("clocktime", "jsifyClocktime"), ("calendardate", "jsifyCalendardate")]

def boolCon (con : String) : Pat := .con .enum (.ffi "Basis" "bool" con none) none

section
variable (env : Env)

section
/- The injector of a datatype. -/
variable (injector : Nat → JsM Nat)

mutual
/-- The server expression that writes the value of `e`, of type `t`, as JavaScript. -/
def quoteExp : Typ → Exp → JsM Exp
  | .source, e => pure (.ffiApp "Basis" "htmlifySource" [(e, .source)])
  | .record [], _ => pure (strLit "null")
  | .record ((x, t) :: fields), e => do
    let q ← quoteExp t (.field e x)
    let parts ← quoteFields fields e
    pure (strcatExp ([strLit ("\x7b_" ++ x ++ ":"), q] ++ parts ++ [strLit "\x7d"]))
  | .ffi m f, e =>
    if m = "Basis" ∧ f = "bool" then
      pure (.case e [(boolCon "True", strLit "true"), (boolCon "False", strLit "false")]
        ⟨.ffi m f, strTyp⟩)
    else
      match if m = "Basis" then ffiInjectors.lookup f else none with
      | some g => pure (.ffiApp "Basis" g [(e, .ffi m f)])
      | none => Failing.fail
  | .option t, e => do
    let q ← quoteExp t (.rel 0)
    let someBody := if isNullable env t then strcatExp [strLit "\x7bv:", q, strLit "\x7d"] else q
    pure (.case e [(.none t, strLit "null"), (.some t (.var "x" t), someBody)]
      ⟨.option t, strTyp⟩)
  | .list t, e => do
    match (← Failing.get).listInjectors.lookup (fmtTyp t) with
    | some n => pure (.app (.named n) e)
    | none =>
      let n ← allocName
      Failing.modify fun st => { st with listInjectors := (fmtTyp t, n) :: st.listInjectors }
      let rt : Typ := .record [("1", t), ("2", .list t)]
      let q ← quoteExp t (.field (.rel 0) "1")
      let someBody := strcatExp [strLit "\x7b_1:", q, strLit ",_2:",
        .app (.named n) (.field (.rel 0) "2"), strLit "\x7d"]
      let body : Exp := .case (.rel 0) [(.none rt, strLit "null"), (.some rt (.var "x" rt), someBody)]
        ⟨.list t, strTyp⟩
      pushDecl n (.func (.list t) strTyp) (.abs "x" (.list t) strTyp body)
      pure (.app (.named n) e)
  | .datatype n, e => do
    let n' ← injector n
    pure (.app (.named n') e)
  | .func _ _, _ | .signal _, _ | .transaction _, _ => Failing.fail
def quoteFields : List (String × Typ) → Exp → JsM (List Exp)
  | [], _ => pure []
  | (x, t) :: fields, e => do
    let q ← quoteExp t (.field e x)
    let parts ← quoteFields fields e
    pure (strLit (",_" ++ x ++ ":") :: q :: parts)
end

/-- The arms of a datatype's injector. -/
def injectorArms (dk : DatatypeKind) : List (String × Nat × Option Typ) → JsM (List (Pat × Exp))
  | [] => pure []
  | (_, cn, none) :: cs => do
    let arms ← injectorArms dk cs
    pure ((.con dk (.var cn) none, strLit (if dk = .option then "null" else toString cn)) :: arms)
  | (_, cn, some t) :: cs => do
    let q ← quoteExp env injector t (.rel 0)
    let body :=
      if dk = .option then
        if isNullable env t then strcatExp [strLit "\x7bv:", q, strLit "\x7d"] else q
      else strcatExp [strLit ("\x7bn:" ++ toString cn ++ ",v:"), q, strLit "\x7d"]
    let arms ← injectorArms dk cs
    pure ((.con dk (.var cn) (some (.var "x" t)), body) :: arms)

end

def injector : Nat → Nat → JsM Nat
  | 0, _ => Failing.fail
  | fuel + 1, n => do
    match (← Failing.get).injectors.lookup n with
    | some n' => pure n'
    | none =>
      let n' ← allocName
      Failing.modify fun st => { st with injectors := (n, n') :: st.injectors }
      let dt := env.cell n
      let arms ← injectorArms env (injector fuel) dt.kind dt.constrs
      let body : Exp := .case (.rel 0) arms ⟨.datatype n, strTyp⟩
      pushDecl n' (.func (.datatype n) strTyp) (.abs "x" (.datatype n) strTyp body)
      pure n'

/-- How many datatypes have no entry in a table. -/
def Env.missing (table : List (Nat × Nat)) : Nat :=
  env.cells.countP fun cell => (table.lookup cell.1).isNone

def quote (t : Typ) (e : Exp) : JsM Exp := do
  let st ← Failing.get
  quoteExp env (injector env (env.missing st.injectors + 1)) t e

-- ---------------------------------------------------------------------------
-- Decoders
-- ---------------------------------------------------------------------------

/-- How the parts of a URL are read at the simple foreign types. -/
def ffiDecoders : List (String × String) :=
  [("unit", "(i++,null)"), ("string", "uu(t[i++])"), ("char", "uu(t[i++])"),
    ("int", "parseInt(t[i++])"), ("time", "parseInt(t[i++])"),
    ("clocktime", "unurlifyClocktime(t[i++])"),
    ("calendardate", "unurlifyCalendardate(t[i++])"), ("float", "parseFloat(t[i++])"),
    ("channel", "(t[i++].length > 0 ? parseInt(t[i-1]) : null)"), ("bool", "t[i++] == \"1\"")]

section
/- The decoder of a datatype. -/
variable (decoder : Nat → JsM Nat)

mutual
/-- The JavaScript that reads a value of type `t`. -/
def unurlifyExp : Typ → JsM Js
  | .record [] => pure [.text "(i++,null)"]
  | .record ((x, t) :: fields) => do
    let e ← unurlifyExp t
    let rest ← unurlifyFields fields
    pure ([.text ("\x7b_" ++ x ++ ":")] ++ e ++ rest ++ [.text "\x7d"])
  | .ffi m f =>
    match if m = "Basis" then ffiDecoders.lookup f else none with
    | some s => pure [.text s]
    | none => pure [.text "ERROR"]
  | .source => pure [.text "parseSource(t[i++], t[i++])"]
  | .option t => do
    let e ← unurlifyExp t
    let e := if isNullable env t then [.text "\x7bv:"] ++ e ++ [.text "\x7d"] else e
    pure ([.text "(t[i++]==\"Some\"?"] ++ e ++ [.text ":null)"])
  | .list t => do
    let e ← unurlifyExp t
    pure ([.text "uul(function()\x7breturn t[i++];\x7d,function()\x7breturn "] ++ e ++
      [.text "\x7d)"])
  | .datatype n => do
    let n' ← decoder n
    pure [.decoder n']
  | .func _ _ | .signal _ | .transaction _ => pure [.text "ERROR"]
def unurlifyFields : List (String × Typ) → JsM Js
  | [] => pure []
  | (x, t) :: fields => do
    let e ← unurlifyExp t
    let rest ← unurlifyFields fields
    pure ([.text (",_" ++ x ++ ":")] ++ e ++ rest)
end

/-- The choice between a datatype's constructors, made from the last one on. -/
def decoderArms (dk : DatatypeKind) : List (String × Nat × Option Typ) → JsM Js
  | [] => pure [.text "pf(\"\")"]
  | (x, cn, none) :: cs => do
    let rest ← decoderArms dk cs
    let val := if dk = .option then "null" else toString cn
    pure (.text ("x==\"" ++ x ++ "\"?" ++ val ++ ":") :: rest)
  | (x, cn, some t) :: cs => do
    let rest ← decoderArms dk cs
    let e ← unurlifyExp env decoder t
    let val :=
      if dk = .option then if isNullable env t then [.text "\x7bv:"] ++ e ++ [.text "\x7d"] else e
      else [.text ("\x7bn:" ++ toString cn ++ ",v:")] ++ e ++ [.text "\x7d"]
    pure ([.text ("x==\"" ++ x ++ "\"?")] ++ val ++ [.text ":"] ++ rest)

end

def decoder : Nat → Nat → JsM Nat
  | 0, _ => Failing.fail
  | fuel + 1, n => do
    match (← Failing.get).decoders.lookup n with
    | some n' => pure n'
    | none =>
      let n' ← allocName
      Failing.modify fun st => { st with decoders := (n, n') :: st.decoders }
      let dt := env.cell n
      let result ← decoderArms env (decoder fuel) dt.kind dt.constrs
      pushScript (.decoder n' result)
      pure n'

def unurlify (t : Typ) : JsM Js := do
  let st ← Failing.get
  unurlifyExp env (decoder env (env.missing st.decoders + 1)) t

end

end UrWeb.Jscomp
