import UrWeb.Jscomp.Embedding

/-!
# Compiling client code

Expressions that run on the client are compiled to JavaScript text for the
runtime's interpreter; a function they call is compiled once, into the script.
The walk over a file replaces each JavaScript node by the server expression
for its text, or keeps the node if a captured variable cannot be embedded.
-/

namespace UrWeb.Jscomp

open Mono

def nullJs : Js := [.text "\x7bc:\"c\",v:null\x7d"]

/-- What stands for a construct that has no meaning on the client. -/
def errorJs : Js := [.text "\x7bc:\"c\",v:ERROR\x7d"]

/-- A constant that the server computes. -/
def constJs (q : Exp) : Js := [.text "\x7bc:\"c\",v:", .server q, .text "\x7d"]

/-- A value that is wrapped if it could be confused with `null`. -/
def someJs (env : Env) (t : Typ) (c : Js) : Js :=
  if isNullable env t then [.text "\x7bc:\"s\",v:"] ++ c ++ [.text "\x7d"] else c

/-- A call of a runtime function with one argument. -/
def call1 (f : String) (c : Js) : Js :=
  [.text ("\x7bc:\"f\",f:" ++ f ++ ",a:cons(")] ++ c ++ [.text ",null)\x7d"]

/-- A call with two arguments, its lists closed by `close`. -/
def call2 (f : String) (c1 c2 : Js) (close : String) : Js :=
  [.text ("\x7bc:\"f\",f:" ++ f ++ ",a:cons(")] ++ c1 ++ [.text ",cons("] ++ c2 ++ [.text close]

/-- A function that decodes the server's answer. -/
def decodeJs (unurl : Js) : Js :=
  [.text "\x7bc:\"c\",v:function(s)\x7bvar t=s.split(\"/\");var i=0;return "] ++ unurl ++
    [.text "\x7d\x7d"]

def unopName : String → String
  | "!" => "not"
  | "-" => "neg"
  | _ => "ERROR"

def binopName (bi : BinopIntness) : String → String
  | "==" => "eq"
  | "!strcmp" => "eq"
  | "+" => "plus"
  | "-" => "minus"
  | "*" => "times"
  | "/" => if bi = .int then "divInt" else "div"
  | "%" => if bi = .int then "modInt" else "mod"
  | "fdiv" => "div"
  | "fmod" => "mod"
  | "<" => "lt"
  | "<=" => "le"
  | "strcmp" => "strcmp"
  | "powl" => "pow"
  | "powf" => "pow"
  | _ => "ERROR"

/-- The variable and the fields of a chain of projections. -/
def fieldPath : Exp → List String → Option (Nat × List String)
  | .rel n, xs => some (n, xs)
  | .field e x, xs => fieldPath e (x :: xs)
  | _, _ => none

/-- The type at the end of a chain of projections. -/
def fieldTyp : Typ → List String → Option Typ
  | t, [] => some t
  | .record fields, x :: xs =>
    match fields.find? fun f => f.1 = x with
    | some (_, t) => fieldTyp t xs
    | none => none
  | _, _ :: _ => none

def fieldExp (e : Exp) (xs : List String) : Exp := xs.foldl .field e

/-- The type under which a variable outside the client code is captured. -/
def capturedTyp (outer : List Typ) (n : Nat) (xs : List String) : Option Typ :=
  match outer[n]? with
  | some t => fieldTyp t xs
  | none => none

section
variable (env : Env) (mode : JsMode)

def captured (outer : List Typ) (n : Nat) (xs : List String) : JsM Js :=
  match capturedTyp outer n xs with
  | some t => do
    let q ← quote env t (fieldExp (.rel n) xs)
    pure (constJs q)
  | none => Failing.fail

section
/- Makes sure that a named function is in the script. -/
variable (call : Nat → JsM Unit) (outer : List Typ)

mutual
/-- The code of an expression under `inner` client binders; `outer` are the types of the
server's binders around it. -/
def jsE : Nat → Exp → JsM Js
  | _, .prim p => pure [.text ("\x7bc:\"c\",v:" ++ jsPrim env mode p ++ "\x7d")]
  | inner, .rel n =>
    if n < inner then pure [.text ("\x7bc:\"v\",n:" ++ toString n ++ "\x7d")]
    else captured env outer (n - inner) []
  | _, .named n => do
    call n
    pure [.func n]
  | _, .con dk pc none =>
    if dk = .option then pure nullJs
    else pure [.text ("\x7bc:\"c\",v:" ++ patConJs pc ++ "\x7d")]
  | inner, .con dk pc (some e) => do
    let c ← jsE inner e
    match dk, pc with
    | .option, .var n =>
      match env.someTs.lookup n with
      | none => pure c
      | some t => pure (someJs env t c)
    | _, _ => pure ([.text ("\x7bc:\"1\",n:" ++ patConJs pc ++ ",v:")] ++ c ++ [.text "\x7d"])
  | _, .none _ => pure nullJs
  | inner, .some t e => do
    let c ← jsE inner e
    pure (someJs env t c)
  | _, .ffi m f =>
    match env.jsFunc m f with
    | some name => pure [.text ("\x7bc:\"c\",v:" ++ name ++ "\x7d")]
    | none => pure errorJs
  | inner, .ffiApp m f args =>
    if m = "Basis" ∧ f = "sigString" then
      pure [.text "\x7bc:\"c\",v:\"", .server (.ffiApp m f args), .text "\"\x7d"]
    else do
      let list ← jsArgs inner args
      let name := (env.jsFunc m f).getD "ERROR"
      pure ([.text ("\x7bc:\"f\",f:" ++ name ++ ",a:")] ++ list ++ [.text "\x7d"])
  | inner, .app e1 e2 => do
    let c1 ← jsE inner e1
    let c2 ← jsE inner e2
    pure ([.text "\x7bc:\"a\",f:"] ++ c1 ++ [.text ",x:"] ++ c2 ++ [.text "\x7d"])
  | inner, .abs _ _ _ e => do
    let c ← jsE (inner + 1) e
    pure ([.text "\x7bc:\"l\",b:"] ++ c ++ [.text "\x7d"])
  | inner, .unop s e => do
    let c ← jsE inner e
    pure (call1 (unopName s) c)
  | inner, .binop bi s e1 e2 => do
    let c1 ← jsE inner e1
    let c2 ← jsE inner e2
    pure (call2 (binopName bi s) c1 c2 ",null))\x7d")
  | _, .record [] => pure nullJs
  | inner, .record (xet :: xets) => do
    let list ← jsFields inner (xet :: xets)
    pure ([.text "\x7bc:\"r\",l:"] ++ list ++ [.text "\x7d"])
  | inner, .field e x =>
    match fieldPath e [x] with
    | some (n, xs) =>
      if n < inner then do
        let c ← jsE inner e
        pure ([.text "\x7bc:\".\",r:"] ++ c ++ [.text (",f:\"" ++ x ++ "\"\x7d")])
      else captured env outer (n - inner) xs
    | none => do
      let c ← jsE inner e
      pure ([.text "\x7bc:\".\",r:"] ++ c ++ [.text (",f:\"" ++ x ++ "\"\x7d")])
  | inner, .case disc arms _ => do
    let c ← jsE inner disc
    let list ← jsArms inner arms
    pure ([.text "\x7bc:\"m\",e:"] ++ c ++ [.text ",p:"] ++ list ++ [.text "\x7d"])
  | inner, .strcat e1 e2 => do
    let c1 ← jsE inner e1
    let c2 ← jsE inner e2
    pure (call2 "cat" c1 c2 ",null)\x7d")
  | inner, .error e _ => do
    let c ← jsE inner e
    pure (call1 "er" c)
  | inner, .seq e1 e2 => do
    let c1 ← jsE inner e1
    let c2 ← jsE inner e2
    pure ([.text "\x7bc:\";\",e1:"] ++ c1 ++ [.text ",e2:"] ++ c2 ++ [.text "\x7d"])
  | inner, .letIn _ _ e1 e2 => do
    let c1 ← jsE inner e1
    let c2 ← jsE (inner + 1) e2
    pure ([.text "\x7bc:\"=\",e1:"] ++ c1 ++ [.text ",e2:"] ++ c2 ++ [.text "\x7d"])
  | inner, .javaScript (.source _) e => do
    Failing.modify fun st => { st with foundJavascript := true }
    jsE inner e
  | inner, .javaScript .attribute e | inner, .javaScript .script e => do
    Failing.modify fun st => { st with foundJavascript := true }
    let c ← jsE inner e
    pure ([.text "\x7bc:\"e\",e:"] ++ c ++ [.text "\x7d"])
  | _, .write _ | _, .closure _ _ | _, .query _ _ _ _ | _, .dml _ _ | _, .nextval _
  | _, .setval _ _ | _, .returnBlob _ _ _ | _, .uurlify _ _ true => pure errorJs
  | inner, .redirect e _ => do
    let c ← jsE inner e
    pure (call1 "redirect" c)
  | inner, .uurlify e t false => do
    let c ← jsE inner e
    let unurl ← unurlify env t
    pure (call2 "unurlify" (decodeJs unurl) c ",null)\x7d")
  | inner, .signalReturn e => do
    let c ← jsE inner e
    pure (call1 "sr" c)
  | inner, .signalBind e1 e2 => do
    let c1 ← jsE inner e1
    let c2 ← jsE inner e2
    pure (call2 "sb" c1 c2 ",null)\x7d")
  | inner, .signalSource e => do
    let c ← jsE inner e
    pure (call1 "ss" c)
  | inner, .serverCall e t eff fm => do
    let c ← jsE inner e
    let unurl ← unurlify env t
    let lastArg := match fm with
      | .none => "null"
      | .error => "cons(\x7bc:\"c\",v:" ++ (if isNullable env t then "true" else "false") ++
          "\x7d,null)"
    let effectBool := if eff = .readCookieWrite then "true" else "false"
    pure (call2 "rc" [.text ("\x7bc:\"c\",v:\"" ++ env.urlPrefix ++ "\"\x7d")] c ",cons(" ++
      decodeJs unurl ++ [.text (",cons(\x7bc:\"K\"\x7d,cons(\x7bc:\"c\",v:" ++ effectBool ++
        "\x7d," ++ lastArg ++ ")))))\x7d")])
  | inner, .recv e t => do
    let c ← jsE inner e
    let unurl ← unurlify env t
    pure (call2 "rv" c (decodeJs unurl) ",cons(\x7bc:\"K\"\x7d,null)))\x7d")
  | inner, .sleep e => do
    let c ← jsE inner e
    pure ([.text "\x7bc:\"f\",f:sl,a:cons("] ++ c ++ [.text ",cons(\x7bc:\"K\"\x7d,null))\x7d"])
  | inner, .spawn e => do
    let c ← jsE inner e
    pure (call1 "sp" c)
/-- The arguments are compiled from the last one on. -/
def jsArgs (inner : Nat) : List (Exp × Typ) → JsM Js
  | [] => pure [.text "null"]
  | (e, _) :: args => do
    let acc ← jsArgs inner args
    let c ← jsE inner e
    pure ([.text "cons("] ++ c ++ [.text ","] ++ acc ++ [.text ")"])
def jsFields (inner : Nat) : List (String × Exp × Typ) → JsM Js
  | [] => pure [.text "null"]
  | (x, e, _) :: xets => do
    let acc ← jsFields inner xets
    let c ← jsE inner e
    pure ([.text ("cons(\x7bn:\"" ++ x ++ "\",v:")] ++ c ++ [.text "\x7d,"] ++ acc ++ [.text ")"])
def jsArms (inner : Nat) : List (Pat × Exp) → JsM Js
  | [] => pure [.text "null"]
  | (p, e) :: arms => do
    let acc ← jsArms inner arms
    let c ← jsE (inner + patBindsN p) e
    pure ([.text ("cons(\x7bp:" ++ jsPat env p ++ ",b:")] ++ c ++ [.text "\x7d,"] ++ acc ++
      [.text ")"])
end

end

/-- How many named functions are not in the script. -/
def Env.notIncluded (included : List Nat) : Nat :=
  env.nameds.countP fun named => named.1 ∉ included

/-- A function is marked as included before it is compiled, to break cycles. -/
def includeNamed : Nat → Nat → JsM Unit
  | 0, _ => Failing.fail
  | fuel + 1, n => do
    if n ∈ (← Failing.get).included then pure ()
    else
      Failing.modify fun st => { st with included := n :: st.included }
      match env.nameds.lookup n with
      | none => pure ()
      | some e =>
        let js ← jsE env mode (includeNamed fuel) [] 0 e
        pushScript (.urfunc n (deStrcat js))

def jsExp (outer : List Typ) (e : Exp) : JsM Js := do
  let st ← Failing.get
  jsE env mode (includeNamed env mode (env.notIncluded st.included + 1)) outer 0 e

/-- The server expression for the code of `e`, if it can be embedded. -/
def embed (outer : List Typ) (e : Exp) : JsM (Option Exp) :=
  Failing.attempt do
    let js ← jsExp env mode outer e
    Failing.modify fun st => { st with emitted := js :: st.emitted }
    pure js.toExp

end

-- ---------------------------------------------------------------------------
-- The walk
-- ---------------------------------------------------------------------------

/-- Whether a string starts a script of its own. -/
def hasScript (s : String) : Bool := "<script".toList <:+: s.toList

def markJavascript : JsM Unit :=
  Failing.modify fun st => { st with foundJavascript := true }

/-- The type of a query's rows: columns and tables in the order of their names. -/
def rowTyp (qm : QueryTypes) : Typ :=
  .record ((qm.exps ++ qm.tables.map fun xt => (xt.1, Typ.record xt.2)).mergeSort
    fun a b => a.1 ≤ b.1)

section
variable (env : Env)

mutual
def expWalk (outer : List Typ) : Exp → JsM Exp
  | .prim (.string mode s) => do
    if hasScript s then markJavascript
    pure (.prim (.string mode s))
  | .prim p => pure (.prim p)
  | .rel n => pure (.rel n)
  | .named n => pure (.named n)
  | .ffi m f => pure (.ffi m f)
  | .none t => pure (.none t)
  | .con dk pc none => pure (.con dk pc none)
  | .con dk pc (some e) => do
    let e ← expWalk outer e
    pure (.con dk pc (some e))
  | .some t e => do
    let e ← expWalk outer e
    pure (.some t e)
  | .ffiApp m f args => do
    let args ← argsWalk outer args
    pure (.ffiApp m f args)
  | .app e1 e2 => do
    let e1 ← expWalk outer e1
    let e2 ← expWalk outer e2
    pure (.app e1 e2)
  | .abs x dom ran e => do
    let e ← expWalk (dom :: outer) e
    pure (.abs x dom ran e)
  | .unop s e => do
    let e ← expWalk outer e
    pure (.unop s e)
  | .binop bi s e1 e2 => do
    let e1 ← expWalk outer e1
    let e2 ← expWalk outer e2
    pure (.binop bi s e1 e2)
  | .record xets => do
    let xets ← fieldsWalk outer xets
    pure (.record xets)
  | .field e x => do
    let e ← expWalk outer e
    pure (.field e x)
  | .case disc arms info => do
    let disc ← expWalk outer disc
    let arms ← armsWalk outer arms
    pure (.case disc arms info)
  | .strcat e1 e2 => do
    let e1 ← expWalk outer e1
    let e2 ← expWalk outer e2
    pure (.strcat e1 e2)
  | .error e t => do
    let e ← expWalk outer e
    pure (.error e t)
  | .returnBlob none mimeType t => do
    let mimeType ← expWalk outer mimeType
    pure (.returnBlob none mimeType t)
  | .returnBlob (some blob) mimeType t => do
    let blob ← expWalk outer blob
    let mimeType ← expWalk outer mimeType
    pure (.returnBlob (some blob) mimeType t)
  | .redirect e t => do
    let e ← expWalk outer e
    pure (.redirect e t)
  | .write e => do
    let e ← expWalk outer e
    pure (.write e)
  | .seq e1 e2 => do
    let e1 ← expWalk outer e1
    let e2 ← expWalk outer e2
    pure (.seq e1 e2)
  | .letIn x t e1 e2 => do
    let e1 ← expWalk outer e1
    let e2 ← expWalk (t :: outer) e2
    pure (.letIn x t e1 e2)
  | .closure n envs => do
    let envs ← listWalk outer envs
    pure (.closure n envs)
  | .query qm query body initial => do
    let query ← expWalk outer query
    let body ← expWalk (qm.state :: rowTyp qm :: outer) body
    let initial ← expWalk outer initial
    pure (.query qm query body initial)
  | .dml e fm => do
    let e ← expWalk outer e
    pure (.dml e fm)
  | .nextval e => do
    let e ← expWalk outer e
    pure (.nextval e)
  | .setval e1 e2 => do
    let e1 ← expWalk outer e1
    let e2 ← expWalk outer e2
    pure (.setval e1 e2)
  | .uurlify e t b => do
    let e ← expWalk outer e
    pure (.uurlify e t b)
  -- A source is initialised with a value that the server computes first, if it can be.
  | .javaScript (.source t) e => do
    markJavascript
    match ← embed env .source (t :: outer) (.rel 0) with
    | some x => pure (.letIn "x" t e x)
    | none =>
      match ← embed env .source outer e with
      | some r => pure r
      | none => pure (.javaScript (.source t) e)
  | .javaScript .attribute e => do
    markJavascript
    match ← embed env .attribute outer e with
    | some r => pure r
    | none => pure (.javaScript .attribute e)
  | .javaScript .script e => do
    markJavascript
    match ← embed env .script outer e with
    | some r => pure r
    | none => pure (.javaScript .script e)
  | .signalReturn e => do
    let e ← expWalk outer e
    pure (.signalReturn e)
  | .signalBind e1 e2 => do
    let e1 ← expWalk outer e1
    let e2 ← expWalk outer e2
    pure (.signalBind e1 e2)
  | .signalSource e => do
    let e ← expWalk outer e
    pure (.signalSource e)
  | .serverCall e t eff fm => do
    let e ← expWalk outer e
    pure (.serverCall e t eff fm)
  | .recv e t => do
    let e ← expWalk outer e
    pure (.recv e t)
  | .sleep e => do
    let e ← expWalk outer e
    pure (.sleep e)
  | .spawn e => do
    let e ← expWalk outer e
    pure (.spawn e)
def argsWalk (outer : List Typ) : List (Exp × Typ) → JsM (List (Exp × Typ))
  | [] => pure []
  | (e, t) :: args => do
    let e ← expWalk outer e
    let args ← argsWalk outer args
    pure ((e, t) :: args)
def fieldsWalk (outer : List Typ) :
    List (String × Exp × Typ) → JsM (List (String × Exp × Typ))
  | [] => pure []
  | (x, e, t) :: xets => do
    let e ← expWalk outer e
    let xets ← fieldsWalk outer xets
    pure ((x, e, t) :: xets)
def armsWalk (outer : List Typ) : List (Pat × Exp) → JsM (List (Pat × Exp))
  | [] => pure []
  | (p, e) :: arms => do
    let e ← expWalk (patBindsOuter p outer) e
    let arms ← armsWalk outer arms
    pure ((p, e) :: arms)
def listWalk (outer : List Typ) : List Exp → JsM (List Exp)
  | [] => pure []
  | e :: es => do
    let e ← expWalk outer e
    let es ← listWalk outer es
    pure (e :: es)
end

def valWalk (vi : ValBinding) : JsM ValBinding := do
  let e ← expWalk env [] vi.e
  pure { vi with e := e }

def visWalk : List ValBinding → JsM (List ValBinding)
  | [] => pure []
  | vi :: vis => do
    let vi ← valWalk env vi
    let vis ← visWalk vis
    pure (vi :: vis)

def declWalk : Decl → JsM Decl
  | .val vi => do
    let vi ← valWalk env vi
    pure (.val vi)
  | .valRec vis => do
    let vis ← visWalk env vis
    pure (.valRec vis)
  | d => pure d

/-- The declarations with the helpers of each one before it. -/
def declsWalk : List Decl → JsM (List Decl)
  | [] => pure []
  | d :: ds => do
    let d ← declWalk env d
    let helpers := (← Failing.get).decls
    Failing.modify fun st => { st with decls := [] }
    let ds ← declsWalk ds
    pure (if helpers.isEmpty then d :: ds else .valRec helpers :: d :: ds)

end

-- ---------------------------------------------------------------------------
-- The file
-- ---------------------------------------------------------------------------

mutual
def maxNameExp : Exp → Nat
  | .named n => n
  | .app e1 e2 | .letIn _ _ e1 e2 | .strcat e1 e2 | .seq e1 e2 => max (maxNameExp e1) (maxNameExp e2)
  | .abs _ _ _ e | .field e _ | .con _ _ (some e) | .some _ e | .write e | .error e _ =>
    maxNameExp e
  | .ffiApp _ _ args => maxNameArgs args
  | .record xets => maxNameFields xets
  | .case disc arms _ => max (maxNameExp disc) (maxNameArms arms)
  | .closure n envs => max n (maxNameList envs)
  | _ => 0
def maxNameArgs : List (Exp × Typ) → Nat
  | [] => 0
  | (e, _) :: args => max (maxNameExp e) (maxNameArgs args)
def maxNameFields : List (String × Exp × Typ) → Nat
  | [] => 0
  | (_, e, _) :: xets => max (maxNameExp e) (maxNameFields xets)
def maxNameArms : List (Pat × Exp) → Nat
  | [] => 0
  | (_, e) :: arms => max (maxNameExp e) (maxNameArms arms)
def maxNameList : List Exp → Nat
  | [] => 0
  | e :: es => max (maxNameExp e) (maxNameList es)
end

def maxNameDecl : Decl → Nat
  | .val vi => max vi.n (maxNameExp vi.e)
  | .valRec vis => vis.foldr (fun vi mx => max (max vi.n (maxNameExp vi.e)) mx) 0
  | _ => 0

def maxNameInFile (decls : List Decl) : Nat := decls.foldr (fun d mx => max (maxNameDecl d) mx) 0

mutual
def typMentionsDatatypeId (n : Nat) : Typ → Bool
  | .func a b => typMentionsDatatypeId n a || typMentionsDatatypeId n b
  | .record fields => fieldsMentionDatatypeId n fields
  | .datatype m => m == n
  | .ffi _ _ | .source => false
  | .option t | .list t | .signal t | .transaction t => typMentionsDatatypeId n t
def fieldsMentionDatatypeId (n : Nat) : List (String × Typ) → Bool
  | [] => false
  | (_, t) :: fields => typMentionsDatatypeId n t || fieldsMentionDatatypeId n fields
end

def classifyDatatype (n : Nat) (constrs : List (String × Nat × Option Typ)) : DatatypeKind :=
  let unary := constrs.filterMap fun xnt => xnt.2.2
  let nullary := constrs.length - unary.length
  if unary.isEmpty then .enum
  else if nullary = 1 ∧ unary.length = 1 ∧ !unary.any (typMentionsDatatypeId n) then .option
  else .default

/-- The bodies of the named functions; a later one replaces an earlier one. -/
def namedsOf (decls : List Decl) : List (Nat × Exp) :=
  decls.foldl (fun nameds d =>
    match d with
    | .val vi => (vi.n, vi.e) :: nameds
    | .valRec vis => vis.foldl (fun nameds vi => (vi.n, vi.e) :: nameds) nameds
    | _ => nameds) []

def someTsOf (decls : List Decl) : List (Nat × Typ) :=
  decls.foldl (fun someTs d =>
    match d with
    | .datatype dts => dts.foldl (fun someTs dt =>
        if classifyDatatype dt.id dt.constrs = .option then
          dt.constrs.foldl (fun someTs xnt =>
            match xnt.2.2 with
            | some t => (xnt.2.1, t) :: someTs
            | none => someTs) someTs
        else someTs) someTs
    | _ => someTs) []

/-- The configuration of the pass and of the script that it writes. -/
structure Config where
  jsFunc : String → String → Option String
  urlPrefix : String
  floatToString : UInt64 → String
  /-- The datatype cells that the file's types share. -/
  cells : List (Nat × DatatypeDef)
  libJs : String
  /-- Allow, prefix and pattern of each rule. -/
  urlRules : List (Bool × Bool × String)
  timeFormat : String

def Config.env (config : Config) (decls : List Decl) : Env where
  jsFunc := config.jsFunc
  urlPrefix := config.urlPrefix
  floatToString := config.floatToString
  cells := config.cells
  nameds := namedsOf decls
  someTs := someTsOf decls

def Piece.render : Piece → String
  | .text s => s
  | .func n => funcText n
  | .decoder n => decoderText n
  | .server e => deStrcatExp 0 e

def Js.render (js : Js) : String := String.join (js.map Piece.render)

/-- Four rounds of escapes, one after the other. -/
def urfuncText (s : String) : String :=
  let quotes (cs : List Char) := cs.flatMap fun ch => if ch = '\x27' then ['\x5c', '\x27'] else [ch]
  let slashes (cs : List Char) := cs.flatMap fun ch => if ch = '\x5c' then ['\x5c', '\x5c'] else [ch]
  let both (cs : List Char) := cs.flatMap fun ch =>
    if ch = '\x27' then ['\x5c', '\x27'] else if ch = '\x5c' then ['\x5c', '\x5c'] else [ch]
  String.ofList (both (quotes (slashes (quotes s.toList))))

def Fragment.render : Fragment → String
  | .decoder n result =>
    "function _n" ++ toString n ++ "(t,i)\x7bvar x=t[i++];var r=" ++ result.render ++
      ";return \x7b_1:i,_2:r\x7d\x7d\n\n"
  | .urfunc n code =>
    "urfuncs[" ++ toString n ++ "] = \x7bc:\"t\",f:'" ++ urfuncText code.render ++ "'\x7d;\n"

def urlRulesJs : List (Bool × Bool × String) → String
  | [] => "null"
  | (allow, pre, pattern) :: rules =>
    "cons(\x7ballow:" ++ toString allow ++ ",prefix:" ++ toString pre ++ ",pattern:\"" ++ pattern ++
      "\"\x7d," ++ urlRulesJs rules ++ ")"

def mainScript (config : Config) (script : List Fragment) : String :=
  config.libJs ++ "urlRules = " ++ urlRulesJs config.urlRules ++ ";\n\n" ++
    String.join (script.reverse.map Fragment.render) ++ "\ntime_format = \"" ++
    jsifyString config.timeFormat ++ "\";\n"

def preJs (decls : List Decl) : List String :=
  decls.filterMap fun
    | .javaScript s => if s = "" then none else some s
    | _ => none

/-- The JavaScript of the whole file, if there is any. -/
def fileScript (config : Config) (decls : List Decl) (st : State) : Option String :=
  let script := if st.foundJavascript then some (mainScript config st.script) else none
  match script, preJs decls with
  | none, [] => none
  | none, pre => some ("\n".intercalate pre)
  | some s, [] => some s
  | some s, pre => some (s ++ "\n" ++ "\n".intercalate pre)

/-- The file with its helpers and its script, the script, and the state at the end. -/
structure Result where
  file : Mono.File
  script : Option String
  state : State

def process (config : Config) (file : Mono.File) : Option Result :=
  match declsWalk (config.env file.1) file.1 (State.new (maxNameInFile file.1 + 1)) with
  | (some decls, st) =>
    let script := fileScript config file.1 st
    some ⟨(.javaScript (script.getD "") :: decls, file.2), script, st⟩
  | (none, _) => none

end UrWeb.Jscomp
