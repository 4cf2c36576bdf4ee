import Mathlib.Algebra.Group.Int.Defs
import Mathlib.Algebra.Group.Nat.Defs
import UrWeb.Lib.Utf8

/-!
# The XML-aware lexer

The lexer of `.ur` files works on the bytes of the source in three modes. A scan of
one token is a function of the lexer's state; the caps on inner loops that a loop
over the remaining bytes cannot reach are left out, the cap on the strides of one
call is kept. The queue of pending tokens is never filled and left out, the nesting
count is an integer, and 64-bit floats with their parser are a parameter.
-/

namespace UrWeb.Parse

/-- The 64-bit floats, as far as the lexer uses them. -/
class F64 (F : Type) where
  parse : List Char → Option F
  zero : F

structure LexError where
  message : String
  deriving DecidableEq

/-- The tokens that the XML-aware lexer can produce. -/
inductive Token (F : Type) where
  | int (v : Int)
  | float (v : F)
  | string (s : List Char)
  | char (c : Char)
  | unit
  | minusminusminus | dcolonwild | underunderunder
  | sgnAbs | sgnDefCon | caseBar | armSep | caseEnd | dtypeOf | dtCon0 | dtBar | dtDone
  | dkarrow | dotdotdot | ne | larrow | arrow | darrow | karrow | plusplus | minusminus
  | dcolon | tcolonwild | underunder | fwdapp | revapp | le | ge
  | lparen | rparen | lbrack | rbrack | lbrace | rbrace | caret | eq | lt | gt | comma
  | colon | dot | dollar | hash | under | twiddle | bar | star | semi | bang | plus | minus
  | divide | mod | atSign
  | atTypesOnlyPath (path : List Char)
  | atDontInferPath (path : List Char)
  | kwAnd | kwAndalso | kwCase | kwClass | kwCon | kwConstraint | kwConstraints | kwCookie
  | kwDatatype | kwElse | kwEnd | kwExport | kwFalse | kwFfi | kwFn | kwFun | kwFunctor | kwIf
  | kwIn | kwInclude | kwLet | kwMap | kwOf | kwOpen | kwOrelse | kwPolicy | kwRec | kwSequence
  | kwSig | kwSignature | kwStruct | kwStructure | kwStyle | kwTable | kwTask | kwThen | kwTrue
  | kwType | kwVal | kwView | urwebPut | urwebGet | urwebTbTransfer | kwWhere | sgnSubwhere
  | kwName | kindType | kindUnit
  | upperIdent (x : List Char)
  | ident (x : List Char)
  | backtickPath (path : List Char)
  | beginTag (name : List Char)
  | endTag (name : List Char)
  | xmlBeginEnd
  | notags (text : List Char)
  | asUpper | cwhere | count | currentTimestamp | delete | fromUpper | insert | into | is | join
  | left | null | on | set | sql | sqlStar | select | orUpper | andUpper | update | values
  | xmlAttrNameEq (name : List Char)
  | xmlAttrNameBare (name : List Char)
  | wildAnnot

/-- A token between its first byte and the byte after its last, or an error. -/
abbrev LexResult (F : Type) := Except LexError (Nat × Token F × Nat)

inductive LexMode
  | regular
  | xml
  | xmlTag
  deriving DecidableEq

/-- `braceStack` has its top first. -/
structure XmlAwareLexer where
  src : List UInt8
  pos : Nat
  allowXmlMarkup : Bool
  mode : LexMode
  braceStack : List (LexMode × Nat)
  stringReturn : Option LexMode
  xmlNesting : Int
  pendingXmlOpen : Bool
  deriving DecidableEq

def XmlAwareLexer.withXmlMarkupPolicy (src : List UInt8) (allowXmlMarkup : Bool) :
    XmlAwareLexer :=
  { src, pos := 0, allowXmlMarkup, mode := .regular, braceStack := [], stringReturn := none
    xmlNesting := 0, pendingXmlOpen := false }

-- ---------------------------------------------------------------------------
-- Bytes
-- ---------------------------------------------------------------------------

def isBlank (b : UInt8) : Bool :=
  b == ' '.toUInt8 || b == '\t'.toUInt8 || b == '\r'.toUInt8 || b == '\n'.toUInt8

def isAsciiAlphabetic (b : UInt8) : Bool := (Char.ofUInt8 b).isAlpha

def isAsciiDigit (b : UInt8) : Bool := (Char.ofUInt8 b).isDigit

def isXmlIdByte (b : UInt8) : Bool :=
  (Char.ofUInt8 b).isAlphanum || b == '_'.toUInt8 || b == '-'.toUInt8

def isIdentByte (b : UInt8) : Bool :=
  (Char.ofUInt8 b).isAlphanum || b == '_'.toUInt8 || b == '\x27'.toUInt8

/-- `text` is read from bytes, with a default where they are not UTF-8. -/
def textOr (other : List Char) (bs : List UInt8) : List Char := (Utf8.decode bs).getD other

def XmlAwareLexer.rest (s : XmlAwareLexer) : List UInt8 := s.src.drop s.pos

def XmlAwareLexer.at (s : XmlAwareLexer) (offset : Nat) : Option UInt8 := s.rest[offset]?

def XmlAwareLexer.advance (s : XmlAwareLexer) (n : Nat) : XmlAwareLexer :=
  { s with pos := s.pos + n }

@[simp] theorem XmlAwareLexer.advance_src (s : XmlAwareLexer) (n : Nat) :
    (s.advance n).src = s.src := rfl

@[simp] theorem XmlAwareLexer.advance_pos (s : XmlAwareLexer) (n : Nat) :
    (s.advance n).pos = s.pos + n := rfl

-- ---------------------------------------------------------------------------
-- Scans that only measure
-- ---------------------------------------------------------------------------

/-- The bytes up to the end of `depth` open comments. -/
def skipMlComment : Nat → List UInt8 → Nat
  | _, [] => 0
  | _, [_] => 1
  | depth, a :: b :: bs =>
    if a = '('.toUInt8 ∧ b = '*'.toUInt8 then 2 + skipMlComment (depth + 1) bs
    else if a = '*'.toUInt8 ∧ b = ')'.toUInt8 then
      if depth = 1 then 2 else 2 + skipMlComment (depth - 1) bs
    else 1 + skipMlComment depth (b :: bs)

def skipXmlComment : List UInt8 → Nat
  | a :: b :: c :: bs =>
    if a = '-'.toUInt8 ∧ b = '-'.toUInt8 ∧ c = '>'.toUInt8 then 3
    else 1 + skipXmlComment (b :: c :: bs)
  | bs => bs.length

def scanXmlId : List UInt8 → Nat
  | [] => 0
  | b :: bs => if isAsciiAlphabetic b then 1 + (bs.takeWhile isXmlIdByte).length else 0

def scanIdentRun (bs : List UInt8) : Nat := (bs.takeWhile isIdentByte).length

def scanDigits (bs : List UInt8) : Nat := (bs.takeWhile isAsciiDigit).length

-- ---------------------------------------------------------------------------
-- Literals
-- ---------------------------------------------------------------------------

/-- What a byte after a backslash stands for. -/
def stringEscape (esc : UInt8) : List Char :=
  if esc = 'n'.toUInt8 then ['\n']
  else if esc = 't'.toUInt8 then ['\t']
  else if esc = 'r'.toUInt8 then ['\r']
  else if esc = '\x5c'.toUInt8 then ['\x5c']
  else if esc = '\x22'.toUInt8 then ['\x22']
  else if esc = '\x27'.toUInt8 then ['\x27']
  else if esc = 'a'.toUInt8 then ['\x07']
  else if esc = 'b'.toUInt8 then ['\x08']
  else if esc = 'f'.toUInt8 then ['\x0c']
  else if esc = 'v'.toUInt8 then ['\x0b']
  else if esc = '0'.toUInt8 then ['\x00']
  else ['\x5c', Char.ofUInt8 esc]

/-- The text before the closing quote, and the bytes read. -/
def stringBody (quote : UInt8) : List UInt8 → Except LexError (List Char) × Nat
  | [] => (.error ⟨"Unterminated string literal"⟩, 0)
  | b :: bs =>
    if b = '\x5c'.toUInt8 then
      match bs with
      | [] => (.error ⟨"Unterminated escape in string"⟩, 1)
      | esc :: bs =>
        ((stringBody quote bs).1.map (stringEscape esc ++ ·), (stringBody quote bs).2 + 2)
    else if b = quote then (.ok [], 1)
    else ((stringBody quote bs).1.map (Char.ofUInt8 b :: ·), (stringBody quote bs).2 + 1)

/-- A decimal numeral with an optional sign, in the range of 64 bits. -/
def parseI64 (t : List Char) : Option Int :=
  let digits := match t with
    | '-' :: ds => ds
    | '+' :: ds => ds
    | ds => ds
  if digits ≠ [] ∧ digits.all Char.isDigit then
    let n : Int := Nat.ofDigitChars 10 digits 0
    let v := if t.head? = some '-' then -n else n
    if -2 ^ 63 ≤ v ∧ v < 2 ^ 63 then some v else none
  else none

variable {F : Type}

def XmlAwareLexer.scanRegularString (s : XmlAwareLexer) (quote : UInt8) (start : Nat) :
    LexResult F × XmlAwareLexer :=
  let s' := s.advance (stringBody quote s.rest).2
  match (stringBody quote s.rest).1 with
  | .error e => (.error e, s')
  | .ok t =>
    -- Inside a tag the string gives its mode back.
    (.ok (start, .string t, s'.pos),
      { s' with mode := s.stringReturn.getD s.mode, stringReturn := none })

def XmlAwareLexer.scanChar (s : XmlAwareLexer) (start : Nat) : LexResult F × XmlAwareLexer :=
  match s.at 0 with
  | none => (.error ⟨"Unterminated char literal"⟩, s)
  | some ch =>
    let s' := if s.at 1 = some '\x22'.toUInt8 then s.advance 2 else s.advance 1
    (.ok (start, .char (Char.ofUInt8 ch), s'.pos), s')

def signLength (bs : List UInt8) : Nat := if bs.head? = some '-'.toUInt8 then 1 else 0

/-- The bytes of a sign and the digits after it. -/
def intLength (bs : List UInt8) : Nat := signLength bs + scanDigits (bs.drop (signLength bs))

def XmlAwareLexer.scanNumber [F64 F] (s : XmlAwareLexer) (start : Nat) :
    LexResult F × XmlAwareLexer :=
  let int := intLength s.rest
  if s.at int = some '.'.toUInt8 ∧ (s.at (int + 1)).any isAsciiDigit then
    let n := int + 1 + scanDigits (s.rest.drop (int + 1))
    let v := (F64.parse (textOr ['0'] (s.rest.take n))).getD (F64.zero : F)
    (.ok (start, .float v, s.pos + n), s.advance n)
  else
    let v := (parseI64 (textOr ['0'] (s.rest.take int))).getD 0
    (.ok (start, .int v, s.pos + int), s.advance int)

-- ---------------------------------------------------------------------------
-- Identifiers
-- ---------------------------------------------------------------------------

def keywords : List (String × Token F) := [
  ("and", .kwAnd), ("andalso", .kwAndalso), ("case", .kwCase), ("class", .kwClass),
  ("con", .kwCon), ("constraint", .kwConstraint), ("constraints", .kwConstraints),
  ("cookie", .kwCookie), ("datatype", .kwDatatype), ("else", .kwElse), ("end", .kwEnd),
  ("export", .kwExport), ("false", .kwFalse), ("ffi", .kwFfi), ("fn", .kwFn), ("fun", .kwFun),
  ("functor", .kwFunctor), ("if", .kwIf), ("in", .kwIn), ("include", .kwInclude),
  ("let", .kwLet), ("map", .kwMap), ("of", .kwOf), ("open", .kwOpen), ("orelse", .kwOrelse),
  ("policy", .kwPolicy), ("rec", .kwRec), ("sequence", .kwSequence), ("sig", .kwSig),
  ("signature", .kwSignature), ("struct", .kwStruct), ("structure", .kwStructure),
  ("style", .kwStyle), ("table", .kwTable), ("task", .kwTask), ("then", .kwThen),
  ("true", .kwTrue), ("type", .kwType), ("val", .kwVal), ("view", .kwView),
  ("urweb_put", .urwebPut), ("urweb_get", .urwebGet), ("urweb_tb_transfer", .urwebTbTransfer),
  ("sgn_abs", .sgnAbs), ("sgn_def_con", .sgnDefCon), ("case_bar", .caseBar),
  ("arm_sep", .armSep), ("case_end", .caseEnd), ("dtype_of", .dtypeOf), ("dt_con0", .dtCon0),
  ("dt_bar", .dtBar), ("dt_done", .dtDone), ("sgn_where", .kwWhere),
  ("sgn_subwhere", .sgnSubwhere), ("AND", .andUpper), ("AS", .asUpper), ("COUNT", .count),
  ("CURRENT_TIMESTAMP", .currentTimestamp), ("DELETE", .delete), ("FROM", .fromUpper),
  ("INSERT", .insert), ("INTO", .into), ("IS", .is), ("JOIN", .join), ("LEFT", .left),
  ("NULL", .null), ("ON", .on), ("OR", .orUpper), ("SET", .set), ("SELECT", .select),
  ("SQL", .sql), ("sql_star", .sqlStar), ("UPDATE", .update), ("VALUES", .values),
  ("WHERE", .cwhere), ("Name", .kwName), ("Type", .kindType), ("Unit", .kindUnit)]

def wordToken (word : List Char) : Token F :=
  match keywords.find? (fun e => e.1.toList == word) with
  | some e => e.2
  | none => if word.head?.any Char.isUpper then .upperIdent word else .ident word

def XmlAwareLexer.scanIdent (s : XmlAwareLexer) (start : Nat) : LexResult F × XmlAwareLexer :=
  let n := scanIdentRun s.rest
  let word := textOr ['_'] (s.rest.take n)
  if word = ['_'] then
    let peek := n + ((s.rest.drop n).takeWhile isBlank).length
    -- `_ ::`, but not `_ :::`.
    if s.at peek = some ':'.toUInt8 ∧ s.at (peek + 1) = some ':'.toUInt8 ∧
        s.at (peek + 2) ≠ some ':'.toUInt8 then
      (.ok (start, .wildAnnot, s.pos + (peek + 2)), s.advance (peek + 2))
    else (.ok (start, .under, s.pos + n), s.advance n)
  else (.ok (start, wordToken word, s.pos + n), s.advance n)

/-- The words that do not fuse with an `@` before them. -/
def wordsRejectingAt : List String := [
  "and", "andalso", "case", "class", "con", "constraint", "constraints", "cookie", "datatype",
  "else", "end", "export", "false", "ffi", "fn", "fun", "functor", "if", "in", "include", "let",
  "map", "of", "open", "orelse", "policy", "rec", "sequence", "sig", "signature", "struct",
  "structure", "style", "table", "task", "then", "true", "type", "val", "view", "urweb_put",
  "urweb_get", "urweb_tb_transfer", "sgn_abs", "sgn_def_con", "case_bar", "arm_sep", "case_end",
  "dtype_of", "dt_con0", "dt_bar", "dt_done", "sgn_where", "sgn_subwhere", "Name", "Type",
  "Unit"]

def wordRejectsAtPathCompound (word : List Char) : Bool :=
  wordsRejectingAt.any (fun w => w.toList == word)

def isIdentStart (b : UInt8) : Bool := isAsciiAlphabetic b || b == '_'.toUInt8

/-- The segments `.x` of a path and the bytes they take; the fuel is the loop's budget. -/
def dottedPath : Nat → List UInt8 → List Char × Nat
  | 0, _ => ([], 0)
  | fuel + 1, bs =>
    if bs.head? = some '.'.toUInt8 ∧ (bs.tail.head?).any isIdentStart then
      let n := scanIdentRun bs.tail
      let more := dottedPath fuel (bs.drop (1 + n))
      ('.' :: (textOr [] (bs.tail.take n) ++ more.1), 1 + n + more.2)
    else ([], 0)

/-- `@`, or `@@` for a path without inference. -/
def atLength (bs : List UInt8) : Nat := if bs[1]? = some '@'.toUInt8 then 2 else 1

/-- A path fused with the `@` or `@@` before it. -/
def XmlAwareLexer.scanAtInferencePath (s : XmlAwareLexer) (start : Nat) :
    Option (LexResult F × XmlAwareLexer) :=
  let index := atLength s.rest
  if (s.at index).any isIdentStart then
    let n := scanIdentRun (s.rest.drop index)
    let first := textOr [] ((s.rest.drop index).take n)
    if wordRejectsAtPathCompound first then none
    else
      let after := s.rest.drop (index + n)
      let dotted := dottedPath (after.length + 1) after
      let len := index + n + dotted.2
      let token : Token F := if index = 2 then .atDontInferPath (first ++ dotted.1)
        else .atTypesOnlyPath (first ++ dotted.1)
      some (.ok (start, token, s.pos + len), s.advance len)
  else none

-- ---------------------------------------------------------------------------
-- Code
-- ---------------------------------------------------------------------------

/-- The operators of more than one character, in the order they are tried. -/
def operators : List (String × Token F) := [
  ("::::", .dcolonwild), ("___", .underunderunder), ("==>", .dkarrow), ("...", .dotdotdot),
  ("---", .minusminusminus), ("-->", .karrow), (":::", .tcolonwild), ("<>", .ne),
  ("<-", .larrow), ("->", .arrow), ("=>", .darrow), ("++", .plusplus), ("--", .minusminus),
  ("::", .dcolon), ("__", .underunder), ("|>", .fwdapp), ("<|", .revapp), ("<=", .le),
  (">=", .ge)]

def bytes (t : String) : List UInt8 := t.toList.map Char.toUInt8

def XmlAwareLexer.tryMultiCharOp (s : XmlAwareLexer) : Option (Token F × XmlAwareLexer) :=
  match operators.find? (fun op => (bytes op.1).isPrefixOf s.rest) with
  | some op => some (op.2, s.advance (bytes op.1).length)
  | none => none

/-- A brace or parenthesis opens in code: it counts only inside markup. -/
def XmlAwareLexer.deeper (s : XmlAwareLexer) : XmlAwareLexer :=
  match s.braceStack with
  | (ret, depth) :: stack => { s with braceStack := (ret, depth + 1) :: stack }
  | [] => s

def XmlAwareLexer.shallower (s : XmlAwareLexer) : XmlAwareLexer :=
  match s.braceStack with
  | (ret, depth) :: stack =>
    if depth = 1 then { s with braceStack := stack, mode := ret }
    else { s with braceStack := (ret, depth - 1) :: stack }
  | [] => s

/-- `<xmlid/>` and `<xmlid>` in code. -/
def XmlAwareLexer.xmlStart (s : XmlAwareLexer) (start : Nat) :
    Option (LexResult F × XmlAwareLexer) :=
  let n := scanXmlId (s.rest.drop 1)
  if n = 0 then none
  else if s.at (1 + n) = some '/'.toUInt8 ∧ s.at (2 + n) = some '>'.toUInt8 then
    some (.ok (start, .xmlBeginEnd, s.pos + (3 + n)), s.advance (3 + n))
  else if s.at (1 + n) = some '>'.toUInt8 then
    some (.ok (start, .beginTag (textOr [] ((s.rest.drop 1).take n)), s.pos + (2 + n)),
      { s.advance (2 + n) with mode := .xml, xmlNesting := 0 })
  else none

def backtickPath (bs : List UInt8) : List UInt8 := bs.takeWhile (· != '\x60'.toUInt8)

/-- The tokens of one character, a backtick path apart. -/
def punctuation : List (Char × Token F) := [
  ('[', .lbrack), (']', .rbrack), ('^', .caret), ('=', .eq), ('>', .gt), (',', .comma),
  (':', .colon), ('.', .dot), ('$', .dollar), ('#', .hash), ('_', .under), ('~', .twiddle),
  ('|', .bar), ('*', .star), (';', .semi), ('!', .bang), ('+', .plus), ('-', .minus),
  ('/', .divide), ('%', .mod), ('<', .lt)]

/-- A byte in two hexadecimal digits. -/
def hexByte (b : UInt8) : List Char :=
  if b < 16 then '0' :: Nat.toDigits 16 b.toNat else Nat.toDigits 16 b.toNat

def unexpected (b : UInt8) (start : Nat) : LexError :=
  ⟨"Unexpected character '" ++ toString (Char.ofUInt8 b) ++ "' (0x" ++
    String.ofList (hexByte b) ++ ") at offset " ++ toString start⟩

def XmlAwareLexer.scanPunctuation (s : XmlAwareLexer) (b : UInt8) (start : Nat) :
    LexResult F × XmlAwareLexer :=
  match punctuation.find? (fun p => p.1.toUInt8 == b) with
  | some p => (.ok (start, p.2, s.pos + 1), s.advance 1)
  | none =>
    if b = '\x60'.toUInt8 then
      let path := backtickPath (s.rest.drop 1)
      let n := if s.at (1 + path.length) = none then 1 + path.length else 2 + path.length
      (.ok (start, .backtickPath (textOr [] path), s.pos + n), s.advance n)
    else (.error (unexpected b start), s.advance 1)

variable [F64 F]

/-- One token of code, where no blank and no comment begins. -/
def XmlAwareLexer.regularToken (s : XmlAwareLexer) (b : UInt8) : LexResult F × XmlAwareLexer :=
  let start := s.pos
  if b = '\x22'.toUInt8 ∨ b = '\x27'.toUInt8 then (s.advance 1).scanRegularString b start
  else if b = '#'.toUInt8 ∧ s.at 1 = some '\x22'.toUInt8 then (s.advance 2).scanChar start
  else
    match if b = '<'.toUInt8 ∧ s.allowXmlMarkup then s.xmlStart start else none with
    | some r => r
    | none =>
    match s.tryMultiCharOp with
    | some (t, s') => (.ok (start, t, s'.pos), s')
    | none =>
      if b = '\x7b'.toUInt8 then (.ok (start, .lbrace, s.pos + 1), (s.advance 1).deeper)
      else if b = '\x7d'.toUInt8 then (.ok (start, .rbrace, s.pos + 1), (s.advance 1).shallower)
      else if b = '('.toUInt8 then
        if s.at 1 = some ')'.toUInt8 then (.ok (start, .unit, s.pos + 2), s.advance 2)
        else (.ok (start, .lparen, s.pos + 1), (s.advance 1).deeper)
      else if b = ')'.toUInt8 then (.ok (start, .rparen, s.pos + 1), (s.advance 1).shallower)
      else if isAsciiDigit b ∨ b = '-'.toUInt8 ∧ (s.at 1).any isAsciiDigit then s.scanNumber start
      else if isAsciiAlphabetic b ∨ b = '_'.toUInt8 then s.scanIdent start
      else if b = '@'.toUInt8 then
        (s.scanAtInferencePath start).getD (.ok (start, .atSign, s.pos + 1), s.advance 1)
      else s.scanPunctuation b start

/-- The bytes of a blank or a comment that begins here. -/
def skipCode : List UInt8 → Option Nat
  | [] => none
  | b :: bs =>
    if isBlank b then some 1
    else if b = '('.toUInt8 ∧ bs.head? = some '*'.toUInt8 then
      some (2 + skipMlComment 1 bs.tail)
    else none

/-- One call of a mode's scanner: what is skipped, then a token. -/
def XmlAwareLexer.strides (skip : List UInt8 → Option Nat)
    (token : XmlAwareLexer → UInt8 → LexResult F × XmlAwareLexer) (exceeded : LexError) :
    Nat → XmlAwareLexer → Option (LexResult F × XmlAwareLexer)
  | 0, s => some (.error exceeded, s)
  | limit + 1, s =>
    match s.rest with
    | [] => none
    | b :: _ =>
      match skip s.rest with
      | some n => (s.advance n).strides skip token exceeded limit
      | none => some (token s b)

def XmlAwareLexer.nextRegular (s : XmlAwareLexer) : Option (LexResult F × XmlAwareLexer) :=
  s.strides skipCode regularToken
    ⟨"XmlAwareLexer: exceeded per-token scan budget in Regular mode"⟩ (s.src.length + 1)

-- ---------------------------------------------------------------------------
-- Markup
-- ---------------------------------------------------------------------------

def isTextByte (b : UInt8) : Bool :=
  !(b == '<'.toUInt8 || b == '\x7b'.toUInt8 || b == '\n'.toUInt8 || b == '('.toUInt8)

/-- `</id>`. -/
def XmlAwareLexer.xmlEndTag (s : XmlAwareLexer) (start : Nat) :
    Option (LexResult F × XmlAwareLexer) :=
  let n := scanXmlId (s.rest.drop 2)
  if s.at 1 = some '/'.toUInt8 ∧ n ≠ 0 ∧ s.at (2 + n) = some '>'.toUInt8 then
    let name := textOr [] ((s.rest.drop 2).take n)
    let s' := s.advance (3 + n)
    let s' := if name = "xml".toList then
        if s.xmlNesting > 0 then { s' with xmlNesting := s.xmlNesting - 1 }
        else { s' with mode := .regular }
      else s'
    some (.ok (start, .endTag name, s.pos + (3 + n)), s')
  else none

/-- `<id`. -/
def XmlAwareLexer.xmlBeginTag (s : XmlAwareLexer) (start : Nat) :
    Option (LexResult F × XmlAwareLexer) :=
  let n := scanXmlId (s.rest.drop 1)
  if n ≠ 0 then
    let name := textOr [] ((s.rest.drop 1).take n)
    some (.ok (start, .beginTag name, s.pos + (1 + n)),
      { s.advance (1 + n) with
        mode := .xmlTag, pendingXmlOpen := name == "xml".toList || s.pendingXmlOpen })
  else none

/-- One piece of markup, where no comment begins. -/
def XmlAwareLexer.xmlToken (s : XmlAwareLexer) (b : UInt8) : LexResult F × XmlAwareLexer :=
  let start := s.pos
  if b = '\n'.toUInt8 then (.ok (start, .notags ['\n'], s.pos + 1), s.advance 1)
  else if b = '<'.toUInt8 then
    (s.xmlEndTag start).getD <| (s.xmlBeginTag start).getD
      (.ok (start, .notags ['<'], s.pos + 1), s.advance 1)
  else if b = '\x7b'.toUInt8 then
    (.ok (start, .lbrace, s.pos + 1),
      { s.advance 1 with braceStack := (.xml, 1) :: s.braceStack, mode := .regular })
  else if b = '('.toUInt8 then (.ok (start, .notags ['('], s.pos + 1), s.advance 1)
  else
    let t := s.rest.takeWhile isTextByte
    if t ≠ [] then (.ok (start, .notags (textOr [] t), s.pos + t.length), s.advance t.length)
    else
      (.error ⟨"Illegal XML character '" ++ toString (Char.ofUInt8 b) ++ "' at offset " ++
        toString start⟩, s.advance 1)

/-- The bytes of a comment of either kind that begins here. -/
def skipMarkup : List UInt8 → Option Nat
  | [] => none
  | b :: bs =>
    if b = '('.toUInt8 ∧ bs.head? = some '*'.toUInt8 then
      some (2 + skipMlComment 1 bs.tail)
    else if (bytes "<!--").isPrefixOf (b :: bs) then some (4 + skipXmlComment (bs.drop 3))
    else none

def XmlAwareLexer.nextXml (s : XmlAwareLexer) : Option (LexResult F × XmlAwareLexer) :=
  s.strides skipMarkup xmlToken
    ⟨"XmlAwareLexer: exceeded per-token scan budget in Xml mode"⟩ (s.src.length + 1)

/-- The name of an attribute, told apart by what follows the blanks after it. -/
def XmlAwareLexer.attributeName (s : XmlAwareLexer) (start : Nat) :
    LexResult F × XmlAwareLexer :=
  let n := scanXmlId s.rest
  let name := textOr [] (s.rest.take n)
  let p := n + ((s.rest.drop n).takeWhile isBlank).length
  let tok : Token F := if s.at p = some '='.toUInt8 then .xmlAttrNameEq name
    else .xmlAttrNameBare name
  (.ok (start, tok, s.pos + n), s.advance n)

/-- One token inside a tag, where no blank and no comment begins. -/
def XmlAwareLexer.xmlTagToken (s : XmlAwareLexer) (b : UInt8) : LexResult F × XmlAwareLexer :=
  let start := s.pos
  if b = '>'.toUInt8 then
    (.ok (start, .gt, s.pos + 1),
      { s.advance 1 with
        mode := .xml
        xmlNesting := if s.pendingXmlOpen then s.xmlNesting + 1 else s.xmlNesting
        pendingXmlOpen := false })
  else if b = '/'.toUInt8 then
    (.ok (start, .divide, s.pos + 1), { s.advance 1 with pendingXmlOpen := false })
  else if b = '\x22'.toUInt8 ∨ b = '\x27'.toUInt8 then
    { s.advance 1 with stringReturn := some .xmlTag }.scanRegularString b start
  else if b = '\x7b'.toUInt8 then
    (.ok (start, .lbrace, s.pos + 1),
      { s.advance 1 with braceStack := (.xmlTag, 1) :: s.braceStack, mode := .regular })
  else if b = '('.toUInt8 then
    if s.at 1 = some ')'.toUInt8 then
      (.ok (start, .unit, s.pos + 2),
        { s.advance 2 with braceStack := (.xmlTag, 1) :: s.braceStack, mode := .regular })
    else
      (.ok (start, .lparen, s.pos + 1),
        { s.advance 1 with braceStack := (.xmlTag, 1) :: s.braceStack, mode := .regular })
  else if b = '='.toUInt8 then (.ok (start, .eq, s.pos + 1), s.advance 1)
  else if isAsciiDigit b then s.scanNumber start
  else if isAsciiAlphabetic b ∨ b = '_'.toUInt8 then s.attributeName start
  else
    (.error ⟨"Illegal XML tag character '" ++ toString (Char.ofUInt8 b) ++ "' at offset " ++
      toString start⟩, s.advance 1)

def XmlAwareLexer.nextXmltag (s : XmlAwareLexer) : Option (LexResult F × XmlAwareLexer) :=
  s.strides skipCode xmlTagToken
    ⟨"XmlAwareLexer: exceeded per-token scan budget in XmlTag mode"⟩ (s.src.length + 1)

-- ---------------------------------------------------------------------------
-- The iterator
-- ---------------------------------------------------------------------------

/-- The next item of the stream. Where there is none, the lexer stands at the end. -/
def XmlAwareLexer.next (s : XmlAwareLexer) : Option (LexResult F × XmlAwareLexer) :=
  match s.mode with
  | .regular => s.nextRegular
  | .xml => s.nextXml
  | .xmlTag => s.nextXmltag

/-- What the lexer skips in a mode. -/
def LexMode.skip : LexMode → List UInt8 → Option Nat
  | .xml => skipMarkup
  | _ => skipCode

/-- The scan of one token in a mode. -/
def LexMode.token : LexMode → XmlAwareLexer → UInt8 → LexResult F × XmlAwareLexer
  | .regular => XmlAwareLexer.regularToken
  | .xml => XmlAwareLexer.xmlToken
  | .xmlTag => XmlAwareLexer.xmlTagToken

end UrWeb.Parse
