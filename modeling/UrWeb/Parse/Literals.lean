import UrWeb.Parse.LexicalAnalyzer

/-!
# Literals of the token table

The generated lexer has a pattern and a callback for each kind of literal; this is
what they accept and the value they give. `scanned` is what the byte scanner makes
of the text of a string, and it is the callback's value exactly on ASCII texts
whose escapes are single characters.
-/

namespace UrWeb.Parse

/-- `process_string_escapes`, the escapes that are one character long. -/
def simpleEscape (c : Char) : Option Char :=
  if c = 'n' then some '\n'
  else if c = 't' then some '\t'
  else if c = 'r' then some '\r'
  else if c = '\x5c' then some '\x5c'
  else if c = '\x22' then some '\x22'
  else if c = '\x27' then some '\x27'
  else if c = 'a' then some '\x07'
  else if c = 'b' then some '\x08'
  else if c = 'f' then some '\x0c'
  else if c = 'v' then some '\x0b'
  else if c = '0' then some '\x00'
  else none

/-- The control character of `\^x`. -/
def controlChar (x : Char) : Char :=
  Char.ofNat ((x.toNat + 2 ^ 32 - 64) % 2 ^ 32 &&& 0x1f)

def fromU32 (n : Nat) : Option Char := if n.isValidChar then some (Char.ofNat n) else none

def hexDigit (c : Char) : Option Nat :=
  if c.isDigit then some (c.toNat - '0'.toNat)
  else if 'a' ≤ c ∧ c ≤ 'f' then some (c.toNat - 'a'.toNat + 10)
  else if 'A' ≤ c ∧ c ≤ 'F' then some (c.toNat - 'A'.toNat + 10)
  else none

/-- An unsigned number in base 16, with an optional plus sign. -/
def fromStrRadix16 (t : List Char) : Option Nat :=
  let digits := if t.head? = some '+' then t.tail else t
  if digits = [] then none
  else (digits.mapM hexDigit).map (·.foldl (fun n d => 16 * n + d) 0)

/-- What an escape gives and what it leaves, from the character after the backslash. -/
def escape (e : Char) (cs : List Char) : Option (List Char × List Char) :=
  match simpleEscape e with
  | some x => some ([x], cs)
  | none =>
    if e = '^' then
      match cs with
      | [] => none
      | x :: cs => some (if x.toNat < 128 then [controlChar x] else [], cs)
    else if e = 'd' then
      let digits := (cs.take 2).takeWhile Char.isDigit
      if digits = [] then none
      else some ([Char.ofNat (Nat.ofDigitChars 10 digits 0)], cs.drop digits.length)
    else if e = 'u' then
      match (fromStrRadix16 (cs.take 4)).bind fromU32 with
      | none => none
      | some x => some ([x], cs.drop 4)
    else if e = ' ' ∨ e = '\n' ∨ e = '\t' then
      some ([], (cs.dropWhile (· != '\x5c')).drop 1)
    else some (['\x5c', e], cs)

/-- The loop, with the limit on its work. -/
def processEscapes : Nat → List Char → Option (List Char)
  | 0, _ => none
  | _ + 1, [] => some []
  | limit + 1, c :: cs =>
    if c ≠ '\x5c' then (processEscapes limit cs).map (c :: ·)
    else match cs with
      | [] => none
      | e :: cs => match escape e cs with
        | none => none
        | some (out, cs) => (processEscapes limit cs).map (out ++ ·)

def processStringEscapes (t : List Char) : Option (List Char) :=
  processEscapes ((Utf8.encode t).length * 8 + 64) t

def quoteChar (c : Char) : List Char :=
  if c = '\x5c' then ['\x5c', '\x5c']
  else if c = '\x22' then ['\x5c', '\x22']
  else if c = '\n' then ['\x5c', 'n']
  else if c = '\r' then ['\x5c', 'r']
  else if c = '\t' then ['\x5c', 't']
  else [c]

def quoteStringLiteral (t : List Char) : List Char :=
  '\x22' :: t.flatMap quoteChar ++ ['\x22']

-- ---------------------------------------------------------------------------
-- The patterns
-- ---------------------------------------------------------------------------

/-- Between the quotes of a string: no bare quote, and no line break after a backslash. -/
inductive StringText : List Char → Prop
  | nil : StringText []
  | char : c ≠ '\x22' → c ≠ '\x5c' → StringText t → StringText (c :: t)
  | escape : e ≠ '\n' → StringText t → StringText ('\x5c' :: e :: t)

/-- At least one digit. -/
structure Digits (t : List Char) : Prop where
  ne_nil : t ≠ []
  digit : ∀ c ∈ t, c.isDigit

def sign (neg : Bool) : List Char := if neg then ['-'] else []

/-- The exponent of a float: the letter, the sign if there is one, and the digits. -/
structure Exponent where
  letter : Char
  sign : Option Char
  digits : List Char
  letter_eq : letter = 'e' ∨ letter = 'E'
  sign_eq : ∀ c ∈ sign, c = '+' ∨ c = '-'
  isDigits : Digits digits

def Exponent.text (e : Exponent) : List Char := e.letter :: (e.sign.toList ++ e.digits)

/-- A text that a literal's pattern accepts, with the value of its callback. A quoted
string is what the SQL rewriting puts into the source; a character is given by any text
that stands for it; a number out of range has no value. -/
inductive Literal (F : Type) [F64 F] where
  | quoted (s : List Char)
  | string (t s : List Char) (shape : StringText t) (value : processStringEscapes t = some s)
  | char (t : List Char) (c : Char) (shape : StringText t)
      (value : processStringEscapes t = some [c])
  | int (neg : Bool) (digits : List Char) (shape : Digits digits)
  | float (neg : Bool) (ds frac : List Char) (exponent : Option Exponent) (v : F)
      (hds : Digits ds) (hfrac : Digits frac)
      (value : F64.parse (sign neg ++ ds ++ '.' :: frac ++
        (exponent.map Exponent.text).getD []) = some v)

variable {F : Type} [F64 F]

def Literal.text : Literal F → List Char
  | .quoted s => quoteStringLiteral s
  | .string t .. => '\x22' :: t ++ ['\x22']
  | .char t .. => '#' :: '\x22' :: t ++ ['\x22']
  | .int neg digits _ => sign neg ++ digits
  | .float neg ds frac exponent .. =>
    sign neg ++ ds ++ '.' :: frac ++ (exponent.map Exponent.text).getD []

/-- The token of the literal; none where it is a lexical error. -/
def Literal.token : Literal F → Option (Token F)
  | .quoted s => some (.string s)
  | .string _ s .. => some (.string s)
  | .char _ c .. => some (.char c)
  | .int neg digits _ => (parseI64 (sign neg ++ digits)).map .int
  | .float _ _ _ _ v .. => some (.float v)

-- ---------------------------------------------------------------------------
-- The texts that both lexers read alike
-- ---------------------------------------------------------------------------

/-- A character after a backslash that is not the whole escape. -/
def LongEscape (e : Char) : Prop :=
  e = '^' ∨ e = 'd' ∨ e = 'u' ∨ e = ' ' ∨ e = '\n' ∨ e = '\t'

/-- ASCII, with escapes of one character only. -/
inductive Plain : List Char → Prop
  | nil : Plain []
  | char : c ≠ '\x5c' → c.val ≤ 127 → Plain t → Plain (c :: t)
  | escape : ¬ LongEscape e → e.val ≤ 127 → Plain t → Plain ('\x5c' :: e :: t)

/-- The literals that are read back. -/
def Literal.Plain : Literal F → Prop
  | .quoted s => ∀ c ∈ s, c.val ≤ 127
  | .string t .. => Parse.Plain t
  | .char t .. => ∃ c, t = [c] ∧ c.val ≤ 127
  | .int neg digits _ => parseI64 (sign neg ++ digits) ≠ none
  | .float _ _ _ exponent .. => exponent = none

/-- The lexer reads the text as the one token of the literal and ends, or as an error. -/
def Literal.ReadBack (l : Literal F) (allowXmlMarkup : Bool) : Prop :=
  let s := XmlAwareLexer.withXmlMarkupPolicy (Utf8.encode l.text) allowXmlMarkup
  match l.token with
  | some t => ∃ s', s.next = some (.ok (0, t, (Utf8.encode l.text).length), s') ∧
      s'.next (F := F) = none
  | none => ∃ e s', s.next (F := F) = some (.error e, s')

-- ---------------------------------------------------------------------------
-- What the byte scanner makes of a text
-- ---------------------------------------------------------------------------

/-- One character for each byte. -/
def latin (bs : List UInt8) : List Char := bs.map Char.ofUInt8

/-- A character after a backslash: only its first byte is looked at. -/
def scannedEscape (e : Char) : List Char :=
  match String.utf8EncodeChar e with
  | [] => []
  | b :: bs => stringEscape b ++ latin bs

def scanned : List Char → List Char
  | [] => []
  | c :: cs =>
    if c = '\x5c' then
      match cs with
      | [] => []
      | e :: cs => scannedEscape e ++ scanned cs
    else latin (String.utf8EncodeChar c) ++ scanned cs

end UrWeb.Parse
