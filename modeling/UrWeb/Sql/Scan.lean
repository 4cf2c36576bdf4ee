import Mathlib.Data.List.Basic

/-!
# Scanning SQL text

The scanners that find an operator or a keyword outside of brackets, comments
and strings, and the bracket that closes another. They take a budget of steps
that is larger than the text. A scanner looks at a position through the text
before it, backwards, and the text behind it.
-/

namespace UrWeb.Sql

abbrev Text := List Char

/-- The characters that trimming removes. -/
def isWhitespace (c : Char) : Bool :=
  c = ' ' || ('\t' ≤ c && c ≤ '\r') || c = '\u0085' || c = '\u00a0' || c = '\u1680' ||
    ('\u2000' ≤ c && c ≤ '\u200a') || c = '\u2028' || c = '\u2029' || c = '\u202f' ||
    c = '\u205f' || c = '\u3000'

def trim (s : Text) : Text := ((s.dropWhile isWhitespace).reverse.dropWhile isWhitespace).reverse

def isIdentifierByte (c : Char) : Bool := c.isAlphanum || c = '_' || c = '\x27'

/-- The length of what is left of a comment that is `depth` levels deep. -/
def skipMlComment : Nat → Text → Nat
  | 0, _ => 0
  | _ + 1, [] => 0
  | depth + 1, '(' :: '*' :: cs => skipMlComment (depth + 2) cs + 2
  | depth + 1, '*' :: ')' :: cs => skipMlComment depth cs + 2
  | depth + 1, _ :: cs => skipMlComment (depth + 1) cs + 1

/-- The length of what is left of a string, its closing quote included. -/
def skipString : Text → Nat
  | [] => 0
  | '\x22' :: _ => 1
  | '\x5c' :: _ :: cs => skipString cs + 2
  | _ :: cs => skipString cs + 1

/-- A step of the scanners: how many characters it takes, how it changes the depths of
parentheses and braces, and whether it is a character of the text itself. -/
structure Advance where
  length : Nat
  paren : Int
  brace : Int
  plain : Bool

def advance : Text → Advance
  | '(' :: '*' :: cs => ⟨skipMlComment 1 cs + 2, 0, 0, false⟩
  | '\x22' :: cs => ⟨skipString cs + 1, 0, 0, false⟩
  | '(' :: _ => ⟨1, 1, 0, false⟩
  | ')' :: _ => ⟨1, -1, 0, false⟩
  | '\x7b' :: _ => ⟨1, 0, 1, false⟩
  | '\x7d' :: _ => ⟨1, 0, -1, false⟩
  | _ => ⟨1, 0, 0, true⟩

/-- The keyword starts here and is not part of a longer identifier. -/
def startsWithKeyword (keyword before rest : Text) : Bool :=
  keyword.isPrefixOf rest && !(before.head?.any isIdentifierByte) &&
    !((rest.drop keyword.length).head?.any isIdentifierByte)

section
variable (hit : Text → Text → Bool)

/-- The first hit outside of brackets. -/
def findTopLevel : Nat → Text → Text → Int → Int → Option (Text × Text)
  | 0, _, _, _, _ => none
  | _ + 1, _, [], _, _ => none
  | budget + 1, before, c :: cs, parenDepth, braceDepth =>
    let a := advance (c :: cs)
    if a.plain && parenDepth = 0 && braceDepth = 0 && hit before (c :: cs) then
      some (before.reverse, c :: cs)
    else
      findTopLevel budget (((c :: cs).take a.length).reverse ++ before) ((c :: cs).drop a.length)
        (parenDepth + a.paren) (braceDepth + a.brace)

end

def scanBudget (s : Text) : Nat := 2 * s.length + 1

def splitTopLevel (sourceText separator : Text) : Option (Text × Text) :=
  let trimmed := trim sourceText
  (findTopLevel (startsWithKeyword separator) (scanBudget trimmed) [] trimmed 0 0).map
    fun (left, right) => (trim left, trim (right.drop separator.length))

/-- The parts of a text behind the part that `before` has of the first. -/
def splitCommas : Nat → Text → Text → Int → Int → List Text
  | 0, before, rest, _, _ => [trim (before.reverse ++ rest)]
  | _ + 1, before, [], _, _ => [trim before.reverse]
  | budget + 1, before, c :: cs, parenDepth, braceDepth =>
    let a := advance (c :: cs)
    if a.plain && parenDepth = 0 && braceDepth = 0 && c = ',' then
      trim before.reverse :: splitCommas budget [] cs 0 0
    else
      splitCommas budget (((c :: cs).take a.length).reverse ++ before) ((c :: cs).drop a.length)
        (parenDepth + a.paren) (braceDepth + a.brace)

def splitTopLevelCommas (sourceText : Text) : List Text :=
  let trimmed := trim sourceText
  splitCommas (scanBudget trimmed) [] trimmed 0 0

/-- The length of a text up to the parenthesis that closes `depth` others. Braces are not
counted. -/
def matchingRparen : Nat → Nat → Text → Option Nat
  | 0, _, _ => none
  | _ + 1, _, [] => none
  | budget + 1, depth, c :: cs =>
    let a := advance (c :: cs)
    if a.paren = -1 ∧ depth = 1 then some 1
    else
      let depth := if a.paren = 1 then depth + 1 else if a.paren = -1 then depth - 1 else depth
      (matchingRparen budget depth ((c :: cs).drop a.length)).map (· + a.length)

/-- The length of a text up to the parenthesis that closes the one at its start. -/
def findMatchingRparen (s : Text) : Option Nat :=
  (matchingRparen (scanBudget s) 1 (s.drop 1)).map (· + 1)

/-- Each round takes one pair of parentheses away. -/
def trimWrapping : Nat → Text → Text
  | 0, s => trim s
  | rounds + 1, s =>
    let trimmed := trim s
    if trimmed.head? = some '(' ∧ trimmed.getLast? = some ')' ∧
        findMatchingRparen trimmed = some trimmed.length then
      trimWrapping rounds (trimmed.drop 1).dropLast
    else trimmed

def trimWrappingParens (s : Text) : Text := trimWrapping s.length s

def isSimpleSqlAtom (s : Text) : Bool :=
  !s.any fun c => isWhitespace c || "()'\"+-*/=><".toList.contains c

end UrWeb.Sql
