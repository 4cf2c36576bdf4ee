import UrWeb.Parse.LexerProgress

/-!
# Nested code and markup

The texts of the grammar as trees of their brackets: braces and parentheses in code,
fragments, tags with attributes, splices. What is no bracket is a lexeme, a piece that
the lexer reads as one token or skips. An expression is read in steps, each over a
blank, a comment or a token.
-/

namespace UrWeb.Parse

-- ---------------------------------------------------------------------------
-- Steps of the lexer
-- ---------------------------------------------------------------------------

variable (F : Type) [F64 F]

/-- Over one blank, comment or token, with the item if there is one. -/
def XmlAwareLexer.step (s : XmlAwareLexer) : Option (Option (LexResult F) × XmlAwareLexer) :=
  match s.rest with
  | [] => none
  | b :: _ =>
    match s.mode.skip s.rest with
    | some n => some (none, s.advance n)
    | none =>
      let out : LexResult F × XmlAwareLexer := s.mode.token s b
      some (some out.1, out.2)

/-- The state in which the steps from `s` arrive at a byte. -/
def XmlAwareLexer.walk : Nat → XmlAwareLexer → Nat → Option XmlAwareLexer
  | 0, _, _ => none
  | n + 1, s, i =>
    if s.pos = i then some s
    else if i < s.pos then none
    else match s.step F with
      | some (_, s') => s'.walk n i
      | none => none

/-- The state of the lexer at a byte of a source; each step takes one byte at least. -/
def standsAt (src : List UInt8) (i : Nat) : Option XmlAwareLexer :=
  (XmlAwareLexer.withXmlMarkupPolicy src true).walk F (i + 1) i

/-- The tokens that are no brackets of the mode they are read in. -/
def Token.plain {F : Type} (m : LexMode) : Token F → Bool
  | .lbrace | .rbrace | .lparen | .rparen | .beginTag _ | .endTag _ => false
  | .gt | .divide | .unit => m != .xmlTag
  | _ => true

/-- Wherever it stands before `u`, the lexer reads `t` in one step that is no bracket. -/
def Lexeme (m : LexMode) (t u : List UInt8) : Prop :=
  t ≠ [] ∧ ∀ s : XmlAwareLexer, s.mode = m → s.allowXmlMarkup = true → s.rest = t ++ u →
    ∃ item s', s.step F = some (item, s') ∧ s'.pos = s.pos + t.length ∧
      ∀ r, item = some r → ∃ tok, r = .ok (s.pos, tok, s'.pos) ∧ tok.plain m

-- ---------------------------------------------------------------------------
-- Trees of brackets
-- ---------------------------------------------------------------------------

mutual
/-- Code: lexemes, `{...}`, `(...)` and `<xml>...</xml>`. -/
inductive Code
  | nil
  | lexeme (t : List UInt8) (rest : Code)
  | braces (body rest : Code)
  | parens (body rest : Code)
  | fragment (body : Markup) (rest : Code)
/-- Markup: text, splices, `<name ...>...</name>` and `<name ... />`. -/
inductive Markup
  | nil
  | lexeme (t : List UInt8) (rest : Markup)
  | splice (body : Code) (rest : Markup)
  | element (name : List Char) (attrs : Attrs) (body rest : Markup)
  | empty (name : List Char) (attrs : Attrs) (gap : List UInt8) (rest : Markup)
/-- What stands in a tag: names, strings, numbers, `{...}`, `(...)` and `()`. -/
inductive Attrs
  | nil
  | lexeme (t : List UInt8) (rest : Attrs)
  | braces (body : Code) (rest : Attrs)
  | parens (body : Code) (rest : Attrs)
  | unit (rest : Attrs)
end

def lbrace : UInt8 := '\x7b'.toUInt8
def rbrace : UInt8 := '\x7d'.toUInt8
def lparen : UInt8 := '('.toUInt8
def rparen : UInt8 := ')'.toUInt8

/-- `<name`. -/
def openTag (name : List Char) : List UInt8 := '<'.toUInt8 :: Utf8.encode name

/-- `</name>`. -/
def closeTag (name : List Char) : List UInt8 :=
  '<'.toUInt8 :: '/'.toUInt8 :: (Utf8.encode name ++ ['>'.toUInt8])

def xmlName : List Char := ['x', 'm', 'l']

mutual
def Code.text : Code → List UInt8
  | .nil => []
  | .lexeme t rest => t ++ rest.text
  | .braces body rest => lbrace :: (body.text ++ rbrace :: rest.text)
  | .parens body rest => lparen :: (body.text ++ rparen :: rest.text)
  | .fragment body rest =>
    openTag xmlName ++ '>'.toUInt8 :: (body.text ++ (closeTag xmlName ++ rest.text))
def Markup.text : Markup → List UInt8
  | .nil => []
  | .lexeme t rest => t ++ rest.text
  | .splice body rest => lbrace :: (body.text ++ rbrace :: rest.text)
  | .element name attrs body rest =>
    openTag name ++ (attrs.text ++ '>'.toUInt8 :: (body.text ++ (closeTag name ++ rest.text)))
  | .empty name attrs gap rest =>
    openTag name ++ (attrs.text ++ '/'.toUInt8 :: (gap ++ '>'.toUInt8 :: rest.text))
def Attrs.text : Attrs → List UInt8
  | .nil => []
  | .lexeme t rest => t ++ rest.text
  | .braces body rest => lbrace :: (body.text ++ rbrace :: rest.text)
  | .parens body rest => lparen :: (body.text ++ rparen :: rest.text)
  | .unit rest => lparen :: rparen :: rest.text
end

/-- A name of a tag, before bytes that do not continue it. -/
def IsTagName (name : List Char) (u : List UInt8) : Prop :=
  (∃ c cs, name = c :: cs ∧ c.isAlpha ∧
    ∀ d ∈ cs, d.isAlphanum ∨ d = '_' ∨ d = '-') ∧ ∀ b ∈ u.head?, ¬ isXmlIdByte b

/-- A parenthesis that begins neither a comment nor `()`. -/
def OpensParens (u : List UInt8) : Prop :=
  u.head? ≠ some '*'.toUInt8 ∧ u.head? ≠ some rparen

mutual
/-- Before `u`, the lexemes of a tree are what the lexer reads. -/
def Code.Fits : Code → List UInt8 → Prop
  | .nil, _ => True
  | .lexeme t rest, u => Lexeme F .regular t (rest.text ++ u) ∧ rest.Fits u
  | .braces body rest, u => body.Fits (rbrace :: (rest.text ++ u)) ∧ rest.Fits u
  | .parens body rest, u =>
    OpensParens (body.text ++ [rparen]) ∧ body.Fits (rparen :: (rest.text ++ u)) ∧ rest.Fits u
  | .fragment body rest, u => body.Fits (closeTag xmlName ++ (rest.text ++ u)) ∧ rest.Fits u
def Markup.Fits : Markup → List UInt8 → Prop
  | .nil, _ => True
  | .lexeme t rest, u => Lexeme F .xml t (rest.text ++ u) ∧ rest.Fits u
  | .splice body rest, u => body.Fits (rbrace :: (rest.text ++ u)) ∧ rest.Fits u
  | .element name attrs body rest, u =>
    IsTagName name (attrs.text ++ ['>'.toUInt8]) ∧
    attrs.Fits ('>'.toUInt8 :: (body.text ++ (closeTag name ++ (rest.text ++ u)))) ∧
    body.Fits (closeTag name ++ (rest.text ++ u)) ∧ rest.Fits u
  | .empty name attrs gap rest, u =>
    IsTagName name (attrs.text ++ ['/'.toUInt8]) ∧
    attrs.Fits ('/'.toUInt8 :: (gap ++ '>'.toUInt8 :: (rest.text ++ u))) ∧
    Skipped .xmlTag gap ∧ rest.Fits u
def Attrs.Fits : Attrs → List UInt8 → Prop
  | .nil, _ => True
  | .lexeme t rest, u => Lexeme F .xmlTag t (rest.text ++ u) ∧ rest.Fits u
  | .braces body rest, u => body.Fits (rbrace :: (rest.text ++ u)) ∧ rest.Fits u
  | .parens body rest, u =>
    OpensParens (body.text ++ [rparen]) ∧ body.Fits (rparen :: (rest.text ++ u)) ∧ rest.Fits u
  | .unit rest, u => rest.Fits u
end

/-- Code whose lexemes are read as they stand, as a whole source. -/
structure Expression where
  code : Code
  fits : code.Fits F []

-- ---------------------------------------------------------------------------
-- Constructs
-- ---------------------------------------------------------------------------

mutual
/-- Where each construct begins and ends in a text that begins at `o`: every bracket,
every `()` in a tag, every fragment and every nested element `<xml>`. -/
def Code.spans : Code → Nat → List (Nat × Nat)
  | .nil, _ => []
  | .lexeme t rest, o => rest.spans (o + t.length)
  | .braces body rest, o =>
    let e := o + 1 + body.text.length + 1
    body.spans (o + 1) ++ (o, e) :: rest.spans e
  | .parens body rest, o =>
    let e := o + 1 + body.text.length + 1
    body.spans (o + 1) ++ (o, e) :: rest.spans e
  | .fragment body rest, o =>
    let e := o + 5 + body.text.length + 6
    body.spans (o + 5) ++ (o, e) :: rest.spans e
def Markup.spans : Markup → Nat → List (Nat × Nat)
  | .nil, _ => []
  | .lexeme t rest, o => rest.spans (o + t.length)
  | .splice body rest, o =>
    let e := o + 1 + body.text.length + 1
    body.spans (o + 1) ++ (o, e) :: rest.spans e
  | .element name attrs body rest, o =>
    let a := o + (openTag name).length
    let b := a + attrs.text.length + 1
    let e := b + body.text.length + (closeTag name).length
    attrs.spans a ++ (body.spans b ++
      ((if name = xmlName then [(o, e)] else []) ++ rest.spans e))
  | .empty name attrs gap rest, o =>
    let a := o + (openTag name).length
    attrs.spans a ++ rest.spans (a + attrs.text.length + 1 + gap.length + 1)
def Attrs.spans : Attrs → Nat → List (Nat × Nat)
  | .nil, _ => []
  | .lexeme t rest, o => rest.spans (o + t.length)
  | .braces body rest, o =>
    let e := o + 1 + body.text.length + 1
    body.spans (o + 1) ++ (o, e) :: rest.spans e
  | .parens body rest, o =>
    let e := o + 1 + body.text.length + 1
    body.spans (o + 1) ++ (o, e) :: rest.spans e
  | .unit rest, o => (o, o + 2) :: rest.spans (o + 2)
end

/-- The same mode, brace stack and count of nested elements. -/
def SameContext (a b : XmlAwareLexer) : Prop :=
  a.mode = b.mode ∧ a.braceStack = b.braceStack ∧ a.xmlNesting = b.xmlNesting

/-- After each construct the lexer's context is what it was before it. -/
def Expression.Restored (e : Expression F) : Prop :=
  ∀ span ∈ e.code.spans 0, ∀ a b, standsAt F e.code.text span.1 = some a →
    standsAt F e.code.text span.2 = some b → SameContext a b

-- ---------------------------------------------------------------------------
-- The texts that are read in their context
-- ---------------------------------------------------------------------------

/-- How a tag ends: it opens an element other than `<xml>`, or not. -/
inductive TagEnd
  | opens
  | other

def tagEnd (name : List Char) : TagEnd := if name = xmlName then .other else .opens

mutual
/-- The tags of a text in the order of their ends. -/
def Code.tagEnds : Code → List TagEnd
  | .nil => []
  | .lexeme _ rest => rest.tagEnds
  | .braces body rest => body.tagEnds ++ rest.tagEnds
  | .parens body rest => body.tagEnds ++ rest.tagEnds
  | .fragment body rest => body.tagEnds ++ rest.tagEnds
def Markup.tagEnds : Markup → List TagEnd
  | .nil => []
  | .lexeme _ rest => rest.tagEnds
  | .splice body rest => body.tagEnds ++ rest.tagEnds
  | .element name attrs body rest =>
    attrs.tagEnds ++ tagEnd name :: (body.tagEnds ++ rest.tagEnds)
  | .empty _ attrs _ rest => attrs.tagEnds ++ .other :: rest.tagEnds
def Attrs.tagEnds : Attrs → List TagEnd
  | .nil => []
  | .lexeme _ rest => rest.tagEnds
  | .braces body rest => body.tagEnds ++ rest.tagEnds
  | .parens body rest => body.tagEnds ++ rest.tagEnds
  | .unit rest => rest.tagEnds
end

mutual
/-- No `()` in a tag; no fragment in the code of a nested element `<xml>`; no tag inside
the tag of one, unless that tag ends in `/>` and the first tag to end in it opens no
element other than `<xml>`. `inner` holds inside a nested element. -/
def Code.Kept : Code → Bool → Prop
  | .nil, _ => True
  | .lexeme _ rest, inner => rest.Kept inner
  | .braces body rest, inner => body.Kept inner ∧ rest.Kept inner
  | .parens body rest, inner => body.Kept inner ∧ rest.Kept inner
  | .fragment body rest, inner => inner = false ∧ body.Kept false ∧ rest.Kept inner
def Markup.Kept : Markup → Bool → Prop
  | .nil, _ => True
  | .lexeme _ rest, inner => rest.Kept inner
  | .splice body rest, inner => body.Kept inner ∧ rest.Kept inner
  | .element name attrs body rest, inner =>
    attrs.Kept inner ∧ (name = xmlName → attrs.tagEnds = []) ∧
    body.Kept (inner || name = xmlName) ∧ rest.Kept inner
  | .empty name attrs _ rest, inner =>
    attrs.Kept inner ∧ (name = xmlName → attrs.tagEnds.head? ≠ some .opens) ∧ rest.Kept inner
def Attrs.Kept : Attrs → Bool → Prop
  | .nil, _ => True
  | .lexeme _ rest, inner => rest.Kept inner
  | .braces body rest, inner => body.Kept inner ∧ rest.Kept inner
  | .parens body rest, inner => body.Kept inner ∧ rest.Kept inner
  | .unit _, _ => False
end

end UrWeb.Parse
