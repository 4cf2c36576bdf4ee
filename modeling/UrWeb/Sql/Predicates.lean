import UrWeb.Sql.Parse
import UrWeb.Sql.Tokens

/-!
# Printed predicates

Predicates of SQL with the blanks and parentheses they are printed with, the
text they print to, and the expression they stand for. Fragments of the host
language stand for the expressions and constructors that `Meaning` gives them.
-/

namespace UrWeb.Sql

/-- What fragments of the host language stand for. -/
structure Meaning where
  exp : Text → Exp
  con : Text → Con

inductive CmpOp
  | eq
  | ne
  | lt
  | le
  | gt
  | ge
  deriving DecidableEq

def CmpOp.toks : CmpOp → List Tok
  | .eq => [.ch '=']
  | .ne => [.ch '<', .ch '>']
  | .lt => [.ch '<']
  | .le => [.ch '<', .ch '=']
  | .gt => [.ch '>']
  | .ge => [.ch '>', .ch '=']

def CmpOp.name : CmpOp → String
  | .eq => "eq"
  | .ne => "ne"
  | .lt => "lt"
  | .le => "le"
  | .gt => "gt"
  | .ge => "ge"

/-- `countAll` is printed with a star or with the word that stands for one, and with or without
blanks around it. -/
inductive Atom where
  | field (table field : Text)
  | dynamicField (table con : Text)
  | bare (field : Text)
  | int (n : Int64)
  | timestamp
  | countAll (star spaced : Bool)
  | inject (e : Text)
  | splice (e : Text)

/-- `left` and `right` are the blanks around an operator, or inside of parentheses. -/
inductive Pred where
  | atom (a : Atom)
  | isNull (p : Pred) (left : Text)
  | cmp (op : CmpOp) (p : Pred) (left right : Text) (q : Pred)
  | and (p : Pred) (left right : Text) (q : Pred)
  | or (p : Pred) (left right : Text) (q : Pred)
  | paren (left : Text) (p : Pred) (right : Text)

-- ---------------------------------------------------------------------------
-- Text
-- ---------------------------------------------------------------------------

def intToks (n : Int64) : List Tok :=
  let digits : Tok := .word (Nat.toDigits 10 n.toInt.natAbs)
  if n.toInt < 0 then [.ch '-', digits] else [digits]

def Atom.toks : Atom → List Tok
  | .field t f => [.word t, .ch '.', .word f]
  | .dynamicField t c => [.word t, .ch '.', .group ('\x7b' :: (c ++ ['\x7d']))]
  | .bare f => [.word f]
  | .int n => intToks n
  | .timestamp => [.word "CURRENT_TIMESTAMP".toList]
  | .countAll true false => [.word "COUNT".toList, .comment]
  | .countAll true true => [.word "COUNT".toList, .group "( * )".toList]
  | .countAll false false => [.word "COUNT".toList, .group "(sql_star)".toList]
  | .countAll false true => [.word "COUNT".toList, .group "( sql_star )".toList]
  | .inject e => [.group ('\x7b' :: (('[' :: e ++ [']']) ++ ['\x7d']))]
  | .splice e => [.group ('\x7b' :: (e ++ ['\x7d']))]

def blanks (ws : Text) : List Tok := ws.map Tok.ch

@[simp] theorem flat_blanks (ws : Text) : flat (blanks ws) = ws := by
  induction ws with
  | nil => rfl
  | cons c ws ih => simpa [blanks, Tok.text] using ih

def isNullToks : List Tok := [.word "IS".toList, .ch ' ', .word "NULL".toList]

def andToks : List Tok := [.word "AND".toList]

def orToks : List Tok := [.word "OR".toList]

def Pred.toks : Pred → List Tok
  | .atom a => a.toks
  | .isNull p left => p.toks ++ blanks left ++ isNullToks
  | .cmp op p left right q => p.toks ++ blanks left ++ op.toks ++ blanks right ++ q.toks
  | .and p left right q => p.toks ++ blanks left ++ andToks ++ blanks right ++ q.toks
  | .or p left right q => p.toks ++ blanks left ++ orToks ++ blanks right ++ q.toks
  | .paren left p right => [.group ('(' :: ((left ++ flat p.toks ++ right) ++ [')']))]

def Pred.text (p : Pred) : Text := flat p.toks

-- ---------------------------------------------------------------------------
-- Expressions
-- ---------------------------------------------------------------------------

section
variable (m : Meaning) (bareIdentifier : String → Exp)

def Atom.exp : Atom → Exp
  | .field t f => sqlFieldExpression (String.ofList t) (String.ofList f)
  | .dynamicField t c => sqlDynamicFieldExpression (String.ofList t) (m.con c)
  | .bare f => bareIdentifier (String.ofList f)
  | .int n => sqlIntegerExpression n
  | .timestamp => sqlCurrentTimestampExpression
  | .countAll _ _ => sqlCountAllExpression
  | .inject e => sqlInjectExpression (m.exp e)
  | .splice e => m.exp e

def Pred.exp : Pred → Exp
  | .atom a => a.exp m bareIdentifier
  | .isNull p _ => sqlIsNullExpression p.exp
  | .cmp op p _ _ q => sqlBinaryExpression op.name p.exp q.exp
  | .and p _ _ q => sqlBinaryExpression "and" p.exp q.exp
  | .or p _ _ q => sqlBinaryExpression "or" p.exp q.exp
  | .paren _ p _ => p.exp

end

/-- Equal up to the associativity of AND and OR, anywhere in the expression. -/
inductive SameUpToAssoc : Exp → Exp → Prop
  | refl (e : Exp) : SameUpToAssoc e e
  | symm : SameUpToAssoc e e' → SameUpToAssoc e' e
  | trans : SameUpToAssoc e e' → SameUpToAssoc e' e'' → SameUpToAssoc e e''
  | assoc (name : String) (hname : name = "and" ∨ name = "or") (e1 e2 e3 : Exp) :
      SameUpToAssoc (sqlBinaryExpression name (sqlBinaryExpression name e1 e2) e3)
        (sqlBinaryExpression name e1 (sqlBinaryExpression name e2 e3))
  | app : SameUpToAssoc e1 e1' → SameUpToAssoc e2 e2' → SameUpToAssoc (.app e1 e2) (.app e1' e2')
  | cApp (c : Con) : SameUpToAssoc e e' → SameUpToAssoc (.cApp e c) (.cApp e' c)
  | field (x : Con) (spread : Bool) : SameUpToAssoc e e' →
      SameUpToAssoc (.record (xes ++ (x, e) :: xes') spread) (.record (xes ++ (x, e') :: xes') spread)

-- ---------------------------------------------------------------------------
-- What is printed
-- ---------------------------------------------------------------------------

/-- The words of the lexer that no name can be. -/
def reserved : List Text :=
  ["AND", "AS", "COUNT", "CURRENT_TIMESTAMP", "DELETE", "FROM", "INSERT", "INTO", "IS", "JOIN",
    "LEFT", "NULL", "ON", "OR", "SET", "SELECT", "SQL", "UPDATE", "VALUES", "WHERE"].map
    String.toList

/-- An identifier of the lexer. -/
def Name (w : Text) : Prop :=
  (∃ c ∈ w.head?, c.isAlpha ∨ c = '_') ∧ (∀ c ∈ w, isIdentifierByte c) ∧ w ∉ reserved

def Blank (ws : Text) : Prop := ∀ c ∈ ws, isWhitespace c

/-- Operands of comparisons and of IS NULL. -/
def Pred.isOperand : Pred → Bool
  | .atom _ | .isNull _ _ | .paren _ _ _ => true
  | _ => false

def Pred.isOr : Pred → Bool
  | .or _ _ _ _ => true
  | _ => false

def Atom.Printed : Atom → Prop
  | .field t f => Name t ∧ Name f
  | .dynamicField t _ => Name t
  | .bare f => Name f
  | .splice e => ¬ (e.head? = some '[' ∧ e.getLast? = some ']')
  | _ => True

/-- Parentheses stand where the precedence of the operators needs them, and blanks around the
operators that are words. -/
def Pred.Printed : Pred → Prop
  | .atom a => a.Printed
  | .isNull p left => p.Printed ∧ p.isOperand ∧ Blank left ∧ left ≠ []
  | .cmp _ p left right q =>
    p.Printed ∧ q.Printed ∧ p.isOperand ∧ q.isOperand ∧ Blank left ∧ Blank right
  | .and p left right q =>
    p.Printed ∧ q.Printed ∧ p.isOr = false ∧ q.isOr = false ∧ Blank left ∧ Blank right ∧
      left ≠ [] ∧ right ≠ []
  | .or p left right q =>
    p.Printed ∧ q.Printed ∧ Blank left ∧ Blank right ∧ left ≠ [] ∧ right ≠ []
  | .paren left p right => p.Printed ∧ Blank left ∧ Blank right

-- ---------------------------------------------------------------------------
-- What is parsed
-- ---------------------------------------------------------------------------

/-- No apostrophe: the parser does not take such a name for a name. -/
def NoPrime (w : Text) : Prop := '\x27' ∉ w

/-- The parser reads the atom, where `last` tells whether the text ends with it. -/
def Atom.Readable (last : Bool) : Atom → Prop
  | .field t f => NoPrime t ∧ NoPrime f
  | .dynamicField t c => Balanced c ∧ isSimpleSqlAtom (t ++ ".\x7b".toList ++ c ++ ['\x7d']) ∧
      ¬ ".\x7b\x7b".toList <:+: t ++ ".\x7b".toList ++ c ++ ['\x7d']
  | .bare f => NoPrime f ∧ f.head? ≠ some '_'
  | .countAll true false => last
  | .inject e | .splice e => Balanced e
  | _ => True

/-- `<=` is never read; the other operators must not touch an identifier or a number; after
`COUNT(*)` nothing may follow but IS NULL. -/
def Pred.Readable (last : Bool) : Pred → Prop
  | .atom a => a.Readable last
  | .isNull p _ => p.Readable last
  | .cmp op p left right q => p.Readable false ∧ q.Readable last ∧ op ≠ .le ∧
      (left = [] → p.toks.getLast?.any Tok.isWord = false) ∧
      (right = [] → q.toks.head?.any Tok.isWord = false)
  | .and p _ _ q | .or p _ _ q => p.Readable false ∧ q.Readable last
  | .paren _ p _ => p.Readable false

/-- The host language parser reads the fragments of the predicate as what they stand for. -/
def Atom.FragmentsParsed (fragments : Fragments) (m : Meaning) : Atom → Prop
  | .dynamicField _ c => fragments.parseConstructorFragment (trim c) = .ok (m.con c)
  | .inject e | .splice e => fragments.parseExpressionFragment e = .ok (m.exp e)
  | _ => True

def Pred.FragmentsParsed (fragments : Fragments) (m : Meaning) : Pred → Prop
  | .atom a => a.FragmentsParsed fragments m
  | .isNull p _ | .paren _ p _ => p.FragmentsParsed fragments m
  | .cmp _ p _ _ q | .and p _ _ q | .or p _ _ q =>
    p.FragmentsParsed fragments m ∧ q.FragmentsParsed fragments m

end UrWeb.Sql
