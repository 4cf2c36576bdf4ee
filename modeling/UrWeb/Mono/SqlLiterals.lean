import UrWeb.Lib.Rewriting

/-!
# SQL text and its string literals

The encoder of string literals and the passes that rewrite names in finished SQL
text. The passes look for the end of a literal in one way for every backend, and
the cast removal does not look at all. Texts are lists of characters.
-/

namespace UrWeb.Mono.SqlLiterals

open Text

inductive SqlFlavor
  | sqlite
  | mysql
  | postgresql
  deriving DecidableEq

inductive ProjectDb
  | sql (flavor : SqlFlavor)
  | persy
  | rocksdb
  | ndb
  | tigerbeetle
  deriving DecidableEq

def ProjectDb.isMysql (db : ProjectDb) : Bool := db = .sql .mysql

def ProjectDb.isSqlite (db : ProjectDb) : Bool := db = .sql .sqlite

abbrev quote : Char := '\x27'

abbrev backslash : Char := '\x5c'

-- ---------------------------------------------------------------------------
-- The encoder
-- ---------------------------------------------------------------------------

def escaped (s : List Char) : List Char :=
  s.flatMap fun c =>
    if c = quote then [backslash, quote]
    else if c = backslash then [backslash, backslash]
    else [c]

/-- `s.replace('\'', "''")`. -/
def doubled (s : List Char) : List Char :=
  s.flatMap fun c => if c = quote then [quote, quote] else [c]

def sqlifyString (db : ProjectDb) (s : List Char) : List Char :=
  match db.isMysql with
  | true => quote :: (escaped s ++ [quote])
  | false => quote :: (doubled s ++ [quote])

-- ---------------------------------------------------------------------------
-- The scanners
-- ---------------------------------------------------------------------------

/-- What is copied from behind an opening quote, and the text behind the literal. -/
def copySqlSingleQuotedLiteral : Nat → List Char → List Char × List Char
  | 0, s => ([], s)
  | _ + 1, [] => ([], [])
  | budget + 1, c :: s =>
    if c = backslash ∧ s.head? = some backslash then
      let r := copySqlSingleQuotedLiteral budget s.tail
      (backslash :: backslash :: r.1, r.2)
    else if c = backslash ∧ s.head? = some quote then
      let r := copySqlSingleQuotedLiteral budget s.tail
      (backslash :: quote :: r.1, r.2)
    else if c = quote then ([quote], s)
    else
      let r := copySqlSingleQuotedLiteral budget s
      (c :: r.1, r.2)

/-- The loop that `un_as`, `uwify_inner` and `uwify_viewify` share: outside literals a pattern is
replaced, and literals are copied. `length` is the length of the whole text. -/
def scan (rules : List (List Char × List Char)) (length : Nat) : Nat → List Char → List Char
  | 0, _ => []
  | _ + 1, [] => []
  | budget + 1, c :: s =>
    match firstMatch rules (c :: s) with
    | some r => r.2 ++ scan rules length budget ((c :: s).drop r.1.length)
    | none =>
      if c = quote then
        let r := copySqlSingleQuotedLiteral length s
        quote :: (r.1 ++ scan rules length budget r.2)
      else c :: scan rules length budget s

def aliases : List (List Char × List Char) := [(['T', '_', 'T', '.'], [])]

def unAs (s : List Char) : List Char := scan aliases s.length s.length s

/-- An expression for SQL text; a call of a foreign function stands with the text it evaluates to,
and what else there is stays out. -/
inductive SqlExp
  | strcat (s1 s2 : SqlExp)
  | string (s : List Char)
  | ffiApp (m f : String) (value : List Char)
  | other

def parts : SqlExp → Option (List SqlExp)
  | .strcat s1 s2 =>
    match parts s1, parts s2 with
    | some p1, some p2 => some (p1 ++ p2)
    | _, _ => none
  | .string s => some [.string (unAs s)]
  | .ffiApp m f value =>
    if m = "Basis" ∧ "sqlify".toList.isPrefixOf f.toList then some [.ffiApp m f value] else none
  | .other => none

def unAsExp (e : SqlExp) : Option SqlExp :=
  match parts e with
  | none => none
  | some ps =>
    match ps.reverse with
    | [] => none
    | first :: ps => some (ps.foldl (fun acc p => .strcat p acc) first)

def identifiers : List (List Char × List Char) :=
  [(['(', '_'], ['(', 'u', 'w', '_']), ([' ', '_'], [' ', 'u', 'w', '_'])]

def uwifyInner (s : List Char) : List Char := scan identifiers s.length s.length s

def uwifyCheckString (s : List Char) : List Char :=
  match s with
  | '_' :: s => ['u', 'w', '_'] ++ uwifyInner s
  | s => uwifyInner s

def columns : List (List Char × List Char) :=
  [(['A', 'S', ' ', '_'], ['A', 'S', ' ', 'u', 'w', '_']),
    (['A', 'S', '_', '_'], ['A', 'S', ' ', 'u', 'w', '_'])]

def uwifyViewify (s : List Char) : List Char := scan columns s.length s.length s

def casts : List (List Char) :=
  [[':', ':', 'i', 'n', 't', '8'], [':', ':', 'f', 'l', 'o', 'a', 't', '8'],
    [':', ':', 't', 'e', 'x', 't'], [':', ':', 'c', 'h', 'a', 'r'],
    [':', ':', 'b', 'y', 't', 'e', 'a'], [':', ':', 'i', 'n', 't', '4']]

def normalizeDdlSql (db : ProjectDb) (sql : List Char) : List Char :=
  if !db.isSqlite then sql else casts.foldl (fun s cast => replace cast [] s) sql

-- ---------------------------------------------------------------------------
-- SQL text made of fragments and literals
-- ---------------------------------------------------------------------------

/-- A text without quotes. -/
abbrev Fragment := { s : List Char // quote ∉ s }

/-- A fragment, and strings to be encoded as literals, each with the fragment behind it. -/
structure SqlString where
  first : Fragment
  rest : List (List Char × Fragment)

/-- The text in which the fragments are rewritten. -/
def literals (db : ProjectDb) (f : List Char → List Char) (ps : List (List Char × Fragment)) :
    List Char :=
  ps.flatMap fun p => sqlifyString db p.1 ++ f p.2.1

def SqlString.rewritten (p : SqlString) (db : ProjectDb) (f : List Char → List Char) : List Char :=
  f p.first.1 ++ literals db f p.rest

def SqlString.text (p : SqlString) (db : ProjectDb) : List Char := p.rewritten db id

/-- A text of its own that begins with `_` is renamed at its beginning as well. -/
def SqlString.renamed (p : SqlString) (db : ProjectDb) : List Char :=
  match p.first.1 with
  | '_' :: s => ['u', 'w', '_'] ++ rewrite identifiers s ++ literals db (rewrite identifiers) p.rest
  | s => rewrite identifiers s ++ literals db (rewrite identifiers) p.rest

def SqlExp.leaves : SqlExp → List SqlExp
  | .strcat s1 s2 => s1.leaves ++ s2.leaves
  | e => [e]

/-- The text an expression evaluates to. -/
def SqlExp.value : SqlExp → List Char
  | .strcat s1 s2 => s1.value ++ s2.value
  | .string s => s
  | .ffiApp _ _ value => value
  | .other => []

/-- What is concatenated when the literals are encoded at run time. -/
def SqlString.leaves (p : SqlString) (db : ProjectDb) : List SqlExp :=
  .string p.first.1 :: p.rest.flatMap fun q =>
    [.ffiApp "Basis" "sqlifyString" (sqlifyString db q.1), .string q.2.1]

/-- Every pass rewrites the fragments and leaves the literals as they are. -/
structure SqlString.Respected (p : SqlString) (db : ProjectDb) : Prop where
  unAs : unAs (p.text db) = p.rewritten db (replace ['T', '_', 'T', '.'] [])
  unAsExp : ∀ e : SqlExp, e.leaves = p.leaves db →
    (unAsExp e).map SqlExp.value = some (p.rewritten db (replace ['T', '_', 'T', '.'] []))
  uwifyCheckString : uwifyCheckString (p.text db) = p.renamed db
  uwifyViewify : uwifyViewify (p.text db) = p.rewritten db (rewrite columns)
  normalizeDdlSql : normalizeDdlSql db (p.text db) = p.rewritten db (normalizeDdlSql db)

-- ---------------------------------------------------------------------------
-- When they do
-- ---------------------------------------------------------------------------

/-- What is left of a string behind the first quote, or the end, that an odd number of backslashes
stands before. -/
def slip (odd : Bool) : List Char → Option (List Char)
  | [] => if odd then some [] else none
  | c :: s =>
    if c = quote then if odd then some s else slip false s
    else slip (c = backslash && !odd) s

/-- An odd number of backslashes stands at the end. -/
def endsOdd (odd : Bool) : List Char → Bool
  | [] => odd
  | c :: s => endsOdd (c = backslash && !odd) s

/-- The pieces that are read as literals although they are fragments, or as fragments although they
belong to literals, when quotes are doubled and `inStep` is where reading stands before the first
literal. -/
def misread (inStep : Bool) : List (List Char × Fragment) → List (List Char)
  | [] => []
  | (x, f) :: ps =>
    if inStep then
      match slip false x with
      | none => misread true ps
      | some b => b :: f.1 :: misread (endsOdd false f.1) ps
    else x :: f.1 :: misread (endsOdd false f.1) ps

/-- Nothing that is misread has anything to rewrite in it, and no literal has a cast in it. -/
structure SqlString.Safe (p : SqlString) (db : ProjectDb) : Prop where
  misread : db.isMysql = false → ∀ s ∈ misread true p.rest,
    Unmatched aliases s ∧ Unmatched identifiers s ∧ Unmatched columns s
  casts : db.isSqlite = true → ∀ q ∈ p.rest, ∀ cast ∈ casts, ¬cast <:+: q.1

end UrWeb.Mono.SqlLiterals
