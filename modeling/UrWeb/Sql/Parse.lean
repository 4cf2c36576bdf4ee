import Mathlib.Algebra.Group.Int.Defs
import Mathlib.Algebra.Group.Nat.Defs
import UrWeb.Sql.Syntax
import UrWeb.Sql.Scan

/-!
# The parser of SQL forms

Predicates are split at operators, tried one after the other as words of the
text, and statements at their keywords. Fragments of the host language are
parsed by the parser of the host language, which is a parameter. A predicate
runs on as many rounds as its text has characters, and every split makes the
text shorter.
-/

namespace UrWeb.Sql

inductive DiagnosticId
  | sqlCompatDynamicFieldMissingBraces
  | sqlCompatFieldMissingBrace
  | sqlCompatUnsupportedExpression
  | sqlCompatDynamicSelectFieldMissingBraces
  | sqlCompatUnsupportedSelectItem
  | sqlCompatLeftJoinMissingOn
  | sqlCompatJoinMissingOn
  | sqlCompatSelectMissingFrom
  | sqlCompatInsertMissingInto
  | sqlCompatInsertMissingFieldList
  | sqlCompatInsertFieldListMissingParen
  | sqlCompatInsertMissingValues
  | sqlCompatInsertValuesMissingOpenParen
  | sqlCompatInsertValuesMissingCloseParen
  | sqlCompatDeleteMissingFrom
  | sqlCompatDeleteMissingWhere
  | sqlCompatUpdateMissingSet
  | sqlCompatUpdateMissingWhere
  | sqlCompatUpdateAssignmentMissingEquals
  | sqlCompatUnsupportedPlaceholder
  | exprFragment
  | conFragment

structure DiagnosticPayload where
  id : DiagnosticId
  args : List Text

abbrev Parsed (α : Type) := Except DiagnosticPayload α

theorem Parsed.ok_bind (a : α) (f : α → Parsed β) : ((.ok a : Parsed α) >>= f) = f a := rfl

/-- The parsers of host language fragments. -/
structure Fragments where
  parseExpressionFragment : Text → Parsed Exp
  parseConstructorFragment : Text → Parsed Con

-- ---------------------------------------------------------------------------
-- Texts
-- ---------------------------------------------------------------------------

/-- The texts around the first occurrence of a pattern. -/
def splitOnce (pattern : Text) : Text → Option (Text × Text)
  | [] => if pattern.isEmpty then some ([], []) else none
  | c :: cs =>
    if pattern.isPrefixOf (c :: cs) then some ([], (c :: cs).drop pattern.length)
    else (splitOnce pattern cs).map fun (left, right) => (c :: left, right)

def stripPrefix (pattern s : Text) : Option Text :=
  if pattern.isPrefixOf s then some (s.drop pattern.length) else none

def stripSuffix (pattern s : Text) : Option Text :=
  if pattern.isSuffixOf s then some (s.take (s.length - pattern.length)) else none

/-- Takes a prefix away as often as it is there. -/
def trimStartMatches (pattern : Text) : Nat → Text → Text
  | 0, s => s
  | rounds + 1, s =>
    match stripPrefix pattern s with
    | some s' => trimStartMatches pattern rounds s'
    | none => s

/-- Decimal digits with a sign, in the range of 64 bits. -/
def parseI64 (s : Text) : Option Int64 :=
  let (negative, digits) := match s with
    | '-' :: cs => (true, cs)
    | '+' :: cs => (false, cs)
    | cs => (false, cs)
  if digits.isEmpty ∨ !digits.all Char.isDigit then none
  else
    let n := Nat.ofDigitChars 10 digits 0
    if negative then if n ≤ 2 ^ 63 then some (Int64.ofInt (-n)) else none
    else if n < 2 ^ 63 then some (Int64.ofInt n) else none

-- ---------------------------------------------------------------------------
-- Predicates
-- ---------------------------------------------------------------------------

/-- The binary operators in the order in which they are tried, with their names. -/
def binaryOperators : List (Text × String) :=
  [("OR".toList, "or"), ("AND".toList, "and"), ("<>".toList, "ne"), (">=".toList, "ge"),
    ("=".toList, "eq"), ("<=".toList, "le"), (">".toList, "gt"), ("<".toList, "lt")]

/-- The first of the operators that the text can be split at. -/
def findBinary (trimmed : Text) : List (Text × String) → Option (String × Text × Text)
  | [] => none
  | (separator, name) :: operators =>
    match splitTopLevel trimmed separator with
    | some (left, right) => some (name, left, right)
    | none => findBinary trimmed operators

section
variable (fragments : Fragments)

/-- A field that is computed by a constructor between `opening` and `closing`. -/
def parseDynamicField (closing : Text) (missing : DiagnosticId) (trimmed tableText fieldText : Text) :
    Parsed (String × Con) :=
  match stripSuffix closing fieldText with
  | none => .error ⟨missing, [trimmed]⟩
  | some conText => do
    let fieldConstructor ← fragments.parseConstructorFragment (trim conText)
    pure (String.ofList (trim tableText), fieldConstructor)

/-- Text without an operator. -/
def parseSqlAtom (bareIdentifierParser : String → Exp) (trimmed : Text) : Parsed Exp :=
  if trimmed = "CURRENT_TIMESTAMP".toList then .ok sqlCurrentTimestampExpression
  else if trimmed ∈ ["COUNT(sql_star)".toList, "COUNT( sql_star )".toList, "COUNT(*)".toList,
      "COUNT( * )".toList] then
    .ok sqlCountAllExpression
  else match parseI64 trimmed with
  | some n => .ok (sqlIntegerExpression n)
  | none =>
    if "\x7b[".toList.isPrefixOf trimmed && "]\x7d".toList.isSuffixOf trimmed then do
      let inner ← fragments.parseExpressionFragment ((trimmed.drop 2).take (trimmed.length - 4))
      pure (sqlInjectExpression inner)
    else if "\x7b".toList.isPrefixOf trimmed && "\x7d".toList.isSuffixOf trimmed then
      fragments.parseExpressionFragment ((trimmed.drop 1).take (trimmed.length - 2))
    else
      let fragment : Parsed Exp := match fragments.parseExpressionFragment trimmed with
        | .ok e => .ok e
        | .error _ => .error ⟨.sqlCompatUnsupportedExpression, [trimmed]⟩
      if isSimpleSqlAtom trimmed then
        match splitOnce ".\x7b\x7b".toList trimmed with
        | some (tableText, fieldText) => do
          let (tableName, con) ← parseDynamicField fragments "\x7d\x7d".toList
            .sqlCompatDynamicFieldMissingBraces trimmed tableText fieldText
          pure (sqlDynamicFieldExpression tableName con)
        | none =>
          match splitOnce ".\x7b".toList trimmed with
          | some (tableText, fieldText) => do
            let (tableName, con) ← parseDynamicField fragments "\x7d".toList
              .sqlCompatFieldMissingBrace trimmed tableText fieldText
            pure (sqlDynamicFieldExpression tableName con)
          | none =>
            match splitOnce ".".toList trimmed with
            | some (tableName, fieldName) =>
              .ok (sqlFieldExpression (String.ofList (trim tableName))
                (String.ofList (trim fieldName)))
            | none =>
              if trimmed.head?.any Char.isAlpha then
                .ok (bareIdentifierParser (String.ofList trimmed))
              else fragment
      else fragment

def parseSqlValueWithDefault (bareIdentifierParser : String → Exp) : Nat → Text → Parsed Exp
  | 0, s => .error ⟨.sqlCompatUnsupportedExpression, [s]⟩
  | rounds + 1, sourceText =>
    let trimmed := trimWrappingParens sourceText
    match findBinary trimmed binaryOperators with
    | some (name, left, right) => do
      let leftExpression ← parseSqlValueWithDefault bareIdentifierParser rounds left
      let rightExpression ← parseSqlValueWithDefault bareIdentifierParser rounds right
      pure (sqlBinaryExpression name leftExpression rightExpression)
    | none =>
      match stripSuffix "IS NULL".toList trimmed with
      | some pre => do
        let value ← parseSqlValueWithDefault bareIdentifierParser rounds (trim pre)
        pure (sqlIsNullExpression value)
      | none => parseSqlAtom fragments bareIdentifierParser trimmed

def parseSqlValue (sourceText : Text) : Parsed Exp :=
  parseSqlValueWithDefault fragments sqlDefaultTableFieldExpression (sourceText.length + 1) sourceText

-- ---------------------------------------------------------------------------
-- Statements
-- ---------------------------------------------------------------------------

/-- An answer that must be there. -/
def require (o : Option α) (id : DiagnosticId) : Parsed α :=
  match o with
  | some a => .ok a
  | none => .error ⟨id, []⟩

def parseSelectItem (itemText : Text) : Parsed SqlSelectItem :=
  match splitTopLevel itemText "AS".toList with
  | some (left, aliasName) => do
    let e ← parseSqlValue fragments left
    pure (.expression (String.ofList aliasName) e)
  | none =>
    match splitOnce ".\x7b\x7b".toList itemText with
    | some (tableText, fieldText) => do
      let (tableName, con) ← parseDynamicField fragments "\x7d\x7d".toList
        .sqlCompatDynamicSelectFieldMissingBraces itemText tableText fieldText
      pure (sqlSelectDynamicFieldsItem tableName con)
    | none =>
      match splitOnce ".".toList itemText with
      | some (tableName, fieldName) =>
        .ok (sqlSelectSingleFieldItem (String.ofList (trim tableName))
          (String.ofList (trim fieldName)))
      | none => .error ⟨.sqlCompatUnsupportedSelectItem, [itemText]⟩

def parseSelectSpec (sourceText : Text) : Parsed SqlSelectSpec :=
  let trimmed := trim sourceText
  if trimmed = "*".toList then .ok .star
  else do
    let items ← (splitTopLevelCommas trimmed).mapM (parseSelectItem fragments)
    pure (.items items)

def parseFromClause : Nat → Text → Parsed (List String × Exp)
  | 0, s => .error ⟨.sqlCompatUnsupportedExpression, [s]⟩
  | rounds + 1, sourceText =>
    match splitTopLevel sourceText "LEFT JOIN".toList with
    | some (left, right) => do
      let leftFrom ← parseFromClause rounds left
      let (rightSource, onClause) ← require (splitTopLevel right "ON".toList)
        .sqlCompatLeftJoinMissingOn
      let rightFrom ← parseFromClause rounds rightSource
      let predicate ← parseSqlValue fragments onClause
      pure (sqlJoinExpression .left leftFrom rightFrom predicate)
    | none =>
      match splitTopLevel sourceText "JOIN".toList with
      | some (left, right) => do
        let leftFrom ← parseFromClause rounds left
        let (rightSource, onClause) ← require (splitTopLevel right "ON".toList)
          .sqlCompatJoinMissingOn
        let rightFrom ← parseFromClause rounds rightSource
        let predicate ← parseSqlValue fragments onClause
        pure (sqlJoinExpression .inner leftFrom rightFrom predicate)
      | none =>
        match splitTopLevel sourceText ",".toList with
        | some (left, right) => do
          let leftFrom ← parseFromClause rounds left
          let rightFrom ← parseFromClause rounds right
          pure (sqlFromCommaExpression leftFrom rightFrom)
        | none =>
          let trimmed := trim sourceText
          match splitTopLevel trimmed "AS".toList with
          | some (tableName, aliasName) =>
            .ok (sqlTableReferenceWithAlias (String.ofList tableName)
              (some (String.ofList aliasName)))
          | none => .ok (sqlTableReferenceWithAlias (String.ofList trimmed) none)

def parseSelectPayload (sourceText : Text) : Parsed Exp := do
  let (selectText, fromAndWhere) ← require (splitTopLevel sourceText "FROM".toList)
    .sqlCompatSelectMissingFrom
  let (fromText, whereText) := match splitTopLevel fromAndWhere "WHERE".toList with
    | some (fromClause, whereClause) => (fromClause, some whereClause)
    | none => (fromAndWhere, none)
  let selectSpec ← parseSelectSpec fragments
    (trim (trimStartMatches "SELECT".toList selectText.length selectText))
  let fromClause ← parseFromClause fragments (fromText.length + 1) fromText
  let whereExpression ← match whereText with
    | some predicateText => parseSqlValue fragments predicateText
    | none => pure sqlTrueExpression
  pure (desugarSqlSelectQuery selectSpec fromClause.1 fromClause.2 whereExpression)

/-- The text between the parenthesis at the start and the one that closes it, and the text
behind. -/
def betweenParens (s : Text) (id : DiagnosticId) : Parsed (Text × Text) := do
  let close ← require (findMatchingRparen s) id
  pure ((s.drop 1).take (close - 2), s.drop close)

def parseInsertPayload (sourceText : Text) : Parsed Exp := do
  let afterInto ← require
    (stripPrefix "INTO".toList (trim (trimStartMatches "INSERT".toList sourceText.length sourceText)))
    .sqlCompatInsertMissingInto
  let afterInto := trim afterInto
  let (tableText, _) ← require (splitOnce "(".toList afterInto) .sqlCompatInsertMissingFieldList
  let (fieldText, afterFields) ← betweenParens (afterInto.drop tableText.length)
    .sqlCompatInsertFieldListMissingParen
  let valuesPayload ← require (stripPrefix "VALUES".toList (trim afterFields))
    .sqlCompatInsertMissingValues
  let valuesPayload := trim valuesPayload
  if valuesPayload.head? ≠ some '(' then .error ⟨.sqlCompatInsertValuesMissingOpenParen, []⟩
  else
    let (valueText, _) ← betweenParens valuesPayload .sqlCompatInsertValuesMissingCloseParen
    let fields := splitTopLevelCommas fieldText
    let values ← (splitTopLevelCommas valueText).mapM (parseSqlValue fragments)
    pure (desugarSqlInsertExpression (String.ofList (trim tableText)) (fields.map String.ofList)
      values)

def parseDeletePayload (sourceText : Text) : Parsed Exp := do
  let afterDelete ← require
    (stripPrefix "FROM".toList (trim (trimStartMatches "DELETE".toList sourceText.length sourceText)))
    .sqlCompatDeleteMissingFrom
  let (tableName, predicateText) ← require (splitTopLevel (trim afterDelete) "WHERE".toList)
    .sqlCompatDeleteMissingWhere
  let predicate ← parseSqlValue fragments predicateText
  pure (desugarSqlDeleteExpression (String.ofList tableName) predicate)

def parseAssignment (assignment : Text) : Parsed (String × Exp) := do
  let (fieldName, valueText) ← require (splitTopLevel assignment "=".toList)
    .sqlCompatUpdateAssignmentMissingEquals
  let value ← parseSqlValue fragments valueText
  pure (String.ofList fieldName, value)

def parseUpdatePayload (sourceText : Text) : Parsed Exp := do
  let afterUpdate := trim (trimStartMatches "UPDATE".toList sourceText.length sourceText)
  let (tableName, setAndWhere) ← require (splitTopLevel afterUpdate "SET".toList)
    .sqlCompatUpdateMissingSet
  let (assignmentText, predicateText) ← require (splitTopLevel setAndWhere "WHERE".toList)
    .sqlCompatUpdateMissingWhere
  let assignments ← (splitTopLevelCommas assignmentText).mapM (parseAssignment fragments)
  let predicate ← parseSqlValue fragments predicateText
  pure (desugarSqlUpdateExpression (String.ofList tableName) assignments predicate)

def parseSqlPayload (payload : Text) : Parsed Exp :=
  let trimmed := trim payload
  if "SELECT ".toList.isPrefixOf trimmed then parseSelectPayload fragments trimmed
  else if "INSERT ".toList.isPrefixOf trimmed then parseInsertPayload fragments trimmed
  else if "DELETE ".toList.isPrefixOf trimmed then parseDeletePayload fragments trimmed
  else if "UPDATE ".toList.isPrefixOf trimmed then parseUpdatePayload fragments trimmed
  else match stripPrefix "WHERE".toList trimmed with
  | some whereBody => parseSqlValue fragments (trim whereBody)
  | none =>
    match stripPrefix "SQL".toList trimmed with
    | some sqlBody => parseSqlValue fragments (trim sqlBody)
    | none => .error ⟨.sqlCompatUnsupportedPlaceholder, [trimmed]⟩

end

end UrWeb.Sql
