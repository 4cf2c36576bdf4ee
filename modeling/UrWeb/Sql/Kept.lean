import UrWeb.Sql.Parse

/-!
# What desugaring keeps

How the parser cuts a payload into clauses, and what it means that the result
keeps all of them: the clauses make up the text, and every column, value, item,
assignment and table is in the expression.
-/

namespace UrWeb.Sql

/-- A text consists of these pieces, in their order, and of white space between them. -/
def Spells : List Text → Text → Prop
  | [], s => ∀ c ∈ s, isWhitespace c
  | p :: ps, s => ∃ ws rest, (∀ c ∈ ws, isWhitespace c) ∧ s = ws ++ (p ++ rest) ∧ Spells ps rest

/-- A comma stands between every two of the pieces. -/
def commaSeparated (ps : List Text) : List Text := ps.intersperse ",".toList

section
variable (fragments : Fragments)

-- ---------------------------------------------------------------------------
-- INSERT
-- ---------------------------------------------------------------------------

/-- The texts of the table, the columns and the values, and what is behind them. -/
structure InsertCut where
  table : Text
  columns : Text
  values : Text
  behind : Text

def insertCut (s : Text) : Option InsertCut := do
  let afterInto ← stripPrefix "INTO".toList (trim (trimStartMatches "INSERT".toList s.length s))
  let (table, _) ← splitOnce "(".toList (trim afterInto)
  let fromColumns := (trim afterInto).drop table.length
  let closeColumns ← findMatchingRparen fromColumns
  let afterValues ← stripPrefix "VALUES".toList (trim (fromColumns.drop closeColumns))
  let fromValues := trim afterValues
  guard (fromValues.head? = some '(')
  let closeValues ← findMatchingRparen fromValues
  some
    { table := trim table
      columns := (fromColumns.drop 1).take (closeColumns - 2)
      values := (fromValues.drop 1).take (closeValues - 2)
      behind := fromValues.drop closeValues }

/-- The record that is inserted has the columns and the values, all of both. -/
def InsertKept (s : Text) (e : Exp) : Prop :=
  ∃ c fields, insertCut s = some c ∧
    Spells ["INSERT".toList, "INTO".toList, c.table, "(".toList, c.columns, ")".toList,
      "VALUES".toList, "(".toList, c.values, ")".toList] s ∧
    Spells (commaSeparated (splitTopLevelCommas c.columns)) c.columns ∧
    Spells (commaSeparated (splitTopLevelCommas c.values)) c.values ∧
    e = .app (.app (basisVarExpression "insert") (.var [] (String.ofList c.table) .infer))
      (.record fields false) ∧
    fields.map Prod.fst =
      (splitTopLevelCommas c.columns).map (fun t => sqlNameConstructor (String.ofList t)) ∧
    List.Forall₂ (fun t v => parseSqlValue fragments t = .ok v) (splitTopLevelCommas c.values)
      (fields.map Prod.snd)

/-- There are as many values as columns, and nothing behind them. -/
def InsertComplete (s : Text) : Prop :=
  ∀ c, insertCut s = some c →
    (splitTopLevelCommas c.columns).length = (splitTopLevelCommas c.values).length ∧
    ∀ ch ∈ c.behind, isWhitespace ch

-- ---------------------------------------------------------------------------
-- SELECT
-- ---------------------------------------------------------------------------

/-- The texts of the items, the sources and the condition. -/
structure SelectCut where
  items : Text
  sources : Text
  condition : Option Text

def selectCut (s : Text) : Option SelectCut := do
  let (selectText, fromAndWhere) ← splitTopLevel s "FROM".toList
  let items := trim (trimStartMatches "SELECT".toList selectText.length selectText)
  match splitTopLevel fromAndWhere "WHERE".toList with
  | some (sources, condition) => some ⟨items, sources, some condition⟩
  | none => some ⟨items, fromAndWhere, none⟩

/-- The sources make up the text, and the expression that stands for them has all of them. -/
inductive FromKept : Text → List String × Exp → Prop
  | table (h : Spells [table] s) :
    FromKept s (sqlTableReferenceWithAlias (String.ofList table) none)
  | alias (h : Spells [table, "AS".toList, name] s) :
    FromKept s (sqlTableReferenceWithAlias (String.ofList table) (some (String.ofList name)))
  | comma (h : Spells [left, ",".toList, right] s) (hl : FromKept left x) (hr : FromKept right y) :
    FromKept s (sqlFromCommaExpression x y)
  | join (kind : SqlJoinKind) (h : Spells [left, keyword, right, "ON".toList, on] s)
    (hk : keyword = match kind with | .left => "LEFT JOIN".toList | .inner => "JOIN".toList)
    (hl : FromKept left x) (hr : FromKept right y) (hp : parseSqlValue fragments on = .ok p) :
    FromKept s (sqlJoinExpression kind x y p)

/-- The rows that a row is put together from, itself included. -/
def Con.parts : Con → List Con
  | .concat c1 c2 => .concat c1 c2 :: (c1.parts ++ c2.parts)
  | c => [c]

/-- What an item selects is among what the query selects. -/
def SqlSelectItem.Contributes (selected : List (Con × Con)) (exps : List (Con × Exp)) :
    SqlSelectItem → Prop
  | .expression aliasName e => (Con.name aliasName, sqlWrapWindowExpression e) ∈ exps
  | .fields table row =>
    ∃ all, (Con.name table, Con.tuple [all, sqlWildTypeRow]) ∈ selected ∧
      (sqlIsEmptyRow row ∨ row ∈ all.parts)

/-- Every item is selected, or everything of every table. -/
inductive ItemsKept (names : List String) (selected : List (Con × Con)) (exps : List (Con × Exp)) :
    Text → Prop
  | star (h : ∀ name ∈ names,
      (Con.name name, Con.tuple [sqlWildTypeRow, emptyRowConstructor]) ∈ selected) :
    ItemsKept names selected exps "*".toList
  | items (hs : s ≠ "*".toList) (h : Spells (commaSeparated (splitTopLevelCommas s)) s)
    (hp : List.Forall₂ (fun t item => parseSelectItem fragments t = .ok item)
      (splitTopLevelCommas s) items)
    (hc : ∀ item ∈ items, item.Contributes selected exps) : ItemsKept names selected exps s

def SelectKept (s : Text) (e : Exp) : Prop :=
  ∃ c names source condition empties selected exps, selectCut s = some c ∧
    Spells (["SELECT".toList, c.items, "FROM".toList, c.sources] ++
      match c.condition with
      | some t => ["WHERE".toList, t]
      | none => []) s ∧
    FromKept fragments c.sources (names, source) ∧
    (match c.condition with
    | some t => parseSqlValue fragments t = .ok condition
    | none => condition = sqlTrueExpression) ∧
    ItemsKept fragments names selected exps c.items ∧
    (∀ name ∈ names, Con.name name ∈ selected.map Prod.fst) ∧
    e = sqlQueryExpression (.app (.cApp (basisVarExpression "sql_query1") (.record empties))
      (sqlQuery1Record source condition selected exps))

/-- The table whose fields an item selects. -/
def itemTable (item : Text) : Option String :=
  match splitTopLevel item "AS".toList with
  | some _ => none
  | none =>
    match splitOnce ".\x7b\x7b".toList item with
    | some (table, _) => some (sqlNameFromSurface (String.ofList (trim table)))
    | none =>
      (splitOnce ".".toList item).map fun (table, _) =>
        sqlNameFromSurface (String.ofList (trim table))

/-- The names of the sources. -/
def sourceNames : Nat → Text → List String
  | 0, _ => []
  | rounds + 1, s =>
    match (splitTopLevel s "LEFT JOIN".toList).or (splitTopLevel s "JOIN".toList) with
    | some (left, right) =>
      match splitTopLevel right "ON".toList with
      | some (right, _) => sourceNames rounds left ++ sourceNames rounds right
      | none => sourceNames rounds left
    | none =>
      match splitTopLevel s ",".toList with
      | some (left, right) => sourceNames rounds left ++ sourceNames rounds right
      | none =>
        match splitTopLevel (trim s) "AS".toList with
        | some (_, name) => [sqlNameFromSurface (String.ofList name)]
        | none => [sqlNameFromSurface (String.ofList (trim s))]

/-- Every item that selects fields names one of the sources. -/
def SelectComplete (s : Text) : Prop :=
  ∀ c, selectCut s = some c → c.items ≠ "*".toList → ∀ item ∈ splitTopLevelCommas c.items,
    ∀ table, itemTable item = some table → table ∈ sourceNames (c.sources.length + 1) c.sources

-- ---------------------------------------------------------------------------
-- The other payloads
-- ---------------------------------------------------------------------------

def DeleteKept (s : Text) (e : Exp) : Prop :=
  ∃ table condition p, Spells ["DELETE".toList, "FROM".toList, table, "WHERE".toList, condition] s ∧
    parseSqlValue fragments condition = .ok p ∧
    e = .app (.app (basisVarExpression "delete") (.var [] (String.ofList table) .infer)) p

/-- An assignment and the field of the record of changes. -/
def AssignmentKept (s : Text) (f : Con × Exp) : Prop :=
  ∃ name value, Spells [name, "=".toList, value] s ∧ f.1 = sqlNameConstructor (String.ofList name) ∧
    parseSqlValue fragments value = .ok f.2

def UpdateKept (s : Text) (e : Exp) : Prop :=
  ∃ table changes condition fields p,
    Spells ["UPDATE".toList, table, "SET".toList, changes, "WHERE".toList, condition] s ∧
    Spells (commaSeparated (splitTopLevelCommas changes)) changes ∧
    List.Forall₂ (AssignmentKept fragments) (splitTopLevelCommas changes) fields ∧
    parseSqlValue fragments condition = .ok p ∧
    e = .app (.app (.app (.cApp (basisVarExpression "update") sqlWildTypeRow)
      (.record fields false)) (.var [] (String.ofList table) .infer)) p

def ConditionKept (keyword s : Text) (e : Exp) : Prop :=
  ∃ condition, Spells [keyword, condition] s ∧ parseSqlValue fragments condition = .ok e

/-- Nothing of the payload is dropped. -/
def Kept (payload : Text) (e : Exp) : Prop :=
  let s := trim payload
  if "SELECT ".toList.isPrefixOf s then SelectKept fragments s e
  else if "INSERT ".toList.isPrefixOf s then InsertKept fragments s e
  else if "DELETE ".toList.isPrefixOf s then DeleteKept fragments s e
  else if "UPDATE ".toList.isPrefixOf s then UpdateKept fragments s e
  else if "WHERE".toList.isPrefixOf s then ConditionKept fragments "WHERE".toList s e
  else ConditionKept fragments "SQL".toList s e

/-- The payload is no INSERT with too many columns or values or with text behind them, and no
SELECT of fields of another table. -/
def Complete (payload : Text) : Prop :=
  let s := trim payload
  if "SELECT ".toList.isPrefixOf s then SelectComplete s
  else if "INSERT ".toList.isPrefixOf s then InsertComplete s
  else True

end

end UrWeb.Sql
