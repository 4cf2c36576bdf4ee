import UrWeb.Primitives

/-!
# Surface expressions for SQL

The part of the surface syntax that SQL forms are rewritten to, and the helpers
that build it. Fragments of the host language may have any shape; shapes that
the helpers never build are all `other`. Spans are left out. Names are those of
the lexer, which are ASCII.
-/

namespace UrWeb.Sql

inductive Kind where
  | type
  | record (k : Kind)
  deriving DecidableEq

inductive Con where
  | var (ms : List String) (x : String)
  | name (s : String)
  | record (xcs : List (Con × Con))
  | concat (c1 c2 : Con)
  | unit
  | tuple (cs : List Con)
  | wild (k : Kind)
  | other (shape : Nat)

inductive Inference
  | infer
  | dontInfer
  | typesOnly
  deriving DecidableEq

inductive Exp where
  | prim (p : Prim)
  | var (ms : List String) (x : String) (infer : Inference)
  | app (e1 e2 : Exp)
  | cApp (e : Exp) (c : Con)
  | record (xes : List (Con × Exp)) (spread : Bool)
  | wild
  | other (shape : Nat)

-- ---------------------------------------------------------------------------
-- Expressions
-- ---------------------------------------------------------------------------

def basisVarExpression (name : String) : Exp := .var ["Basis"] name .infer

def emptyRowConstructor : Con := .record []

def basisBoolExpression : Bool → Exp
  | true => basisVarExpression "True"
  | false => basisVarExpression "False"

def capitalizeIdentifier (name : String) : String :=
  match name.toList with
  | c :: cs => String.ofList (c.toUpper :: cs)
  | [] => ""

def sqlNameFromSurface (name : String) : String := capitalizeIdentifier name

def sqlNameConstructor (name : String) : Con := .name (sqlNameFromSurface name)

def sqlInjectExpression (value : Exp) : Exp := .app (basisVarExpression "sql_inject") value

def sqlBinaryExpression (operatorName : String) (left right : Exp) : Exp :=
  .app (.app (.app (basisVarExpression "sql_binary")
    (basisVarExpression ("sql_" ++ operatorName))) left) right

def sqlIsNullExpression (value : Exp) : Exp := .app (basisVarExpression "sql_is_null") value

def sqlCountAllExpression : Exp := basisVarExpression "sql_count"

def sqlCurrentTimestampExpression : Exp :=
  .app (basisVarExpression "sql_nfunc") (basisVarExpression "sql_current_timestamp")

def sqlIntegerExpression (value : Int64) : Exp := sqlInjectExpression (.prim (.int value))

def sqlWrapWindowExpression (value : Exp) : Exp := .app (basisVarExpression "sql_window") value

def sqlTableReferenceWithAlias (tableName : String) (aliasName : Option String) : List String × Exp :=
  let aliasName := sqlNameFromSurface (aliasName.getD tableName)
  ([aliasName], .app (.cApp (basisVarExpression "sql_from_table") (sqlNameConstructor aliasName))
    (.var [] tableName .infer))

def sqlFieldExpression (tableName fieldName : String) : Exp :=
  .cApp (.cApp (basisVarExpression "sql_field") (sqlNameConstructor tableName))
    (sqlNameConstructor fieldName)

def sqlDynamicFieldExpression (tableName : String) (fieldName : Con) : Exp :=
  .cApp (.cApp (basisVarExpression "sql_field") (sqlNameConstructor tableName)) fieldName

def sqlDefaultTableFieldExpression (fieldName : String) : Exp := sqlFieldExpression "T" fieldName

def sqlRowFieldExpression (fieldName : String) : Exp :=
  .cApp (basisVarExpression "sql_exp") (sqlNameConstructor fieldName)

def sqlTrueExpression : Exp := sqlInjectExpression (basisBoolExpression true)

def sqlWildTypeRow : Con := .wild (.record .type)

def sqlOrderByNilExpression : Exp := .cApp (basisVarExpression "sql_order_by_Nil") sqlWildTypeRow

def sqlSubsetAllExpression : Exp :=
  .cApp (basisVarExpression "sql_subset_all") (.wild (.record (.record .type)))

def sqlSubsetExpression (subset : Con) : Exp := .cApp (basisVarExpression "sql_subset") subset

def sqlSingleFieldRow (fieldName : String) : Con :=
  .record [(sqlNameConstructor fieldName, .wild .type)]

def sqlIsEmptyRow : Con → Bool
  | .record [] => true
  | _ => false

def sqlConcatRows (left right : Con) : Con :=
  if sqlIsEmptyRow left then right
  else if sqlIsEmptyRow right then left
  else .concat left right

-- ---------------------------------------------------------------------------
-- Statements
-- ---------------------------------------------------------------------------

inductive SqlSelectItem where
  | expression (aliasName : String) (expression : Exp)
  | fields (tableName : String) (fields : Con)

inductive SqlSelectSpec where
  | star
  | items (items : List SqlSelectItem)

inductive SqlJoinKind
  | inner
  | left
  deriving DecidableEq

def sqlSelectSingleFieldItem (tableName fieldName : String) : SqlSelectItem :=
  .fields (sqlNameFromSurface tableName) (sqlSingleFieldRow fieldName)

def sqlSelectDynamicFieldsItem (tableName : String) (fields : Con) : SqlSelectItem :=
  .fields (sqlNameFromSurface tableName) fields

def sqlQueryExpression (query1 : Exp) : Exp :=
  .app (basisVarExpression "sql_query")
    (.record [(.name "Rows", query1), (.name "OrderBy", sqlOrderByNilExpression),
      (.name "Limit", basisVarExpression "sql_no_limit"),
      (.name "Offset", basisVarExpression "sql_no_offset")] false)

/-- Adds the selected fields to the row of the first table of that name. -/
def addFields (tableName : String) (fields : Con) : List (String × Con) → List (String × Con)
  | [] => []
  | (existingName, existingFields) :: rows =>
    if existingName = tableName then (existingName, sqlConcatRows existingFields fields) :: rows
    else (existingName, existingFields) :: addFields tableName fields rows

def sqlQuery1Record (fromExpression whereExpression : Exp) (selectedFields : List (Con × Con))
    (selectExpressions : List (Con × Exp)) : Exp :=
  .record [(.name "Distinct", basisBoolExpression false), (.name "From", fromExpression),
    (.name "Where", whereExpression), (.name "GroupBy", sqlSubsetAllExpression),
    (.name "Having", sqlTrueExpression),
    (.name "SelectFields", sqlSubsetExpression (.record selectedFields)),
    (.name "SelectExps", .record selectExpressions false)] false

def desugarSqlSelectQuery (selectSpec : SqlSelectSpec) (fromNames : List String)
    (fromExpression whereExpression : Exp) : Exp :=
  match selectSpec with
  | .star =>
    let selectedFields := fromNames.map fun tableName =>
      (Con.name tableName, Con.tuple [sqlWildTypeRow, emptyRowConstructor])
    sqlQueryExpression (.app (.cApp (basisVarExpression "sql_query1") (.record []))
      (sqlQuery1Record fromExpression whereExpression selectedFields []))
  | .items selectItems =>
    let selectExpressions := selectItems.filterMap fun
      | .expression aliasName e => some (Con.name aliasName, sqlWrapWindowExpression e)
      | .fields _ _ => none
    let tableRows := selectItems.foldl (fun rows item => match item with
      | .expression _ _ => rows
      | .fields tableName fields => addFields tableName fields rows)
      (fromNames.map fun tableName => (tableName, emptyRowConstructor))
    let empties := tableRows.filterMap fun (tableName, fields) =>
      if sqlIsEmptyRow fields then some (Con.name tableName, Con.unit) else none
    let selectedFields := tableRows.map fun (tableName, fields) =>
      (Con.name tableName, Con.tuple [fields, sqlWildTypeRow])
    sqlQueryExpression (.app (.cApp (basisVarExpression "sql_query1") (.record empties))
      (sqlQuery1Record fromExpression whereExpression selectedFields selectExpressions))

def sqlFromCommaExpression (left right : List String × Exp) : List String × Exp :=
  (left.1 ++ right.1, .app (.app (basisVarExpression "sql_from_comma") left.2) right.2)

def sqlJoinExpression (joinKind : SqlJoinKind) (left right : List String × Exp) (predicate : Exp) :
    List String × Exp :=
  let joinExpression := match joinKind with
    | .inner => basisVarExpression "sql_inner_join"
    | .left => .app (basisVarExpression "sql_left_join") .wild
  (left.1 ++ right.1, .app (.app (.app joinExpression left.2) right.2) predicate)

def desugarSqlInsertExpression (tableName : String) (fields : List String) (values : List Exp) :
    Exp :=
  .app (.app (basisVarExpression "insert") (.var [] tableName .infer))
    (.record ((fields.map sqlNameConstructor).zip values) false)

def desugarSqlDeleteExpression (tableName : String) (predicate : Exp) : Exp :=
  .app (.app (basisVarExpression "delete") (.var [] tableName .infer)) predicate

def desugarSqlUpdateExpression (tableName : String) (assignments : List (String × Exp))
    (predicate : Exp) : Exp :=
  .app (.app (.app (.cApp (basisVarExpression "update") sqlWildTypeRow)
    (.record (assignments.map fun (fieldName, value) => (sqlNameConstructor fieldName, value))
      false)) (.var [] tableName .infer)) predicate

end UrWeb.Sql
