import UrWeb.Sql.Predicates

/-!
# Printed statements

SELECT, INSERT, DELETE and UPDATE with the blanks they are printed with, the
text they print to, and the expression they stand for.
-/

namespace UrWeb.Sql

/-- Elements with commas between them, where `left` and `right` are the blanks around a comma. -/
inductive Listed (α : Type) where
  | one (a : α)
  | more (a : α) (left right : Text) (rest : Listed α)

/-- A list in parentheses, where `left` and `right` are the blanks inside of them. -/
structure ParenList (α : Type) where
  left : Text
  list : Listed α
  right : Text

inductive SelectItem where
  | field (table field : Text)
  | dynamicFields (table con : Text)
  | expression (p : Pred) (left right name : Text)

inductive Columns where
  | star
  | items (list : Listed SelectItem)

inductive Table where
  | plain (name : Text)
  | aliased (name left right aliasName : Text)

/-- A join with the blanks around its keyword and around ON. -/
structure Join where
  kind : SqlJoinKind
  left : Text
  right : Text
  table : Table
  leftOn : Text
  rightOn : Text
  on : Pred

structure Source where
  table : Table
  joins : List Join

/-- A WHERE clause with the blanks around its keyword. -/
structure Filter where
  left : Text
  right : Text
  pred : Pred

structure Assignment where
  field : Text
  left : Text
  right : Text
  value : Pred

/-- `gap` is the blanks behind the first keyword, and so on from the left to the right. -/
inductive Statement where
  | select (gap : Text) (columns : Columns) (left right : Text) (sources : Listed Source)
      (filter : Option Filter)
  | insert (gap gap' table left : Text) (fields : ParenList Text) (left' right' : Text)
      (values : ParenList Pred)
  | delete (gap gap' table : Text) (filter : Filter)
  | update (gap table left right : Text) (assignments : Listed Assignment) (filter : Filter)

-- ---------------------------------------------------------------------------
-- Text
-- ---------------------------------------------------------------------------

def keywordTok (s : String) : Tok := .word s.toList

def Listed.toks (f : α → List Tok) : Listed α → List Tok
  | .one a => f a
  | .more a left right rest => f a ++ blanks left ++ [.ch ','] ++ blanks right ++ rest.toks f

def ParenList.toks (f : α → List Tok) (l : ParenList α) : List Tok :=
  [.group ('(' :: ((l.left ++ flat (l.list.toks f) ++ l.right) ++ [')']))]

def SelectItem.toks : SelectItem → List Tok
  | .field t f => [.word t, .ch '.', .word f]
  | .dynamicFields t c =>
    [.word t, .ch '.', .group ('\x7b' :: (('\x7b' :: (c ++ ['\x7d'])) ++ ['\x7d']))]
  | .expression p left right name =>
    p.toks ++ blanks left ++ [keywordTok "AS"] ++ blanks right ++ [.word name]

def Columns.toks : Columns → List Tok
  | .star => [.ch '*']
  | .items list => list.toks SelectItem.toks

def Table.toks : Table → List Tok
  | .plain name => [.word name]
  | .aliased name left right aliasName =>
    [.word name] ++ blanks left ++ [keywordTok "AS"] ++ blanks right ++ [.word aliasName]

def joinToks : SqlJoinKind → List Tok
  | .inner => [keywordTok "JOIN"]
  | .left => [keywordTok "LEFT", .ch ' ', keywordTok "JOIN"]

/-- What stands behind the keyword of the join. -/
def Join.operand (j : Join) : List Tok :=
  j.table.toks ++ blanks j.leftOn ++ [keywordTok "ON"] ++ blanks j.rightOn ++ j.on.toks

def Source.toks (s : Source) : List Tok :=
  s.joins.foldl (fun ts j => ts ++ blanks j.left ++ joinToks j.kind ++ blanks j.right ++ j.operand)
    s.table.toks

def Filter.after (ts : List Tok) (f : Filter) : List Tok :=
  ts ++ blanks f.left ++ [keywordTok "WHERE"] ++ blanks f.right ++ f.pred.toks

def Assignment.toks (a : Assignment) : List Tok :=
  [.word a.field] ++ blanks a.left ++ [.ch '='] ++ blanks a.right ++ a.value.toks

def fromClause (sources : Listed Source) : Option Filter → List Tok
  | none => sources.toks Source.toks
  | some f => f.after (sources.toks Source.toks)

def Statement.toks : Statement → List Tok
  | .select gap columns left right sources filter =>
    [keywordTok "SELECT"] ++ blanks gap ++ columns.toks ++ blanks left ++ [keywordTok "FROM"] ++
      blanks right ++ fromClause sources filter
  | .insert gap gap' table left fields left' right' values =>
    [keywordTok "INSERT"] ++ blanks gap ++ [keywordTok "INTO"] ++ blanks gap' ++ [.word table] ++
      blanks left ++ fields.toks (fun f => [.word f]) ++ blanks left' ++ [keywordTok "VALUES"] ++
      blanks right' ++ values.toks Pred.toks
  | .delete gap gap' table filter =>
    [keywordTok "DELETE"] ++ blanks gap ++ [keywordTok "FROM"] ++ blanks gap' ++
      filter.after [.word table]
  | .update gap table left right assignments filter =>
    [keywordTok "UPDATE"] ++ blanks gap ++
      filter.after ([.word table] ++ blanks left ++ [keywordTok "SET"] ++ blanks right ++
        assignments.toks Assignment.toks)

def Statement.text (st : Statement) : Text := flat st.toks

-- ---------------------------------------------------------------------------
-- Expressions
-- ---------------------------------------------------------------------------

def Listed.elems : Listed α → List α
  | .one a => [a]
  | .more a _ _ rest => a :: rest.elems

section
variable (m : Meaning)

def Pred.value (p : Pred) : Exp := p.exp m sqlDefaultTableFieldExpression

def SelectItem.item : SelectItem → SqlSelectItem
  | .field t f => sqlSelectSingleFieldItem (String.ofList t) (String.ofList f)
  | .dynamicFields t c => sqlSelectDynamicFieldsItem (String.ofList t) (m.con c)
  | .expression p _ _ name => .expression (String.ofList name) (p.value m)

def Columns.spec : Columns → SqlSelectSpec
  | .star => .star
  | .items list => .items (list.elems.map (SelectItem.item m))

def Table.reference : Table → List String × Exp
  | .plain name => sqlTableReferenceWithAlias (String.ofList name) none
  | .aliased name _ _ aliasName =>
    sqlTableReferenceWithAlias (String.ofList name) (some (String.ofList aliasName))

def Source.reference (s : Source) : List String × Exp :=
  s.joins.foldl (fun e j => sqlJoinExpression j.kind e j.table.reference (j.on.value m))
    s.table.reference

def Listed.reference : Listed Source → List String × Exp
  | .one s => s.reference m
  | .more s _ _ rest => sqlFromCommaExpression (s.reference m) rest.reference

def filterValue : Option Filter → Exp
  | none => sqlTrueExpression
  | some f => f.pred.value m

def Statement.exp : Statement → Exp
  | .select _ columns _ _ sources filter =>
    desugarSqlSelectQuery (columns.spec m) (sources.reference m).1 (sources.reference m).2
      (filterValue m filter)
  | .insert _ _ table _ fields _ _ values =>
    desugarSqlInsertExpression (String.ofList table) (fields.list.elems.map String.ofList)
      (values.list.elems.map (Pred.value m))
  | .delete _ _ table filter => desugarSqlDeleteExpression (String.ofList table) (filter.pred.value m)
  | .update _ table _ _ assignments filter =>
    desugarSqlUpdateExpression (String.ofList table)
      (assignments.elems.map fun a => (String.ofList a.field, a.value.value m)) (filter.pred.value m)

end

-- ---------------------------------------------------------------------------
-- What is printed
-- ---------------------------------------------------------------------------

/-- Blanks around a word. -/
def Gap (ws : Text) : Prop := Blank ws ∧ ws ≠ []

def Listed.Printed (P : α → Prop) : Listed α → Prop
  | .one a => P a
  | .more a left right rest => P a ∧ Blank left ∧ Blank right ∧ rest.Printed P

def ParenList.Printed (P : α → Prop) (l : ParenList α) : Prop :=
  Blank l.left ∧ Blank l.right ∧ l.list.Printed P

def SelectItem.Printed : SelectItem → Prop
  | .field t f => Name t ∧ Name f
  | .dynamicFields t c => Name t ∧ Balanced c
  | .expression p left right name => p.Printed ∧ Gap left ∧ Gap right ∧ Name name

def Columns.Printed : Columns → Prop
  | .star => True
  | .items list => list.Printed SelectItem.Printed

def Table.Printed : Table → Prop
  | .plain name => Name name
  | .aliased name left right aliasName => Name name ∧ Gap left ∧ Gap right ∧ Name aliasName

def Join.Printed (j : Join) : Prop :=
  Gap j.left ∧ Gap j.right ∧ j.table.Printed ∧ Gap j.leftOn ∧ Gap j.rightOn ∧ j.on.Printed

def Source.Printed (s : Source) : Prop := s.table.Printed ∧ ∀ j ∈ s.joins, j.Printed

def Filter.Printed (f : Filter) : Prop := Gap f.left ∧ Gap f.right ∧ f.pred.Printed

def Assignment.Printed (a : Assignment) : Prop :=
  Name a.field ∧ Blank a.left ∧ Blank a.right ∧ a.value.Printed

def Statement.Printed : Statement → Prop
  | .select gap columns left right sources filter =>
    Gap gap ∧ columns.Printed ∧ Gap left ∧ Gap right ∧ sources.Printed Source.Printed ∧
      ∀ f ∈ filter, f.Printed
  | .insert gap gap' table left fields left' right' values =>
    Gap gap ∧ Gap gap' ∧ Name table ∧ Blank left ∧ fields.Printed Name ∧ Blank left' ∧ Blank right' ∧
      values.Printed Pred.Printed ∧ fields.list.elems.length = values.list.elems.length
  | .delete gap gap' table filter => Gap gap ∧ Gap gap' ∧ Name table ∧ filter.Printed
  | .update gap table left right assignments filter =>
    Gap gap ∧ Name table ∧ Gap left ∧ Gap right ∧ assignments.Printed Assignment.Printed ∧
      filter.Printed

-- ---------------------------------------------------------------------------
-- What is parsed
-- ---------------------------------------------------------------------------

def SelectItem.Readable : SelectItem → Prop
  | .expression p _ _ _ => p.Readable false
  | _ => True

def Columns.Readable : Columns → Prop
  | .star => True
  | .items list => ∀ item ∈ list.elems, item.Readable

def readableJoins (last : Bool) : List Join → Prop
  | [] => True
  | [j] => j.on.Readable last
  | j :: js => j.on.Readable false ∧ readableJoins last js

/-- A second join is read as part of the first one's condition, unless it is a LEFT JOIN behind a
JOIN. -/
def Source.Readable (last : Bool) (s : Source) : Prop :=
  s.joins.map Join.kind ∈ [[], [.inner], [.left], [.inner, .left]] ∧ readableJoins last s.joins

/-- Tables without joins, and blanks around the commas. -/
def Listed.TablesOnly : Listed Source → Prop
  | .one s => s.joins = []
  | .more s left right rest => s.joins = [] ∧ left ≠ [] ∧ right ≠ [] ∧ rest.TablesOnly

def Listed.Readable (last : Bool) : Listed Source → Prop
  | .one s => s.Readable last
  | sources => sources.TablesOnly

/-- `=` touches neither the field nor a word of the value. -/
def Assignment.Readable (a : Assignment) : Prop :=
  a.value.Readable false ∧ a.left ≠ [] ∧
    (a.right = [] → a.value.toks.head?.any Tok.isWord = false)

/-- The first keyword is followed by a space, and the predicates can be read. -/
def Statement.Readable : Statement → Prop
  | .select gap columns _ _ sources filter =>
    gap.head? = some ' ' ∧ columns.Readable ∧ sources.Readable filter.isNone ∧
      ∀ f ∈ filter, f.pred.Readable true
  | .insert gap _ _ _ _ _ _ values =>
    gap.head? = some ' ' ∧ ∀ p ∈ values.list.elems, p.Readable false
  | .delete gap _ _ filter => gap.head? = some ' ' ∧ filter.pred.Readable true
  | .update gap _ _ _ assignments filter =>
    gap.head? = some ' ' ∧ (∀ a ∈ assignments.elems, a.Readable) ∧ filter.pred.Readable true

section
variable (fragments : Fragments) (m : Meaning)

def SelectItem.FragmentsParsed : SelectItem → Prop
  | .dynamicFields _ c => fragments.parseConstructorFragment (trim c) = .ok (m.con c)
  | .expression p _ _ _ => p.FragmentsParsed fragments m
  | _ => True

def Columns.FragmentsParsed : Columns → Prop
  | .star => True
  | .items list => ∀ item ∈ list.elems, item.FragmentsParsed fragments m

def Source.FragmentsParsed (s : Source) : Prop :=
  ∀ j ∈ s.joins, j.on.FragmentsParsed fragments m

def Statement.FragmentsParsed : Statement → Prop
  | .select _ columns _ _ sources filter =>
    columns.FragmentsParsed fragments m ∧
      (∀ s ∈ sources.elems, s.FragmentsParsed fragments m) ∧
      ∀ f ∈ filter, f.pred.FragmentsParsed fragments m
  | .insert _ _ _ _ _ _ _ values => ∀ p ∈ values.list.elems, p.FragmentsParsed fragments m
  | .delete _ _ _ filter => filter.pred.FragmentsParsed fragments m
  | .update _ _ _ _ assignments filter =>
    (∀ a ∈ assignments.elems, a.value.FragmentsParsed fragments m) ∧
      filter.pred.FragmentsParsed fragments m

end

end UrWeb.Sql
