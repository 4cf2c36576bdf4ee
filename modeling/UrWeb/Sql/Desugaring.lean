import UrWeb.Sql.Statements

/-!
# Desugaring and associativity

Statements over predicates that are the same up to associativity desugar to
expressions that are the same up to associativity.
-/

namespace UrWeb.Sql

theorem SameUpToAssoc.record_append (xes' : List (Con × Exp)) (spread : Bool)
    (h : List.Forall₂ (fun x y => x.1 = y.1 ∧ SameUpToAssoc x.2 y.2) xes ys) :
    SameUpToAssoc (.record (xes' ++ xes) spread) (.record (xes' ++ ys) spread) := by
  induction h generalizing xes' with
  | nil => exact .refl _
  | @cons x y xes ys hxy hrest ih =>
    obtain ⟨x, e⟩ := x
    obtain ⟨y, e'⟩ := y
    obtain ⟨rfl, he⟩ := hxy
    have htail := ih (xes' ++ [(x, e')])
    simp only [List.append_assoc, List.singleton_append] at htail
    exact (SameUpToAssoc.field x spread he).trans htail

theorem SameUpToAssoc.record (spread : Bool)
    (h : List.Forall₂ (fun x y => x.1 = y.1 ∧ SameUpToAssoc x.2 y.2) xes ys) :
    SameUpToAssoc (.record xes spread) (.record ys spread) :=
  record_append [] spread h

/-- The same item of a SELECT up to associativity. -/
inductive SameItem : SqlSelectItem → SqlSelectItem → Prop
  | expression (aliasName : String) (h : SameUpToAssoc e e') :
      SameItem (.expression aliasName e) (.expression aliasName e')
  | fields (tableName : String) (fields : Con) :
      SameItem (.fields tableName fields) (.fields tableName fields)

inductive SameSpec : SqlSelectSpec → SqlSelectSpec → Prop
  | star : SameSpec .star .star
  | items (h : List.Forall₂ SameItem items items') : SameSpec (.items items) (.items items')

theorem SameUpToAssoc.query (hfrom : SameUpToAssoc f f') (hwhere : SameUpToAssoc w w')
    (hexps : List.Forall₂ (fun x y => x.1 = y.1 ∧ SameUpToAssoc x.2 y.2) xes ys)
    (empties : Con) (selectedFields : List (Con × Con)) :
    SameUpToAssoc
      (sqlQueryExpression (.app (.cApp (basisVarExpression "sql_query1") empties)
        (sqlQuery1Record f w selectedFields xes)))
      (sqlQueryExpression (.app (.cApp (basisVarExpression "sql_query1") empties)
        (sqlQuery1Record f' w' selectedFields ys))) := by
  have hrecord : SameUpToAssoc (sqlQuery1Record f w selectedFields xes)
      (sqlQuery1Record f' w' selectedFields ys) := by
    apply SameUpToAssoc.record
    exact .cons ⟨rfl, .refl _⟩ (.cons ⟨rfl, hfrom⟩ (.cons ⟨rfl, hwhere⟩ (.cons ⟨rfl, .refl _⟩
      (.cons ⟨rfl, .refl _⟩ (.cons ⟨rfl, .refl _⟩ (.cons ⟨rfl, .record false hexps⟩ .nil))))))
  apply SameUpToAssoc.app (.refl _)
  apply SameUpToAssoc.record
  exact .cons ⟨rfl, .app (.refl _) hrecord⟩ (.cons ⟨rfl, .refl _⟩ (.cons ⟨rfl, .refl _⟩
    (.cons ⟨rfl, .refl _⟩ .nil)))

/-- A fold that passes over expressions. -/
theorem foldl_same {step : β → SqlSelectItem → β} (h : List.Forall₂ SameItem items items')
    (hstep : ∀ acc aliasName e, step acc (.expression aliasName e) = acc) (acc : β) :
    items.foldl step acc = items'.foldl step acc := by
  induction h generalizing acc with
  | nil => rfl
  | cons hi _ ih =>
    cases hi with
    | expression aliasName he =>
      rw [List.foldl_cons, List.foldl_cons, hstep, hstep]
      exact ih acc
    | fields tableName fields => exact ih _

theorem filterMap_same {pick : SqlSelectItem → Option (Con × Exp)}
    (h : List.Forall₂ SameItem items items')
    (hexp : ∀ aliasName e, pick (.expression aliasName e) =
      some (Con.name aliasName, sqlWrapWindowExpression e))
    (hfields : ∀ tableName fields, pick (.fields tableName fields) = none) :
    List.Forall₂ (fun x y => x.1 = y.1 ∧ SameUpToAssoc x.2 y.2) (items.filterMap pick)
      (items'.filterMap pick) := by
  induction h with
  | nil => exact .nil
  | cons hi _ ih =>
    cases hi with
    | expression aliasName he =>
      rw [List.filterMap_cons_some (hexp _ _), List.filterMap_cons_some (hexp _ _)]
      exact .cons ⟨rfl, .app (.refl _) he⟩ ih
    | fields tableName fields =>
      rw [List.filterMap_cons_none (hfields _ _), List.filterMap_cons_none (hfields _ _)]
      exact ih

theorem same_select (hspec : SameSpec spec spec') (names : List String)
    (hfrom : SameUpToAssoc f f') (hwhere : SameUpToAssoc w w') :
    SameUpToAssoc (desugarSqlSelectQuery spec names f w)
      (desugarSqlSelectQuery spec' names f' w') := by
  cases hspec with
  | star => exact SameUpToAssoc.query hfrom hwhere .nil _ _
  | items h =>
    unfold desugarSqlSelectQuery
    dsimp only
    rw [foldl_same h]
    · exact SameUpToAssoc.query hfrom hwhere
        (filterMap_same h (fun _ _ => rfl) fun _ _ => rfl) _ _
    · exact fun _ _ _ => rfl

theorem same_insert (tableName : String) (fields : List String)
    (h : List.Forall₂ SameUpToAssoc values values') :
    SameUpToAssoc (desugarSqlInsertExpression tableName fields values)
      (desugarSqlInsertExpression tableName fields values') := by
  apply SameUpToAssoc.app (.refl _)
  apply SameUpToAssoc.record
  generalize fields.map sqlNameConstructor = names
  induction h generalizing names with
  | nil => cases names <;> exact .nil
  | cons he _ ih =>
    cases names with
    | nil => exact .nil
    | cons name names => exact .cons ⟨rfl, he⟩ (ih names)

theorem same_update (tableName : String)
    (h : List.Forall₂ (fun x y => x.1 = y.1 ∧ SameUpToAssoc x.2 y.2) assignments assignments')
    (hwhere : SameUpToAssoc w w') :
    SameUpToAssoc (desugarSqlUpdateExpression tableName assignments w)
      (desugarSqlUpdateExpression tableName assignments' w') := by
  refine .app (.app (.app (.refl _) ?_) (.refl _)) hwhere
  apply SameUpToAssoc.record
  induction h with
  | nil => exact .nil
  | cons hxy _ ih => exact .cons ⟨congrArg sqlNameConstructor hxy.1, hxy.2⟩ ih

end UrWeb.Sql
