import UrWeb.Sql.StatementParse

/-!
# The parser is faithful

Printed predicates and statements are read as what they stand for, up to
associativity of AND and OR, if the parser can read them. It cannot read every
one: `=` is tried before `<=`, so `t.A <= 1` is split into `t.A <` and `1`.
-/

namespace UrWeb.Sql

/-- The first words of statements have one length and tell them apart. -/
theorem firstWord_isPrefixOf {k k' : Text} (hlen : k.length = k'.length)
    (h : gap.head? = some ' ') (rest : Text) :
    (k ++ [' ']).isPrefixOf (k' ++ (gap ++ rest)) = decide (k = k') := by
  obtain ⟨gap, rfl⟩ := List.head?_eq_some_iff.mp h
  rw [Bool.eq_iff_iff, List.isPrefixOf_iff_prefix, decide_eq_true_eq]
  constructor
  · rintro ⟨tail, htail⟩
    rw [List.append_assoc] at htail
    exact List.append_inj_left htail hlen
  · rintro rfl
    exact ⟨gap ++ rest, by simp⟩

def Statement.keyword : Statement → Text
  | .select .. => "SELECT".toList
  | .insert .. => "INSERT".toList
  | .delete .. => "DELETE".toList
  | .update .. => "UPDATE".toList

theorem keyword_isPrefixOf {st : Statement} (hr : st.Readable) (hk : k.length = 6) :
    (k ++ [' ']).isPrefixOf st.text = decide (k = st.keyword) := by
  cases st <;>
  · simp only [Statement.text, Statement.toks, flat_append, List.append_assoc, flat_blanks]
    refine firstWord_isPrefixOf ?_ hr.1 _
    exact hk

theorem parseSqlPayload_statement {fragments : Fragments} {m : Meaning} {st : Statement}
    (hp : st.Printed) (hr : st.Readable) (hf : st.FragmentsParsed fragments m)
    (hs : trim s = st.text) :
    ∃ e, parseSqlPayload fragments s = .ok e ∧ SameUpToAssoc e (st.exp m) := by
  have hword : ∀ k : Text, k.length = 6 →
      (k ++ [' ']).isPrefixOf (trim s) = decide (k = st.keyword) := by
    intro k hk
    rw [hs]
    exact keyword_isPrefixOf hr hk
  rw [parseSqlPayload]
  cases st with
  | select gap columns left right sources filter =>
    have hselect : "SELECT ".toList.isPrefixOf (trim s) = true := hword "SELECT".toList rfl
    simp only [hselect, if_true]
    exact parseSelectPayload_select hp hr hf hs
  | insert gap gap' table left fields left' right' values =>
    have hselect : "SELECT ".toList.isPrefixOf (trim s) = false := hword "SELECT".toList rfl
    have hinsert : "INSERT ".toList.isPrefixOf (trim s) = true := hword "INSERT".toList rfl
    simp only [hselect, hinsert, if_true, Bool.false_eq_true, if_false]
    exact parseInsertPayload_insert hp hr hf hs
  | delete gap gap' table filter =>
    have hselect : "SELECT ".toList.isPrefixOf (trim s) = false := hword "SELECT".toList rfl
    have hinsert : "INSERT ".toList.isPrefixOf (trim s) = false := hword "INSERT".toList rfl
    have hdelete : "DELETE ".toList.isPrefixOf (trim s) = true := hword "DELETE".toList rfl
    simp only [hselect, hinsert, hdelete, if_true, Bool.false_eq_true, if_false]
    exact parseDeletePayload_delete hp hr hf hs
  | update gap table left right assignments filter =>
    have hselect : "SELECT ".toList.isPrefixOf (trim s) = false := hword "SELECT".toList rfl
    have hinsert : "INSERT ".toList.isPrefixOf (trim s) = false := hword "INSERT".toList rfl
    have hdelete : "DELETE ".toList.isPrefixOf (trim s) = false := hword "DELETE".toList rfl
    have hupdate : "UPDATE ".toList.isPrefixOf (trim s) = true := hword "UPDATE".toList rfl
    simp only [hselect, hinsert, hdelete, hupdate, if_true, Bool.false_eq_true, if_false]
    exact parseUpdatePayload_update hp hr hf hs

/-- Predicates and statements are read as what they stand for, if the parser can read them. -/
theorem parse_faithful (fragments : Fragments) (m : Meaning) :
    (∀ (p : Pred) (s : Text), p.Printed → p.Readable true → p.FragmentsParsed fragments m →
      trim s = p.text → ∃ e, parseSqlValue fragments s = .ok e ∧
        SameUpToAssoc e (p.exp m sqlDefaultTableFieldExpression)) ∧
    ∀ (st : Statement) (s : Text), st.Printed → st.Readable → st.FragmentsParsed fragments m →
      trim s = st.text → ∃ e, parseSqlPayload fragments s = .ok e ∧ SameUpToAssoc e (st.exp m) :=
  ⟨fun _ _ hp hr hf hs => parseSqlValue_pred ⟨hp, hr, hf⟩ hs,
    fun _ _ hp hr hf hs => parseSqlPayload_statement hp hr hf hs⟩

/-- A parser of the host language that knows the variable `x` only. -/
def variableX : Fragments where
  parseExpressionFragment s := if s = ['x'] then .ok (.var [] "x" .infer) else .error ⟨.exprFragment, []⟩
  parseConstructorFragment _ := .error ⟨.conFragment, []⟩

def meaningX : Meaning := ⟨fun _ => .var [] "x" .infer, fun _ => .unit⟩

def fieldOf (t f : Char) : Pred := .atom (.field [t] [f])

/-- `t.A ={[x]} AND t.B > 1 AND COUNT(*) IS NULL` -/
def readablePred : Pred :=
  .and (.and (.cmp .eq (fieldOf 't' 'A') [' '] [] (.atom (.inject ['x']))) [' '] [' ']
      (.cmp .gt (fieldOf 't' 'B') [' '] [' '] (.atom (.int 1)))) [' '] [' ']
    (.isNull (.atom (.countAll true false)) [' '])

theorem readablePred_accepted : Accepted variableX meaningX true readablePred where
  printed := by
    have ht : Name ['t'] := ⟨⟨'t', rfl, by decide⟩, List.all_eq_true.1 (by decide), by decide⟩
    have ha : Name ['A'] := ⟨⟨'A', rfl, by decide⟩, List.all_eq_true.1 (by decide), by decide⟩
    have hb : Name ['B'] := ⟨⟨'B', rfl, by decide⟩, List.all_eq_true.1 (by decide), by decide⟩
    have hblank : Blank [' '] := List.all_eq_true.1 (by decide)
    have hnone : Blank [] := by simp [Blank]
    have heq : (Pred.cmp .eq (fieldOf 't' 'A') [' '] [] (.atom (.inject ['x']))).Printed :=
      ⟨⟨ht, ha⟩, trivial, rfl, rfl, hblank, hnone⟩
    have hgt : (Pred.cmp .gt (fieldOf 't' 'B') [' '] [' '] (.atom (.int 1))).Printed :=
      ⟨⟨ht, hb⟩, trivial, rfl, rfl, hblank, hblank⟩
    have hcount : (Pred.isNull (.atom (.countAll true false)) [' ']).Printed :=
      ⟨trivial, rfl, hblank, by rintro ⟨⟩⟩
    exact ⟨⟨heq, hgt, rfl, rfl, hblank, hblank, by rintro ⟨⟩, by rintro ⟨⟩⟩, hcount, rfl, rfl, hblank, hblank,
      by rintro ⟨⟩, by rintro ⟨⟩⟩
  readable := by
    have hfield : ∀ {f : Char}, f ≠ '\x27' → (fieldOf 't' f).Readable false := fun h =>
      ⟨by unfold NoPrime; decide, by simpa [NoPrime] using h.symm⟩
    have hx : Balanced ['x'] := balanced_of_plain (List.all_iff_forall_prop.1 (by decide))
    exact ⟨⟨⟨hfield (by decide), hx, by rintro ⟨⟩, by rintro ⟨⟩, fun _ => rfl⟩,
      hfield (by decide), trivial, by rintro ⟨⟩, by rintro ⟨⟩, by rintro ⟨⟩⟩, rfl⟩
  parsed := ⟨⟨⟨trivial, rfl⟩, trivial, trivial⟩, trivial⟩

/-- `DELETE FROM t WHERE …` -/
def readableDelete : Statement := .delete [' '] [' '] ['t'] ⟨[' '], [' '], readablePred⟩

theorem readableDelete_accepted : readableDelete.Printed ∧ readableDelete.Readable ∧
    readableDelete.FragmentsParsed variableX meaningX := by
  have hgap : Gap [' '] := ⟨List.all_eq_true.1 (by decide), nofun⟩
  have ht : Name ['t'] := ⟨⟨'t', rfl, by decide⟩, List.all_eq_true.1 (by decide), by decide⟩
  obtain ⟨hp, hr, hf⟩ := readablePred_accepted
  exact ⟨⟨hgap, hgap, ht, hgap, hgap, hp⟩, ⟨rfl, hr⟩, hf⟩

theorem parse_faithful_readable :
    (∃ e, parseSqlValue variableX readablePred.text = .ok e ∧
      SameUpToAssoc e (readablePred.exp meaningX sqlDefaultTableFieldExpression)) ∧
    ∃ e, parseSqlPayload variableX readableDelete.text = .ok e ∧
      SameUpToAssoc e (readableDelete.exp meaningX) :=
  ⟨(parse_faithful variableX meaningX).1 readablePred readablePred.text readablePred_accepted.printed
      readablePred_accepted.readable readablePred_accepted.parsed (by decide),
    (parse_faithful variableX meaningX).2 readableDelete readableDelete.text
      readableDelete_accepted.1 readableDelete_accepted.2.1 readableDelete_accepted.2.2 (by decide)⟩

/-- `t.A <= 1` -/
def lessEqual : Pred := .cmp .le (fieldOf 't' 'A') [' '] [' '] (.atom (.int 1))

theorem parse_unfaithful : ¬ ∀ (fragments : Fragments) (m : Meaning) (p : Pred), p.Printed →
    p.FragmentsParsed fragments m → ∃ e, parseSqlValue fragments p.text = .ok e ∧
      SameUpToAssoc e (p.exp m sqlDefaultTableFieldExpression) := by
  intro h
  have ht : Name ['t'] := ⟨⟨'t', rfl, by decide⟩, List.all_eq_true.1 (by decide), by decide⟩
  have ha : Name ['A'] := ⟨⟨'A', rfl, by decide⟩, List.all_eq_true.1 (by decide), by decide⟩
  have hblank : Blank [' '] := List.all_eq_true.1 (by decide)
  have hfails : (parseSqlValue variableX lessEqual.text).toOption.isNone := by decide +kernel
  obtain ⟨e, he, -⟩ := h variableX meaningX lessEqual ⟨⟨ht, ha⟩, trivial, rfl, rfl, hblank, hblank⟩
    ⟨trivial, trivial⟩
  rw [he] at hfails
  cases hfails

end UrWeb.Sql
