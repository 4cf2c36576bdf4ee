import UrWeb.Sql.Splitting
import UrWeb.Sql.Statements

/-!
# Splitting lists

A list is split at the commas between its elements. A comma of a list may touch
a word, other than a keyword.
-/

namespace UrWeb.Sql

-- ---------------------------------------------------------------------------
-- Commas
-- ---------------------------------------------------------------------------

/-- The parts of a text on the budget that they need. -/
def commas (before rest : Text) (p b : Int) : List Text := splitCommas rest.length before rest p b

theorem splitCommas_budget (h : rest.length ≤ budget) (before : Text) (p b : Int) :
    splitCommas budget before rest p b = commas before rest p b := by
  induction hn : rest.length using Nat.strong_induction_on generalizing rest budget before p b with
  | _ n ih =>
    subst hn
    cases rest with
    | nil => cases budget <;> simp [commas, splitCommas]
    | cons c cs =>
      obtain ⟨budget, rfl⟩ : ∃ k, budget = k + 1 :=
        Nat.exists_eq_succ_of_ne_zero (Nat.pos_iff_ne_zero.mp ((Nat.succ_pos _).trans_le h))
      have hpos := advance_pos c cs
      have hlen : ((c :: cs).drop (advance (c :: cs)).length).length < (c :: cs).length := by
        simp only [List.length_drop, List.length_cons]
        omega
      simp only [commas, List.length_cons, splitCommas]
      split
      · rw [ih cs.length (Nat.lt_succ_self _) (Nat.le_of_succ_le_succ h) _ _ _ rfl]
        rfl
      · refine (ih _ hlen ?_ _ _ _ rfl).trans (ih _ hlen ?_ _ _ _ rfl).symm
        · exact Nat.le_of_lt_succ (hlen.trans_le h)
        · exact Nat.le_of_lt_succ hlen

def commaHit (_before rest : Text) : Bool := rest.head? = some ','

/-- The first comma outside of brackets, and the parts behind it. -/
theorem commas_search (before rest : Text) (p b : Int) :
    commas before rest p b = match search commaHit before rest p b with
      | some (left, right) => trim left :: commas [] (right.drop 1) 0 0
      | none => [trim (before.reverse ++ rest)] := by
  induction hn : rest.length using Nat.strong_induction_on generalizing rest before p b with
  | _ n ih =>
    subst hn
    cases rest with
    | nil => simp [commas, splitCommas]
    | cons c cs =>
      have hpos := advance_pos c cs
      have hlen : ((c :: cs).drop (advance (c :: cs)).length).length < (c :: cs).length := by
        simp only [List.length_drop, List.length_cons]
        omega
      rw [search_cons, commas, List.length_cons, splitCommas]
      have hcomma : (c = ',') = (commaHit before (c :: cs) = true) := by simp [commaHit]
      simp only [hcomma, Bool.decide_eq_true]
      split
      · rfl
      · have hfits : ((c :: cs).drop (advance (c :: cs)).length).length ≤ cs.length :=
          Nat.le_of_lt_succ hlen
        rw [splitCommas_budget hfits, ih _ hlen _ _ _ _ rfl]
        split
        · rfl
        · simp only [List.reverse_append, List.reverse_reverse, List.append_assoc,
            List.take_append_drop]

/-- The scanner's test for a comma, on tokens. -/
def commaStarts (_behindWord : Bool) (ts : List Tok) : Bool := ts.head? = some (.ch ',')

theorem agrees_comma : Agrees commaHit commaStarts where
  start := by
    intro ts before behindWord h _
    cases ts with
    | nil => simp [commaHit, commaStarts]
    | cons t ts =>
      have hok := h.1
      cases t with
      | word w =>
        obtain ⟨c, cs, rfl⟩ := List.exists_cons_of_ne_nil hok.1
        have hc : c ≠ ',' := by
          rintro rfl
          exact absurd (hok.2 ',' List.mem_cons_self) (by decide)
        simp [commaHit, commaStarts, Tok.text, hc]
      | ch c => simp [commaHit, commaStarts, Tok.text]
      | comment => simp [commaHit, commaStarts, Tok.text]
      | group s => cases hok <;> simp [commaHit, commaStarts, Tok.text]
  inWord := by
    intro c before hc _ cs
    simp only [commaHit, List.head?_cons, Option.some.injEq, decide_eq_false_iff_not]
    rintro rfl
    revert hc
    decide
  group := by simp [commaStarts]

theorem findToks_comma_none (h : .ch ',' ∉ ts) (behindWord : Bool) :
    findToks commaStarts behindWord ts = none := by
  induction ts generalizing behindWord with
  | nil => rfl
  | cons t ts ih =>
    rw [List.mem_cons, not_or] at h
    unfold findToks
    split
    · rfl
    · rfl
    · next heq =>
      cases heq
      rw [if_neg (by simpa [commaStarts] using Ne.symm h.1), ih h.2]
      rfl

theorem findToks_comma (h : .ch ',' ∉ left) (hc : .comment ∉ left) (behindWord : Bool)
    (right : List Tok) :
    findToks commaStarts behindWord (left ++ .ch ',' :: right) = some (left, .ch ',' :: right) := by
  induction left generalizing behindWord with
  | nil => rfl
  | cons t left ih =>
    rw [List.mem_cons, not_or] at h hc
    rw [List.cons_append]
    unfold findToks
    split
    · next heq => cases heq
    · next heq => cases heq; exact absurd rfl hc.1
    · next heq =>
      cases heq
      rw [if_neg (by simpa [commaStarts] using Ne.symm h.1), ih h.2 hc.2]
      rfl

-- ---------------------------------------------------------------------------
-- Lists
-- ---------------------------------------------------------------------------

/-- The elements of a list are lexical, and no comma stands outside of their brackets. -/
def Elements (f : α → List Tok) (l : Listed α) : Prop :=
  ∀ a ∈ l.elems, Lexical false (f a) ∧ .ch ',' ∉ f a

def Listed.Blanks : Listed α → Prop
  | .one _ => True
  | .more _ left right rest => Blank left ∧ Blank right ∧ rest.Blanks

theorem lexical_listed {f : α → List Tok} {l : Listed α} (h : Elements f l) (hb : l.Blanks) :
    Lexical false (l.toks f) := by
  induction l with
  | one a => exact (h a (by simp [Listed.elems])).1
  | more a left right rest ih =>
    obtain ⟨hleft, hright, hb⟩ := hb
    have ha := (h a (by simp [Listed.elems])).1
    have hrest := ih (fun a' ha' => h a' (by simp [Listed.elems, ha'])) hb
    exact lexical_symbol ha hrest (by constructor <;> decide) hleft hright

theorem comma_not_blank (h : Blank ws) : .ch ',' ∉ blanks ws := by
  intro hmem
  obtain ⟨c, hc, heq⟩ := List.mem_map.mp hmem
  cases heq
  exact absurd (h _ hc) (by decide)

theorem Lexical.tidy_behind (h : Lexical last ts) (hws : Blank ws) : Tidy (blanks ws ++ ts) := by
  apply (tidy_blanks hws).append h.tidy
  · intro hw
    cases ws with
    | nil => cases hw
    | cons c ws => exact absurd hw (not_endsInWord_blanks (List.cons_ne_nil c ws) [])
  · exact fun hc => absurd hc (comment_not_mem_blanks ws)

/-- The parts of tokens are those at the first comma and behind it. -/
theorem commas_flat (h : Tidy ts) :
    commas [] (flat ts) 0 0 = match findToks commaStarts false ts with
      | some (left, right) => trim (flat left) :: commas [] ((flat right).drop 1) 0 0
      | none => [trim (flat ts)] := by
  have hnone : ([] : Text).head?.any isIdentifierByte = false := rfl
  rw [commas_search, search_flat agrees_comma h hnone nofun]
  cases findToks commaStarts false ts with
  | none => rfl
  | some lr => rfl

theorem commas_listed {f : α → List Tok} {l : Listed α} (h : Elements f l) (hb : l.Blanks)
    (hws : Blank ws) :
    commas [] (ws ++ flat (l.toks f)) 0 0 = l.elems.map fun a => flat (f a) := by
  have h0 : Blank [] := by simp [Blank]
  induction l generalizing ws with
  | one a =>
    obtain ⟨ha, hcomma⟩ := h a (by simp [Listed.elems])
    have htrim : trim (ws ++ flat (f a)) = flat (f a) := by
      simpa using trim_blanks ha.firm.tight hws h0
    have hfind : findToks commaStarts false (blanks ws ++ f a) = none := by
      apply findToks_comma_none
      rw [List.mem_append, not_or]
      exact ⟨comma_not_blank hws, hcomma⟩
    have hparts := commas_flat (ha.tidy_behind hws)
    rw [hfind] at hparts
    simpa [Listed.toks, Listed.elems, htrim] using hparts
  | more a left right rest ih =>
    have hlex := lexical_listed h hb
    obtain ⟨hleft, hright, hb⟩ := hb
    obtain ⟨ha, hcomma⟩ := h a (by simp [Listed.elems])
    have hrest : Elements f rest := fun a' ha' => h a' (by simp [Listed.elems, ha'])
    have htrim : trim (ws ++ (flat (f a) ++ left)) = flat (f a) := by
      rw [← List.append_assoc]
      exact trim_blanks ha.firm.tight hws hleft
    have hfind : findToks commaStarts false (blanks ws ++ (Listed.more a left right rest).toks f) =
        some (blanks ws ++ f a ++ blanks left, .ch ',' :: (blanks right ++ rest.toks f)) := by
      have hno : .ch ',' ∉ blanks ws ++ f a ++ blanks left := by
        simp only [List.mem_append, not_or]
        exact ⟨⟨comma_not_blank hws, hcomma⟩, comma_not_blank hleft⟩
      have hopen : .comment ∉ blanks ws ++ f a ++ blanks left := by
        simp only [List.mem_append, not_or]
        exact ⟨⟨comment_not_mem_blanks ws, ha.closed rfl⟩, comment_not_mem_blanks left⟩
      simpa [Listed.toks] using findToks_comma hno hopen false (blanks right ++ rest.toks f)
    have hparts := commas_flat (hlex.tidy_behind hws)
    rw [hfind] at hparts
    simpa [Listed.elems, Tok.text, htrim, ih hrest hb hright] using hparts

theorem splitTopLevelCommas_listed {f : α → List Tok} {l : Listed α} (h : Elements f l)
    (hb : l.Blanks) (hs : trim s = flat (l.toks f)) :
    splitTopLevelCommas s = l.elems.map fun a => flat (f a) := by
  have h0 : Blank [] := by simp [Blank]
  have hbudget : (trim s).length ≤ scanBudget (trim s) := by
    unfold scanBudget
    omega
  rw [splitTopLevelCommas, splitCommas_budget hbudget, hs]
  exact commas_listed h hb h0

end UrWeb.Sql
