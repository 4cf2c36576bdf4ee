import UrWeb.Sql.Wrapping
import UrWeb.Sql.AtomParse

/-!
# Reading predicates

The parser splits a chain of ANDs or ORs at its first operator, where the
predicate may have been printed from a tree that leans to the left. It returns
the tree of the predicate up to associativity.
-/

namespace UrWeb.Sql

theorem SameUpToAssoc.binary (name : String) (hl : SameUpToAssoc e1 e1')
    (hr : SameUpToAssoc e2 e2') :
    SameUpToAssoc (sqlBinaryExpression name e1 e2) (sqlBinaryExpression name e1' e2') :=
  .app (.app (.refl _) hl) hr

theorem SameUpToAssoc.isNull (h : SameUpToAssoc e e') :
    SameUpToAssoc (sqlIsNullExpression e) (sqlIsNullExpression e') :=
  .app (.refl _) h

-- ---------------------------------------------------------------------------
-- Chains
-- ---------------------------------------------------------------------------

/-- The predicate is printed and can be read, and so can its fragments. -/
structure Accepted (fragments : Fragments) (m : Meaning) (last : Bool) (p : Pred) : Prop where
  printed : p.Printed
  readable : p.Readable last
  parsed : p.FragmentsParsed fragments m

/-- The operators that are associative. -/
inductive Junction
  | and
  | or

def Junction.word : Junction → Text
  | .and => "AND".toList
  | .or => "OR".toList

def Junction.name : Junction → String
  | .and => "and"
  | .or => "or"

def Junction.level : Junction → Nat
  | .and => 2
  | .or => 3

def Junction.join : Junction → Pred → Text → Text → Pred → Pred
  | .and => .and
  | .or => .or

section
variable {fragments : Fragments} {m : Meaning} {bareIdentifier : String → Exp}

theorem toks_join (j : Junction) (p : Pred) (left right : Text) (q : Pred) :
    (j.join p left right q).toks =
      p.toks ++ blanks left ++ [Tok.word j.word] ++ blanks right ++ q.toks := by
  cases j <;> rfl

theorem exp_join (j : Junction) (p : Pred) (left right : Text) (q : Pred) :
    (j.join p left right q).exp m bareIdentifier =
      sqlBinaryExpression j.name (p.exp m bareIdentifier) (q.exp m bareIdentifier) := by
  cases j <;> rfl

theorem isOr_iff_level (p : Pred) : p.isOr = false ↔ p.level ≤ 2 := by
  cases p <;> simp [Pred.isOr, Pred.level]

theorem level_le (p : Pred) : p.level ≤ 3 := by
  cases p <;> simp [Pred.level]

theorem accepted_join (j : Junction) (p : Pred) (left right : Text) (q : Pred) :
    Accepted fragments m last (j.join p left right q) ↔
      Accepted fragments m false p ∧ Accepted fragments m last q ∧ p.level ≤ j.level ∧
        q.level ≤ j.level ∧ Blank left ∧ Blank right ∧ left ≠ [] ∧ right ≠ [] := by
  cases j with
  | and =>
    constructor
    · rintro ⟨⟨hp, hq, hor, hor', hleft, hright, hne, hne'⟩, ⟨hrp, hrq⟩, hfp, hfq⟩
      exact ⟨⟨hp, hrp, hfp⟩, ⟨hq, hrq, hfq⟩, (isOr_iff_level p).mp hor, (isOr_iff_level q).mp hor',
        hleft, hright, hne, hne'⟩
    · rintro ⟨⟨hp, hrp, hfp⟩, ⟨hq, hrq, hfq⟩, hlevel, hlevel', hleft, hright, hne, hne'⟩
      exact ⟨⟨hp, hq, (isOr_iff_level p).mpr hlevel, (isOr_iff_level q).mpr hlevel', hleft, hright,
        hne, hne'⟩, ⟨hrp, hrq⟩, hfp, hfq⟩
  | or =>
    constructor
    · rintro ⟨⟨hp, hq, hleft, hright, hne, hne'⟩, ⟨hrp, hrq⟩, hfp, hfq⟩
      exact ⟨⟨hp, hrp, hfp⟩, ⟨hq, hrq, hfq⟩, level_le p, level_le q, hleft, hright, hne, hne'⟩
    · rintro ⟨⟨hp, hrp, hfp⟩, ⟨hq, hrq, hfq⟩, -, -, hleft, hright, hne, hne'⟩
      exact ⟨⟨hp, hq, hleft, hright, hne, hne'⟩, ⟨hrp, hrq⟩, hfp, hfq⟩

/-- A chain reads as its first operand, the operator, and the rest. -/
structure FirstOperand (fragments : Fragments) (m : Meaning) (bareIdentifier : String → Exp)
    (last : Bool) (j : Junction) (p a rest : Pred) (left right : Text) : Prop where
  accepted : Accepted fragments m last (j.join a left right rest)
  below : a.level < j.level
  toks : p.toks = (j.join a left right rest).toks
  same : SameUpToAssoc ((j.join a left right rest).exp m bareIdentifier) (p.exp m bareIdentifier)

theorem junction_assoc (j : Junction) (a rest q : Pred) :
    SameUpToAssoc
      (sqlBinaryExpression j.name (a.exp m bareIdentifier)
        (sqlBinaryExpression j.name (rest.exp m bareIdentifier) (q.exp m bareIdentifier)))
      (sqlBinaryExpression j.name
        (sqlBinaryExpression j.name (a.exp m bareIdentifier) (rest.exp m bareIdentifier))
        (q.exp m bareIdentifier)) := by
  apply SameUpToAssoc.symm
  apply SameUpToAssoc.assoc
  cases j
  · exact .inl rfl
  · exact .inr rfl

theorem FirstOperand.snoc (h : FirstOperand fragments m bareIdentifier false j p a rest left right)
    (hacc : Accepted fragments m last (j.join p left' right' q)) :
    FirstOperand fragments m bareIdentifier last j (j.join p left' right' q) a
      (j.join rest left' right' q) left right where
  accepted := by
    obtain ⟨-, hq, -, hlevel, hleft', hright', hne', hne''⟩ := (accepted_join ..).mp hacc
    obtain ⟨ha, hrest, hla, hlrest, hleft, hright, hne, hne'''⟩ := (accepted_join ..).mp h.accepted
    have htail : Accepted fragments m last (j.join rest left' right' q) :=
      (accepted_join ..).mpr ⟨hrest, hq, hlrest, hlevel, hleft', hright', hne', hne''⟩
    have hj : (j.join rest left' right' q).level ≤ j.level := by
      cases j <;> exact le_rfl
    exact (accepted_join ..).mpr ⟨ha, htail, hla, hj, hleft, hright, hne, hne'''⟩
  below := h.below
  toks := by
    have := h.toks
    simp only [toks_join] at this ⊢
    simp [this]
  same := by
    have hsame := h.same
    simp only [exp_join] at hsame ⊢
    exact (junction_assoc j a rest q).trans (.binary j.name hsame (.refl _))

theorem FirstOperand.base (hacc : Accepted fragments m last (j.join p left right q))
    (h : p.level < j.level) :
    FirstOperand fragments m bareIdentifier last j (j.join p left right q) p q left right :=
  ⟨hacc, h, rfl, .refl _⟩

theorem exists_firstOperand (j : Junction) (p : Pred)
    (hacc : Accepted fragments m last (j.join p left right q)) :
    ∃ a rest left' right', FirstOperand fragments m bareIdentifier last j
      (j.join p left right q) a rest left' right' := by
  have hlow : ∀ n, n ≤ 1 → n < j.level := by
    intro n h
    cases j <;> exact h.trans_lt (by decide)
  induction p generalizing last left right q with
  | atom a => exact ⟨_, _, _, _, .base hacc (hlow _ (Nat.zero_le 1))⟩
  | isNull p left' => exact ⟨_, _, _, _, .base hacc (hlow _ (Nat.zero_le 1))⟩
  | cmp op p l r q => exact ⟨_, _, _, _, .base hacc (hlow _ le_rfl)⟩
  | paren l p r => exact ⟨_, _, _, _, .base hacc (hlow _ (Nat.zero_le 1))⟩
  | and p1 l r p2 ih =>
    cases j with
    | and =>
      obtain ⟨a, rest, left', right', h⟩ := ih ((accepted_join ..).mp hacc).1
      exact ⟨a, _, left', right', h.snoc hacc⟩
    | or => exact ⟨_, _, _, _, .base hacc (show 2 < 3 by decide)⟩
  | or p1 l r p2 ih =>
    cases j with
    | and => exact absurd ((accepted_join ..).mp hacc).2.2.1 (show ¬ 3 ≤ 2 by decide)
    | or =>
      obtain ⟨a, rest, left', right', h⟩ := ih ((accepted_join ..).mp hacc).1
      exact ⟨a, _, left', right', h.snoc hacc⟩

end

-- ---------------------------------------------------------------------------
-- Operators
-- ---------------------------------------------------------------------------

/-- The tokens of the operators in the order in which they are tried. -/
def operatorToks : List (List Tok × String) :=
  [(orToks, "or"), (andToks, "and"), (CmpOp.ne.toks, "ne"), (CmpOp.ge.toks, "ge"),
    (CmpOp.eq.toks, "eq"), (CmpOp.le.toks, "le"), (CmpOp.gt.toks, "gt"), (CmpOp.lt.toks, "lt")]

def operatorTexts (operators : List (List Tok × String)) : List (Text × String) :=
  operators.map fun (kw, name) => (flat kw, name)

theorem binaryOperators_eq : binaryOperators = operatorTexts operatorToks := by decide

theorem keyword_operator (h : o ∈ operatorToks) : Keyword o.1 ∧ o.1 ≠ [] := by
  simp only [operatorToks, List.mem_cons, List.not_mem_nil, or_false] at h
  rcases h with rfl | rfl | rfl | rfl | rfl | rfl | rfl | rfl
  · exact ⟨keyword_or, by decide⟩
  · exact ⟨keyword_and, by decide⟩
  · exact ⟨keyword_op .ne, by decide⟩
  · exact ⟨keyword_op .ge, by decide⟩
  · exact ⟨keyword_op .eq, by decide⟩
  · exact ⟨keyword_op .le, by decide⟩
  · exact ⟨keyword_op .gt, by decide⟩
  · exact ⟨keyword_op .lt, by decide⟩

/-- Operators that are not in the text are passed over. -/
theorem findBinary_skip (h : Tidy ts) (hs : trim s = flat ts)
    (hbefore : ∀ o ∈ before, o ∈ operatorToks ∧ ¬ o.1 <:+: ts) (after : List (Text × String)) :
    findBinary s (operatorTexts before ++ after) = findBinary s after := by
  induction before with
  | nil => rfl
  | cons o before ih =>
    obtain ⟨⟨hmem, hi⟩, hrest⟩ := List.forall_mem_cons.mp hbefore
    obtain ⟨hkw, hne⟩ := keyword_operator hmem
    rw [operatorTexts, List.map_cons, List.cons_append, findBinary, split_none hkw hne h hs hi]
    exact ih hrest

theorem findBinary_none (h : Tidy ts) (hs : trim s = flat ts)
    (hnone : ∀ o ∈ operatorToks, ¬ o.1 <:+: ts) : findBinary s binaryOperators = none := by
  have := findBinary_skip h hs (fun o ho => ⟨ho, hnone o ho⟩) []
  rw [binaryOperators_eq]
  simpa [findBinary] using this

/-- The first of the operators in the text, with its operands. -/
theorem findBinary_at (before : List (List Tok × String)) (h : Tidy ts) (hs : trim s = flat ts)
    (horder : operatorToks = before ++ (kw, name) :: after)
    (hbefore : ∀ o ∈ before, ¬ o.1 <:+: ts)
    (hsplit : splitTopLevel s (flat kw) = some (left, right)) :
    findBinary s binaryOperators = some (name, left, right) := by
  have hpassed : ∀ o ∈ before, o ∈ operatorToks ∧ ¬ o.1 <:+: ts := by
    intro o ho
    rw [horder]
    exact ⟨List.mem_append_left _ ho, hbefore o ho⟩
  rw [binaryOperators_eq, horder, operatorTexts, List.map_append]
  refine (findBinary_skip h hs hpassed _).trans ?_
  rw [List.map_cons, findBinary, hsplit]

theorem level_of_first (h : o ∈ operatorToks) : ∃ k kw, o.1 = k :: kw ∧ 0 < k.level := by
  simp only [operatorToks, List.mem_cons, List.not_mem_nil, or_false] at h
  rcases h with rfl | rfl | rfl | rfl | rfl | rfl | rfl | rfl <;> exact ⟨_, _, rfl, by decide⟩

/-- Operands are split at no operator. -/
theorem findBinary_operand {p : Pred} (hp : p.Printed) (hr : p.Readable last)
    (hlevel : p.level = 0) (hs : trim s = p.text) : findBinary s binaryOperators = none := by
  apply findBinary_none (pred_lexical p last hp hr).tidy hs
  intro o ho
  obtain ⟨k, kw, hkw, hpos⟩ := level_of_first ho
  rw [hkw]
  exact not_infix_of_not_mem (not_mem_of_level hp (hlevel ▸ hpos))

theorem op_head (op : CmpOp) :
    ∃ c kw, op.toks = .ch c :: kw ∧ (c = '<' ∨ c = '>' ∨ c = '=') := by
  cases op
  · exact ⟨_, _, rfl, .inr (.inr rfl)⟩
  · exact ⟨_, _, rfl, .inl rfl⟩
  · exact ⟨_, _, rfl, .inl rfl⟩
  · exact ⟨_, _, rfl, .inl rfl⟩
  · exact ⟨_, _, rfl, .inr (.inl rfl)⟩
  · exact ⟨_, _, rfl, .inr (.inl rfl)⟩

/-- A comparison is split at its operator: no operator that is tried earlier is part of it. -/
theorem findBinary_cmp {p q : Pred} (hp : p.Printed) (hq : q.Printed) (hrp : p.Readable false)
    (hrq : q.Readable last) (hop : p.isOperand) (hoq : q.isOperand) (hle : op ≠ .le)
    (hleft : Blank left) (hright : Blank right)
    (hbefore : left = [] → p.toks.getLast?.any Tok.isWord = false)
    (hafter : right = [] → q.toks.head?.any Tok.isWord = false)
    (hs : trim s = (Pred.cmp op p left right q).text) :
    findBinary s binaryOperators = some (op.name, p.text, q.text) := by
  have hlp := pred_lexical p false hp hrp
  have hlq := pred_lexical q last hq hrq
  have hlex := lexical_operator hlp hlq (keyword_op op) hleft hright hbefore hafter
  have hl0 : ∀ t ∈ p.toks ++ blanks left, t.level = 0 := by
    intro t ht
    rcases List.mem_append.mp ht with ht | ht
    · exact Nat.le_zero.mp ((mem_level p hp ht).trans (level_eq_zero_of_isOperand hop).le)
    · exact level_blank hleft ht
  have hr0 : ∀ t ∈ blanks right ++ q.toks, t.level = 0 := by
    intro t ht
    rcases List.mem_append.mp ht with ht | ht
    · exact level_blank hright ht
    · exact Nat.le_zero.mp ((mem_level q hq ht).trans (level_eq_zero_of_isOperand hoq).le)
  have hnotl : ∀ {k : Tok}, 0 < k.level → k ∉ p.toks ++ blanks left := fun hk hmem =>
    absurd (hl0 _ hmem) hk.ne'
  have hnotr : ∀ {k : Tok}, 0 < k.level → k ∉ blanks right ++ q.toks := fun hk hmem =>
    absurd (hr0 _ hmem) hk.ne'
  have htoks : (Pred.cmp op p left right q).toks =
      (p.toks ++ blanks left) ++ op.toks ++ (blanks right ++ q.toks) := by simp [Pred.toks]
  -- an operator whose first token is not that of the comparison
  have hother : ∀ {k kw}, 0 < Tok.level k → k ∉ op.toks →
      ¬ (k :: kw) <:+: (Pred.cmp op p left right q).toks := by
    intro k kw hk hnot
    rw [htoks]
    apply not_infix_of_not_mem
    rw [List.mem_append, List.mem_append, not_or, not_or]
    exact ⟨⟨hnotl hk, hnot⟩, hnotr hk⟩
  -- an operator of two characters that starts with that of the comparison
  have hlonger : ∀ {k k'}, op.toks = [k] → 0 < Tok.level k → 0 < Tok.level k' →
      ¬ [k, k'] <:+: (Pred.cmp op p left right q).toks := by
    intro k k' hk hlevel hlevel'
    rw [htoks, hk, List.append_assoc, List.singleton_append]
    refine not_infix_of_single (hnotl hlevel) (hnotr hlevel) fun hhead => ?_
    exact hnotr hlevel' (List.mem_of_head? hhead)
  obtain ⟨c, kw, hkw, hc⟩ := op_head op
  have hlevel : 0 < Tok.level (.ch c) := by
    rcases hc with rfl | rfl | rfl <;> decide
  have hsplit : splitTopLevel s (flat op.toks) = some (p.text, q.text) := by
    have hkey := keyword_op op
    rw [hkw] at hkey ⊢
    refine split_operator hlp hlq hkey hleft hright hbefore hafter ?_ ?_ ?_
    · exact not_mem_of_level hp (level_eq_zero_of_isOperand hop ▸ hlevel)
    · rintro d hd heq
      cases heq
      rcases hc with rfl | rfl | rfl <;> revert hd <;> decide
    · rw [hs, Pred.text, Pred.toks, hkw]
  have hor : ¬ orToks <:+: (Pred.cmp op p left right q).toks :=
    hother (by decide) (by cases op <;> decide)
  have hand : ¬ andToks <:+: (Pred.cmp op p left right q).toks :=
    hother (by decide) (by cases op <;> decide)
  cases op with
  | le => exact absurd rfl hle
  | ne =>
    refine findBinary_at [_, _] hlex.tidy hs rfl ?_ hsplit
    simp only [List.forall_mem_cons]
    exact ⟨hor, hand, List.forall_mem_nil _⟩
  | ge =>
    refine findBinary_at [_, _, _] hlex.tidy hs rfl ?_ hsplit
    simp only [List.forall_mem_cons]
    exact ⟨hor, hand, hother (by decide) (by decide), List.forall_mem_nil _⟩
  | eq =>
    refine findBinary_at [_, _, _, _] hlex.tidy hs rfl ?_ hsplit
    simp only [List.forall_mem_cons]
    exact ⟨hor, hand, hother (by decide) (by decide), hother (by decide) (by decide), List.forall_mem_nil _⟩
  | gt =>
    refine findBinary_at [_, _, _, _, _, _] hlex.tidy hs rfl ?_ hsplit
    simp only [List.forall_mem_cons]
    exact ⟨hor, hand, hother (by decide) (by decide), hlonger rfl (by decide) (by decide),
      hother (by decide) (by decide), hother (by decide) (by decide), List.forall_mem_nil _⟩
  | lt =>
    refine findBinary_at [_, _, _, _, _, _, _] hlex.tidy hs rfl ?_ hsplit
    simp only [List.forall_mem_cons]
    exact ⟨hor, hand, hlonger rfl (by decide) (by decide), hother (by decide) (by decide),
      hother (by decide) (by decide), hlonger rfl (by decide) (by decide),
      hother (by decide) (by decide), List.forall_mem_nil _⟩

/-- A chain of ANDs or ORs is split behind its first operand. -/
theorem findBinary_first (h : FirstOperand fragments m bareIdentifier last j p a rest left right)
    (hs : trim s = p.text) : findBinary s binaryOperators = some (j.name, a.text, rest.text) := by
  obtain ⟨ha, hrest, -, hlrest, hleft, hright, hne, hne'⟩ := (accepted_join ..).mp h.accepted
  have hla := pred_lexical a false ha.printed ha.readable
  have hlrest := pred_lexical rest last hrest.printed hrest.readable
  have hkw : Keyword [.word j.word] := by
    cases j
    · exact keyword_and
    · exact keyword_or
  have hlevel : Tok.level (.word j.word) = j.level := by cases j <;> decide
  have htoks : p.toks =
      a.toks ++ blanks left ++ [Tok.word j.word] ++ blanks right ++ rest.toks := by
    rw [h.toks, toks_join]
  have hlex := lexical_operator hla hlrest hkw hleft hright (fun hnil => absurd hnil hne)
    (fun hnil => absurd hnil hne')
  rw [← htoks] at hlex
  have hsplit : splitTopLevel s (flat [.word j.word]) = some (a.text, rest.text) := by
    refine split_operator hla hlrest hkw hleft hright (fun hnil => absurd hnil hne)
      (fun hnil => absurd hnil hne') ?_ (by rintro _ _ ⟨⟩) (by rw [hs, Pred.text, htoks])
    exact not_mem_of_level ha.printed (hlevel ▸ h.below)
  cases j with
  | or => exact findBinary_at [] hlex.tidy hs rfl (List.forall_mem_nil _) hsplit
  | and =>
    refine findBinary_at [_] hlex.tidy hs rfl ?_ hsplit
    rw [List.forall_mem_singleton, h.toks]
    exact not_infix_of_not_mem (not_mem_of_level h.accepted.printed (show 2 < 3 by decide))

-- ---------------------------------------------------------------------------
-- Predicates
-- ---------------------------------------------------------------------------

theorem parse_congr {bareIdentifier : String → Exp}
    (h : trimWrappingParens s = trimWrappingParens s') (rounds : Nat) :
    parseSqlValueWithDefault fragments bareIdentifier (rounds + 1) s =
      parseSqlValueWithDefault fragments bareIdentifier (rounds + 1) s' := by
  rw [parseSqlValueWithDefault, parseSqlValueWithDefault, h]

theorem parse_binary {bareIdentifier : String → Exp}
    (hfind : findBinary (trimWrappingParens s) binaryOperators = some (name, left, right))
    (hl : parseSqlValueWithDefault fragments bareIdentifier rounds left = .ok e1)
    (hr : parseSqlValueWithDefault fragments bareIdentifier rounds right = .ok e2) :
    parseSqlValueWithDefault fragments bareIdentifier (rounds + 1) s =
      .ok (sqlBinaryExpression name e1 e2) := by
  rw [parseSqlValueWithDefault]
  simp only [hfind, hl, hr]
  rfl

/-- An atom does not end like a test for NULL. -/
theorem stripSuffix_atom {a : Atom} (hp : a.Printed) :
    stripSuffix "IS NULL".toList (flat a.toks) = none := by
  have hblank : ∀ {s : Text}, ' ' ∉ s → stripSuffix "IS NULL".toList s = none := fun h =>
    stripSuffix_none fun hsuf => h (hsuf.subset (by decide))
  have hlast : ∀ {s : Text} {c : Char}, c ≠ 'L' →
      stripSuffix "IS NULL".toList (s ++ [c]) = none := by
    intro s c hc
    apply stripSuffix_none
    rintro ⟨pre, hpre⟩
    have h := congrArg List.getLast? hpre
    rw [List.getLast?_append, List.getLast?_concat] at h
    cases h
    exact hc rfl
  cases a with
  | field t f =>
    have hsp : ' ' ∉ t ++ '.' :: f := by
      simp [hp.1.not_mem (c := ' ') (by decide), hp.2.not_mem (c := ' ') (by decide)]
    simpa [Atom.toks, Tok.text] using hblank hsp
  | dynamicField t c =>
    simpa [Atom.toks, Tok.text] using
      hlast (s := t ++ '.' :: '\x7b' :: c) (c := '\x7d') (by decide)
  | bare f => simpa [Atom.toks, Tok.text] using hblank (hp.not_mem (c := ' ') (by decide))
  | int n =>
    apply hblank
    intro hmem
    simp only [Atom.toks, intToks] at hmem
    split at hmem
    · simp only [flat_cons, flat_nil, Tok.text, List.append_nil, List.singleton_append,
        List.mem_cons] at hmem
      rcases hmem with heq | hmem
      · cases heq
      · exact absurd (Nat.isDigit_of_mem_toDigits (by decide) (by decide) hmem) (by decide)
    · simp only [flat_cons, flat_nil, Tok.text, List.append_nil] at hmem
      exact absurd (Nat.isDigit_of_mem_toDigits (by decide) (by decide) hmem) (by decide)
  | timestamp => decide
  | countAll star spaced => cases star <;> cases spaced <;> decide
  | inject e =>
    simpa [Atom.toks, Tok.text] using hlast (s := '\x7b' :: '[' :: (e ++ [']'])) (c := '\x7d')
      (by decide)
  | splice e =>
    simpa [Atom.toks, Tok.text] using hlast (s := '\x7b' :: e) (c := '\x7d') (by decide)

theorem text_tight {p : Pred} (hp : p.Printed) (hr : p.Readable last) : trim p.text = p.text :=
  (pred_lexical p last hp hr).firm.tight.trim

theorem length_operator {p q r : Pred} {left right : Text} {kw : List Tok} (hkw : flat kw ≠ [])
    (h : r.toks = p.toks ++ blanks left ++ kw ++ blanks right ++ q.toks) :
    p.text.length < r.text.length ∧ q.text.length < r.text.length := by
  have hpos := List.length_pos_iff.mpr hkw
  simp only [Pred.text, h, flat_append, flat_blanks, List.length_append]
  omega

theorem parse_pred (n : Nat) : ∀ (p : Pred) (last : Bool) (s : Text) (rounds : Nat),
    p.text.length ≤ n → n < rounds → Accepted fragments m last p → trim s = p.text →
    ∃ e, parseSqlValueWithDefault fragments bareIdentifier rounds s = .ok e ∧
      SameUpToAssoc e (p.exp m bareIdentifier) := by
  induction n using Nat.strong_induction_on with
  | _ n ih =>
    intro p last s rounds hn hrounds hacc hs
    obtain ⟨rounds, rfl⟩ : ∃ k, rounds = k + 1 :=
      Nat.exists_eq_succ_of_ne_zero ((Nat.zero_le n).trans_lt hrounds).ne'
    have htight := text_tight hacc.printed hacc.readable
    have hrec : ∀ (q : Pred) (last : Bool), q.text.length < p.text.length →
        Accepted fragments m last q → ∃ e,
          parseSqlValueWithDefault fragments bareIdentifier rounds q.text = .ok e ∧
            SameUpToAssoc e (q.exp m bareIdentifier) := by
      intro q last hlt hq
      exact ih q.text.length (hlt.trans_le hn) q last q.text rounds le_rfl
        (Nat.lt_of_lt_of_le (hlt.trans_le hn) (Nat.le_of_lt_succ hrounds)) hq
        (text_tight hq.printed hq.readable)
    have hbinary : ∀ {name : String} {q1 q2 : Pred} {last1 last2 : Bool},
        findBinary (trimWrappingParens s) binaryOperators = some (name, q1.text, q2.text) →
        q1.text.length < p.text.length ∧ q2.text.length < p.text.length →
        Accepted fragments m last1 q1 → Accepted fragments m last2 q2 → ∃ e,
          parseSqlValueWithDefault fragments bareIdentifier (rounds + 1) s = .ok e ∧
            SameUpToAssoc e
              (sqlBinaryExpression name (q1.exp m bareIdentifier) (q2.exp m bareIdentifier)) := by
      intro name q1 q2 last1 last2 hfind hlt h1 h2
      obtain ⟨e1, he1, hsame1⟩ := hrec q1 last1 hlt.1 h1
      obtain ⟨e2, he2, hsame2⟩ := hrec q2 last2 hlt.2 h2
      exact ⟨_, parse_binary hfind he1 he2, .binary name hsame1 hsame2⟩
    have hchain : ∀ {j : Junction} {a rest : Pred} {left right : Text},
        (∀ l q r, p ≠ .paren l q r) →
        FirstOperand fragments m bareIdentifier last j p a rest left right → ∃ e,
          parseSqlValueWithDefault fragments bareIdentifier (rounds + 1) s = .ok e ∧
            SameUpToAssoc e (p.exp m bareIdentifier) := by
      intro j a rest left right hparen h
      obtain ⟨ha, hrest, -⟩ := (accepted_join ..).mp h.accepted
      have htrim := trimWrappingParens_pred hacc.printed hacc.readable hparen hs
      have hfind := findBinary_first h htight
      rw [← htrim] at hfind
      have hlt := length_operator (by cases j <;> decide) (h.toks.trans (toks_join j a left right rest))
      obtain ⟨e, he, hsame⟩ := hbinary hfind hlt ha hrest
      refine ⟨e, he, hsame.trans ?_⟩
      rw [← exp_join]
      exact h.same
    cases p with
    | atom a =>
      have htrim := trimWrappingParens_pred hacc.printed hacc.readable (by rintro _ _ _ ⟨⟩) hs
      have hnone : findBinary (Pred.atom a).text binaryOperators = none :=
        findBinary_operand hacc.printed hacc.readable rfl htight
      refine ⟨_, ?_, .refl _⟩
      rw [parseSqlValueWithDefault, htrim, hnone]
      simp only [Pred.text, Pred.toks, stripSuffix_atom hacc.printed]
      exact parseSqlAtom_atom hacc.printed hacc.readable hacc.parsed
    | isNull p left =>
      have htrim := trimWrappingParens_pred hacc.printed hacc.readable (by rintro _ _ _ ⟨⟩) hs
      have hnone : findBinary (Pred.isNull p left).text binaryOperators = none :=
        findBinary_operand hacc.printed hacc.readable rfl htight
      obtain ⟨⟨hp, -, hleft, hne⟩, hr, hf⟩ := hacc
      have htext : (Pred.isNull p left).text = p.text ++ left ++ "IS NULL".toList := by
        simp [Pred.text, Pred.toks, isNullToks, Tok.text]
      have hinner : trim (p.text ++ left) = p.text := by
        have h0 : ∀ c ∈ ([] : Text), isWhitespace c := by simp
        exact trim_blanks (pred_lexical p last hp hr).firm.tight h0 hleft
      obtain ⟨e, he, hsame⟩ := hrec p last (by simp [htext]) ⟨hp, hr, hf⟩
      refine ⟨_, ?_, hsame.isNull⟩
      rw [parseSqlValueWithDefault, htrim, hnone]
      simp only [htext, stripSuffix_append, hinner, he]
      rfl
    | cmp op p left right q =>
      have htrim := trimWrappingParens_pred hacc.printed hacc.readable (by rintro _ _ _ ⟨⟩) hs
      obtain ⟨⟨hp, hq, hop, hoq, hleft, hright⟩, ⟨hrp, hrq, hle, hbefore, hafter⟩, hfp, hfq⟩ := hacc
      have hfind := findBinary_cmp hp hq hrp hrq hop hoq hle hleft hright hbefore hafter htight
      rw [← htrim] at hfind
      have htoks : (Pred.cmp op p left right q).toks =
          p.toks ++ blanks left ++ op.toks ++ blanks right ++ q.toks := rfl
      have hlt := length_operator (by cases op <;> decide) htoks
      exact hbinary hfind hlt ⟨hp, hrp, hfp⟩ ⟨hq, hrq, hfq⟩
    | and p left right q =>
      obtain ⟨a, rest, left', right', h⟩ := exists_firstOperand .and p hacc
      exact hchain (by rintro _ _ _ ⟨⟩) h
    | or p left right q =>
      obtain ⟨a, rest, left', right', h⟩ := exists_firstOperand .or p hacc
      exact hchain (by rintro _ _ _ ⟨⟩) h
    | paren left p right =>
      obtain ⟨⟨hp, hleft, hright⟩, hr, hf⟩ := hacc
      have hcongr := trimWrappingParens_parenPred hp hr hleft hright hs
      have hlt : p.text.length < (Pred.paren left p right).text.length := by
        simp only [Pred.text, Pred.toks, flat_cons, flat_nil, Tok.text, List.append_nil,
          List.length_cons, List.length_append]
        omega
      rw [parse_congr hcongr]
      exact ih p.text.length (hlt.trans_le hn) p false _ (rounds + 1) le_rfl
        ((hlt.trans_le hn).trans hrounds) ⟨hp, hr, hf⟩
        (trim_blanks (pred_lexical p false hp hr).firm.tight hleft hright)

theorem parseSqlValue_pred (hacc : Accepted fragments m last p) (hs : trim s = p.text) :
    ∃ e, parseSqlValue fragments s = .ok e ∧
      SameUpToAssoc e (p.exp m sqlDefaultTableFieldExpression) :=
  parse_pred s.length p last s _ (hs ▸ trim_length_le s) (Nat.lt_succ_self _) hacc hs

end UrWeb.Sql
