import UrWeb.Sql.PredicateText

/-!
# Reading atoms

An atom is told from the others by its first and last characters and by what
it does not contain.
-/

namespace UrWeb.Sql

-- ---------------------------------------------------------------------------
-- Texts
-- ---------------------------------------------------------------------------

theorem splitOnce_none (hne : pattern ≠ []) (h : ¬ pattern <:+: s) : splitOnce pattern s = none := by
  induction s with
  | nil =>
    rw [splitOnce, if_neg]
    simpa using hne
  | cons c s ih =>
    rw [splitOnce, if_neg, ih fun hi => h (hi.trans (List.suffix_cons c s).isInfix)]
    · rfl
    · rw [List.isPrefixOf_iff_prefix]
      exact fun hpre => h hpre.isInfix

theorem splitOnce_none_of_not_mem (h : c ∉ s) : splitOnce (c :: pattern) s = none :=
  splitOnce_none (List.cons_ne_nil c pattern) fun hi => h (hi.subset List.mem_cons_self)

theorem splitOnce_at (h : c ∉ left) (right : Text) :
    splitOnce (c :: pattern) (left ++ (c :: pattern ++ right)) = some (left, right) := by
  induction left with
  | nil =>
    rw [List.nil_append, List.cons_append, splitOnce, if_pos]
    · simp
    · simp
  | cons d left ih =>
    rw [List.mem_cons, not_or] at h
    rw [List.cons_append, splitOnce, if_neg, ih h.2]
    · rfl
    · simp [h.1]

theorem stripSuffix_append (s pattern : Text) : stripSuffix pattern (s ++ pattern) = some s := by
  rw [stripSuffix, if_pos]
  · simp
  · simp

theorem stripSuffix_none (h : ¬ pattern <:+ s) : stripSuffix pattern s = none := by
  rw [stripSuffix, if_neg]
  simpa using h

theorem stripPrefix_append (pattern s : Text) : stripPrefix pattern (pattern ++ s) = some s := by
  rw [stripPrefix, if_pos]
  · simp
  · simp

-- ---------------------------------------------------------------------------
-- Integers
-- ---------------------------------------------------------------------------

theorem parseI64_unsigned (hminus : s.head? ≠ some '-') (hplus : s.head? ≠ some '+') :
    parseI64 s = if s.isEmpty ∨ !s.all Char.isDigit then none
      else if Nat.ofDigitChars 10 s 0 < 2 ^ 63 then
        some (Int64.ofInt (Nat.ofDigitChars 10 s 0))
      else none := by
  unfold parseI64
  split
  next negative digits heq =>
  split at heq
  · simp at hminus
  · simp at hplus
  · cases heq
    rfl

theorem parseI64_none (h : ∃ c ∈ s, c.isDigit = false) (hminus : s.head? ≠ some '-')
    (hplus : s.head? ≠ some '+') : parseI64 s = none := by
  obtain ⟨c, hc, hdigit⟩ := h
  rw [parseI64_unsigned hminus hplus, if_pos]
  right
  simpa using ⟨c, hc, hdigit⟩

theorem parseI64_intToks (n : Int64) : parseI64 (flat (intToks n)) = some n := by
  have hdigits : ∀ c ∈ Nat.toDigits 10 n.toInt.natAbs, c.isDigit := fun c hc =>
    Nat.isDigit_of_mem_toDigits (by decide) (by decide) hc
  have hval : Nat.ofDigitChars 10 (Nat.toDigits 10 n.toInt.natAbs) 0 = n.toInt.natAbs := by
    simp
  have hok : ¬ ((Nat.toDigits 10 n.toInt.natAbs).isEmpty ∨
      !(Nat.toDigits 10 n.toInt.natAbs).all Char.isDigit) := by
    simpa [List.isEmpty_iff, Nat.toDigits_ne_nil] using hdigits
  have hle := n.le_toInt
  have hlt := n.toInt_lt
  by_cases hneg : n.toInt < 0
  · have htext : flat (intToks n) = '-' :: Nat.toDigits 10 n.toInt.natAbs := by
      simp [intToks, hneg, Tok.text]
    have hcast : -((n.toInt.natAbs : Nat) : Int) = n.toInt := by omega
    rw [htext]
    simp only [parseI64, if_neg hok, hval, hcast, if_true, Int64.ofInt_toInt]
    exact if_pos (by omega)
  · have htext : flat (intToks n) = Nat.toDigits 10 n.toInt.natAbs := by
      simp [intToks, hneg, Tok.text]
    have hcast : ((n.toInt.natAbs : Nat) : Int) = n.toInt := by omega
    have hhead : ∀ c, c.isDigit = false → (Nat.toDigits 10 n.toInt.natAbs).head? ≠ some c := by
      intro c hc hhead
      rw [hdigits c (List.mem_of_head? hhead)] at hc
      cases hc
    rw [htext, parseI64_unsigned (hhead '-' (by decide)) (hhead '+' (by decide)), if_neg hok, hval,
      hcast, Int64.ofInt_toInt]
    exact if_pos (by omega)

-- ---------------------------------------------------------------------------
-- Fields
-- ---------------------------------------------------------------------------

/-- The first character of an identifier. -/
def StartsName (s : Text) : Prop := ∃ c ∈ s.head?, c.isAlpha ∨ c = '_'

theorem startsName_facts (h : c.isAlpha ∨ c = '_') :
    c.isDigit = false ∧ c ≠ '-' ∧ c ≠ '+' ∧ c ≠ '\x7b' := by
  refine ⟨?_, ?_, ?_, ?_⟩
  · rcases h with h | rfl
    · by_contra hd
      rw [Bool.not_eq_false, Text.isDigit_iff] at hd
      rw [Text.isAlpha_iff] at h
      omega
    · rfl
  all_goals
    rintro rfl
    revert h
    decide

/-- What the parser rules out before it looks for a field. -/
structure LooksSimple (s : Text) : Prop where
  notTimestamp : s ≠ "CURRENT_TIMESTAMP".toList
  starts : StartsName s
  simple : isSimpleSqlAtom s

section
variable {fragments : Fragments} {bareIdentifierParser : String → Exp}

theorem LooksSimple.parseSqlAtom (h : LooksSimple s) :
    parseSqlAtom fragments bareIdentifierParser s =
      match splitOnce ".\x7b\x7b".toList s with
      | some (tableText, fieldText) => do
        let (tableName, con) ← parseDynamicField fragments "\x7d\x7d".toList
          .sqlCompatDynamicFieldMissingBraces s tableText fieldText
        pure (sqlDynamicFieldExpression tableName con)
      | none =>
        match splitOnce ".\x7b".toList s with
        | some (tableText, fieldText) => do
          let (tableName, con) ← parseDynamicField fragments "\x7d".toList
            .sqlCompatFieldMissingBrace s tableText fieldText
          pure (sqlDynamicFieldExpression tableName con)
        | none =>
          match splitOnce ".".toList s with
          | some (tableName, fieldName) =>
            .ok (sqlFieldExpression (String.ofList (trim tableName))
              (String.ofList (trim fieldName)))
          | none =>
            if s.head?.any Char.isAlpha then .ok (bareIdentifierParser (String.ofList s))
            else match fragments.parseExpressionFragment s with
              | .ok e => .ok e
              | .error _ => .error ⟨.sqlCompatUnsupportedExpression, [s]⟩ := by
  obtain ⟨hne, ⟨c, hc, hstart⟩, hsimple⟩ := h
  obtain ⟨hdigit, hminus, hplus, hbrace⟩ := startsName_facts hstart
  simp only [Option.mem_def] at hc
  have hcount : s ∉ ["COUNT(sql_star)".toList, "COUNT( sql_star )".toList, "COUNT(*)".toList,
      "COUNT( * )".toList] := by
    intro hmem
    have hall : ∀ w ∈ ["COUNT(sql_star)".toList, "COUNT( sql_star )".toList, "COUNT(*)".toList,
        "COUNT( * )".toList], isSimpleSqlAtom w = false := by decide
    rw [hall s hmem] at hsimple
    cases hsimple
  have hint : parseI64 s = none := by
    apply parseI64_none ⟨c, List.mem_of_head? hc, hdigit⟩ <;> simp [hc, hminus, hplus]
  have hfirst : ∀ pattern : Text, ('\x7b' :: pattern).isPrefixOf s = false := by
    intro pattern
    by_contra hpre
    rw [Bool.not_eq_false, List.isPrefixOf_iff_prefix] at hpre
    obtain ⟨rest, rfl⟩ := hpre
    cases hc
    exact hbrace rfl
  have hopens {b b' : Bool} (h : b = false) : ¬ (b && b') = true := by simp [h]
  rw [UrWeb.Sql.parseSqlAtom, if_neg hne, if_neg hcount, hint]
  exact (if_neg (hopens (hfirst ['[']))).trans
    ((if_neg (hopens (hfirst []))).trans (if_pos hsimple))

/-- The text of a field, where each part is a name. -/
theorem looksSimple_of_names (hstart : StartsName s) (hne : s ≠ "CURRENT_TIMESTAMP".toList)
    (h : ∀ c ∈ s, isIdentifierByte c ∨ c = '.') (hprime : NoPrime s) : LooksSimple s := by
  refine ⟨hne, hstart, ?_⟩
  simp only [isSimpleSqlAtom, Bool.not_eq_true', List.any_eq_false, Bool.or_eq_true, not_or,
    Bool.not_eq_true]
  intro c hc
  have hnot : c ∉ "()'\"+-*/=><".toList := by
    intro hmem
    have hall : ∀ c ∈ "()'\"+-*/=><".toList, c = '\x27' ∨ (isIdentifierByte c = false ∧ c ≠ '.') :=
      List.all_iff_forall_prop.1 (by decide)
    rcases hall c hmem with rfl | ⟨hident, hdot⟩
    · exact hprime hc
    · rcases h c hc with h | h
      · rw [hident] at h
        cases h
      · exact hdot h
  refine ⟨?_, by simpa using hnot⟩
  rcases h c hc with h | rfl
  · exact not_whitespace_of_ident h
  · decide

theorem Name.startsName (h : Name w) : StartsName w := h.1

theorem Name.not_mem (h : Name w) (hc : isIdentifierByte c = false) : c ∉ w := by
  intro hmem
  rw [h.2.1 c hmem] at hc
  cases hc

theorem Name.tight (h : Name w) : trim w = w := by
  have hfirm : Firm [.word w] := ⟨⟨_, rfl, solid_word h.tok_ok⟩, _, rfl, (solid_word h.tok_ok).2⟩
  simpa [Tok.text] using hfirm.tight.trim

theorem parseSqlAtom_field (ht : Name t) (hf : Name f) (hpt : NoPrime t) (hpf : NoPrime f) :
    parseSqlAtom fragments bareIdentifierParser (t ++ '.' :: f) =
      .ok (sqlFieldExpression (String.ofList t) (String.ofList f)) := by
  have hlooks : LooksSimple (t ++ '.' :: f) := by
    apply looksSimple_of_names
    · obtain ⟨c, hc, hstart⟩ := ht.startsName
      simp only [Option.mem_def] at hc
      exact ⟨c, by simp [hc], hstart⟩
    · intro heq
      have hdot : '.' ∈ "CURRENT_TIMESTAMP".toList := heq ▸ by simp
      revert hdot
      decide
    · intro c hc
      simp only [List.mem_append, List.mem_cons] at hc
      rcases hc with hc | rfl | hc
      · exact .inl (ht.2.1 c hc)
      · exact .inr rfl
      · exact .inl (hf.2.1 c hc)
    · simp only [NoPrime, List.mem_append, List.mem_cons, not_or]
      exact ⟨hpt, by decide, hpf⟩
  have hbrace : '\x7b' ∉ t ++ '.' :: f := by
    simp only [List.mem_append, List.mem_cons, not_or]
    exact ⟨ht.not_mem (by decide), by decide, hf.not_mem (by decide)⟩
  have hnone : ∀ pattern : Text, '\x7b' ∈ pattern → splitOnce pattern (t ++ '.' :: f) = none := by
    intro pattern hmem
    exact splitOnce_none (List.ne_nil_of_mem hmem) fun hi => hbrace (hi.subset hmem)
  have hsplit : splitOnce ".".toList (t ++ '.' :: f) = some (t, f) :=
    splitOnce_at (ht.not_mem (by decide)) f
  rw [hlooks.parseSqlAtom, hnone _ (by decide), hnone _ (by decide), hsplit]
  simp only [ht.tight, hf.tight]

theorem parseSqlAtom_dynamicField (ht : Name t)
    (hsimple : isSimpleSqlAtom (t ++ ".\x7b".toList ++ c ++ ['\x7d']))
    (hdouble : ¬ ".\x7b\x7b".toList <:+: t ++ ".\x7b".toList ++ c ++ ['\x7d'])
    (hc : fragments.parseConstructorFragment (trim c) = .ok con) :
    parseSqlAtom fragments bareIdentifierParser (t ++ ".\x7b".toList ++ c ++ ['\x7d']) =
      .ok (sqlDynamicFieldExpression (String.ofList t) con) := by
  have hlooks : LooksSimple (t ++ ".\x7b".toList ++ c ++ ['\x7d']) := by
    refine ⟨?_, ?_, hsimple⟩
    · intro heq
      have hbrace : '\x7d' ∈ "CURRENT_TIMESTAMP".toList := heq ▸ by simp
      revert hbrace
      decide
    · obtain ⟨d, hd, hstart⟩ := ht.startsName
      simp only [Option.mem_def] at hd
      exact ⟨d, by simp [hd], hstart⟩
  have hsplit : splitOnce ".\x7b".toList (t ++ ".\x7b".toList ++ c ++ ['\x7d']) =
      some (t, c ++ ['\x7d']) := by
    have hdot : '.' ∉ t := ht.not_mem (by decide)
    have hat : splitOnce ('.' :: ['\x7b']) (t ++ ('.' :: ['\x7b'] ++ (c ++ ['\x7d']))) =
        some (t, c ++ ['\x7d']) := splitOnce_at hdot (c ++ ['\x7d'])
    simpa using hat
  have hstrip : stripSuffix "\x7d".toList (c ++ ['\x7d']) = some c := stripSuffix_append c ['\x7d']
  rw [hlooks.parseSqlAtom, splitOnce_none (by decide) hdouble, hsplit]
  simp only [parseDynamicField, hstrip, hc, ht.tight]
  rfl

theorem parseSqlAtom_bare (hf : Name f) (hprime : NoPrime f) (hunder : f.head? ≠ some '_') :
    parseSqlAtom fragments bareIdentifierParser f =
      .ok (bareIdentifierParser (String.ofList f)) := by
  have hne : f ≠ "CURRENT_TIMESTAMP".toList := by
    rintro rfl
    exact hf.2.2 (by decide)
  have hlooks : LooksSimple f :=
    looksSimple_of_names hf.startsName hne (fun c hc => .inl (hf.2.1 c hc)) hprime
  have hnone : ∀ pattern : Text, splitOnce ('.' :: pattern) f = none := fun pattern =>
    splitOnce_none_of_not_mem (hf.not_mem (by decide))
  have hthree : splitOnce ".\x7b\x7b".toList f = none ∧ splitOnce ".\x7b".toList f = none ∧
      splitOnce ".".toList f = none := ⟨hnone _, hnone _, hnone _⟩
  have halpha : f.head?.any Char.isAlpha := by
    obtain ⟨c, hc, hstart⟩ := hf.startsName
    simp only [Option.mem_def] at hc
    rcases hstart with hstart | rfl
    · simp [hc, hstart]
    · exact absurd hc hunder
  rw [hlooks.parseSqlAtom, hthree.1, hthree.2.1, hthree.2.2]
  simp only [halpha, if_true]

theorem parseSqlAtom_int (n : Int64) :
    parseSqlAtom fragments bareIdentifierParser (flat (intToks n)) =
      .ok (sqlIntegerExpression n) := by
  have hdigit : ∀ c ∈ flat (intToks n), c = '-' ∨ c.isDigit := by
    intro c hc
    simp only [intToks] at hc
    split at hc
    · simp only [flat_cons, flat_nil, Tok.text, List.append_nil, List.singleton_append,
        List.mem_cons] at hc
      exact hc.imp_right (Nat.isDigit_of_mem_toDigits (by decide) (by decide))
    · simp only [flat_cons, flat_nil, Tok.text, List.append_nil] at hc
      exact .inr (Nat.isDigit_of_mem_toDigits (by decide) (by decide) hc)
  have hc : ∀ w, 'C' ∈ w → flat (intToks n) ≠ w := by
    rintro w hw rfl
    rcases hdigit 'C' hw with h | h <;> revert h <;> decide
  have hcount : flat (intToks n) ∉ ["COUNT(sql_star)".toList, "COUNT( sql_star )".toList,
      "COUNT(*)".toList, "COUNT( * )".toList] := by
    intro hmem
    have hall : ∀ w ∈ ["COUNT(sql_star)".toList, "COUNT( sql_star )".toList, "COUNT(*)".toList,
        "COUNT( * )".toList], 'C' ∈ w := by decide
    exact hc _ (hall _ hmem) rfl
  rw [parseSqlAtom, if_neg (hc _ (by decide)), if_neg hcount, parseI64_intToks]

/-- A splice is not taken for a word or a number. -/
theorem parseSqlAtom_splice (e : Text) :
    parseSqlAtom fragments bareIdentifierParser ('\x7b' :: (e ++ ['\x7d'])) =
      if "\x7b[".toList.isPrefixOf ('\x7b' :: (e ++ ['\x7d'])) &&
          "]\x7d".toList.isSuffixOf ('\x7b' :: (e ++ ['\x7d'])) then do
        let inner ← fragments.parseExpressionFragment (((e ++ ['\x7d']).drop 1).take (e.length - 2))
        pure (sqlInjectExpression inner)
      else fragments.parseExpressionFragment e := by
  have hint : parseI64 ('\x7b' :: (e ++ ['\x7d'])) = none :=
    parseI64_none ⟨'\x7b', List.mem_cons_self, rfl⟩ nofun nofun
  have hsplice : "\x7b".toList.isPrefixOf ('\x7b' :: (e ++ ['\x7d'])) &&
      "\x7d".toList.isSuffixOf ('\x7b' :: (e ++ ['\x7d'])) := by
    rw [Bool.and_eq_true, List.isPrefixOf_iff_prefix, List.isSuffixOf_iff_suffix]
    exact ⟨⟨_, rfl⟩, ⟨'\x7b' :: e, rfl⟩⟩
  rw [parseSqlAtom, if_neg (by simp), if_neg (by simp), hint]
  have hinner : (('\x7b' :: (e ++ ['\x7d'])).drop 1).take
      (('\x7b' :: (e ++ ['\x7d'])).length - 2) = e := by simp
  have hlength : ('\x7b' :: (e ++ ['\x7d'])).length - 4 = e.length - 2 := by simp
  simp only [hsplice, if_true, hinner, hlength]
  rfl

theorem suffix_pair (e : Text) (c : Char) :
    [']', c] <:+ e ++ [c] ↔ e.getLast? = some ']' := by
  rw [List.getLast?_eq_some_iff]
  constructor
  · rintro ⟨ys, hys⟩
    have heq : (ys ++ [']']) ++ [c] = e ++ [c] := by simpa using hys
    exact ⟨ys, (List.append_cancel_right heq).symm⟩
  · rintro ⟨ys, rfl⟩
    exact ⟨ys, by simp⟩

theorem prefix_pair (e : Text) :
    ['\x7b', '['] <+: '\x7b' :: (e ++ ['\x7d']) ↔ e.head? = some '[' := by
  cases e with
  | nil => simp
  | cons c e => simpa [List.cons_prefix_cons] using eq_comm

theorem parseSqlAtom_atom {a : Atom} (hp : a.Printed) (hr : a.Readable last)
    (hf : a.FragmentsParsed fragments m) :
    parseSqlAtom fragments bareIdentifierParser (flat a.toks) =
      .ok (a.exp m bareIdentifierParser) := by
  cases a with
  | field t f => simpa [Atom.toks, Tok.text, Atom.exp] using parseSqlAtom_field hp.1 hp.2 hr.1 hr.2
  | dynamicField t c =>
    simpa [Atom.toks, Tok.text, Atom.exp] using parseSqlAtom_dynamicField hp hr.2.1 hr.2.2 hf
  | bare f => simpa [Atom.toks, Tok.text, Atom.exp] using parseSqlAtom_bare hp hr.1 hr.2
  | int n => exact parseSqlAtom_int n
  | timestamp =>
    rw [parseSqlAtom, if_pos (by decide)]
    rfl
  | countAll star spaced =>
    have hcount : flat (Atom.countAll star spaced).toks ∈ ["COUNT(sql_star)".toList,
        "COUNT( sql_star )".toList, "COUNT(*)".toList, "COUNT( * )".toList] := by
      cases star <;> cases spaced <;> decide
    have hne : flat (Atom.countAll star spaced).toks ≠ "CURRENT_TIMESTAMP".toList := by
      cases star <;> cases spaced <;> decide
    rw [parseSqlAtom, if_neg hne, if_pos hcount]
    rfl
  | inject e =>
    have htext : flat (Atom.inject e).toks = '\x7b' :: (('[' :: e ++ [']']) ++ ['\x7d']) := by
      simp [Atom.toks, Tok.text]
    have hinner : (('[' :: e ++ [']'] ++ ['\x7d']).drop 1).take (('[' :: e ++ [']']).length - 2) = e := by
      simp
    rw [htext, parseSqlAtom_splice, hinner, if_pos]
    · rw [show fragments.parseExpressionFragment e = .ok (m.exp e) from hf]
      rfl
    · rw [Bool.and_eq_true, List.isPrefixOf_iff_prefix, List.isSuffixOf_iff_suffix]
      refine ⟨(prefix_pair _).mpr rfl, ?_⟩
      exact ((suffix_pair _ _).mpr List.getLast?_concat).trans (List.suffix_cons _ _)
  | splice e =>
    have htext : flat (Atom.splice e).toks = '\x7b' :: (e ++ ['\x7d']) := by
      simp [Atom.toks, Tok.text]
    rw [htext, parseSqlAtom_splice, if_neg]
    · exact hf
    · rw [Bool.and_eq_true, List.isPrefixOf_iff_prefix, List.isSuffixOf_iff_suffix]
      rintro ⟨hpre, hsuf⟩
      refine hp ⟨(prefix_pair e).mp hpre, (suffix_pair e '\x7d').mp ?_⟩
      rcases List.suffix_cons_iff.mp hsuf with heq | hsuf
      · cases heq
      · exact hsuf

end

end UrWeb.Sql
