import UrWeb.Parse.LexerProgress
import UrWeb.Parse.LiteralsScanned

/-!
# Literals read back

For each kind of literal, what the XML-aware lexer reads from its text, and from that
the literals it reads as the token table does.
-/

namespace UrWeb.Parse

variable {F : Type}

-- ---------------------------------------------------------------------------
-- Bytes of characters
-- ---------------------------------------------------------------------------

theorem ofUInt8_toUInt8 (h : c.val ≤ 127) : Char.ofUInt8 c.toUInt8 = c := by
  have hl := latin_ascii h
  rw [Utf8.encode_ascii c h] at hl
  exact (List.cons.inj hl).1

theorem byte_not_mem (hx : x.val ≤ 127) (hc : c ≠ x) : x.toUInt8 ∉ String.utf8EncodeChar c := by
  intro hmem
  by_cases hascii : c.val ≤ 127
  · rw [Utf8.encode_ascii c hascii, List.mem_singleton] at hmem
    refine hc ?_
    rw [← ofUInt8_toUInt8 hascii, ← hmem, ofUInt8_toUInt8 hx]
  · refine Utf8.high_bytes (Nat.lt_of_not_le hascii) _ hmem ?_
    obtain ⟨n, hn, rfl⟩ := exists_ascii hx
    have hall : ∀ n < 128, (Char.ofNat n).toUInt8 < 0x80 := by decide +kernel
    exact hall n hn

-- ---------------------------------------------------------------------------
-- Strings
-- ---------------------------------------------------------------------------

theorem stringBody_escape (quote esc : UInt8) (bs : List UInt8) :
    stringBody quote ('\x5c'.toUInt8 :: esc :: bs) =
      ((stringBody quote bs).1.map (stringEscape esc ++ ·), (stringBody quote bs).2 + 2) := by
  rw [stringBody, if_pos rfl]

theorem stringBody_quote (h : quote ≠ '\x5c'.toUInt8) (bs : List UInt8) :
    stringBody quote (quote :: bs) = (.ok [], 1) := by
  cases bs <;> rw [stringBody, if_neg h, if_pos rfl]

theorem stringBody_other (hb : b ≠ '\x5c'.toUInt8) (hq : b ≠ quote) (bs : List UInt8) :
    stringBody quote (b :: bs) =
      ((stringBody quote bs).1.map (Char.ofUInt8 b :: ·), (stringBody quote bs).2 + 1) := by
  rw [stringBody.eq_def]
  simp only [if_neg hb, if_neg hq]

theorem stringBody_bytes (h : ∀ b ∈ bs, b ≠ '\x5c'.toUInt8 ∧ b ≠ quote) (rest : List UInt8) :
    stringBody quote (bs ++ rest) =
      ((stringBody quote rest).1.map (latin bs ++ ·), (stringBody quote rest).2 + bs.length) := by
  induction bs with
  | nil =>
    rw [List.nil_append]
    cases stringBody quote rest with
    | mk r n => cases r <;> rfl
  | cons b bs ih =>
    obtain ⟨⟨hb, hq⟩, hbs⟩ := List.forall_mem_cons.1 h
    rw [List.cons_append, stringBody_other hb hq, ih hbs]
    cases (stringBody quote rest).1 <;> rfl

theorem stringBody_text (h : StringText t) (rest : List UInt8) :
    stringBody '\x22'.toUInt8 (Utf8.encode t ++ '\x22'.toUInt8 :: rest) =
      (.ok (scanned t), (Utf8.encode t).length + 1) := by
  induction h with
  | nil => rw [Utf8.encode_nil, List.nil_append, stringBody_quote (by decide), scanned]; rfl
  | @char c t hq hb _ ih =>
    have hbytes : ∀ b ∈ String.utf8EncodeChar c, b ≠ '\x5c'.toUInt8 ∧ b ≠ '\x22'.toUInt8 :=
      fun b hmem =>
        ⟨fun he => byte_not_mem (by decide) hb (he ▸ hmem),
          fun he => byte_not_mem (by decide) hq (he ▸ hmem)⟩
    rw [Utf8.encode_cons, List.append_assoc, stringBody_bytes hbytes, ih, scanned_char hb,
      List.length_append]
    exact congrArg (_, ·) (by omega)
  | @escape e t he _ ih =>
    have hback : String.utf8EncodeChar '\x5c' = ['\x5c'.toUInt8] := by decide
    cases hbytes : String.utf8EncodeChar e with
    | nil => exact absurd hbytes String.utf8EncodeChar_ne_nil
    | cons b bs =>
      -- The bytes after the first are those of a character beyond ASCII.
      have hbs : ∀ b' ∈ bs, b' ≠ '\x5c'.toUInt8 ∧ b' ≠ '\x22'.toUInt8 := by
        intro b' hmem
        by_cases hascii : e.val ≤ 127
        · rw [Utf8.encode_ascii e hascii] at hbytes
          rw [(List.cons.inj hbytes).2.symm] at hmem
          cases hmem
        · have hhigh := Utf8.high_bytes (Nat.lt_of_not_le hascii) b' (by simp [hbytes, hmem])
          constructor
          · rintro rfl
            exact hhigh (by decide)
          · rintro rfl
            exact hhigh (by decide)
      rw [Utf8.encode_cons, Utf8.encode_cons, hback, hbytes, scanned_escape, scannedEscape, hbytes]
      simp only [List.cons_append, List.nil_append, List.append_assoc]
      rw [stringBody_escape, stringBody_bytes hbs, ih]
      simp only [List.length_cons, List.length_append]
      exact Prod.ext rfl (by simp only; omega)

theorem start_rest (src : List UInt8) (allowXmlMarkup : Bool) :
    (XmlAwareLexer.withXmlMarkupPolicy src allowXmlMarkup).rest = src := rfl

/-- The first token of a source is one of code. -/
theorem next_start [F64 F] (allowXmlMarkup : Bool) (h : skipCode (b :: bs) = none) :
    (XmlAwareLexer.withXmlMarkupPolicy (b :: bs) allowXmlMarkup).next (F := F) =
      some ((XmlAwareLexer.withXmlMarkupPolicy (b :: bs) allowXmlMarkup).regularToken b) :=
  next_token (F := F) (start_rest _ _) h

theorem start_pos (src : List UInt8) (allowXmlMarkup : Bool) (n : Nat) :
    (XmlAwareLexer.withXmlMarkupPolicy src allowXmlMarkup).pos + n = n := Nat.zero_add n

theorem next_whole [F64 F] {s : XmlAwareLexer} (h : s.src.length ≤ s.pos) :
    s.next (F := F) = none :=
  next_end (List.drop_eq_nil_of_le h)

theorem scanRegularString_text {s : XmlAwareLexer}
    (hr : s.rest = Utf8.encode t ++ '\x22'.toUInt8 :: rest) (h : StringText t) (start : Nat) :
    ∃ s', s.scanRegularString '\x22'.toUInt8 start =
      ((.ok (start, .string (scanned t), s'.pos) : LexResult F), s') ∧
      s'.src = s.src ∧ s'.pos = s.pos + ((Utf8.encode t).length + 1) := by
  rw [XmlAwareLexer.scanRegularString, hr, stringBody_text h]
  let s' : XmlAwareLexer := { s.advance ((Utf8.encode t).length + 1) with
    mode := s.stringReturn.getD s.mode, stringReturn := none }
  exact ⟨s', rfl, rfl, rfl⟩

/-- A string in quotes is one token, whatever stands between them. -/
theorem next_string [F64 F] (h : StringText t) (allowXmlMarkup : Bool) :
    ∃ s', (XmlAwareLexer.withXmlMarkupPolicy (Utf8.encode ('\x22' :: t ++ ['\x22']))
        allowXmlMarkup).next (F := F) =
      some (.ok (0, .string (scanned t), (Utf8.encode ('\x22' :: t ++ ['\x22'])).length), s') ∧
      s'.next (F := F) = none := by
  have hquote : String.utf8EncodeChar '\x22' = ['\x22'.toUInt8] := by decide
  have hsrc : Utf8.encode ('\x22' :: t ++ ['\x22']) =
      '\x22'.toUInt8 :: (Utf8.encode t ++ ['\x22'.toUInt8]) := by
    rw [Utf8.encode_append, Utf8.encode_cons, Utf8.encode_cons, hquote]
    rfl
  have hskip : skipCode ('\x22'.toUInt8 :: (Utf8.encode t ++ ['\x22'.toUInt8])) = none := by
    rw [skipCode, if_neg (by decide), if_neg fun h => absurd h.1 (by decide)]
  have hlen : ('\x22'.toUInt8 :: (Utf8.encode t ++ ['\x22'.toUInt8])).length =
      0 + 1 + ((Utf8.encode t).length + 1) := by
    rw [List.length_cons, List.length_append, List.length_singleton]
    omega
  have hrest : (XmlAwareLexer.advance (XmlAwareLexer.withXmlMarkupPolicy
      ('\x22'.toUInt8 :: (Utf8.encode t ++ ['\x22'.toUInt8])) allowXmlMarkup) 1).rest =
      Utf8.encode t ++ ['\x22'.toUInt8] := rfl
  obtain ⟨s', hs', hsrc', hpos'⟩ := scanRegularString_text (F := F) hrest h 0
  have hpos : s'.pos = 0 + 1 + ((Utf8.encode t).length + 1) := hpos'
  rw [hsrc, next_start allowXmlMarkup hskip, XmlAwareLexer.regularToken, if_pos (.inl rfl), hlen,
    ← hpos]
  refine ⟨s', congrArg some hs', next_whole ?_⟩
  rw [hsrc', hpos]
  exact Nat.le_of_eq hlen

theorem readBack_string [F64 F] {l : Literal F} (h : StringText t)
    (htext : l.text = '\x22' :: t ++ ['\x22']) (htoken : l.token = some (.string s))
    (allowXmlMarkup : Bool) : l.ReadBack allowXmlMarkup ↔ scanned t = s := by
  obtain ⟨s1, hn, hend⟩ := next_string (F := F) h allowXmlMarkup
  rw [Literal.ReadBack, htoken, htext, hn]
  constructor
  · rintro ⟨s', hs', -⟩
    cases hs'
    rfl
  · rintro rfl
    exact ⟨s1, rfl, hend⟩

-- ---------------------------------------------------------------------------
-- Quoted strings
-- ---------------------------------------------------------------------------

theorem quoteChar_cases (c : Char) :
    (∃ e, quoteChar c = ['\x5c', e] ∧ simpleEscape e = some c ∧ c.val ≤ 127) ∨
    (quoteChar c = [c] ∧ c ≠ '\x5c' ∧ c ≠ '\x22') := by
  rw [quoteChar]
  split_ifs with h1 h2 h3 h4 h5
  · exact .inl ⟨_, rfl, by rw [h1]; rfl, by rw [h1]; decide⟩
  · exact .inl ⟨_, rfl, by rw [h2]; rfl, by rw [h2]; decide⟩
  · exact .inl ⟨_, rfl, by rw [h3]; rfl, by rw [h3]; decide⟩
  · exact .inl ⟨_, rfl, by rw [h4]; rfl, by rw [h4]; decide⟩
  · exact .inl ⟨_, rfl, by rw [h5]; rfl, by rw [h5]; decide⟩
  · exact .inr ⟨rfl, h1, h2⟩

theorem stringText_quoted (s : List Char) : StringText (s.flatMap quoteChar) := by
  induction s with
  | nil => exact .nil
  | cons c s ih =>
    rw [List.flatMap_cons]
    obtain ⟨e, he, hs, -⟩ | ⟨hc, hb, hq⟩ := quoteChar_cases c
    · rw [he]
      have hlong := (simpleEscape_ascii hs).2
      exact .escape (fun hn => hlong (.inr (.inr (.inr (.inr (.inl hn)))))) ih
    · rw [hc]
      exact .char hq hb ih

theorem plain_escape_iff : Plain ('\x5c' :: e :: t) ↔ ¬ LongEscape e ∧ e.val ≤ 127 ∧ Plain t := by
  constructor
  · intro h
    cases h with
    | char hne => exact absurd rfl hne
    | escape he ha ht => exact ⟨he, ha, ht⟩
  · rintro ⟨he, ha, ht⟩
    exact .escape he ha ht

theorem plain_char_iff (hc : c ≠ '\x5c') : Plain (c :: t) ↔ c.val ≤ 127 ∧ Plain t := by
  constructor
  · intro h
    cases h with
    | char _ ha ht => exact ⟨ha, ht⟩
    | escape => exact absurd rfl hc
  · rintro ⟨ha, ht⟩
    exact .char hc ha ht

theorem plain_quoted_iff (s : List Char) :
    Plain (s.flatMap quoteChar) ↔ ∀ c ∈ s, c.val ≤ 127 := by
  induction s with
  | nil => simp [Plain.nil]
  | cons c s ih =>
    rw [List.flatMap_cons, List.forall_mem_cons, ← ih]
    obtain ⟨e, he, hs, hc⟩ | ⟨hc, hb, hq⟩ := quoteChar_cases c
    · obtain ⟨ha, hlong⟩ := simpleEscape_ascii hs
      rw [he, List.cons_append, List.cons_append, List.nil_append, plain_escape_iff]
      exact ⟨fun h => ⟨hc, h.2.2⟩, fun h => ⟨hlong, ha, h.2⟩⟩
    · rw [hc, List.cons_append, List.nil_append, plain_char_iff hb]

theorem processEscapes_quoted (s : List Char) (hn : (s.flatMap quoteChar).length < n) :
    processEscapes n (s.flatMap quoteChar) = some s := by
  induction s generalizing n with
  | nil =>
    obtain ⟨n, rfl⟩ := Nat.exists_eq_add_of_lt hn
    rfl
  | cons c s ih =>
    obtain ⟨n, rfl⟩ := Nat.exists_eq_add_of_lt hn
    rw [List.flatMap_cons, List.length_append]
    obtain ⟨e, he, hs, -⟩ | ⟨hc, hb, -⟩ := quoteChar_cases c
    · have hesc : escape e (s.flatMap quoteChar) = some ([c], s.flatMap quoteChar) := by
        unfold escape
        rw [hs]
      rw [he, List.cons_append, List.cons_append, List.nil_append, processEscapes_escape, hesc,
        Option.bind_some, ih (by simp only [List.length_cons]; omega)]
      rfl
    · rw [hc, List.cons_append, List.nil_append, processEscapes_char hb,
        ih (by rw [List.length_singleton]; omega)]
      rfl

theorem processStringEscapes_quoted (s : List Char) :
    processStringEscapes (s.flatMap quoteChar) = some s := by
  have hlen := Utf8.length_le_encode (s.flatMap quoteChar)
  exact processEscapes_quoted s (by omega)

-- ---------------------------------------------------------------------------
-- Characters
-- ---------------------------------------------------------------------------

/-- Only one byte is read after the opening quote, and a quote if it follows. -/
theorem next_char [F64 F] (b : UInt8) (bs : List UInt8) (allowXmlMarkup : Bool) :
    ∃ s', (XmlAwareLexer.withXmlMarkupPolicy ('#'.toUInt8 :: '\x22'.toUInt8 :: b :: bs)
        allowXmlMarkup).next (F := F) =
      some (.ok (0, .char (Char.ofUInt8 b), if bs.head? = some '\x22'.toUInt8 then 4 else 3),
        s') ∧
      s'.src = '#'.toUInt8 :: '\x22'.toUInt8 :: b :: bs ∧
      s'.pos = if bs.head? = some '\x22'.toUInt8 then 4 else 3 := by
  have hskip : skipCode ('#'.toUInt8 :: '\x22'.toUInt8 :: b :: bs) = none := by
    rw [skipCode, if_neg (by decide), if_neg fun h => absurd h.1 (by decide)]
  rw [next_start allowXmlMarkup hskip, XmlAwareLexer.withXmlMarkupPolicy,
    XmlAwareLexer.regularToken, if_neg (by decide), if_pos ⟨rfl, rfl⟩, XmlAwareLexer.scanChar]
  have hat : bs.head? = bs[0]? := List.head?_eq_getElem?
  simp only [XmlAwareLexer.at, XmlAwareLexer.rest, XmlAwareLexer.advance, List.drop_succ_cons,
    List.drop_zero, List.getElem?_cons_zero, List.getElem?_cons_succ, hat]
  split_ifs
  · exact ⟨_, rfl, rfl, rfl⟩
  · exact ⟨_, rfl, rfl, rfl⟩

theorem readBack_char [F64 F] (t : List Char) (c : Char) (shape : StringText t)
    (value : processStringEscapes t = some [c]) (allowXmlMarkup : Bool) :
    (Literal.char t c shape value : Literal F).ReadBack allowXmlMarkup ↔
      ∃ c, t = [c] ∧ c.val ≤ 127 := by
  have hopen : Utf8.encode ['#', '\x22'] = ['#'.toUInt8, '\x22'.toUInt8] := by decide
  have hclose : Utf8.encode ['\x22'] = ['\x22'.toUInt8] := by decide
  have hsrc : Utf8.encode (Literal.char t c shape value : Literal F).text =
      '#'.toUInt8 :: '\x22'.toUInt8 :: (Utf8.encode t ++ ['\x22'.toUInt8]) := by
    have htext : (Literal.char t c shape value : Literal F).text =
        ['#', '\x22'] ++ (t ++ ['\x22']) := rfl
    rw [htext, Utf8.encode_append, Utf8.encode_append, hopen, hclose]
    rfl
  have hne : t ≠ [] := by
    rintro rfl
    cases value
  obtain ⟨b, bs, hb⟩ := List.exists_cons_of_ne_nil (Utf8.encode_ne_nil hne)
  obtain ⟨s', hn, hs, hpos⟩ := next_char (F := F) b (bs ++ ['\x22'.toUInt8]) allowXmlMarkup
  rw [Literal.ReadBack, hsrc, hb, List.cons_append, hn]
  simp only [Literal.token]
  constructor
  · rintro ⟨s1, h, -⟩
    have hend := congrArg (fun r => r.map fun out => out.1.toOption.map fun t => t.2.2) h
    simp only [Option.map_some, Except.toOption, Option.some.injEq, List.length_cons,
      List.length_append, List.length_nil] at hend
    have hbs : bs = [] := by
      refine List.length_eq_zero_iff.1 ?_
      split_ifs at hend <;> omega
    match t, hb, hne with
    | [c], hb, _ =>
      refine ⟨c, rfl, ?_⟩
      by_contra hascii
      have hsize := utf8Size_of_not_ascii hascii
      rw [← String.length_utf8EncodeChar] at hsize
      rw [Utf8.encode_cons, Utf8.encode_nil, List.append_nil] at hb
      rw [hb, hbs, List.length_singleton] at hsize
      exact absurd hsize (by decide)
    | c :: d :: t, hb, _ =>
      have hlen := Utf8.length_le_encode (c :: d :: t)
      rw [hb, hbs] at hlen
      simp only [List.length_cons, List.length_nil] at hlen
      omega
  · rintro ⟨d, rfl, hd⟩
    have hbytes : Utf8.encode [d] = [d.toUInt8] := by
      rw [Utf8.encode_cons, Utf8.encode_ascii d hd]
      rfl
    rw [hbytes] at hb
    obtain ⟨rfl, rfl⟩ := List.cons.inj hb
    -- The one character is not a backslash, so it stands for itself.
    have hc : d = c := by
      have hback : d ≠ '\x5c' := by
        rintro rfl
        have hnone : processStringEscapes ['\x5c'] = none := by decide
        rw [hnone] at value
        cases value
      have hv := value
      rw [processStringEscapes, hbytes] at hv
      have hplain := processEscapes_plain (.char hback hd .nil)
        (show [d].length < [d.toUInt8].length * 8 + 64 by
          rw [List.length_singleton, List.length_singleton]
          decide)
      rw [hplain, scanned_char hback, latin_ascii hd, scanned, List.append_nil] at hv
      exact (List.cons.inj (Option.some.inj hv)).1
    refine ⟨s', ?_, next_whole ?_⟩
    · rw [ofUInt8_toUInt8 hd, hc]
      rfl
    · rw [hs, hpos]
      exact Nat.le_refl 4

-- ---------------------------------------------------------------------------
-- Numbers
-- ---------------------------------------------------------------------------

theorem digit_ascii {c : Char} (h : c.isDigit) : c.val ≤ 127 := by
  simp only [Char.isDigit, Bool.and_eq_true, decide_eq_true_eq] at h
  exact UInt32.le_trans h.2 (by decide)

theorem isAsciiDigit_toUInt8 {c : Char} (h : c.val ≤ 127) : isAsciiDigit c.toUInt8 = c.isDigit := by
  rw [isAsciiDigit, ofUInt8_toUInt8 h]

/-- Digits are read up to the first byte that is none. -/
theorem scanDigits_encode (h : ∀ c ∈ ds, c.isDigit) (hr : ∀ b ∈ rest.head?, ¬ isAsciiDigit b) :
    scanDigits (Utf8.encode ds ++ rest) = (Utf8.encode ds).length := by
  have hbytes := Utf8.encode_of_ascii fun c hc => digit_ascii (h c hc)
  have hall : ∀ b ∈ Utf8.encode ds, isAsciiDigit b := by
    intro b hb
    rw [hbytes] at hb
    obtain ⟨c, hc, rfl⟩ := List.mem_map.1 hb
    rw [isAsciiDigit_toUInt8 (digit_ascii (h c hc))]
    exact h c hc
  have hrest : rest.takeWhile isAsciiDigit = [] := by
    cases rest with
    | nil => rfl
    | cons b rest => rw [List.takeWhile_cons, if_neg (hr b rfl)]
  rw [scanDigits, List.takeWhile_append_of_pos hall, hrest, List.append_nil]

theorem encode_sign (neg : Bool) :
    Utf8.encode (sign neg) = if neg then ['-'.toUInt8] else [] := by
  cases neg <;> decide

theorem Digits.encode (h : Digits ds) :
    ∃ b bs, Utf8.encode ds = b :: bs ∧ isAsciiDigit b := by
  obtain ⟨c, cs, rfl⟩ := List.exists_cons_of_ne_nil h.ne_nil
  have hc := h.digit c (by simp)
  have ha := digit_ascii hc
  rw [Utf8.encode_cons, Utf8.encode_ascii c ha]
  refine ⟨_, _, rfl, ?_⟩
  rw [isAsciiDigit_toUInt8 ha]
  exact hc

theorem no_digit_nil : ∀ b ∈ ([] : List UInt8).head?, ¬ isAsciiDigit b := nofun

theorem no_digit_cons {b : UInt8} (h : ¬ isAsciiDigit b) (bs : List UInt8) :
    ∀ x ∈ (b :: bs).head?, ¬ isAsciiDigit x := by
  rintro x ⟨⟩
  exact h

theorem intLength_encode (h : Digits ds) (neg : Bool) (hr : ∀ b ∈ rest.head?, ¬ isAsciiDigit b) :
    intLength (Utf8.encode (sign neg ++ ds) ++ rest) = (Utf8.encode (sign neg ++ ds)).length := by
  have hds := scanDigits_encode h.digit hr
  rw [Utf8.encode_append, encode_sign, intLength, signLength, List.append_assoc]
  cases neg with
  | true =>
    simp only [if_true, List.cons_append, List.nil_append, List.head?_cons, List.drop_succ_cons,
      List.drop_zero, hds, List.length_cons]
    omega
  | false =>
    obtain ⟨b, bs, hb, hd⟩ := h.encode
    have hne : (Utf8.encode ds ++ rest).head? ≠ some '-'.toUInt8 := by
      rw [hb, List.cons_append, List.head?_cons]
      intro he
      rw [Option.some.inj he] at hd
      exact absurd hd (by decide)
    simp only [if_neg Bool.false_ne_true, List.nil_append]
    rw [if_neg hne, List.drop_zero, Nat.zero_add, hds]

/-- The operators begin neither as a number nor as the sign of one. -/
theorem operators_not_number : ∀ op ∈ operators (F := F), ∃ x y more, bytes op.1 = x :: y :: more ∧
    ¬ isAsciiDigit x ∧ (x = '-'.toUInt8 → ¬ isAsciiDigit y) := by
  simp only [operators, List.forall_mem_cons]
  refine ⟨?_, ?_, ?_, ?_, ?_, ?_, ?_, ?_, ?_, ?_, ?_, ?_, ?_, ?_, ?_, ?_, ?_, ?_, ?_, by simp⟩
  all_goals exact ⟨_, _, _, rfl, by decide, by decide⟩

theorem tryMultiCharOp_number {s : XmlAwareLexer} (hr : s.rest = b :: bs)
    (h : isAsciiDigit b ∨ b = '-'.toUInt8 ∧ (s.at 1).any isAsciiDigit) :
    s.tryMultiCharOp (F := F) = none := by
  have hnone : operators.find?
      (fun op : String × Token F => (bytes op.1).isPrefixOf s.rest) = none := by
    rw [List.find?_eq_none]
    intro op hop hpre
    obtain ⟨x, y, more, hbytes, hx, hy⟩ := operators_not_number op hop
    obtain ⟨rest, hrest⟩ := List.isPrefixOf_iff_prefix.1 hpre
    rw [hbytes, hr] at hrest
    obtain ⟨rfl, rfl⟩ := List.cons.inj hrest
    obtain hd | ⟨rfl, hd⟩ := h
    · exact hx hd
    · rw [XmlAwareLexer.at, hr] at hd
      exact hy rfl hd
  rw [XmlAwareLexer.tryMultiCharOp, hnone]

theorem regularToken_number [F64 F] {s : XmlAwareLexer} (hr : s.rest = b :: bs)
    (h : isAsciiDigit b ∨ b = '-'.toUInt8 ∧ (s.at 1).any isAsciiDigit) :
    s.regularToken b = s.scanNumber (F := F) s.pos := by
  have hne : ∀ x : UInt8, isAsciiDigit x = false → x ≠ '-'.toUInt8 → b ≠ x := by
    rintro x hx hm rfl
    obtain h | h := h
    · exact Bool.false_ne_true (hx.symm.trans h)
    · exact hm h.1
  have hlt : ¬ (b = '<'.toUInt8 ∧ s.allowXmlMarkup = true) :=
    fun h => hne '<'.toUInt8 (by decide) (by decide) h.1
  have hquote : ¬ (b = '\x22'.toUInt8 ∨ b = '\x27'.toUInt8) := by
    rintro (h | h)
    · exact hne '\x22'.toUInt8 (by decide) (by decide) h
    · exact hne '\x27'.toUInt8 (by decide) (by decide) h
  rw [XmlAwareLexer.regularToken, if_neg hquote,
    if_neg fun h => hne '#'.toUInt8 (by decide) (by decide) h.1, if_neg hlt,
    tryMultiCharOp_number hr h]
  simp only
  rw [if_neg (hne '\x7b'.toUInt8 (by decide) (by decide)),
    if_neg (hne '\x7d'.toUInt8 (by decide) (by decide)),
    if_neg (hne '('.toUInt8 (by decide) (by decide)),
    if_neg (hne ')'.toUInt8 (by decide) (by decide)), if_pos h]

theorem digit_not_blank {b : UInt8} (h : isAsciiDigit b ∨ b = '-'.toUInt8) :
    skipCode (b :: bs) = none := by
  have hne : ∀ x : UInt8, isAsciiDigit x = false → x ≠ '-'.toUInt8 → b ≠ x := by
    rintro x hx hm rfl
    obtain h | h := h
    · exact Bool.false_ne_true (hx.symm.trans h)
    · exact hm h
  have hblank : isBlank b = false := by
    simp only [isBlank, Bool.or_eq_false_iff, beq_eq_false_iff_ne]
    exact ⟨⟨⟨hne ' '.toUInt8 (by decide) (by decide), hne '\t'.toUInt8 (by decide) (by decide)⟩,
      hne '\r'.toUInt8 (by decide) (by decide)⟩, hne '\n'.toUInt8 (by decide) (by decide)⟩
  rw [skipCode, hblank, if_neg Bool.false_ne_true,
    if_neg fun h => hne '('.toUInt8 (by decide) (by decide) h.1]

/-- A source that begins with a number is first read by the scan of a number. -/
theorem next_number [F64 F] (neg : Bool) (h : Digits ds) (rest : List UInt8)
    (allowXmlMarkup : Bool) :
    (XmlAwareLexer.withXmlMarkupPolicy (Utf8.encode (sign neg ++ ds) ++ rest)
        allowXmlMarkup).next (F := F) =
      some ((XmlAwareLexer.withXmlMarkupPolicy (Utf8.encode (sign neg ++ ds) ++ rest)
        allowXmlMarkup).scanNumber 0) := by
  obtain ⟨d, bs, hds, hd⟩ := h.encode
  rw [Utf8.encode_append, encode_sign, List.append_assoc, hds]
  cases neg with
  | false =>
    simp only [if_neg Bool.false_ne_true, List.nil_append, List.cons_append]
    rw [next_start allowXmlMarkup (digit_not_blank (.inl hd))]
    exact congrArg some (regularToken_number (start_rest _ _) (.inl hd))
  | true =>
    simp only [if_true, List.nil_append, List.cons_append]
    rw [next_start allowXmlMarkup (digit_not_blank (.inr rfl))]
    exact congrArg some (regularToken_number (start_rest _ _) (.inr ⟨rfl, hd⟩))

theorem textOr_encode (other t : List Char) : textOr other (Utf8.encode t) = t := by
  rw [textOr, Utf8.decode_encode]
  rfl

theorem readBack_int [F64 F] (neg : Bool) (digits : List Char) (shape : Digits digits)
    (allowXmlMarkup : Bool) :
    (Literal.int neg digits shape : Literal F).ReadBack allowXmlMarkup ↔
      parseI64 (sign neg ++ digits) ≠ none := by
  have hn := next_number (F := F) neg shape [] allowXmlMarkup
  have hlen := intLength_encode shape neg no_digit_nil
  rw [List.append_nil] at hn hlen
  rw [Literal.ReadBack, Literal.text, hn, XmlAwareLexer.scanNumber, start_rest]
  have hat : (XmlAwareLexer.withXmlMarkupPolicy (Utf8.encode (sign neg ++ digits))
      allowXmlMarkup).at (Utf8.encode (sign neg ++ digits)).length = none :=
    List.getElem?_eq_none (Nat.le_refl _)
  simp only [hlen, hat, reduceCtorEq, false_and, if_false, List.take_length, textOr_encode,
    Literal.token]
  cases hv : parseI64 (sign neg ++ digits) with
  | none =>
    simp only [Option.map_none, ne_eq, not_true_eq_false, iff_false, not_exists]
    rintro e s' ⟨⟩
  | some v =>
    simp only [Option.map_some, Option.getD_some, ne_eq, reduceCtorEq, not_false_eq_true, iff_true]
    rw [start_pos]
    exact ⟨_, rfl, next_whole (Nat.le_of_eq (start_pos _ _ _).symm)⟩

theorem Exponent.text_head (e : Exponent) :
    ∃ b bs, Utf8.encode e.text = b :: bs ∧ ¬ isAsciiDigit b := by
  obtain ⟨letter, sign, digits, rfl | rfl, -, -⟩ := e
  · exact ⟨'e'.toUInt8, Utf8.encode (sign.toList ++ digits), rfl, by decide⟩
  · exact ⟨'E'.toUInt8, Utf8.encode (sign.toList ++ digits), rfl, by decide⟩

/-- A float is read up to its exponent. -/
theorem next_float [F64 F] (neg : Bool) (hds : Digits ds) (hfrac : Digits frac)
    (hr : ∀ b ∈ rest.head?, ¬ isAsciiDigit b) (allowXmlMarkup : Bool) :
    ∃ s', (XmlAwareLexer.withXmlMarkupPolicy
        (Utf8.encode (sign neg ++ ds ++ '.' :: frac) ++ rest) allowXmlMarkup).next =
      some (.ok (0, .float ((F64.parse (sign neg ++ ds ++ '.' :: frac)).getD (F64.zero : F)),
        (Utf8.encode (sign neg ++ ds ++ '.' :: frac)).length), s') ∧
      s'.src = Utf8.encode (sign neg ++ ds ++ '.' :: frac) ++ rest ∧
      s'.pos = (Utf8.encode (sign neg ++ ds ++ '.' :: frac)).length := by
  have hdot : String.utf8EncodeChar '.' = ['.'.toUInt8] := by decide
  have hsrc : Utf8.encode (sign neg ++ ds ++ '.' :: frac) =
      Utf8.encode (sign neg ++ ds) ++ '.'.toUInt8 :: Utf8.encode frac := by
    rw [Utf8.encode_append, Utf8.encode_cons, hdot]
    rfl
  have hfull : Utf8.encode (sign neg ++ ds ++ '.' :: frac) ++ rest =
      Utf8.encode (sign neg ++ ds) ++ ('.'.toUInt8 :: (Utf8.encode frac ++ rest)) := by
    rw [hsrc, List.append_assoc]
    rfl
  obtain ⟨b, bs, hb, hd⟩ := hfrac.encode
  have hint := intLength_encode hds neg
    (no_digit_cons (b := '.'.toUInt8) (by decide) (Utf8.encode frac ++ rest))
  have hscan := scanDigits_encode hfrac.digit hr
  have hlen : (Utf8.encode (sign neg ++ ds ++ '.' :: frac)).length =
      (Utf8.encode (sign neg ++ ds)).length + 1 + (Utf8.encode frac).length := by
    rw [hsrc, List.length_append, List.length_cons]
    omega
  have hn := next_number (F := F) neg hds ('.'.toUInt8 :: (Utf8.encode frac ++ rest)) allowXmlMarkup
  rw [← hfull] at hn hint
  rw [hn, XmlAwareLexer.scanNumber, start_rest, hint]
  have hat : ∀ k, (XmlAwareLexer.withXmlMarkupPolicy
      (Utf8.encode (sign neg ++ ds ++ '.' :: frac) ++ rest) allowXmlMarkup).at
        ((Utf8.encode (sign neg ++ ds)).length + k) =
      ('.'.toUInt8 :: (Utf8.encode frac ++ rest))[k]? := by
    intro k
    rw [XmlAwareLexer.at, start_rest, hfull, List.getElem?_append_right (Nat.le_add_right _ _),
      Nat.add_sub_cancel_left]
  have hdrop : (Utf8.encode (sign neg ++ ds ++ '.' :: frac) ++ rest).drop
      ((Utf8.encode (sign neg ++ ds)).length + 1) = Utf8.encode frac ++ rest := by
    rw [hfull, ← List.drop_drop, List.drop_left]
    rfl
  have htake : (Utf8.encode (sign neg ++ ds ++ '.' :: frac) ++ rest).take
      (Utf8.encode (sign neg ++ ds ++ '.' :: frac)).length =
      Utf8.encode (sign neg ++ ds ++ '.' :: frac) := List.take_left
  have hpoint := hat 0
  have hnext := hat 1
  rw [Nat.add_zero] at hpoint
  rw [hb] at hnext
  simp only
  rw [if_pos ⟨hpoint, by rw [hnext]; exact hd⟩, hdrop, hscan, ← hlen, htake, textOr_encode]
  rw [start_pos]
  exact ⟨_, rfl, rfl, start_pos _ _ _⟩

theorem readBack_float [F64 F] (neg : Bool) (ds frac : List Char) (exponent : Option Exponent)
    (v : F) (hds : Digits ds) (hfrac : Digits frac)
    (value : F64.parse (sign neg ++ ds ++ '.' :: frac ++
      (exponent.map Exponent.text).getD []) = some v) (allowXmlMarkup : Bool) :
    (Literal.float neg ds frac exponent v hds hfrac value : Literal F).ReadBack allowXmlMarkup ↔
      exponent = none := by
  rw [Literal.ReadBack, Literal.text, Literal.token, Utf8.encode_append]
  cases exponent with
  | none =>
    obtain ⟨s', hn, hsrc, hpos⟩ := next_float (F := F) neg hds hfrac no_digit_nil
      allowXmlMarkup
    have hv : F64.parse (sign neg ++ ds ++ '.' :: frac) = some v := by
      rw [← value]
      exact congrArg F64.parse (List.append_nil _).symm
    rw [hv, Option.getD_some, List.append_nil] at hn
    rw [List.append_nil] at hsrc
    simp only [Option.map_none, Option.getD_none, Utf8.encode_nil, List.append_nil, iff_true]
    exact ⟨s', hn, next_whole (Nat.le_of_eq (by rw [hsrc, hpos]))⟩
  | some e =>
    obtain ⟨b, bs, hb, hd⟩ := e.text_head
    obtain ⟨s', hn, -, -⟩ := next_float (F := F) neg hds hfrac (no_digit_cons hd bs)
      allowXmlMarkup
    simp only [Option.map_some, Option.getD_some, hb, reduceCtorEq, iff_false]
    rintro ⟨s1, h, -⟩
    rw [hn] at h
    -- The exponent is left over.
    have hend := congrArg (fun r => r.map fun out => out.1.toOption.map fun t => t.2.2) h
    simp only [Option.map_some, Except.toOption, Option.some.injEq, List.length_append,
      List.length_cons] at hend
    omega

-- ---------------------------------------------------------------------------
-- Every literal
-- ---------------------------------------------------------------------------

/-- A literal is read back exactly when both lexers read its kind of text alike. -/
theorem readBack_iff [F64 F] (l : Literal F) (allowXmlMarkup : Bool) :
    l.ReadBack allowXmlMarkup ↔ l.Plain := by
  cases l with
  | quoted s =>
    rw [readBack_string (stringText_quoted s) rfl rfl,
      scanned_eq_iff (processStringEscapes_quoted s)]
    exact plain_quoted_iff s
  | string t s shape value =>
    rw [readBack_string shape rfl rfl]
    exact scanned_eq_iff value
  | char t c shape value => exact readBack_char t c shape value allowXmlMarkup
  | int neg digits shape => exact readBack_int neg digits shape allowXmlMarkup
  | float neg ds frac exponent v hds hfrac value =>
    exact readBack_float neg ds frac exponent v hds hfrac value allowXmlMarkup

theorem not_readBack_accent :
    ¬ (Literal.quoted ['é'] : Literal (List Char)).ReadBack true := by
  intro h
  have hs := (readBack_string (stringText_quoted ['é']) rfl rfl true).1 h
  exact absurd hs (by decide)

end UrWeb.Parse
