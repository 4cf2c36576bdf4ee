import UrWeb.Cjr.CLiterals

/-!
# Literals in the conditions of patterns

A literal pattern prints its literal in a way of its own: a string has only its
double quotes escaped, a character stands between single quotes as it is, and a
float is written out without an exponent, so that a whole number becomes an integer
constant.
-/

namespace UrWeb.Cjr

-- ---------------------------------------------------------------------------
-- Printing
-- ---------------------------------------------------------------------------

/-- What the standard library writes for floats: the sign, and decimal digits that are
read back as the float, with a point if it is not whole. -/
structure FloatDisplay (display : UInt64 → List Char) : Prop where
  finite : Binary64.isFinite bits → ∃ whole fraction : List Char,
    display bits = (if Binary64.negative bits then ['-'] else []) ++
      (whole ++ if fraction = [] then [] else '.' :: fraction) ∧
    whole ≠ [] ∧ (∀ c ∈ whole ++ fraction, c.isDigit) ∧
    (whole.head? = some '0' → whole.length = 1) ∧
    Binary64.Rounds (Nat.ofDigitChars 10 (whole ++ fraction) 0 / 10 ^ fraction.length)
      (Binary64.magnitude bits)
  special : Binary64.isFinite bits = false → display bits =
    if floatIsNaN bits then ['N', 'a', 'N']
    else if Binary64.negative bits then ['-', 'i', 'n', 'f']
    else ['i', 'n', 'f']

def escapeQuotes (s : List Char) : List Char :=
  s.flatMap fun c => if c = '\x22' then ['\x5c', '\x22'] else [c]

section
variable (display : UInt64 → List Char)

/-- A literal in the condition of a pattern. -/
def patLiteral : Prim → List Char
  | .int n => intLiteral n.toInt
  | .float bits => display bits
  | .string _ s => '\x22' :: (escapeQuotes s.toList ++ ['\x22'])
  | .char c => ['\x27', c, '\x27']

-- ---------------------------------------------------------------------------
-- What is meant
-- ---------------------------------------------------------------------------

/-- What `strcmp` sees of a string. -/
def cString (bs : List UInt8) : List UInt8 := bs.takeWhile (· ≠ 0)

/-- A C compiler reads a constant of the literal's value. -/
def LiteralRead (p : Prim) : Prop :=
  match p with
  | .int n => CLexer.int (patLiteral display p) = some n.toInt
  | .float bits => (CLexer.signed (patLiteral display p)).1 = Binary64.negative bits ∧
    ∃ x, CLexer.number (CLexer.signed (patLiteral display p)).2 = some x ∧
      Binary64.Rounds x (Binary64.magnitude bits)
  | .string _ s => (CLexer.string (patLiteral display p)).map cString = some (Utf8.encode s.toList)
  | .char c => CLexer.char (patLiteral display p) = some c.toNat

/-- Not the smallest integer, a finite float that is no whole number from `2 ^ 63` on, a
string without backslashes, line breaks and zeros, and an ASCII character other than a
single quote, a backslash and a line break. -/
def PlainLiteral : Prim → Prop
  | .int n => n ≠ Int64.minValue
  | .float bits => Binary64.isFinite bits ∧
    ('.' ∉ display bits → Nat.ofDigitChars 10 (CLexer.signed (display bits)).2 0 < 2 ^ 63)
  | .string _ s => '\x5c' ∉ s.toList ∧ '\n' ∉ s.toList ∧ '\x00' ∉ s.toList
  | .char c => c.val ≤ 127 ∧ c ≠ '\x27' ∧ c ≠ '\x5c' ∧ c ≠ '\n'

end

-- ---------------------------------------------------------------------------
-- Characters
-- ---------------------------------------------------------------------------

theorem char_quoted_iff (c : Char) : CLexer.char ['\x27', c, '\x27'] = some c.toNat ↔
    c.val ≤ 127 ∧ c ≠ '\x27' ∧ c ≠ '\x5c' ∧ c ≠ '\n' := by
  by_cases hq : c = '\x27'
  · subst hq
    simp [CLexer.char, CLexer.body_close]
  by_cases hb : c = '\x5c'
  · subst hb
    have hesc : CLexer.escape ['\x27'] = some (0x27, []) :=
      CLexer.escape_simple (by decide) (by decide) (by decide) []
    have hbody : CLexer.body '\x27' ['\x5c', '\x27'] = none := by
      rw [CLexer.body_escape (by decide) hesc, CLexer.body, Option.map_none]
    simp [CLexer.char, hbody]
  by_cases hn : c = '\n'
  · subst hn
    simp [CLexer.char, CLexer.body_newline]
  -- any other character is written as `toCChar` writes it, or is the double quote
  have hbody : CLexer.body '\x27' [c, '\x27'] = some (String.utf8EncodeChar c, []) := by
    rw [CLexer.body_char hq hn hb, CLexer.body_close, Option.map_some, List.append_nil]
  rw [← char_toCChar_iff, CLexer.char, CLexer.char, hbody, body_toCChar]
  simp [hq, hb, hn]

-- ---------------------------------------------------------------------------
-- Strings
-- ---------------------------------------------------------------------------

theorem escapeQuotes_cons (c : Char) (cs : List Char) : escapeQuotes (c :: cs) =
    (if c = '\x22' then ['\x5c', '\x22'] else [c]) ++ escapeQuotes cs := rfl

theorem escapeQuotes_cons_ne (h : c ≠ '\x22') (cs : List Char) :
    escapeQuotes (c :: cs) = c :: escapeQuotes cs := by
  rw [escapeQuotes_cons, if_neg h, List.singleton_append]

theorem zero_mem_encode (t : List Char) : (0 : UInt8) ∈ Utf8.encode t ↔ '\x00' ∈ t := by
  constructor
  · intro h
    obtain ⟨c, hc, h0⟩ := List.mem_flatMap.1 h
    by_cases hlow : c.val ≤ 127
    · rw [Utf8.encode_ascii c hlow, List.mem_singleton] at h0
      have hnat : c.val.toNat % 256 = 0 := (congrArg UInt8.toNat h0).symm
      have hle : c.val.toNat ≤ 127 := UInt32.le_iff_toNat_le.mp hlow
      have hval : c.toNat = 0 := by
        rw [Nat.mod_eq_of_lt (by omega)] at hnat
        exact hnat
      rw [← Char.ofNat_toNat c, hval] at hc
      exact hc
    · refine absurd ?_ (Utf8.high_bytes (c := c) ?_ 0 h0)
      · decide
      · exact Nat.not_le.mp fun hle => hlow (UInt32.le_iff_toNat_le.mpr hle)
  · exact Utf8.byte_mem_encode (by decide)

theorem cString_eq_self (bs : List UInt8) : cString bs = bs ↔ 0 ∉ bs := by
  rw [cString, List.takeWhile_eq_self_iff]
  simp only [ne_eq, decide_eq_true_eq]
  exact ⟨fun h h0 => h 0 h0 rfl, fun h b hb h0 => h (h0 ▸ hb)⟩

theorem dropWhile_escapeQuotes (cs : List Char) :
    (escapeQuotes cs ++ ['\x22']).dropWhile CLexer.isHex =
      escapeQuotes (cs.dropWhile CLexer.isHex) ++ ['\x22'] := by
  induction cs with
  | nil => rfl
  | cons c cs ih =>
    by_cases hq : c = '\x22'
    · subst hq
      rfl
    · rw [escapeQuotes_cons_ne hq, List.cons_append, List.dropWhile_cons, List.dropWhile_cons, ih]
      split
      · rfl
      · rw [escapeQuotes_cons_ne hq, List.cons_append]

/-- Octal digits after the first: two at most, none of them a quote. -/
theorem drop_escapeQuotes (cs : List Char) (n : Nat) :
    ∃ k, (escapeQuotes cs ++ ['\x22']).drop
        (((escapeQuotes cs ++ ['\x22']).take n).takeWhile CLexer.isOctal).length =
      escapeQuotes (cs.drop k) ++ ['\x22'] := by
  induction n generalizing cs with
  | zero => exact ⟨0, rfl⟩
  | succ n ih =>
    cases cs with
    | nil => exact ⟨0, rfl⟩
    | cons c cs =>
      by_cases hq : c = '\x22'
      · subst hq
        exact ⟨0, rfl⟩
      · rw [escapeQuotes_cons_ne hq, List.cons_append, List.take_succ_cons, List.takeWhile_cons]
        split
        · obtain ⟨k, hk⟩ := ih cs
          exact ⟨k + 1, hk⟩
        · exact ⟨0, by rw [List.drop_zero, escapeQuotes_cons_ne hq]; rfl⟩

/-- A backslash of the string takes along what comes after it: the closing quote, the
backslash of an escaped quote, or characters of the string. -/
theorem escape_escapeQuotes (h : CLexer.escape (escapeQuotes cs ++ ['\x22']) = some (b, rest)) :
    rest = [] ∨ (cs ≠ [] ∧ ∃ t, rest = '\x22' :: t) ∨
      ∃ k, rest = escapeQuotes (cs.drop (k + 1)) ++ ['\x22'] := by
  cases cs with
  | nil =>
    rw [show CLexer.escape (escapeQuotes [] ++ ['\x22']) = some (0x22, []) from
      CLexer.escape_simple (by decide) (by decide) (by decide) []] at h
    cases h
    exact .inl rfl
  | cons c cs =>
    by_cases hq : c = '\x22'
    · subst hq
      rw [show CLexer.escape (escapeQuotes ('\x22' :: cs) ++ ['\x22']) =
          some (0x5c, '\x22' :: (escapeQuotes cs ++ ['\x22'])) from
        CLexer.escape_simple (by decide) (by decide) (by decide) _] at h
      cases h
      exact .inr (.inl ⟨List.cons_ne_nil _ _, _, rfl⟩)
    · refine .inr (.inr ?_)
      rw [escapeQuotes_cons_ne hq, List.cons_append, CLexer.escape] at h
      split_ifs at h with hx hnil ho
      · obtain ⟨_, -, he⟩ := Option.map_eq_some_iff.1 h
        cases he
        refine ⟨cs.length - (cs.dropWhile CLexer.isHex).length, ?_⟩
        rw [dropWhile_escapeQuotes, List.drop_succ_cons,
          ← List.suffix_iff_eq_drop.mp (List.dropWhile_suffix CLexer.isHex)]
      · obtain ⟨_, -, he⟩ := Option.map_eq_some_iff.1 h
        cases he
        obtain ⟨k, hk⟩ := drop_escapeQuotes cs 2
        refine ⟨k, ?_⟩
        rw [List.drop_succ_cons, ← hk, List.takeWhile_cons, if_pos ho, List.length_cons,
          List.drop_succ_cons]
      · obtain ⟨_, -, he⟩ := Option.map_eq_some_iff.1 h
        cases he
        exact ⟨0, rfl⟩

/-- A quote is read back as itself, and so is a character that needs no escape. -/
theorem body_escapeQuotes_cons (hb : c ≠ '\x5c') (hn : c ≠ '\n') (cs : List Char) :
    CLexer.body '\x22' (escapeQuotes (c :: cs) ++ ['\x22']) =
      (CLexer.body '\x22' (escapeQuotes cs ++ ['\x22'])).map fun r =>
        (String.utf8EncodeChar c ++ r.1, r.2) := by
  by_cases hq : c = '\x22'
  · subst hq
    exact CLexer.body_escape (b := 0x22) (by decide)
      (CLexer.escape_simple (by decide) (by decide) (by decide) _)
  · rw [escapeQuotes_cons_ne hq]
    exact CLexer.body_char hq hn hb _

theorem body_escapeQuotes (hb : '\x5c' ∉ s) (hn : '\n' ∉ s) :
    CLexer.body '\x22' (escapeQuotes s ++ ['\x22']) = some (Utf8.encode s, []) := by
  induction s with
  | nil => exact CLexer.body_close '\x22' []
  | cons c s ih =>
    rw [List.mem_cons, not_or] at hb hn
    rw [body_escapeQuotes_cons (Ne.symm hb.1) (Ne.symm hn.1), ih hb.2 hn.2, Option.map_some,
      Utf8.encode_cons]

theorem encode_drop_le (k : Nat) (cs : List Char) :
    (Utf8.encode (cs.drop k)).length ≤ (Utf8.encode cs).length := by
  rw [← List.take_append_drop k cs, Utf8.encode_append, List.length_append, List.take_append_drop]
  exact Nat.le_add_left _ _

/-- A backslash costs a byte at least. -/
theorem body_escapeQuotes_le
    (h : CLexer.body '\x22' (escapeQuotes s ++ ['\x22']) = some (bs, rest)) :
    bs.length ≤ (Utf8.encode s).length ∧
      ('\x5c' ∈ s ∨ '\n' ∈ s → bs.length < (Utf8.encode s).length) := by
  induction hn : s.length using Nat.strong_induction_on generalizing s bs with
  | _ n ih =>
  subst hn
  cases s with
  | nil =>
    rw [escapeQuotes, List.flatMap_nil, List.nil_append, CLexer.body_close] at h
    cases h
    simp
  | cons c cs =>
    have hlen : (Utf8.encode (c :: cs)).length =
        (String.utf8EncodeChar c).length + (Utf8.encode cs).length := by
      rw [Utf8.encode_cons, List.length_append]
    have hpos : 0 < (String.utf8EncodeChar c).length :=
      List.length_pos_of_ne_nil String.utf8EncodeChar_ne_nil
    rw [hlen]
    by_cases hb : c = '\x5c'
    · subst hb
      rw [escapeQuotes_cons_ne (by decide), List.cons_append] at h
      cases hesc : CLexer.escape (escapeQuotes cs ++ ['\x22']) with
      | none =>
        rw [CLexer.body_no_escape (by decide) hesc] at h
        cases h
      | some r =>
        obtain ⟨b, rest'⟩ := r
        rw [CLexer.body_escape (by decide) hesc] at h
        obtain ⟨r, hr, he⟩ := Option.map_eq_some_iff.1 h
        cases he
        rw [List.length_cons]
        rcases escape_escapeQuotes hesc with rfl | ⟨hne, t, rfl⟩ | ⟨k, rfl⟩
        · rw [CLexer.body] at hr
          cases hr
        · rw [CLexer.body_close] at hr
          cases hr
          have := List.length_pos_of_ne_nil (Utf8.encode_ne_nil hne)
          rw [List.length_nil]
          omega
        · cases cs with
          | nil =>
            rw [show CLexer.escape (escapeQuotes [] ++ ['\x22']) = some (0x22, []) from
              CLexer.escape_simple (by decide) (by decide) (by decide) []] at hesc
            cases hesc
          | cons d cs =>
            rw [List.drop_succ_cons] at hr
            have hshort : (cs.drop k).length < ('\x5c' :: d :: cs).length := by
              rw [List.length_drop, List.length_cons, List.length_cons]
              omega
            have hrest := (ih _ hshort hr rfl).1
            have hdrop := encode_drop_le k cs
            have hd : 0 < (String.utf8EncodeChar d).length :=
              List.length_pos_of_ne_nil String.utf8EncodeChar_ne_nil
            rw [Utf8.encode_cons, List.length_append]
            omega
    · by_cases hl : c = '\n'
      · subst hl
        rw [escapeQuotes_cons_ne (by decide), List.cons_append,
          CLexer.body_newline (by decide)] at h
        cases h
      · -- a quote or any other character is read back as itself
        have hbody : CLexer.body '\x22' (escapeQuotes (c :: cs) ++ ['\x22']) =
            (CLexer.body '\x22' (escapeQuotes cs ++ ['\x22'])).map fun r =>
              (String.utf8EncodeChar c ++ r.1, r.2) := body_escapeQuotes_cons hb hl cs
        rw [hbody] at h
        obtain ⟨r, hr, he⟩ := Option.map_eq_some_iff.1 h
        cases he
        have hrest := ih cs.length (Nat.lt_succ_self _) hr rfl
        rw [List.length_append]
        refine ⟨by omega, fun hbad => ?_⟩
        have hbad' : '\x5c' ∈ cs ∨ '\n' ∈ cs := by
          simpa [Ne.symm hb, Ne.symm hl] using hbad
        have := hrest.2 hbad'
        omega

/-- A string literal is read back just if it has no backslash, line break or zero. -/
theorem string_escapeQuotes_iff (s : List Char) :
    (CLexer.string ('\x22' :: (escapeQuotes s ++ ['\x22']))).map cString =
        some (Utf8.encode s) ↔ '\x5c' ∉ s ∧ '\n' ∉ s ∧ '\x00' ∉ s := by
  constructor
  · intro h
    obtain ⟨bs, hbs, hc⟩ := Option.map_eq_some_iff.1 h
    rw [CLexer.string] at hbs
    split at hbs
    · next bs' hbody =>
      cases hbs
      obtain ⟨-, hlt⟩ := body_escapeQuotes_le hbody
      have hle : (Utf8.encode s).length ≤ bs.length := by
        rw [← hc]
        exact (List.takeWhile_prefix _).length_le
      have hgood : ¬ ('\x5c' ∈ s ∨ '\n' ∈ s) := fun hbad => Nat.not_lt.mpr hle (hlt hbad)
      rw [not_or] at hgood
      refine ⟨hgood.1, hgood.2, fun h0 => ?_⟩
      have hmem : (0 : UInt8) ∈ cString bs := hc ▸ (zero_mem_encode s).mpr h0
      simpa using List.mem_takeWhile_imp hmem
    · cases hbs
  · rintro ⟨hb, hl, h0⟩
    rw [CLexer.string, body_escapeQuotes hb hl, Option.map_some,
      (cString_eq_self _).mpr fun h => h0 ((zero_mem_encode s).mp h)]

-- ---------------------------------------------------------------------------
-- Floats
-- ---------------------------------------------------------------------------

theorem isDigit_ne (h : c.isDigit) : c ≠ '-' ∧ c ≠ '.' := by
  constructor
  · rintro rfl
    exact absurd h (by decide)
  · rintro rfl
    exact absurd h (by decide)

/-- A sign is told from the digits. -/
theorem signed_digits (negative : Bool) (hne : ds ≠ []) (hds : ∀ c ∈ ds.head?, c.isDigit) :
    CLexer.signed ((if negative then ['-'] else []) ++ ds) = (negative, ds) := by
  cases negative with
  | true => rfl
  | false =>
    obtain ⟨c, cs, rfl⟩ := List.exists_cons_of_ne_nil hne
    have hc := (isDigit_ne (hds c rfl)).1
    rw [if_neg Bool.false_ne_true, List.nil_append, CLexer.signed]
    rintro t ⟨⟩
    exact hc rfl

/-- A float is read back just if it is finite and no integer constant is too large. -/
theorem float_read_iff (hd : FloatDisplay display) (bits : UInt64) :
    LiteralRead display (.float bits) ↔ PlainLiteral display (.float bits) := by
  rw [LiteralRead, PlainLiteral, patLiteral]
  cases hfin : Binary64.isFinite bits with
  | false =>
    refine iff_of_false ?_ (fun h => Bool.false_ne_true h.1)
    rintro ⟨-, x, hx, -⟩
    rw [hd.special hfin] at hx
    split_ifs at hx
    · simp [CLexer.signed, CLexer.number] at hx
    · simp [CLexer.signed, CLexer.number] at hx
    · simp [CLexer.signed, CLexer.number] at hx
  | true =>
    obtain ⟨whole, fraction, htext, hwhole, hdigits, hzero, hvalue⟩ := hd.finite hfin
    rw [List.forall_mem_append] at hdigits
    have hhead : ∀ c ∈ (whole ++ if fraction = [] then [] else '.' :: fraction).head?,
        c.isDigit := by
      obtain ⟨c, cs, rfl⟩ := List.exists_cons_of_ne_nil hwhole
      rintro d ⟨⟩
      exact hdigits.1 c List.mem_cons_self
    have hsigned := signed_digits (Binary64.negative bits)
      (List.append_ne_nil_of_left_ne_nil hwhole _) hhead
    have hpoint : '.' ∈ display bits ↔ fraction ≠ [] := by
      have hw : '.' ∉ whole := fun h => (isDigit_ne (hdigits.1 _ h)).2 rfl
      have hs : '.' ∉ (if Binary64.negative bits then ['-'] else []) := by
        split <;> decide
      rw [htext, List.mem_append, List.mem_append]
      by_cases hf : fraction = []
      · simp [hf, hs, hw]
      · simp [hf]
    rw [hpoint, htext, hsigned]
    by_cases hf : fraction = []
    · subst hf
      rw [List.append_nil, List.length_nil, pow_zero, div_one] at hvalue
      simp only [if_true, List.append_nil, CLexer.number_digits hwhole hdigits.1 hzero]
      constructor
      · rintro ⟨-, x, hx, -⟩
        refine ⟨trivial, fun _ => ?_⟩
        by_contra hlarge
        rw [if_neg hlarge] at hx
        cases hx
      · rintro ⟨-, hsmall⟩
        exact ⟨trivial, _, if_pos (hsmall fun h => h rfl), hvalue⟩
    · rw [if_neg hf]
      refine iff_of_true ⟨rfl, _, CLexer.number_point hwhole hdigits.1 hf hdigits.2, hvalue⟩ ?_
      exact ⟨rfl, fun h => absurd hf h⟩

/-- A literal in the condition of a pattern is read back just if it is plain. -/
theorem literalRead_iff (hd : FloatDisplay display) (p : Prim) :
    LiteralRead display p ↔ PlainLiteral display p := by
  cases p with
  | int n => exact int_intLiteral_iff n
  | float bits => exact float_read_iff hd bits
  | string mode s => exact string_escapeQuotes_iff s.toList
  | char c => exact char_quoted_iff c

-- ---------------------------------------------------------------------------
-- All digits of a float
-- ---------------------------------------------------------------------------

/-- The digits of `n / 10 ^ k` before and after the point. -/
def decimalDigits (n k : Nat) : List Char × List Char :=
  (Nat.toDigits 10 (n / 10 ^ k),
    if n % 10 ^ k = 0 then [] else (Nat.toDigits 10 (n % 10 ^ k)).leftpad k '0')

theorem decimalDigits_facts (hk : 0 < k) (hd : decimalDigits n k = (whole, fraction)) :
    whole ≠ [] ∧ (∀ c ∈ whole ++ fraction, c.isDigit) ∧
      (whole.head? = some '0' → whole.length = 1) ∧
      (Nat.ofDigitChars 10 (whole ++ fraction) 0 : ℚ) / 10 ^ fraction.length = n / 10 ^ k := by
  obtain ⟨rfl, hf⟩ := Prod.mk.inj hd
  have hwhole : ∀ c ∈ Nat.toDigits 10 (n / 10 ^ k), c.isDigit := fun c hc =>
    Nat.isDigit_of_mem_toDigits (by decide) (by decide) hc
  have hzero : (Nat.toDigits 10 (n / 10 ^ k)).head? = some '0' →
      (Nat.toDigits 10 (n / 10 ^ k)).length = 1 := by
    intro h
    rw [CLexer.toDigits_head _ h]
    rfl
  have hdiv := Nat.div_add_mod n (10 ^ k)
  by_cases hr : n % 10 ^ k = 0
  · rw [if_pos hr] at hf
    subst hf
    rw [List.append_nil]
    refine ⟨List.ne_nil_of_length_pos Nat.length_toDigits_pos, hwhole, hzero, ?_⟩
    rw [Nat.ofDigitChars_ten_toDigits, List.length_nil, pow_zero, div_one,
      eq_div_iff (by positivity)]
    exact_mod_cast Nat.div_mul_cancel (Nat.dvd_of_mod_eq_zero hr)
  · rw [if_neg hr] at hf
    obtain ⟨hlen, hdigits, hvalue⟩ :=
      digits_facts hk (Nat.mod_lt n (by positivity)) hf.symm
    refine ⟨List.ne_nil_of_length_pos Nat.length_toDigits_pos,
      List.forall_mem_append.mpr ⟨hwhole, hdigits⟩, hzero, ?_⟩
    rw [Nat.ofDigitChars_append, Nat.ofDigitChars_ten_toDigits,
      Nat.ofDigitChars_eq_ofDigitChars_zero, hlen, hvalue, hdiv]

/-- The magnitude of a finite float in units of `10 ^ (-1074)`. -/
def decimalUnits (bits : UInt64) : Nat :=
  5 ^ 1074 * if Binary64.exponentBits bits = 0 then Binary64.fractionBits bits
    else (2 ^ 52 + Binary64.fractionBits bits) * 2 ^ (Binary64.exponentBits bits - 1)

/-- A float without rounding. -/
def exactDisplay (bits : UInt64) : List Char :=
  if Binary64.isFinite bits then
    let (whole, fraction) := decimalDigits (decimalUnits bits) 1074
    (if Binary64.negative bits then ['-'] else []) ++
      (whole ++ if fraction = [] then [] else '.' :: fraction)
  else if floatIsNaN bits then ['N', 'a', 'N']
  else if Binary64.negative bits then ['-', 'i', 'n', 'f']
  else ['i', 'n', 'f']

theorem magnitude_units (bits : UInt64) :
    (decimalUnits bits : ℚ) / 10 ^ 1074 = Binary64.magnitude bits := by
  have hten : (10 : ℚ) ^ 1074 = 5 ^ 1074 * 2 ^ 1074 := by
    rw [← mul_pow]
    congr 1
    norm_num
  rw [Binary64.magnitude, decimalUnits, hten, Nat.cast_mul, Nat.cast_pow, Nat.cast_ofNat,
    mul_div_mul_left _ _ (by positivity)]
  split_ifs with h
  · rw [zpow_neg, div_eq_mul_inv]
    rfl
  · have hexp : (Binary64.exponentBits bits : Int) - 1075 =
        ((Binary64.exponentBits bits - 1 : Nat) : Int) - ((1074 : Nat) : Int) := by omega
    rw [hexp, zpow_sub₀ (by norm_num), zpow_natCast, zpow_natCast, Nat.cast_mul, mul_div_assoc,
      Nat.cast_pow, Nat.cast_ofNat]

theorem exactDisplay_display : FloatDisplay exactDisplay where
  finite := by
    intro bits hfin
    obtain ⟨hwhole, hdigits, hzero, hvalue⟩ :=
      decimalDigits_facts (n := decimalUnits bits) (k := 1074) (by decide) rfl
    refine ⟨_, _, (if_pos hfin).trans rfl, hwhole, hdigits, hzero, ?_⟩
    rw [hvalue, magnitude_units]
    exact (Binary64.magnitude_isMagnitude bits).rounds
  special := by
    intro bits hfin
    rw [exactDisplay, if_neg (by simp [hfin])]

end UrWeb.Cjr
