import Mathlib.Data.List.TakeWhile
import UrWeb.Lib.Binary64
import UrWeb.Lib.CLexer
import UrWeb.Primitives

/-!
# Literals in C

The printed literals, and when a C compiler reads back what was meant. An escape of
a control character is hexadecimal and takes a digit after it along, a character
beyond ASCII is no single one, the smallest integer is the negation of none, and a
query text may not break a line.
-/

namespace UrWeb.Cjr

-- ---------------------------------------------------------------------------
-- Printing
-- ---------------------------------------------------------------------------

/-- What is escaped in hexadecimal: control characters without an escape of their own. -/
def isControl (c : Char) : Bool :=
  c.val < 32 && c != '\n' && c != '\r' && c != '\t'

/-- Two hexadecimal digits. -/
def hexPair (n : Nat) : List Char := [Nat.digitChar (n / 16), Nat.digitChar (n % 16)]

def quoteChar (c : Char) : List Char :=
  if c = '\x27' then ['\x5c', '\x27']
  else if c = '\x5c' then ['\x5c', '\x5c']
  else if c = '\x22' then ['\x5c', '\x22']
  else if c = '\n' then ['\x5c', 'n']
  else if c = '\r' then ['\x5c', 'r']
  else if c = '\t' then ['\x5c', 't']
  else if c.val < 32 then '\x5c' :: 'x' :: hexPair c.toNat
  else [c]

def quoteDouble (s : List Char) : List Char := s.flatMap quoteChar

def toCChar (c : Char) : List Char := if c = '\x22' then ['\x22'] else quoteDouble [c]

/-- A finite float, with sixteen digits after the point. -/
def floatToString (bits : UInt64) : List Char :=
  let d := Binary64.scientific (Binary64.magnitude bits)
  let digits := (Nat.toDigits 10 d.1).leftpad 17 '0'
  (if Binary64.negative bits then ['-'] else []) ++ digits.take 1 ++ '.' :: digits.drop 1 ++
    'e' :: ((if d.2 < 0 then ['-'] else []) ++ Nat.toDigits 10 d.2.natAbs)

def intLiteral (n : Int) : List Char :=
  if n < 0 then '-' :: (Nat.toDigits 10 n.natAbs ++ ['L', 'L'])
  else Nat.toDigits 10 n.natAbs ++ ['L', 'L']

def toCLiteral : Prim → List Char
  | .int n => intLiteral n.toInt
  | .float bits => floatToString bits
  | .string _ s => '\x22' :: (quoteDouble s.toList ++ ['\x22'])
  | .char c => '\x27' :: (toCChar c ++ ['\x27'])

/-- The text of a prepared query. -/
def escapeCString (s : List Char) : List Char :=
  (s.flatMap fun c => if c = '\x5c' then ['\x5c', '\x5c'] else [c]).flatMap fun c =>
    if c = '\x22' then ['\x5c', '\x22'] else [c]

-- ---------------------------------------------------------------------------
-- What is meant
-- ---------------------------------------------------------------------------

/-- A literal of the program, or a query text put between double quotes. -/
inductive Literal
  | int (n : Int64)
  | float (bits : UInt64) (finite : Binary64.isFinite bits)
  | string (mode : StringMode) (s : String)
  | char (c : Char)
  | query (s : String)

def Literal.text : Literal → List Char
  | .int n => toCLiteral (.int n)
  | .float bits _ => toCLiteral (.float bits)
  | .string mode s => toCLiteral (.string mode s)
  | .char c => toCLiteral (.char c)
  | .query s => '\x22' :: (escapeCString s.toList ++ ['\x22'])

/-- A C compiler reads back the bytes, the code or the number. -/
def Literal.Denoted (l : Literal) : Prop :=
  match l with
  | .int n => CLexer.int l.text = some n.toInt
  | .float bits _ => (CLexer.signed l.text).1 = Binary64.negative bits ∧
    ∃ x, CLexer.decimal (CLexer.signed l.text).2 = some x ∧
      Binary64.Nearest x (Binary64.magnitude bits)
  | .string _ s | .query s => CLexer.string l.text = some (Utf8.encode s.toList)
  | .char c => CLexer.char l.text = some c.toNat

/-- No control character before a hexadecimal digit, in a character nothing beyond ASCII,
not the smallest integer, and no line break in a query. -/
def Literal.Plain : Literal → Prop
  | .int n => n ≠ Int64.minValue
  | .float _ _ => True
  | .string _ s => s.toList.IsChain fun c d => isControl c → ¬ CLexer.isHex d
  | .char c => c.val ≤ 127
  | .query s => '\n' ∉ s.toList

-- ---------------------------------------------------------------------------
-- One character
-- ---------------------------------------------------------------------------

theorem isControl_ascii (h : isControl c) : c.val ≤ 127 := by
  simp only [isControl, Bool.and_eq_true, decide_eq_true_eq] at h
  exact UInt32.le_trans (UInt32.le_of_lt h.1.1.1) (by decide)

/-- A character is a short escape, a hexadecimal one or itself. -/
theorem quoteChar_cases (c : Char) :
    (∃ e b, quoteChar c = ['\x5c', e] ∧ (∀ cs, CLexer.escape (e :: cs) = some (b, cs)) ∧
      String.utf8EncodeChar c = [b] ∧ isControl c = false ∧ CLexer.isHex c = false) ∨
    (isControl c ∧ quoteChar c = '\x5c' :: 'x' :: hexPair c.toNat) ∨
    (quoteChar c = [c] ∧ isControl c = false ∧ c ≠ '\x22' ∧ c ≠ '\x27' ∧ c ≠ '\n' ∧ c ≠ '\x5c') := by
  have hshort : ∀ (x e : Char) (b : UInt8), quoteChar x = ['\x5c', e] → e ≠ 'x' →
      CLexer.isOctal e = false → CLexer.simpleEscape e = some b →
      String.utf8EncodeChar x = [b] → isControl x = false → CLexer.isHex x = false →
      ∃ e b, quoteChar x = ['\x5c', e] ∧ (∀ cs, CLexer.escape (e :: cs) = some (b, cs)) ∧
        String.utf8EncodeChar x = [b] ∧ isControl x = false ∧ CLexer.isHex x = false :=
    fun x e b hq hx ho hs hu hc hh => ⟨e, b, hq, CLexer.escape_simple hx ho hs, hu, hc, hh⟩
  by_cases h1 : c = '\x27'
  · subst h1
    exact .inl (hshort _ '\x27' 0x27 rfl (by decide) (by decide) (by decide) (by decide)
      (by decide) (by decide))
  by_cases h2 : c = '\x5c'
  · subst h2
    exact .inl (hshort _ '\x5c' 0x5c rfl (by decide) (by decide) (by decide) (by decide)
      (by decide) (by decide))
  by_cases h3 : c = '\x22'
  · subst h3
    exact .inl (hshort _ '\x22' 0x22 rfl (by decide) (by decide) (by decide) (by decide)
      (by decide) (by decide))
  by_cases h4 : c = '\n'
  · subst h4
    exact .inl (hshort _ 'n' 10 rfl (by decide) (by decide) (by decide) (by decide)
      (by decide) (by decide))
  by_cases h5 : c = '\r'
  · subst h5
    exact .inl (hshort _ 'r' 13 rfl (by decide) (by decide) (by decide) (by decide)
      (by decide) (by decide))
  by_cases h6 : c = '\t'
  · subst h6
    exact .inl (hshort _ 't' 9 rfl (by decide) (by decide) (by decide) (by decide)
      (by decide) (by decide))
  rw [quoteChar, if_neg h1, if_neg h2, if_neg h3, if_neg h4, if_neg h5, if_neg h6]
  by_cases h7 : c.val < 32
  · refine .inr (.inl ⟨?_, if_pos h7⟩)
    simp [isControl, h7, h4, h5, h6]
  · refine .inr (.inr ⟨if_neg h7, ?_, h3, h1, h4, h2⟩)
    simp [isControl, h7]

theorem quoteChar_control (h : isControl c) :
    quoteChar c = '\x5c' :: 'x' :: hexPair c.toNat := by
  obtain ⟨_, _, -, -, -, hno, -⟩ | ⟨-, hquote⟩ | ⟨-, hno, -⟩ := quoteChar_cases c
  · exact absurd (hno.symm.trans h) Bool.false_ne_true
  · exact hquote
  · exact absurd (hno.symm.trans h) Bool.false_ne_true

theorem hexValue_digitChar (h : n < 16) : CLexer.hexValue (Nat.digitChar n) = some n := by
  have hall : ∀ k : Fin 16, CLexer.hexValue (Nat.digitChar k) = some k.val := by decide
  exact hall ⟨n, h⟩

theorem ofDigits_hexPair (h : n < 256) : CLexer.ofDigits 16 (hexPair n) = n := by
  rw [CLexer.ofDigits, hexPair, List.foldl_cons, List.foldl_cons, List.foldl_nil,
    hexValue_digitChar (by omega), hexValue_digitChar (by omega)]
  simp only [Option.getD_some]
  omega

theorem hexPair_hex (h : n < 256) : ∀ d ∈ hexPair n, CLexer.isHex d := by
  simp only [hexPair, List.forall_mem_cons, CLexer.isHex]
  rw [hexValue_digitChar (by omega), hexValue_digitChar (by omega)]
  simp

theorem isControl_lt (h : isControl c) : c.toNat < 256 :=
  Nat.lt_of_le_of_lt (UInt32.le_iff_toNat_le.mp (isControl_ascii h)) (by decide)

/-- Two digits of a control character take the digits that follow them along. -/
theorem escape_control (h : isControl c) (hds : ∀ d ∈ ds, CLexer.isHex d)
    (hrest : ∀ d ∈ rest.head?, ¬ CLexer.isHex d) :
    CLexer.escape ('x' :: (hexPair c.toNat ++ (ds ++ rest))) =
      (CLexer.byte (CLexer.ofDigits 16 (hexPair c.toNat ++ ds))).map (·, rest) := by
  rw [← List.append_assoc]
  refine CLexer.escape_hex (List.append_ne_nil_of_left_ne_nil (List.cons_ne_nil _ _) _) ?_ hrest
  intro d hd
  obtain hd | hd := List.mem_append.1 hd
  · exact hexPair_hex (isControl_lt h) d hd
  · exact hds d hd

-- ---------------------------------------------------------------------------
-- Strings
-- ---------------------------------------------------------------------------

theorem quoteDouble_cons (c : Char) (cs : List Char) :
    quoteDouble (c :: cs) = quoteChar c ++ quoteDouble cs := rfl

theorem isControl_not_hex (h : isControl c) : ¬ CLexer.isHex c := by
  have hlt : c.toNat < 32 := by
    simp only [isControl, Bool.and_eq_true, decide_eq_true_eq] at h
    exact UInt32.lt_iff_toNat_lt.mp h.1.1.1
  have hno : ∀ n < 32, ¬ CLexer.isHex (Char.ofNat n) := by decide
  rw [← Char.ofNat_toNat c]
  exact hno _ hlt

/-- The quotes of a string and of a character. -/
def IsQuote (q : Char) : Prop := q = '\x22' ∨ q = '\x27'

theorem IsQuote.facts (h : IsQuote q) : '\x5c' ≠ q ∧ ¬ CLexer.isHex q := by
  obtain rfl | rfl := h
  · decide
  · decide

/-- A character is read back where no digit is taken along. -/
theorem body_quoteChar (hq : IsQuote q)
    (h : isControl c → ∀ d ∈ rest.head?, ¬ CLexer.isHex d) :
    CLexer.body q (quoteChar c ++ rest) =
      (CLexer.body q rest).map fun r => (String.utf8EncodeChar c ++ r.1, r.2) := by
  obtain ⟨e, b, hquote, hesc, hbyte, -, -⟩ | ⟨hc, hquote⟩ | ⟨hquote, -, h1, h2, h3, h4⟩ :=
    quoteChar_cases c
  · rw [hquote, List.cons_append, List.singleton_append,
      CLexer.body_escape hq.facts.1 (hesc rest), hbyte]
    rfl
  · have hesc := escape_control (c := c) hc (List.forall_mem_nil _) (h hc)
    rw [List.append_nil, List.nil_append, ofDigits_hexPair (isControl_lt hc), CLexer.byte,
      if_pos (isControl_lt hc), Option.map_some] at hesc
    rw [hquote, List.cons_append, List.cons_append, CLexer.body_escape hq.facts.1 hesc,
      Utf8.encode_ascii c (isControl_ascii hc)]
    rfl
  · have hcq : c ≠ q := by
      obtain rfl | rfl := hq
      · exact h1
      · exact h2
    rw [hquote]
    exact CLexer.body_char hcq h3 h4 rest

/-- What a quoted text begins with is a digit only if the text does. -/
theorem quoteDouble_head (hq : IsQuote q) (h : ∀ d ∈ cs.head?, ¬ CLexer.isHex d) :
    ∀ d ∈ (quoteDouble cs ++ [q]).head?, ¬ CLexer.isHex d := by
  cases cs with
  | nil =>
    rintro d ⟨⟩
    exact hq.facts.2
  | cons c cs =>
    intro d hd
    rw [quoteDouble_cons] at hd
    obtain ⟨e, b, hquote, -⟩ | ⟨-, hquote⟩ | ⟨hquote, -⟩ := quoteChar_cases c
    · rw [hquote] at hd
      cases hd
      decide
    · rw [hquote] at hd
      cases hd
      decide
    · rw [hquote] at hd
      cases hd
      exact h _ rfl

theorem isChain_cons_iff :
    ((c :: cs).IsChain fun c d => isControl c → ¬ CLexer.isHex d) ↔
      (isControl c → ∀ d ∈ cs.head?, ¬ CLexer.isHex d) ∧
        cs.IsChain fun c d => isControl c → ¬ CLexer.isHex d := by
  cases cs with
  | nil => exact ⟨fun _ => ⟨fun _ _ hd => (nomatch hd), .nil⟩, fun _ => .singleton c⟩
  | cons d cs =>
    rw [List.isChain_cons_cons]
    exact and_congr_left fun _ => imp_congr_right fun _ => ⟨fun h _ hd => Option.some.inj hd ▸ h,
      fun h => h d rfl⟩

/-- A text without control characters before digits is read back. -/
theorem body_quoteDouble (hq : IsQuote q)
    (h : s.IsChain fun c d => isControl c → ¬ CLexer.isHex d) :
    CLexer.body q (quoteDouble s ++ [q]) = some (Utf8.encode s, []) := by
  induction s with
  | nil => exact CLexer.body_close q []
  | cons c cs ih =>
    obtain ⟨hhead, htail⟩ := isChain_cons_iff.1 h
    rw [quoteDouble_cons, List.append_assoc,
      body_quoteChar hq fun hc => quoteDouble_head hq (hhead hc), ih htail, Option.map_some,
      Utf8.encode_cons]

/-- Digits are quoted as they are. -/
theorem quoteDouble_digits (h : ∀ d ∈ ds, CLexer.isHex d) (cs : List Char) :
    quoteDouble (ds ++ cs) = ds ++ quoteDouble cs := by
  induction ds with
  | nil => rfl
  | cons d ds ih =>
    have hd : quoteChar d = [d] := by
      have hhex := h d List.mem_cons_self
      obtain ⟨e, b, -, -, -, -, hno⟩ | ⟨hc, -⟩ | ⟨hquote, -⟩ := quoteChar_cases d
      · rw [hno] at hhex
        cases hhex
      · exact absurd hhex (isControl_not_hex hc)
      · exact hquote
    rw [List.cons_append, quoteDouble_cons, hd, ih fun x hx => h x (List.mem_cons_of_mem _ hx)]
    rfl

/-- A control character before a digit costs a byte at least. -/
theorem body_quoteDouble_le (hq : IsQuote q)
    (h : CLexer.body q (quoteDouble s ++ [q]) = some (bs, rest)) :
    bs.length ≤ (Utf8.encode s).length ∧
      ((¬ s.IsChain fun c d => isControl c → ¬ CLexer.isHex d) →
        bs.length < (Utf8.encode s).length) := by
  induction hn : s.length using Nat.strong_induction_on generalizing s bs with
  | _ n ih =>
  cases s with
  | nil =>
    rw [quoteDouble, List.flatMap_nil, List.nil_append, CLexer.body_close] at h
    cases h
    exact ⟨Nat.le_refl _, fun hne => absurd .nil hne⟩
  | cons c cs =>
    rw [quoteDouble_cons, List.append_assoc] at h
    have hlen : (Utf8.encode (c :: cs)).length =
        (String.utf8EncodeChar c).length + (Utf8.encode cs).length := by
      rw [Utf8.encode_cons, List.length_append]
    rw [isChain_cons_iff, hlen]
    subst hn
    by_cases hc : isControl c → ∀ d ∈ cs.head?, ¬ CLexer.isHex d
    · rw [body_quoteChar hq fun hcc => quoteDouble_head hq (hc hcc)] at h
      obtain ⟨r, hr, he⟩ := Option.map_eq_some_iff.1 h
      cases he
      have hrest := ih cs.length (Nat.lt_succ_self _) hr rfl
      rw [List.length_append]
      exact ⟨by omega, fun hne => Nat.add_lt_add_left (hrest.2 fun h' => hne ⟨hc, h'⟩) _⟩
    · -- The digits that follow are taken along.
      push Not at hc
      obtain ⟨hctl, d, hd, hhex⟩ := hc
      obtain ⟨cs, rfl⟩ : ∃ t, cs = d :: t := by
        cases cs with
        | nil => cases hd
        | cons d' t => exact ⟨t, by rw [Option.some.inj hd]⟩
      have hds : ∀ x ∈ (d :: cs).takeWhile CLexer.isHex, CLexer.isHex x := fun x hx =>
        List.mem_takeWhile_imp hx
      have hdrop : ∀ x ∈ ((d :: cs).dropWhile CLexer.isHex).head?, ¬ CLexer.isHex x := by
        intro x hx hhx
        have hnot := List.head?_dropWhile_not CLexer.isHex (d :: cs)
        rw [hx] at hnot
        exact Bool.false_ne_true (hnot.symm.trans hhx)
      have hsplit : (d :: cs).takeWhile CLexer.isHex ++ (d :: cs).dropWhile CLexer.isHex =
          d :: cs := List.takeWhile_append_dropWhile
      have hesc := escape_control hctl hds (quoteDouble_head hq hdrop)
      rw [← List.append_assoc _ (quoteDouble _), ← quoteDouble_digits hds, hsplit] at hesc
      rw [quoteChar_control hctl, List.cons_append, List.cons_append] at h
      cases hb : CLexer.byte (CLexer.ofDigits 16
          (hexPair c.toNat ++ (d :: cs).takeWhile CLexer.isHex)) with
      | none =>
        rw [hb, Option.map_none] at hesc
        rw [CLexer.body_no_escape hq.facts.1 hesc] at h
        cases h
      | some b =>
        rw [hb, Option.map_some] at hesc
        rw [CLexer.body_escape hq.facts.1 hesc] at h
        obtain ⟨r, hr, he⟩ := Option.map_eq_some_iff.1 h
        cases he
        have hshort : ((d :: cs).dropWhile CLexer.isHex).length < (c :: d :: cs).length :=
          Nat.lt_succ_of_le (List.dropWhile_sublist _).length_le
        have hrest := (ih _ hshort hr rfl).1
        have htake : 0 < (Utf8.encode ((d :: cs).takeWhile CLexer.isHex)).length := by
          rw [List.takeWhile_cons, if_pos hhex, Utf8.encode_cons, List.length_append]
          exact Nat.lt_of_lt_of_le (List.length_pos_of_ne_nil String.utf8EncodeChar_ne_nil)
            (Nat.le_add_right _ _)
        have hlen2 : (Utf8.encode (d :: cs)).length =
            (Utf8.encode ((d :: cs).takeWhile CLexer.isHex)).length +
              (Utf8.encode ((d :: cs).dropWhile CLexer.isHex)).length := by
          rw [← List.length_append, ← Utf8.encode_append, hsplit]
        rw [List.length_cons, hlen2, Utf8.encode_ascii c (isControl_ascii hctl),
          List.length_singleton]
        exact ⟨by omega, fun _ => by omega⟩

/-- A quoted text is read back just if no control character is before a digit. -/
theorem string_quoteDouble_iff (s : List Char) :
    CLexer.string ('\x22' :: (quoteDouble s ++ ['\x22'])) = some (Utf8.encode s) ↔
      s.IsChain fun c d => isControl c → ¬ CLexer.isHex d := by
  rw [CLexer.string]
  constructor
  · intro h
    split at h
    · rename_i bs hbody
      cases h
      by_contra hchain
      exact Nat.lt_irrefl _ ((body_quoteDouble_le (.inl rfl) hbody).2 hchain)
    · cases h
  · intro h
    rw [body_quoteDouble (.inl rfl) h]

/-- Query texts: a line break ends the literal. -/
theorem escapeCString_cons (c : Char) (s : List Char) : escapeCString (c :: s) =
    (if c = '\x5c' then ['\x5c', '\x5c'] else if c = '\x22' then ['\x5c', '\x22'] else [c]) ++
      escapeCString s := by
  simp only [escapeCString, List.flatMap_cons, List.flatMap_append]
  split_ifs with h1 h2
  · rfl
  · rw [h2]
    rfl
  · rw [List.flatMap_singleton, if_neg h2]

theorem body_escapeCString (s : List Char) : CLexer.body '\x22' (escapeCString s ++ ['\x22']) =
    if '\n' ∈ s then none else some (Utf8.encode s, []) := by
  induction s with
  | nil => exact CLexer.body_close '\x22' []
  | cons c s ih =>
    rw [escapeCString_cons, List.append_assoc]
    -- One character is read as itself, unless it is a line break.
    have hone : c ≠ '\n' → CLexer.body '\x22' ((if c = '\x5c' then ['\x5c', '\x5c']
          else if c = '\x22' then ['\x5c', '\x22'] else [c]) ++ (escapeCString s ++ ['\x22'])) =
        (CLexer.body '\x22' (escapeCString s ++ ['\x22'])).map fun r =>
          (String.utf8EncodeChar c ++ r.1, r.2) := by
      intro hn
      by_cases hb : c = '\x5c'
      · rw [if_pos hb, hb]
        exact CLexer.body_escape (b := 0x5c) (by decide) (CLexer.escape_simple (by decide) (by decide)
          (by decide) _)
      by_cases hq : c = '\x22'
      · rw [if_neg hb, if_pos hq, hq]
        exact CLexer.body_escape (b := 0x22) (by decide) (CLexer.escape_simple (by decide) (by decide)
          (by decide) _)
      · rw [if_neg hb, if_neg hq]
        exact CLexer.body_char hq hn hb _
    by_cases hn : c = '\n'
    · subst hn
      rw [if_pos List.mem_cons_self]
      exact CLexer.body_newline (by decide) _
    · rw [hone hn, ih]
      by_cases hs : '\n' ∈ s
      · rw [if_pos hs, if_pos (List.mem_cons_of_mem _ hs), Option.map_none]
      · rw [if_neg hs, if_neg (by simp [Ne.symm hn, hs]), Option.map_some, Utf8.encode_cons]

theorem string_escapeCString_iff (s : List Char) :
    CLexer.string ('\x22' :: (escapeCString s ++ ['\x22'])) = some (Utf8.encode s) ↔ '\n' ∉ s := by
  rw [CLexer.string, body_escapeCString]
  split_ifs with h
  · simp [h]
  · simp [h]

-- ---------------------------------------------------------------------------
-- Characters
-- ---------------------------------------------------------------------------

theorem body_toCChar (c : Char) :
    CLexer.body '\x27' (toCChar c ++ ['\x27']) = some (String.utf8EncodeChar c, []) := by
  rw [toCChar]
  split_ifs with hc
  · subst hc
    refine (CLexer.body_char (by decide) (by decide) (by decide) ['\x27']).trans ?_
    rw [CLexer.body_close, Option.map_some]
    rfl
  · have hbody := body_quoteDouble (s := [c]) (.inr rfl) (.singleton c)
    rwa [Utf8.encode_cons, Utf8.encode_nil, List.append_nil] at hbody

theorem char_toCChar_iff (c : Char) :
    CLexer.char ('\x27' :: (toCChar c ++ ['\x27'])) = some c.toNat ↔ c.val ≤ 127 := by
  rw [CLexer.char, body_toCChar]
  constructor
  · intro h
    by_contra hc
    have hhigh := Utf8.high_bytes (c := c) (Nat.not_le.mp fun hle => hc
      (UInt32.le_iff_toNat_le.mpr hle))
    split at h
    · rename_i b hb
      obtain ⟨hbs, -⟩ := Prod.mk.inj (Option.some.inj hb)
      rw [if_neg (hhigh b (hbs ▸ List.mem_singleton_self b))] at h
      cases h
    · cases h
  · intro h
    have hlt : c.val.toNat < 128 := Nat.lt_succ_of_le (UInt32.le_iff_toNat_le.mp h)
    have hbyte : c.toUInt8.toNat = c.toNat := by
      rw [Char.toUInt8, UInt32.toNat_toUInt8, Nat.mod_eq_of_lt (by omega)]
      rfl
    rw [Utf8.encode_ascii c h]
    simp only
    rw [if_pos (UInt8.lt_iff_toNat_lt.mpr (by rw [hbyte]; exact hlt)), hbyte]

-- ---------------------------------------------------------------------------
-- Numbers
-- ---------------------------------------------------------------------------

theorem int_intLiteral_iff (n : Int64) :
    CLexer.int (intLiteral n.toInt) = some n.toInt ↔ n ≠ Int64.minValue := by
  have hlow : -2 ^ 63 ≤ n.toInt := n.minValue_le_toInt
  have hhigh : n.toInt < 2 ^ 63 := n.toInt_lt
  have hmin : n = Int64.minValue ↔ n.toInt = -2 ^ 63 := Int64.toInt_inj.symm
  rw [Ne, hmin]
  by_cases hn : n.toInt < 0
  · have hsigned : CLexer.signed (intLiteral n.toInt) =
        (true, Nat.toDigits 10 n.toInt.natAbs ++ ['L', 'L']) := by
      rw [intLiteral, if_pos hn]
      rfl
    rw [CLexer.int, hsigned, CLexer.longLong_toDigits]
    by_cases hfit : n.toInt.natAbs < 2 ^ 63
    · rw [if_pos hfit, Option.map_some, if_pos rfl]
      simp only [Option.some.injEq]
      omega
    · rw [if_neg hfit, Option.map_none]
      simp only [reduceCtorEq, false_iff, not_not]
      omega
  · rw [CLexer.int, intLiteral, if_neg hn, CLexer.signed_toDigits, CLexer.longLong_toDigits,
      if_pos (by omega), Option.map_some, if_neg Bool.false_ne_true]
    simp only [Option.some.injEq]
    omega

/-- A number with leading zeros. -/
theorem digits_facts (hk : 0 < k) (h : n < 10 ^ k)
    (hds : ds = (Nat.toDigits 10 n).leftpad k '0') :
    ds.length = k ∧ (∀ c ∈ ds, c.isDigit) ∧ Nat.ofDigitChars 10 ds 0 = n := by
  have hlen : (Nat.toDigits 10 n).length ≤ k :=
    (Nat.length_toDigits_le_iff (by decide) hk).2 h
  refine ⟨?_, ?_, ?_⟩
  · rw [hds, List.leftpad, List.length_append, List.length_replicate]
    omega
  · intro c hc
    rw [hds, List.leftpad] at hc
    obtain hc | hc := List.mem_append.1 hc
    · rw [List.eq_of_mem_replicate hc]
      rfl
    · exact Nat.isDigit_of_mem_toDigits (by decide) (by decide) hc
  · rw [hds, List.leftpad, Nat.ofDigitChars_append, Nat.ofDigitChars_replicate_zero,
      Nat.mul_zero, Nat.ofDigitChars_ten_toDigits]

/-- A finite float is read back. -/
theorem float_denoted (bits : UInt64) :
    (CLexer.signed (floatToString bits)).1 = Binary64.negative bits ∧
      ∃ x, CLexer.decimal (CLexer.signed (floatToString bits)).2 = some x ∧
        Binary64.Nearest x (Binary64.magnitude bits) := by
  have hmag := Binary64.magnitude_isMagnitude bits
  obtain ⟨hlen, hdigits, hvalue⟩ := digits_facts (by decide) (Binary64.scientific_lt hmag.nonneg) rfl
  rw [floatToString]
  generalize hd : Binary64.scientific (Binary64.magnitude bits) = d at *
  generalize (Nat.toDigits 10 d.1).leftpad 17 '0' = digits at *
  obtain ⟨c, ds, rfl⟩ : ∃ c ds, digits = c :: ds := List.exists_cons_of_length_eq_add_one hlen
  have hds : ds.length = 16 := Nat.succ.inj hlen
  have hc : c.isDigit := hdigits c List.mem_cons_self
  have hsigned : CLexer.signed ((if Binary64.negative bits then ['-'] else []) ++
      (c :: ds).take 1 ++ '.' :: (c :: ds).drop 1 ++ 'e' ::
        ((if d.2 < 0 then ['-'] else []) ++ Nat.toDigits 10 d.2.natAbs)) =
      (Binary64.negative bits, [c] ++ '.' :: (ds ++ 'e' ::
        ((if d.2 < 0 then ['-'] else []) ++ Nat.toDigits 10 d.2.natAbs))) := by
    cases Binary64.negative bits with
    | true => simp [CLexer.signed]
    | false =>
      have hne : c ≠ '-' := fun h => absurd hc (by rw [h]; decide)
      simp only [Bool.false_eq_true, if_false, List.nil_append, List.take_succ_cons, List.take_zero,
        List.drop_succ_cons, List.drop_zero, List.cons_append]
      rw [CLexer.signed]
      rintro t ⟨⟩
      exact hne rfl
  rw [hsigned]
  refine ⟨rfl, _, CLexer.decimal_text (List.cons_ne_nil c []) (by simpa using hc)
    (List.ne_nil_of_length_eq_add_one hds)
    (fun x hx => hdigits x (List.mem_cons_of_mem c hx)) (CLexer.exponent_toDigits d.2), ?_⟩
  have hnearest := hmag.nearest_scientific
  rw [hd, Binary64.decimalValue] at hnearest
  rw [List.singleton_append, hvalue, hds]
  exact hnearest

end UrWeb.Cjr
