import Mathlib.Algebra.Order.Ring.Rat
import Mathlib.Data.Int.Log
import UrWeb.Lib.Utf8

/-!
# Literals of C

What a string literal, a character constant and a decimal constant stand for. A
string holds the bytes of its characters. A hexadecimal escape takes all the digits
that follow it, and its value has to fit a byte. A line break ends no literal well.
Universal character names and constants in other bases are left out.
-/

namespace CLexer

-- ---------------------------------------------------------------------------
-- Strings and characters
-- ---------------------------------------------------------------------------

def hexValue (c : Char) : Option Nat :=
  if c.isDigit then some (c.toNat - '0'.toNat)
  else if 'a' ≤ c ∧ c ≤ 'f' then some (c.toNat - 'a'.toNat + 10)
  else if 'A' ≤ c ∧ c ≤ 'F' then some (c.toNat - 'A'.toNat + 10)
  else none

def isHex (c : Char) : Bool := (hexValue c).isSome

def isOctal (c : Char) : Bool := '0' ≤ c ∧ c ≤ '7'

/-- The number that digits of a base write. -/
def ofDigits (base : Nat) (ds : List Char) : Nat :=
  ds.foldl (fun n c => base * n + (hexValue c).getD 0) 0

/-- A byte, where the number is one. -/
def byte (n : Nat) : Option UInt8 := if n < 256 then some (UInt8.ofNat n) else none

def simpleEscape (c : Char) : Option UInt8 :=
  if c = '\x27' ∨ c = '\x22' ∨ c = '?' ∨ c = '\x5c' then some c.toUInt8
  else if c = 'a' then some 7
  else if c = 'b' then some 8
  else if c = 'f' then some 12
  else if c = 'n' then some 10
  else if c = 'r' then some 13
  else if c = 't' then some 9
  else if c = 'v' then some 11
  else none

/-- An escape after its backslash: its byte and what follows it. -/
def escape : List Char → Option (UInt8 × List Char)
  | [] => none
  | c :: cs =>
    if c = 'x' then
      if cs.takeWhile isHex = [] then none
      else (byte (ofDigits 16 (cs.takeWhile isHex))).map (·, cs.dropWhile isHex)
    else if isOctal c then
      let ds := (c :: cs.take 2).takeWhile isOctal
      (byte (ofDigits 8 ds)).map (·, (c :: cs).drop ds.length)
    else (simpleEscape c).map (·, cs)

theorem escape_length (h : escape cs = some (b, rest)) : rest.length < cs.length := by
  cases cs with
  | nil => cases h
  | cons c cs =>
    rw [escape] at h
    split_ifs at h with hx hnil ho
    · obtain ⟨b', -, he⟩ := Option.map_eq_some_iff.1 h
      cases he
      rw [List.length_cons]
      exact Nat.lt_succ_of_le (List.dropWhile_sublist _).length_le
    · obtain ⟨b', -, he⟩ := Option.map_eq_some_iff.1 h
      cases he
      rw [List.takeWhile_cons, if_pos ho, List.length_cons, List.drop_succ_cons, List.length_drop,
        List.length_cons]
      omega
    · obtain ⟨b', -, he⟩ := Option.map_eq_some_iff.1 h
      cases he
      exact Nat.lt_succ_self _

/-- The bytes up to the closing quote, and the text after it. -/
def body (quote : Char) : List Char → Option (List UInt8 × List Char)
  | [] => none
  | c :: cs =>
    if c = quote then some ([], cs)
    else if c = '\n' then none
    else if c = '\x5c' then
      match h : escape cs with
      | some (b, rest) => (body quote rest).map fun r => (b :: r.1, r.2)
      | none => none
    else (body quote cs).map fun r => (String.utf8EncodeChar c ++ r.1, r.2)
termination_by cs => cs.length
decreasing_by
  · exact Nat.lt_succ_of_lt (escape_length h)
  · exact Nat.lt_succ_self _

theorem body_close (quote : Char) (cs : List Char) : body quote (quote :: cs) = some ([], cs) := by
  rw [body, if_pos rfl]

theorem body_newline (h : quote ≠ '\n') (cs : List Char) : body quote ('\n' :: cs) = none := by
  rw [body, if_neg h.symm, if_pos rfl]

theorem body_char (hq : c ≠ quote) (hn : c ≠ '\n') (hb : c ≠ '\x5c') (cs : List Char) :
    body quote (c :: cs) =
      (body quote cs).map fun r => (String.utf8EncodeChar c ++ r.1, r.2) := by
  rw [body, if_neg hq, if_neg hn, if_neg hb]

theorem body_escape (hq : '\x5c' ≠ quote) (h : escape cs = some (b, rest)) :
    body quote ('\x5c' :: cs) = (body quote rest).map fun r => (b :: r.1, r.2) := by
  rw [body, if_neg hq, if_neg (by decide), if_pos rfl]
  split
  · rename_i b' rest' h'
    obtain ⟨rfl, rfl⟩ := Prod.mk.inj (Option.some.inj (h.symm.trans h'))
    rfl
  · rename_i h'
    exact absurd (h.symm.trans h') (Option.some_ne_none _)

theorem body_no_escape (hq : '\x5c' ≠ quote) (h : escape cs = none) :
    body quote ('\x5c' :: cs) = none := by
  rw [body, if_neg hq, if_neg (by decide), if_pos rfl]
  split
  · rename_i b' rest' h'
    exact absurd (h.symm.trans h') (Option.some_ne_none _).symm
  · rfl

theorem escape_simple (hx : c ≠ 'x') (ho : isOctal c = false) (h : simpleEscape c = some b)
    (cs : List Char) : escape (c :: cs) = some (b, cs) := by
  rw [escape, if_neg hx, ho, if_neg Bool.false_ne_true, h, Option.map_some]

/-- All digits that follow belong to a hexadecimal escape. -/
theorem escape_hex (hne : ds ≠ []) (hds : ∀ d ∈ ds, isHex d) (hrest : ∀ c ∈ rest.head?, ¬ isHex c) :
    escape ('x' :: (ds ++ rest)) = (byte (ofDigits 16 ds)).map (·, rest) := by
  have htake : rest.takeWhile isHex = [] := by
    cases rest with
    | nil => rfl
    | cons c rest => rw [List.takeWhile_cons, if_neg (hrest c rfl)]
  have hdrop : rest.dropWhile isHex = rest := by
    cases rest with
    | nil => rfl
    | cons c rest => rw [List.dropWhile_cons, if_neg (hrest c rfl)]
  rw [escape, if_pos rfl, List.takeWhile_append_of_pos hds, htake, List.append_nil, if_neg hne,
    List.dropWhile_append_of_pos hds, hdrop]

/-- A text that is one string literal. -/
def string : List Char → Option (List UInt8)
  | '\x22' :: cs =>
    match body '\x22' cs with
    | some (bs, []) => some bs
    | _ => none
  | _ => none

/-- A text that is a constant of one character. More bytes than one, or one beyond
ASCII, have no value that all compilers agree on. -/
def char : List Char → Option Nat
  | '\x27' :: cs =>
    match body '\x27' cs with
    | some ([b], []) => if b < 0x80 then some b.toNat else none
    | _ => none
  | _ => none

-- ---------------------------------------------------------------------------
-- Numbers
-- ---------------------------------------------------------------------------

/-- A constant with the operator that negates it. -/
def signed : List Char → Bool × List Char
  | '-' :: cs => (true, cs)
  | cs => (false, cs)

/-- A constant of 64 bits: decimal digits before `LL`. -/
def longLong (cs : List Char) : Option Nat :=
  let ds := cs.takeWhile Char.isDigit
  if ds ≠ [] ∧ (ds.head? = some '0' → ds.length = 1) ∧ cs.dropWhile Char.isDigit = ['L', 'L'] ∧
      Nat.ofDigitChars 10 ds 0 < 2 ^ 63 then
    some (Nat.ofDigitChars 10 ds 0)
  else none

def int (cs : List Char) : Option Int :=
  (longLong (signed cs).2).map fun n : Nat => if (signed cs).1 then -(n : Int) else (n : Int)

/-- No number but zero begins with the digit 0. -/
theorem toDigits_head (n : Nat) (h : (Nat.toDigits 10 n).head? = some '0') : n = 0 := by
  induction n using Nat.strong_induction_on with
  | _ n ih =>
    by_cases hlt : n < 10
    · rw [Nat.toDigits_of_lt_base hlt] at h
      have hall : ∀ k : Fin 10, [Nat.digitChar k].head? = some '0' → k.val = 0 := by decide
      exact hall ⟨n, hlt⟩ h
    · rw [Nat.toDigits_of_base_le (by omega) (by omega), List.head?_append] at h
      obtain ⟨c, cs, hcs⟩ := List.exists_cons_of_length_pos
        (Nat.length_toDigits_pos (b := 10) (n := n / 10))
      rw [hcs, List.head?_cons, Option.some_or, ← List.head?_cons (l := cs), ← hcs] at h
      have hzero := ih (n / 10) (by omega) h
      omega

theorem toDigits_span (n : Nat) (rest : List Char) (h : ∀ c ∈ rest.head?, ¬ c.isDigit) :
    (Nat.toDigits 10 n ++ rest).takeWhile Char.isDigit = Nat.toDigits 10 n ∧
      (Nat.toDigits 10 n ++ rest).dropWhile Char.isDigit = rest := by
  have hds : ∀ c ∈ Nat.toDigits 10 n, c.isDigit := fun c hc =>
    Nat.isDigit_of_mem_toDigits (by decide) (by decide) hc
  rw [List.takeWhile_append_of_pos hds, List.dropWhile_append_of_pos hds]
  cases rest with
  | nil => exact ⟨List.append_nil _, rfl⟩
  | cons c rest =>
    rw [List.takeWhile_cons, if_neg (h c rfl), List.dropWhile_cons, if_neg (h c rfl)]
    exact ⟨List.append_nil _, rfl⟩

/-- A numeral is read back if it fits. -/
theorem longLong_toDigits (n : Nat) : longLong (Nat.toDigits 10 n ++ ['L', 'L']) =
    if n < 2 ^ 63 then some n else none := by
  obtain ⟨htake, hdrop⟩ := toDigits_span n ['L', 'L'] (by rintro c ⟨⟩; decide)
  have hne : Nat.toDigits 10 n ≠ [] := List.ne_nil_of_length_pos Nat.length_toDigits_pos
  have hzero : (Nat.toDigits 10 n).head? = some '0' → (Nat.toDigits 10 n).length = 1 := by
    intro h
    rw [toDigits_head n h]
    rfl
  rw [longLong]
  simp only [htake, hdrop, Nat.ofDigitChars_ten_toDigits]
  by_cases hn : n < 2 ^ 63
  · rw [if_pos ⟨hne, hzero, trivial, hn⟩, if_pos hn]
  · rw [if_neg fun h => hn h.2.2.2, if_neg hn]

/-- A numeral begins with no sign. -/
theorem signed_toDigits (n : Nat) (rest : List Char) :
    signed (Nat.toDigits 10 n ++ rest) = (false, Nat.toDigits 10 n ++ rest) := by
  obtain ⟨c, cs, hcs⟩ := List.exists_cons_of_length_pos
    (Nat.length_toDigits_pos (b := 10) (n := n))
  have hdigit : c.isDigit := Nat.isDigit_of_mem_toDigits (b := 10) (by decide) (by decide)
    (hcs ▸ List.mem_cons_self)
  rw [hcs, List.cons_append, signed]
  rintro t ⟨⟩
  exact absurd hdigit (by decide)

/-- The digits after `e`. -/
def exponent (cs : List Char) : Option Int :=
  if (signed cs).2 ≠ [] ∧ (signed cs).2.all Char.isDigit then
    let n : Int := Nat.ofDigitChars 10 (signed cs).2 0
    some (if (signed cs).1 then -n else n)
  else none

/-- The number that a decimal constant with a point and an exponent writes. -/
def decimal (cs : List Char) : Option ℚ :=
  let whole := cs.takeWhile Char.isDigit
  match cs.dropWhile Char.isDigit with
  | '.' :: cs =>
    let fraction := cs.takeWhile Char.isDigit
    match cs.dropWhile Char.isDigit with
    | 'e' :: cs =>
      if whole ≠ [] ∧ fraction ≠ [] then
        (exponent cs).map fun k : Int =>
          (Nat.ofDigitChars 10 (whole ++ fraction) 0 : ℚ) * (10 : ℚ) ^ (k - fraction.length)
      else none
    | _ => none
  | _ => none

/-- The number that decimal digits write: an integer that a `long long` has to hold, or
with a point a float of any size. -/
def number (cs : List Char) : Option ℚ :=
  let whole := cs.takeWhile Char.isDigit
  match cs.dropWhile Char.isDigit with
  | [] =>
    if whole ≠ [] ∧ (whole.head? = some '0' → whole.length = 1) ∧
        Nat.ofDigitChars 10 whole 0 < 2 ^ 63 then
      some (Nat.ofDigitChars 10 whole 0)
    else none
  | '.' :: fraction =>
    if whole ≠ [] ∧ fraction ≠ [] ∧ fraction.all Char.isDigit then
      some (Nat.ofDigitChars 10 (whole ++ fraction) 0 / 10 ^ fraction.length)
    else none
  | _ => none

theorem exponent_toDigits (k : Int) :
    exponent ((if k < 0 then ['-'] else []) ++ Nat.toDigits 10 k.natAbs) = some k := by
  have hne : Nat.toDigits 10 k.natAbs ≠ [] := List.ne_nil_of_length_pos Nat.length_toDigits_pos
  have hall : (Nat.toDigits 10 k.natAbs).all Char.isDigit := List.all_eq_true.2 fun c hc =>
    Nat.isDigit_of_mem_toDigits (by decide) (by decide) hc
  have hsigned : signed ((if k < 0 then ['-'] else []) ++ Nat.toDigits 10 k.natAbs) =
      (decide (k < 0), Nat.toDigits 10 k.natAbs) := by
    by_cases hk : k < 0
    · rw [if_pos hk, decide_eq_true hk]
      rfl
    · have hno := signed_toDigits k.natAbs []
      rw [List.append_nil] at hno
      rw [if_neg hk, decide_eq_false hk, List.nil_append, hno]
  rw [exponent, hsigned]
  simp only
  rw [if_pos ⟨hne, hall⟩, Nat.ofDigitChars_ten_toDigits]
  by_cases hk : k < 0
  · rw [decide_eq_true hk, if_pos rfl]
    congr 1
    omega
  · rw [decide_eq_false hk, if_neg Bool.false_ne_true]
    congr 1
    omega

theorem span_digits (hds : ∀ c ∈ ds, c.isDigit) (h : ¬ c.isDigit) (cs : List Char) :
    (ds ++ c :: cs).takeWhile Char.isDigit = ds ∧ (ds ++ c :: cs).dropWhile Char.isDigit = c :: cs := by
  rw [List.takeWhile_append_of_pos hds, List.dropWhile_append_of_pos hds, List.takeWhile_cons,
    if_neg h, List.dropWhile_cons, if_neg h]
  exact ⟨List.append_nil _, rfl⟩

/-- Digits alone are read if they fit. -/
theorem number_digits (hne : ds ≠ []) (hds : ∀ c ∈ ds, c.isDigit)
    (hzero : ds.head? = some '0' → ds.length = 1) :
    number ds = if Nat.ofDigitChars 10 ds 0 < 2 ^ 63 then some (Nat.ofDigitChars 10 ds 0 : ℚ)
      else none := by
  have htake : (ds ++ []).takeWhile Char.isDigit = ds ++ [].takeWhile Char.isDigit :=
    List.takeWhile_append_of_pos hds
  have hdrop : (ds ++ []).dropWhile Char.isDigit = [].dropWhile Char.isDigit :=
    List.dropWhile_append_of_pos hds
  rw [List.append_nil, List.takeWhile_nil, List.append_nil] at htake
  rw [List.append_nil, List.dropWhile_nil] at hdrop
  rw [number]
  simp only [htake, hdrop]
  by_cases hn : Nat.ofDigitChars 10 ds 0 < 2 ^ 63
  · rw [if_pos ⟨hne, hzero, hn⟩, if_pos hn]
  · rw [if_neg fun h => hn h.2.2, if_neg hn]

/-- A constant with a point is read. -/
theorem number_point (hw : whole ≠ []) (hws : ∀ c ∈ whole, c.isDigit) (hf : fraction ≠ [])
    (hfs : ∀ c ∈ fraction, c.isDigit) :
    number (whole ++ '.' :: fraction) =
      some (Nat.ofDigitChars 10 (whole ++ fraction) 0 / 10 ^ fraction.length : ℚ) := by
  obtain ⟨htake, hdrop⟩ := span_digits hws (c := '.') (by decide) fraction
  rw [number]
  simp only [htake, hdrop]
  rw [if_pos ⟨hw, hf, List.all_eq_true.2 hfs⟩]

/-- A constant with a point and an exponent is read back. -/
theorem decimal_text (hw : whole ≠ []) (hws : ∀ c ∈ whole, c.isDigit) (hf : fraction ≠ [])
    (hfs : ∀ c ∈ fraction, c.isDigit) (hk : exponent e = some k) :
    decimal (whole ++ '.' :: (fraction ++ 'e' :: e)) =
      some ((Nat.ofDigitChars 10 (whole ++ fraction) 0 : ℚ) * (10 : ℚ) ^ (k - fraction.length)) := by
  obtain ⟨htake, hdrop⟩ := span_digits hws (c := '.') (by decide) (fraction ++ 'e' :: e)
  obtain ⟨htake', hdrop'⟩ := span_digits hfs (c := 'e') (by decide) e
  rw [decimal]
  simp only [htake, hdrop, htake', hdrop']
  rw [if_pos ⟨hw, hf⟩, hk, Option.map_some]

end CLexer
