import UrWeb.Lib.Utf8
import Mathlib.Data.List.TakeWhile
import UrWeb.Lib.Hex

/-!
# URL encoding in the C runtime

`uw_Basis_urlifyString`, `uw_Basis_urlifyChar_w` and the decoder
`uw_unurlifyString_to`. A C string is the list of its bytes before the NUL.
-/

namespace UrWeb.Runtime

/-- The UTF-8 bytes of a string. -/
def utf8 (s : String) : List UInt8 := s.toList.flatMap String.utf8EncodeChar

/-- `u8_mbtouc` of libunistring: the first code point of a nonempty byte string
and the number of bytes it takes. -/
structure Libunistring where
  mbtouc : List UInt8 → Nat × Nat
  mbtouc_utf8 : ∀ (c : Char) (s : List UInt8),
    mbtouc (String.utf8EncodeChar c ++ s) = (c.toNat, c.utf8Size)

/-- The replacement character and one byte where the bytes are not UTF-8. -/
def Libunistring.strict : Libunistring where
  mbtouc s :=
    match s.toByteArray.utf8DecodeChar? 0 with
    | some c => (c.toNat, c.utf8Size)
    | none => (0xFFFD, 1)
  mbtouc_utf8 c s := by
    rw [List.toByteArray_append, ByteArray.utf8DecodeChar?_utf8EncodeChar_append]

/-- `isalnum` of the C locale. -/
def isalnum (c : Nat) : Bool :=
  (0x30 ≤ c && c ≤ 0x39) || (0x41 ≤ c && c ≤ 0x5A) || (0x61 ≤ c && c ≤ 0x7A)

def isspace (b : UInt8) : Bool := b == 0x20 || (0x09 ≤ b && b ≤ 0x0D)

-- ---------------------------------------------------------------------------
-- Encoding
-- ---------------------------------------------------------------------------

/-- `sprintf(p, ".%02X", (uint8_t)n)`. -/
def escape (n : Nat) : List UInt8 := 0x2E :: Hex.pair (n % 256)

/-- One escape for each UTF-8 byte of the code point. -/
def auxUrlifyChar (c : Nat) : List UInt8 :=
  if c ≤ 0x7f then escape c
  else if c ≤ 0x7ff then escape (c >>> 6 ||| 0xc0) ++ escape (c &&& 0x3f ||| 0x80)
  else if c ≤ 0xffff then
    escape (c >>> 12 ||| 0xe0) ++ escape ((c >>> 6) &&& 0x3f ||| 0x80) ++
      escape (c &&& 0x3f ||| 0x80)
  else
    escape (c >>> 18 ||| 0xf0) ++ escape ((c >>> 12) &&& 0x3f ||| 0x80) ++
      escape ((c >>> 6) &&& 0x3f ||| 0x80) ++ escape (c &&& 0x3f ||| 0x80)

/-- `U8_NEXT`: the code point at the front and the rest of the string. -/
def u8Next (u : Libunistring) (s : List UInt8) : Nat × List UInt8 :=
  let (c, n) := u.mbtouc s
  if 0 < n then (c, s.drop n) else (0xFFFD, s.drop 1)

theorem u8Next_length (u : Libunistring) (b : UInt8) (s : List UInt8) :
    (u8Next u (b :: s)).2.length < (b :: s).length := by
  unfold u8Next
  dsimp only
  split <;> simp; omega

/-- The loop of `uw_Basis_urlifyString`; `b` is `s[curr]`. -/
def urlifyBytes (u : Libunistring) : List UInt8 → List UInt8
  | [] => []
  | b :: s =>
    let r := u8Next u (b :: s)
    let out :=
      if b < 0x80 ∧ b = 0x20 then [0x2B]
      else if b < 0x80 ∧ isalnum b.toNat then [b]
      else auxUrlifyChar r.1
    out ++ urlifyBytes u r.2
termination_by s => s.length
decreasing_by exact u8Next_length u b s

def urlifyString (u : Libunistring) : List UInt8 → List UInt8
  | [] => [0x5F]
  | b :: s => (if b = 0x5F then [0x5F] else []) ++ urlifyBytes u (b :: s)

/-- The bytes that `uw_Basis_urlifyChar_w` puts on the page. -/
def urlifyCharW (c : Nat) : List UInt8 :=
  if c = 0 then [0x5F]
  else
    (if c = 0x5F then [0x5F] else []) ++
      if c = 0x20 then [0x2B]
      else if isalnum c ∧ c ≤ 0x7f then [UInt8.ofNat c]
      else auxUrlifyChar c

-- ---------------------------------------------------------------------------
-- Decoding
-- ---------------------------------------------------------------------------

inductive UrlError
  | missingFirst
  | missingSecond
  | invalidByte (rest : List UInt8)
  | multipleCharacters
  deriving DecidableEq

/-- What `uw_error` reports; the text at the invalid byte follows the third. -/
def UrlError.text : UrlError → String
  | .missingFirst => "Missing first character of escaped URL byte"
  | .missingSecond => "Missing second character of escaped URL byte"
  | .invalidByte _ => "Invalid escaped URL byte starting at: "
  | .multipleCharacters => "Unurlified character is multiple characters long"

/-- `sscanf(s, "%02X", &n)`: skip white space, then read at most two characters,
a sign among them. An item `0x` with no digit after it does not match. -/
def scan02X (s : List UInt8) : Option Nat :=
  match (s.dropWhile isspace).take 2 with
  | [] => none
  | [a] => Hex.value a
  | a :: b :: _ =>
    if a = 0x2B then Hex.value b
    else if a = 0x2D then (Hex.value b).map fun n => 2 ^ 32 - n
    else if a = 0x30 ∧ (b = 0x78 ∨ b = 0x58) then none
    else (Hex.value a).map fun hi =>
      match Hex.value b with
      | some lo => 16 * hi + lo
      | none => hi

/-- The first branch of `uw_unurlifyString_to`: one leading underscore, escaped or not. -/
def skipUnderscore : List UInt8 → List UInt8
  | [] => []
  | a :: s =>
    if a = 0x5F then s
    else match s with
      | five :: f :: rest =>
        if (a = 0x25 ∨ a = 0x2E) ∧ five = 0x35 ∧ (f = 0x66 ∨ f = 0x46) then rest
        else a :: five :: f :: rest
      | _ => a :: s

def unurlifyLoop (fromClient : Bool) : List UInt8 → Except UrlError (List UInt8)
  | [] => .ok []
  | c :: s =>
    if c = 0x2B then (0x20 :: ·) <$> unurlifyLoop fromClient s
    else if c = 0x25 ∨ (c = 0x2E ∧ fromClient = false) then
      match s with
      | [] => .error .missingFirst
      | [_] => .error .missingSecond
      | a :: b :: rest =>
        match scan02X (a :: b :: rest) with
        | none => .error (.invalidByte (c :: a :: b :: rest))
        | some n => (UInt8.ofNat n :: ·) <$> unurlifyLoop fromClient rest
    else (c :: ·) <$> unurlifyLoop fromClient s

/-- The buffer read back as a C string. -/
def cString (s : List UInt8) : List UInt8 := s.takeWhile (· ≠ 0)

def unurlifyStringTo (fromClient : Bool) (s : List UInt8) : Except UrlError (List UInt8) :=
  cString <$> unurlifyLoop fromClient (if fromClient then s else skipUnderscore s)

/-- The segment up to the next slash, and what follows it. -/
def unurlifyAdvance (s : List UInt8) : List UInt8 × List UInt8 :=
  (s.takeWhile (· ≠ 0x2F), (s.dropWhile (· ≠ 0x2F)).drop 1)

def unurlifyString (s : List UInt8) : Except UrlError (List UInt8) :=
  unurlifyStringTo false (unurlifyAdvance s).1

/-- A `char` is signed, and widening it to `uw_Basis_char` copies the sign. -/
def unurlifyChar (s : List UInt8) : Except UrlError Nat :=
  unurlifyStringTo false (unurlifyAdvance s).1 >>= fun
    | [b] => .ok (b.toBitVec.signExtend 32).toNat
    | _ => .error .multipleCharacters

-- ---------------------------------------------------------------------------
-- The encoder, code point by code point
-- ---------------------------------------------------------------------------

theorem utf8EncodeChar_ascii {c : Char} (h : c.toNat ≤ 0x7f) :
    String.utf8EncodeChar c = [UInt8.ofNat c.toNat] := if_pos h

theorem toNat_ofNat_ascii (h : n ≤ 0x7f) : (UInt8.ofNat n).toNat = n :=
  UInt8.toNat_ofNat_of_lt' (Nat.lt_of_le_of_lt h (by decide))

theorem utf8EncodeChar_head {c : Char} (h : 0x7f < c.toNat) :
    ∃ b l, String.utf8EncodeChar c = b :: l ∧ ¬ b < 0x80 := by
  obtain ⟨b, l, hbl⟩ := List.exists_cons_of_ne_nil (String.utf8EncodeChar_ne_nil (c := c))
  exact ⟨b, l, hbl, Utf8.high_bytes h b (by simp [hbl])⟩

/-- What one code point of the string turns into. -/
def urlifyCodePoint (c : Char) : List UInt8 :=
  if c.toNat = 0x20 then [0x2B]
  else if isalnum c.toNat then [UInt8.ofNat c.toNat]
  else auxUrlifyChar c.toNat

theorem u8Next_utf8 (u : Libunistring) (c : Char) (s : List UInt8) :
    u8Next u (String.utf8EncodeChar c ++ s) = (c.toNat, s) := by
  simp [u8Next, u.mbtouc_utf8, ← String.length_utf8EncodeChar]

theorem isalnum_le (h : isalnum n = true) : n ≤ 0x7f := by
  simp only [isalnum, Bool.or_eq_true, Bool.and_eq_true, decide_eq_true_eq] at h
  omega

/-- An alphanumeric is none of the bytes that the decoder looks for. -/
theorem alnum_ne (h : isalnum n = true) : UInt8.ofNat n ≠ 0x2B ∧ UInt8.ofNat n ≠ 0x25 ∧
    UInt8.ofNat n ≠ 0x2E ∧ UInt8.ofNat n ≠ 0x5F ∧ UInt8.ofNat n ≠ 0x2F := by
  have hval := toNat_ofNat_ascii (isalnum_le h)
  simp only [isalnum, Bool.or_eq_true, Bool.and_eq_true, decide_eq_true_eq] at h
  simp only [ne_eq, ← UInt8.toNat_inj, hval]
  simp
  omega

theorem urlifyBytes_cons (u : Libunistring) (c : Char) (s : List UInt8) :
    urlifyBytes u (String.utf8EncodeChar c ++ s) = urlifyCodePoint c ++ urlifyBytes u s := by
  have hnext := u8Next_utf8 u c s
  by_cases h : c.toNat ≤ 0x7f
  · rw [utf8EncodeChar_ascii h] at hnext ⊢
    have hval := toNat_ofNat_ascii h
    have hlt : UInt8.ofNat c.toNat < 0x80 := by
      rw [UInt8.lt_iff_toNat_lt, hval]
      exact Nat.lt_succ_of_le h
    have hspace : UInt8.ofNat c.toNat = 0x20 ↔ c.toNat = 0x20 := by
      rw [← UInt8.toNat_inj, hval]
      rfl
    rw [List.singleton_append] at hnext ⊢
    rw [urlifyBytes, hnext]
    simp only [hlt, true_and, hspace, hval, urlifyCodePoint]
  · obtain ⟨b, l, hb, hge⟩ := utf8EncodeChar_head (Nat.lt_of_not_le h)
    have hspace : c.toNat ≠ 0x20 := by omega
    have halnum : isalnum c.toNat = false := by
      rw [Bool.eq_false_iff]
      exact fun ha => h (isalnum_le ha)
    rw [hb, List.cons_append] at hnext ⊢
    rw [urlifyBytes, hnext]
    simp [hge, urlifyCodePoint, hspace, halnum]

theorem urlifyBytes_utf8 (u : Libunistring) (cs : List Char) :
    urlifyBytes u (cs.flatMap String.utf8EncodeChar) = cs.flatMap urlifyCodePoint := by
  induction cs with
  | nil => rw [List.flatMap_nil, urlifyBytes, List.flatMap_nil]
  | cons c cs ih => rw [List.flatMap_cons, urlifyBytes_cons, ih, List.flatMap_cons]

-- ---------------------------------------------------------------------------
-- Decoding what was encoded
-- ---------------------------------------------------------------------------

theorem hexPair_spec : ∀ n < 256, ∃ a b, Hex.pair n = [a, b] ∧ isspace a = false ∧
    a ≠ 0x2B ∧ a ≠ 0x2D ∧ b ≠ 0x78 ∧ b ≠ 0x58 ∧ a ≠ 0x2F ∧ b ≠ 0x2F := by
  intro n hn
  have ha := Hex.digit_range (n := n / 16) (by omega)
  have hb := Hex.digit_range (n := n % 16) (by omega)
  refine ⟨_, _, rfl, ?_⟩
  generalize Hex.digit (n / 16) = a at ha ⊢
  generalize Hex.digit (n % 16) = b at hb ⊢
  simp only [UInt8.le_iff_toNat_le, isspace, ne_eq, ← UInt8.toNat_inj, Bool.or_eq_false_iff,
    beq_eq_false_iff_ne, Bool.and_eq_false_iff, decide_eq_false_iff_not] at *
  simp at *
  omega

theorem scan02X_pair (h : n < 256) (s : List UInt8) : scan02X (Hex.pair n ++ s) = some n := by
  obtain ⟨a, b, hp, hsp, hplus, hminus, hx, hX, -⟩ := hexPair_spec n h
  have ha : Hex.value a = some (n / 16) := by
    obtain rfl : Hex.digit (n / 16) = a := (List.cons.inj hp).1
    exact Hex.value_digit (by omega)
  have hb : Hex.value b = some (n % 16) := by
    obtain rfl : Hex.digit (n % 16) = b := (List.cons.inj (List.cons.inj hp).2).1
    exact Hex.value_digit (by omega)
  have hdiv : 16 * (n / 16) + n % 16 = n := Nat.div_add_mod n 16
  simp [scan02X, hp, hsp, hplus, hminus, hx, hX, ha, hb, hdiv]

theorem unurlifyLoop_plus (s : List UInt8) :
    unurlifyLoop false (0x2B :: s) = (0x20 :: ·) <$> unurlifyLoop false s := by
  cases s with
  | nil => rfl
  | cons a s => cases s <;> rfl

theorem unurlifyLoop_plain (h1 : c ≠ 0x2B) (h2 : c ≠ 0x25) (h3 : c ≠ 0x2E) (s : List UInt8) :
    unurlifyLoop false (c :: s) = (c :: ·) <$> unurlifyLoop false s := by
  cases s with
  | nil => simp [unurlifyLoop, h1, h2, h3]
  | cons a s => cases s <;> simp [unurlifyLoop, h1, h2, h3]

theorem unurlifyLoop_escape (h : n < 256) (s : List UInt8) :
    unurlifyLoop false (escape n ++ s) = (UInt8.ofNat n :: ·) <$> unurlifyLoop false s := by
  have hscan := scan02X_pair h s
  simp only [Hex.pair, List.cons_append, List.nil_append] at hscan
  simp [escape, Hex.pair, Nat.mod_eq_of_lt h, unurlifyLoop, hscan]

theorem unurlifyLoop_codePoint {c : Char} (h : c.toNat ≤ 0x7f) (s : List UInt8) :
    unurlifyLoop false (urlifyCodePoint c ++ s) =
      (UInt8.ofNat c.toNat :: ·) <$> unurlifyLoop false s := by
  unfold urlifyCodePoint
  split
  next hc => exact hc ▸ unurlifyLoop_plus s
  next =>
    split
    next ha =>
      obtain ⟨hplus, hpercent, hdot, -⟩ := alnum_ne ha
      exact unurlifyLoop_plain hplus hpercent hdot s
    next => simpa [auxUrlifyChar, h] using unurlifyLoop_escape (by omega) s

theorem unurlifyLoop_flatMap {cs : List Char} (h : ∀ c ∈ cs, c.toNat ≤ 0x7f) :
    unurlifyLoop false (cs.flatMap urlifyCodePoint) =
      .ok (cs.flatMap String.utf8EncodeChar) := by
  induction cs with
  | nil => rfl
  | cons c cs ih =>
    rw [List.flatMap_cons, unurlifyLoop_codePoint (h c (by simp)),
      ih fun d hd => h d (by simp [hd])]
    simp [utf8EncodeChar_ascii (h c (by simp))]

/-- No slash in the output, so the decoder reads all of it. -/
theorem slash_not_mem_codePoint {c : Char} (h : c.toNat ≤ 0x7f) : 0x2F ∉ urlifyCodePoint c := by
  unfold urlifyCodePoint
  split
  next => decide
  next =>
    split
    next ha =>
      obtain ⟨-, -, -, -, hslash⟩ := alnum_ne ha
      exact fun hm => hslash (List.mem_singleton.mp hm).symm
    next =>
      obtain ⟨a, b, hp, -, -, -, -, -, ha, hb⟩ := hexPair_spec c.toNat (by omega)
      simp [auxUrlifyChar, h, escape, Nat.mod_eq_of_lt (show c.toNat < 256 by omega), hp,
        Ne.symm ha, Ne.symm hb]

/-- Only an underscore starts the way an escaped underscore does. -/
theorem skipUnderscore_codePoint {c : Char} (h : c.toNat ≤ 0x7f) (hc : c.toNat ≠ 0x5f)
    (s : List UInt8) : skipUnderscore (urlifyCodePoint c ++ s) = urlifyCodePoint c ++ s := by
  unfold urlifyCodePoint
  split
  next => cases s with
    | nil => rfl
    | cons a s => cases s <;> rfl
  next =>
    split
    next ha =>
      obtain ⟨-, hpercent, hdot, hunder, -⟩ := alnum_ne ha
      cases s with
      | nil => simp [skipUnderscore, hunder]
      | cons a s => cases s <;> simp [skipUnderscore, hpercent, hdot, hunder]
    next =>
      have hpair : ∀ n < 128, n ≠ 0x5f → ¬ (Hex.digit (n / 16) = 0x35 ∧
          (Hex.digit (n % 16) = 0x66 ∨ Hex.digit (n % 16) = 0x46)) := by decide
      have := hpair c.toNat (by omega) hc
      simp [auxUrlifyChar, h, escape, Nat.mod_eq_of_lt (show c.toNat < 256 by omega), Hex.pair,
        skipUnderscore, this]

theorem cString_utf8 {cs : List Char} (h : ∀ c ∈ cs, c.toNat ≤ 0x7f ∧ c.toNat ≠ 0) :
    cString (cs.flatMap String.utf8EncodeChar) = cs.flatMap String.utf8EncodeChar := by
  refine List.takeWhile_eq_self_iff.mpr ?_
  intro b hb
  obtain ⟨c, hc, hb⟩ := List.mem_flatMap.mp hb
  obtain ⟨hle, hne⟩ := h c hc
  rw [utf8EncodeChar_ascii hle, List.mem_singleton] at hb
  have hval := toNat_ofNat_ascii hle
  simpa [hb, ← UInt8.toNat_inj, hval] using hne

end UrWeb.Runtime
