import Mathlib.Data.Bool.AllAny
import Mathlib.Algebra.Order.BigOperators.Group.List
import UrWeb.Runtime.Urlify

/-!
# Folding `urlifyString` and `urlifyChar` at compile time

The optimiser's own encoder, and how far it agrees with the runtime's and with
the decoder: exactly on ASCII.
-/

namespace UrWeb.Mono.Urlify

open UrWeb.Runtime

/-- `char::is_alphanumeric`, whose table covers all of Unicode. -/
structure UnicodeTables where
  isAlphanumeric : Char → Bool
  ascii : ∀ c : Char, c.toNat ≤ 0x7f → isAlphanumeric c = isalnum c.toNat

/-- The table up to U+00FF: the letters and the numbers of Latin-1. -/
def UnicodeTables.latin1 : UnicodeTables where
  isAlphanumeric c :=
    isalnum c.toNat || c.toNat ∈ [0xAA, 0xB2, 0xB3, 0xB5, 0xB9, 0xBA, 0xBC, 0xBD, 0xBE] ||
      (0xC0 ≤ c.toNat && c.toNat ≤ 0xFF && c.toNat != 0xD7 && c.toNat != 0xF7)
  ascii c h := by
    have hlist : c.toNat ∉ [0xAA, 0xB2, 0xB3, 0xB5, 0xB9, 0xBA, 0xBC, 0xBD, 0xBE] := by
      simp
      omega
    simp [hlist, show ¬ 0xC0 ≤ c.toNat by omega]

/-- `format!("{:X}", c)`. -/
def upperHex (c : Nat) : String := String.ofList ((Nat.toDigits 16 c).map Char.toUpper)

def hexPad (c : Nat) : String :=
  let s := upperHex c
  match s.length with
  | 0 => "00"
  | 1 => "0" ++ s
  | _ => s

def hexIt (ch : Char) : String :=
  let c := ch.toNat
  if c ≤ 0x7f then hexPad c
  else if c ≤ 0x7ff then hexPad (c >>> 6 ||| 0xc0) ++ hexPad (c &&& 0x3f ||| 0x80)
  else if c ≤ 0xffff then
    hexPad (c >>> 12 ||| 0xe0) ++ hexPad ((c >>> 6) &&& 0x3f ||| 0x80) ++
      hexPad (c &&& 0x3f ||| 0x80)
  else
    hexPad (c >>> 18 ||| 0xf0) ++ hexPad ((c >>> 12) &&& 0x3f ||| 0x80) ++
      hexPad ((c >>> 6) &&& 0x3f ||| 0x80) ++ hexPad (c &&& 0x3f ||| 0x80)

def urlifyCharAux (t : UnicodeTables) (ch : Char) : String :=
  if ch = ' ' then "+"
  else if ch.toNat = 0 then "_"
  else if t.isAlphanumeric ch then String.singleton ch
  else "." ++ hexIt ch

def urlifyChar (t : UnicodeTables) (ch : Char) : String :=
  if ch = '_' then "_" ++ urlifyCharAux t ch else urlifyCharAux t ch

def urlifyString (t : UnicodeTables) (s : String) : String :=
  if s.isEmpty then "_"
  else (if s.toList.head? = some '_' then "_" else "") ++ String.join (s.toList.map (urlifyCharAux t))

-- ---------------------------------------------------------------------------
-- The literal, as bytes
-- ---------------------------------------------------------------------------

theorem utf8_append (a b : String) : utf8 (a ++ b) = utf8 a ++ utf8 b := by
  simp [utf8]

theorem utf8_join (l : List String) : utf8 (String.join l) = l.flatMap utf8 := by
  simp only [utf8, String.toList_join, List.flatMap_assoc]
  rfl

theorem utf8_singleton (c : Char) : utf8 (String.singleton c) = String.utf8EncodeChar c := by
  simp [utf8]

theorem utf8_hexPad : ∀ n < 256, utf8 (hexPad n) = Hex.pair n := by decide +kernel

theorem length_hexPad (h : n < 256) : (utf8 (hexPad n)).length = 2 := by
  rw [utf8_hexPad n h, Hex.length_pair]

theorem or_lt_256 (ha : a < 256) (hb : b < 256) : a ||| b < 256 :=
  Nat.or_lt_two_pow (n := 8) ha hb

theorem tail_lt (n : Nat) : n &&& 0x3f ||| 0x80 < 256 :=
  or_lt_256 (Nat.lt_of_le_of_lt Nat.and_le_right (by decide)) (by decide)

theorem shift_lt {c : Nat} (h : c < 2 ^ k * 256) : c >>> k < 256 := by
  rw [Nat.shiftRight_eq_div_pow]
  exact Nat.div_lt_of_lt_mul h

/-- The number of UTF-8 bytes of a code point. -/
def byteCount (c : Nat) : Nat :=
  if c ≤ 0x7f then 1 else if c ≤ 0x7ff then 2 else if c ≤ 0xffff then 3 else 4

theorem length_utf8EncodeChar (c : Char) :
    (String.utf8EncodeChar c).length = byteCount c.toNat := by
  simp only [String.utf8EncodeChar, byteCount, apply_ite List.length, Char.toNat_val]
  rfl

theorem length_auxUrlifyChar (c : Nat) : (auxUrlifyChar c).length = 3 * byteCount c := by
  simp only [auxUrlifyChar, byteCount, apply_ite List.length, List.length_append, escape,
    List.length_cons, Hex.length_pair]
  split_ifs <;> rfl

theorem length_hexIt (c : Char) : (utf8 (hexIt c)).length = 2 * byteCount c.toNat := by
  have hmax : c.toNat < 0x110000 := by
    rcases c.valid with h | h
    · exact h.trans (by decide)
    · exact h.2
  have ht := fun n => length_hexPad (tail_lt n)
  simp only [hexIt, byteCount]
  split_ifs with h1 h2 h3
  · exact length_hexPad (by omega)
  · have hlead := length_hexPad (or_lt_256 (shift_lt (k := 6) (c := c.toNat) (by omega))
      (b := 0xc0) (by decide))
    simp [utf8_append, ht, hlead]
  · have hlead := length_hexPad (or_lt_256 (shift_lt (k := 12) (c := c.toNat) (by omega))
      (b := 0xe0) (by decide))
    simp [utf8_append, ht, hlead]
  · have hlead := length_hexPad (or_lt_256 (shift_lt (k := 18) (c := c.toNat) (by omega))
      (b := 0xf0) (by decide))
    simp [utf8_append, ht, hlead]

-- ---------------------------------------------------------------------------
-- ASCII and the rest
-- ---------------------------------------------------------------------------

theorem codePoint_nonAscii {c : Char} (h : 0x7f < c.toNat) :
    urlifyCodePoint c = auxUrlifyChar c.toNat := by
  have halnum : isalnum c.toNat = false := by
    rw [Bool.eq_false_iff]
    exact fun ha => absurd (isalnum_le ha) (by omega)
  simp [urlifyCodePoint, halnum, show c.toNat ≠ 0x20 by omega]

/-- The folded literal holds one marker for the whole character, the runtime's
output one for each of its bytes. -/
theorem length_urlifyCharAux_lt (t : UnicodeTables) {c : Char} (h : 0x7f < c.toNat) :
    (utf8 (urlifyCharAux t c)).length < (urlifyCodePoint c).length := by
  have hspace : c ≠ ' ' := by
    rintro rfl
    exact absurd h (by decide)
  have hcount : 2 ≤ byteCount c.toNat := by
    unfold byteCount
    split_ifs <;> omega
  have hdot : utf8 "." = [0x2E] := by decide
  rw [codePoint_nonAscii h, length_auxUrlifyChar]
  unfold urlifyCharAux
  rw [if_neg hspace, if_neg (by omega)]
  split
  · rw [utf8_singleton, length_utf8EncodeChar]
    omega
  · rw [utf8_append, List.length_append, length_hexIt, hdot, List.length_singleton]
    omega

theorem urlifyCharAux_ascii (t : UnicodeTables) {c : Char} (h : c.toNat ≤ 0x7f)
    (h0 : c.toNat ≠ 0) : utf8 (urlifyCharAux t c) = urlifyCodePoint c := by
  have hspace : c = ' ' ↔ c.toNat = 0x20 := by
    rw [← Char.toNat_inj]
    rfl
  have hdot : utf8 "." = [0x2E] := by decide
  unfold urlifyCharAux urlifyCodePoint
  rw [t.ascii c h]
  simp only [hspace, if_neg h0]
  split_ifs with h1 h2
  · decide
  · rw [utf8_singleton, utf8EncodeChar_ascii h]
  · simp [utf8_append, hdot, hexIt, h, utf8_hexPad c.toNat (by omega), auxUrlifyChar, escape,
      Nat.mod_eq_of_lt (show c.toNat < 256 by omega)]

theorem length_urlifyCharAux_le (t : UnicodeTables) {c : Char} (h0 : c.toNat ≠ 0) :
    (utf8 (urlifyCharAux t c)).length ≤ (urlifyCodePoint c).length := by
  by_cases h : c.toNat ≤ 0x7f
  · rw [urlifyCharAux_ascii t h h0]
  · exact (length_urlifyCharAux_lt t (Nat.lt_of_not_le h)).le

/-- Over a whole string the two encoders agree on ASCII and nowhere else. -/
theorem flatMap_urlify_iff (t : UnicodeTables) {cs : List Char} (h0 : ∀ c ∈ cs, c.toNat ≠ 0) :
    cs.flatMap (fun c => utf8 (urlifyCharAux t c)) = cs.flatMap urlifyCodePoint ↔
      ∀ c ∈ cs, c.toNat ≤ 0x7f := by
  constructor
  · intro heq c hc
    by_contra h
    have hlen := congrArg List.length heq
    rw [List.length_flatMap, List.length_flatMap] at hlen
    refine absurd hlen (Nat.ne_of_lt (List.sum_lt_sum _ _ ?_ ?_))
    · exact fun d hd => length_urlifyCharAux_le t (h0 d hd)
    · exact ⟨c, hc, length_urlifyCharAux_lt t (Nat.lt_of_not_le h)⟩
  · intro h
    exact List.flatMap_congr fun c hc => urlifyCharAux_ascii t (h c hc) (h0 c hc)

-- ---------------------------------------------------------------------------
-- Strings
-- ---------------------------------------------------------------------------

/-- What the fold promises of a string: the decoder gives the string back, and
the literal is what the runtime computes. -/
def StringAgrees (t : UnicodeTables) (u : Libunistring) (s : String) : Prop :=
  unurlifyString (utf8 (urlifyString t s)) = .ok (utf8 s) ∧
    utf8 (urlifyString t s) = Runtime.urlifyString u (utf8 s)

/-- What the fold promises of a character. -/
def CharAgrees (t : UnicodeTables) (c : Char) : Prop :=
  unurlifyChar (utf8 (urlifyChar t c)) = .ok c.toNat ∧
    utf8 (urlifyChar t c) = urlifyCharW c.toNat

/-- The marker in front of a string that starts with an underscore. -/
def marker : List Char → List UInt8
  | [] => []
  | c :: _ => if c = '_' then [0x5F] else []

theorem utf8_urlifyString (t : UnicodeTables) {s : String} (h : s ≠ "") :
    utf8 (urlifyString t s) =
      marker s.toList ++ s.toList.flatMap fun c => utf8 (urlifyCharAux t c) := by
  have hm : utf8 (if s.toList.head? = some '_' then "_" else "") = marker s.toList := by
    cases s.toList with
    | nil => rfl
    | cons c cs =>
      simp only [List.head?_cons, Option.some.injEq, marker]
      split <;> rfl
  simp only [urlifyString, String.isEmpty_iff, if_neg h, utf8_append, utf8_join, hm,
    List.flatMap_map]

/-- The first byte is an underscore just when the first character is. -/
theorem utf8EncodeChar_underscore (c : Char) :
    ∃ b l, String.utf8EncodeChar c = b :: l ∧ (b = 0x5F ↔ c = '_') := by
  by_cases h : c.toNat ≤ 0x7f
  · refine ⟨_, _, utf8EncodeChar_ascii h, ?_⟩
    rw [← UInt8.toNat_inj, toNat_ofNat_ascii h, ← Char.toNat_inj]
    rfl
  · obtain ⟨b, l, hb, hge⟩ := utf8EncodeChar_head (Nat.lt_of_not_le h)
    refine ⟨b, l, hb, ?_, ?_⟩
    · rintro rfl
      exact absurd (by decide) hge
    · rintro rfl
      exact absurd (by decide) h

theorem runtime_urlifyString (u : Libunistring) {s : String} (h : s ≠ "") :
    Runtime.urlifyString u (utf8 s) = marker s.toList ++ s.toList.flatMap urlifyCodePoint := by
  obtain ⟨c, cs, hs⟩ := List.exists_cons_of_ne_nil (mt String.toList_eq_nil_iff.mp h)
  obtain ⟨b, l, hb, hunder⟩ := utf8EncodeChar_underscore c
  have hcons : utf8 s = b :: (l ++ cs.flatMap String.utf8EncodeChar) := by
    simp [utf8, hs, hb]
  rw [← urlifyBytes_utf8 u]
  change _ = _ ++ urlifyBytes u (utf8 s)
  rw [hcons, Runtime.urlifyString, hs]
  simp only [marker, hunder]

theorem unurlifyString_ascii {s : String} (h : ∀ c ∈ s.toList, c.toNat ≤ 0x7f ∧ c.toNat ≠ 0)
    (hs : s ≠ "") :
    unurlifyString (marker s.toList ++ s.toList.flatMap urlifyCodePoint) = .ok (utf8 s) := by
  have hle : ∀ c ∈ s.toList, c.toNat ≤ 0x7f := fun c hc => (h c hc).1
  have hslash : 0x2F ∉ marker s.toList ++ s.toList.flatMap urlifyCodePoint := by
    intro hm
    rcases List.mem_append.mp hm with hm | hm
    · cases hl : s.toList with
      | nil => simp [hl, marker] at hm
      | cons c cs =>
        simp only [hl, marker] at hm
        split at hm <;> simp at hm
    · obtain ⟨c, hc, hm⟩ := List.mem_flatMap.mp hm
      exact slash_not_mem_codePoint (hle c hc) hm
  have hadvance : (unurlifyAdvance (marker s.toList ++ s.toList.flatMap urlifyCodePoint)).1 =
      marker s.toList ++ s.toList.flatMap urlifyCodePoint := by
    refine List.takeWhile_eq_self_iff.mpr fun b hb => ?_
    simp only [ne_eq, decide_not, Bool.not_eq_true', decide_eq_false_iff_not]
    rintro rfl
    exact hslash hb
  have hskip : skipUnderscore (marker s.toList ++ s.toList.flatMap urlifyCodePoint) =
      s.toList.flatMap urlifyCodePoint := by
    obtain ⟨c, cs, hl⟩ := List.exists_cons_of_ne_nil (mt String.toList_eq_nil_iff.mp hs)
    by_cases hc : c = '_'
    · simp [hl, marker, hc, skipUnderscore]
    · have hnat : c.toNat ≠ 0x5f := fun h => hc (Char.toNat_inj.mp h)
      simp only [hl, marker, if_neg hc, List.nil_append, List.flatMap_cons]
      exact skipUnderscore_codePoint (hle c (by simp [hl])) hnat _
  unfold unurlifyString unurlifyStringTo
  rw [hadvance]
  simp only [Bool.false_eq_true, if_false, hskip, unurlifyLoop_flatMap hle]
  exact congrArg Except.ok (cString_utf8 h)

theorem stringAgrees_iff (t : UnicodeTables) (u : Libunistring) (s : String)
    (h0 : ∀ c ∈ s.toList, c.toNat ≠ 0) : StringAgrees t u s ↔ ∀ c ∈ s.toList, c.toNat ≤ 0x7f := by
  by_cases hs : s = ""
  · subst hs
    have hlit : urlifyString t "" = "_" := if_pos rfl
    refine iff_of_true ?_ (by simp)
    rw [StringAgrees, hlit]
    exact ⟨rfl, rfl⟩
  · have hiff := flatMap_urlify_iff t h0
    rw [StringAgrees, utf8_urlifyString t hs, runtime_urlifyString u hs, List.append_right_inj,
      hiff, and_iff_right_iff_imp]
    intro h
    rw [hiff.mpr h]
    exact unurlifyString_ascii (fun c hc => ⟨h c hc, h0 c hc⟩) hs

-- ---------------------------------------------------------------------------
-- Characters
-- ---------------------------------------------------------------------------

theorem utf8_urlifyChar (t : UnicodeTables) (c : Char) :
    utf8 (urlifyChar t c) = marker [c] ++ utf8 (urlifyCharAux t c) := by
  have hunder : utf8 "_" = [0x5F] := by decide
  by_cases h : c = '_'
  · simp [urlifyChar, marker, h, utf8_append, hunder]
  · simp [urlifyChar, marker, h]

theorem urlifyCharW_codePoint {c : Char} (h0 : c.toNat ≠ 0) :
    urlifyCharW c.toNat = marker [c] ++ urlifyCodePoint c := by
  have hunder : c = '_' ↔ c.toNat = 0x5f := by
    rw [← Char.toNat_inj]
    rfl
  have halnum : isalnum c.toNat = true ∧ c.toNat ≤ 0x7f ↔ isalnum c.toNat = true :=
    and_iff_left_of_imp isalnum_le
  simp only [urlifyCharW, if_neg h0, marker, hunder, urlifyCodePoint, halnum]

theorem unurlifyChar_ascii {c : Char} (h : c.toNat ≤ 0x7f) (h0 : c.toNat ≠ 0) :
    unurlifyChar (marker [c] ++ urlifyCodePoint c) = .ok c.toNat := by
  have hs : (String.singleton c).toList = [c] := by simp
  have hdec := unurlifyString_ascii (s := String.singleton c) (by simp [h, h0])
    (fun he => by simp [he] at hs)
  rw [hs, List.flatMap_singleton, utf8_singleton, utf8EncodeChar_ascii h] at hdec
  have hext : ∀ n < 128, ((UInt8.ofNat n).toBitVec.signExtend 32).toNat = n := by decide +kernel
  unfold unurlifyString at hdec
  rw [unurlifyChar, hdec]
  exact congrArg Except.ok (hext c.toNat (by omega))

theorem charAgrees_iff (t : UnicodeTables) {c : Char} (h0 : c.toNat ≠ 0) :
    CharAgrees t c ↔ c.toNat ≤ 0x7f := by
  rw [CharAgrees, utf8_urlifyChar, urlifyCharW_codePoint h0, List.append_right_inj]
  constructor
  · rintro ⟨-, heq⟩
    by_contra h
    exact absurd (congrArg List.length heq)
      (Nat.ne_of_lt (length_urlifyCharAux_lt t (Nat.lt_of_not_le h)))
  · intro h
    rw [urlifyCharAux_ascii t h h0]
    exact ⟨unurlifyChar_ascii h h0, rfl⟩

/-- The folded literals keep what they promise exactly on ASCII. -/
theorem urlify_agrees_iff (t : UnicodeTables) (u : Libunistring) :
    (∀ s : String, (∀ c ∈ s.toList, c.toNat ≠ 0) →
      (StringAgrees t u s ↔ ∀ c ∈ s.toList, c.toNat ≤ 0x7f)) ∧
    (∀ c : Char, c.toNat ≠ 0 → (CharAgrees t c ↔ c.toNat ≤ 0x7f)) :=
  ⟨stringAgrees_iff t u, fun _ => charAgrees_iff t⟩

theorem urlify_agrees_ascii : StringAgrees .latin1 .strict "_a b/c" ∧ CharAgrees .latin1 '_' :=
  ⟨((urlify_agrees_iff .latin1 .strict).1 "_a b/c" (List.all_iff_forall_prop.1 (by decide))).mpr
      (List.all_iff_forall_prop.1 (by decide)),
    ((urlify_agrees_iff .latin1 .strict).2 '_' (by decide)).mpr (by decide)⟩

/-- The folded `.E282AC` of the euro sign decodes to one byte and four letters. -/
theorem urlify_euro :
    unurlifyString (utf8 (urlifyString .latin1 "€")) = .ok [0xE2, 0x38, 0x32, 0x41, 0x43] ∧
      ¬ StringAgrees .latin1 .strict "€" ∧ ¬ CharAgrees .latin1 'é' := by
  refine ⟨by decide +kernel, ?_, ?_⟩
  · rw [stringAgrees_iff _ _ _ (List.all_iff_forall_prop.1 (by decide)),
      ← List.all_iff_forall_prop]
    decide
  · rw [charAgrees_iff _ (by decide)]
    decide

end UrWeb.Mono.Urlify
