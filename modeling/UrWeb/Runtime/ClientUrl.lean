import Mathlib.Data.Bool.AllAny
import UrWeb.Runtime.Urlify

/-!
# URL encoding in the client runtime

`uf` and `uu` of the JavaScript runtime, over the standard `encodeURIComponent`
and `decodeURIComponent`, and their agreement with the C runtime. A JavaScript
string without lone surrogates is the list of its characters.
-/

namespace UrWeb.Runtime

/-- The UTF-8 bytes of a text. -/
def bytes (s : List Char) : List UInt8 := s.flatMap String.utf8EncodeChar

/-- The bytes of an ASCII text, read as its characters. -/
def asciiText (bs : List UInt8) : List Char := bs.map fun b => Char.ofNat b.toNat

-- ---------------------------------------------------------------------------
-- The standard component codecs
-- ---------------------------------------------------------------------------

/-- `uriUnescaped`: ASCII letters, digits and the marks. -/
def uriUnescaped (c : Char) : Bool :=
  isalnum c.toNat || "-_.!~*\x27()".toList.contains c

/-- `%` and the two hexadecimal digits, for each UTF-8 byte of the character. -/
def percentEscape (c : Char) : List Char :=
  (String.utf8EncodeChar c).flatMap fun b => '%' :: asciiText (Hex.pair b.toNat)

def encodeURIComponent (s : List Char) : List Char :=
  s.flatMap fun c => if uriUnescaped c then [c] else percentEscape c

def hexValue (c : Char) : Option Nat :=
  if c.toNat ≤ 0x7f then Hex.value (UInt8.ofNat c.toNat) else none

/-- One escape at the front: the byte and the rest of the text. -/
def percentByte : List Char → Option (UInt8 × List Char)
  | '%' :: a :: b :: rest =>
    match hexValue a, hexValue b with
    | some hi, some lo => some (UInt8.ofNat (16 * hi + lo), rest)
    | _, _ => none
  | _ => none

def percentBytes : Nat → List Char → Option (List UInt8 × List Char)
  | 0, s => some ([], s)
  | n + 1, s =>
    match percentByte s with
    | none => none
    | some (b, rest) => (percentBytes n rest).map fun (bs, rest) => (b :: bs, rest)

/-- How many bytes the sequence that a byte starts has. -/
def sequenceLength (b : UInt8) : Option Nat :=
  if b < 0x80 then some 1
  else if b < 0xC0 then none
  else if b < 0xE0 then some 2
  else if b < 0xF0 then some 3
  else if b < 0xF8 then some 4
  else none

/-- The character whose UTF-8 encoding the bytes are. -/
def utf8Char (bs : List UInt8) : Option Char :=
  match bs.toByteArray.utf8DecodeChar? 0 with
  | some c => if c.utf8Size = bs.length then some c else none
  | none => none

/-- The character that the escapes at the front stand for. -/
def percentChar (s : List Char) : Option (Char × List Char) :=
  match percentByte s with
  | none => none
  | some (b, rest) =>
    match sequenceLength b with
    | none => none
    | some n =>
      match percentBytes (n - 1) rest with
      | none => none
      | some (bs, rest) => (utf8Char (b :: bs)).map fun c => (c, rest)

theorem percentByte_length (h : percentByte s = some (b, rest)) : rest.length < s.length := by
  unfold percentByte at h
  split at h
  · split at h
    · simp only [Option.some.injEq, Prod.mk.injEq] at h
      obtain ⟨-, rfl⟩ := h
      simp only [List.length_cons]
      omega
    · cases h
  · cases h

theorem percentBytes_length :
    ∀ n s, percentBytes n s = some (bs, rest) → rest.length ≤ s.length
  | 0, s, h => by
    simp only [percentBytes, Option.some.injEq, Prod.mk.injEq] at h
    exact h.2 ▸ Nat.le_refl _
  | n + 1, s, h => by
    rw [percentBytes] at h
    split at h
    · cases h
    · next hb =>
      obtain ⟨⟨bs', rest'⟩, hr, he⟩ := Option.map_eq_some_iff.mp h
      cases he
      exact Nat.le_of_lt (Nat.lt_of_le_of_lt (percentBytes_length n _ hr) (percentByte_length hb))

theorem percentChar_length (h : percentChar s = some (c, rest)) : rest.length < s.length := by
  unfold percentChar at h
  split at h
  · cases h
  · next hb =>
    split at h
    · cases h
    · split at h
      · cases h
      · next hbs =>
        obtain ⟨c', -, he⟩ := Option.map_eq_some_iff.mp h
        cases he
        exact Nat.lt_of_le_of_lt (percentBytes_length _ _ hbs) (percentByte_length hb)

/-- `none` where the standard function throws `URIError`. -/
def decodeURIComponent (s : List Char) : Option (List Char) :=
  match s with
  | [] => some []
  | c :: s =>
    if c = '%' then
      match _h : percentChar (c :: s) with
      | none => none
      | some (d, rest) => (d :: ·) <$> decodeURIComponent rest
    else (c :: ·) <$> decodeURIComponent s
termination_by s.length
decreasing_by
  · exact percentChar_length _h
  · exact Nat.lt_succ_self _

-- ---------------------------------------------------------------------------
-- The runtime's own codecs
-- ---------------------------------------------------------------------------

/-- `s.replace(/\./g, ".2E")`. -/
def escapeDots (s : List Char) : List Char :=
  s.flatMap fun c => if c = '.' then ['.', '2', 'E'] else [c]

def uf (s : List Char) : List Char :=
  if s.length = 0 then ['_']
  else
    let s := escapeDots s
    (if s.head? = some '_' then ['_'] else []) ++
      (encodeURIComponent s).map fun c => if c = '%' then '.' else c

/-- The first branch of `uu`: one leading underscore, escaped or not. -/
def dropUnderscore : List Char → List Char
  | [] => []
  | a :: s =>
    if a = '_' then s
    else match s with
      | five :: f :: rest =>
        if (a = '%' ∨ a = '.') ∧ five = '5' ∧ (f = 'f' ∨ f = 'F') then rest
        else a :: five :: f :: rest
      | _ => a :: s

def uu (s : List Char) : Option (List Char) :=
  decodeURIComponent (((dropUnderscore s).map fun c => if c = '+' then ' ' else c).map
    fun c => if c = '.' then '%' else c)

-- ---------------------------------------------------------------------------
-- UTF-8 bytes
-- ---------------------------------------------------------------------------

theorem bytes_cons (c : Char) (s : List Char) :
    bytes (c :: s) = String.utf8EncodeChar c ++ bytes s := List.flatMap_cons

theorem bytes_append (s t : List Char) : bytes (s ++ t) = bytes s ++ bytes t :=
  List.flatMap_append

theorem bytes_flatMap (f : α → List Char) (s : List α) :
    bytes (s.flatMap f) = s.flatMap fun c => bytes (f c) := List.flatMap_assoc

theorem bytes_injective : Function.Injective bytes := by
  intro s t h
  have henc : s.utf8Encode = t.utf8Encode := congrArg List.toByteArray h
  have hstr : String.ofList s = String.ofList t := by
    rw [← String.toByteArray_inj, String.toByteArray_ofList, String.toByteArray_ofList, henc]
  simpa using congrArg String.toList hstr

theorem toNat_ofNat_byte (b : UInt8) : (Char.ofNat b.toNat).toNat = b.toNat := by
  have hb : b.toNat < 256 := b.toNat_lt
  have hvalid : b.toNat.isValidChar := Or.inl (by omega)
  rw [Char.ofNat, dif_pos hvalid]
  exact UInt32.toNat_ofNatLT

theorem bytes_asciiText {bs : List UInt8} (h : ∀ b ∈ bs, b < 0x80) :
    bytes (asciiText bs) = bs := by
  induction bs with
  | nil => rfl
  | cons b bs ih =>
    have hb : b.toNat < 0x80 := UInt8.lt_iff_toNat_lt.mp (h b (by simp))
    have hval := toNat_ofNat_byte b
    have hhead : String.utf8EncodeChar (Char.ofNat b.toNat) = [b] := by
      rw [utf8EncodeChar_ascii (by omega), hval, UInt8.ofNat_toNat]
    rw [asciiText, List.map_cons, bytes_cons, hhead]
    exact congrArg (b :: ·) (ih fun b' hb' => h b' (by simp [hb']))

theorem cString_bytes {s : List Char} (h : '\x00' ∉ s) : cString (bytes s) = bytes s := by
  refine List.takeWhile_eq_self_iff.mpr ?_
  intro b hb
  obtain ⟨c, hc, hb⟩ := List.mem_flatMap.mp hb
  by_cases hle : c.toNat ≤ 0x7f
  · have hne : c.toNat ≠ 0 := fun h0 => h ((Char.toNat_inj.mp h0 : c = '\x00') ▸ hc)
    rw [utf8EncodeChar_ascii hle, List.mem_singleton] at hb
    have hval := toNat_ofNat_ascii hle
    simpa [hb, ← UInt8.toNat_inj, hval] using hne
  · have hge := Utf8.high_bytes (Nat.lt_of_not_le hle) b hb
    have h0 : b ≠ 0 := fun h0 => hge (h0 ▸ by decide)
    simpa using h0

@[simp] theorem escape_mod (n : Nat) : escape (n % 256) = escape n := by
  simp [escape]

/-- The C runtime's escapes of a code point are those of its UTF-8 bytes. -/
theorem auxUrlifyChar_bytes (c : Char) :
    auxUrlifyChar c.toNat = (String.utf8EncodeChar c).flatMap fun b => escape b.toNat := by
  have hand : ∀ n, n &&& 0x3f = n % 0x40 := fun n => Nat.and_two_pow_sub_one_eq_mod n 6
  have hcont : ∀ n < 0x40, n ||| 0x80 = n + 0x80 := by decide
  have h2 : ∀ n < 0x20, n ||| 0xc0 = n + 0xc0 := by decide
  have h3 : ∀ n < 0x10, n ||| 0xe0 = n + 0xe0 := by decide
  have h4 : ∀ n < 0x08, n ||| 0xf0 = n + 0xf0 := by decide
  have hmod : ∀ n, n % 0x40 ||| 0x80 = n % 0x40 + 0x80 :=
    fun n => hcont _ (Nat.mod_lt _ (by decide))
  have htop : c.toNat < 0x110000 := by
    obtain h | h := c.valid
    · exact Nat.lt_trans h (by decide)
    · exact h.2
  unfold auxUrlifyChar String.utf8EncodeChar
  simp only [show c.val.toNat = c.toNat from rfl, Nat.shiftRight_eq_div_pow, hand, hmod]
  split
  · simp
  · split
    · have hlead : c.toNat / 64 % 0x20 = c.toNat / 64 := Nat.mod_eq_of_lt (by omega)
      rw [h2 _ (by omega)]
      simp [hlead]
    · split
      · have hlead : c.toNat / 4096 % 0x10 = c.toNat / 4096 := Nat.mod_eq_of_lt (by omega)
        rw [h3 _ (by omega)]
        simp [hlead]
      · have hlead : c.toNat / 262144 % 0x08 = c.toNat / 262144 := Nat.mod_eq_of_lt (by omega)
        rw [h4 _ (by omega)]
        simp [hlead]

-- ---------------------------------------------------------------------------
-- The server reads what the client encodes
-- ---------------------------------------------------------------------------

/-- What one character of the string turns into. -/
def ufChar (c : Char) : List Char :=
  if c = '.' then ['.', '2', 'E']
  else if uriUnescaped c then [c]
  else (percentEscape c).map fun d => if d = '%' then '.' else d

theorem escapeDots_head (s : List Char) :
    (escapeDots s).head? = some '_' ↔ s.head? = some '_' := by
  cases s with
  | nil => rfl
  | cons c s =>
    by_cases h : c = '.'
    · subst h
      simp [escapeDots]
    · simp [escapeDots, h]

theorem uf_eq {s : List Char} (h : s ≠ []) :
    uf s = (if s.head? = some '_' then ['_'] else []) ++ s.flatMap ufChar := by
  have hlen : s.length ≠ 0 := fun h0 => h (List.length_eq_zero_iff.mp h0)
  unfold uf
  simp only [hlen, if_false, escapeDots_head]
  congr 1
  unfold encodeURIComponent escapeDots
  rw [List.flatMap_assoc, List.map_flatMap]
  refine congrArg (s.flatMap ·) (funext fun c => ?_)
  unfold ufChar
  split
  next => rfl
  next hdot =>
    split
    next hc =>
      have hpct : c ≠ '%' := fun he => absurd (he ▸ hc) (by decide)
      simp [hc, hpct]
    next hc => simp [hc]

/-- The digits of an escape are none of the characters that the codecs treat. -/
theorem hexText_digit : ∀ n < 16, Hex.digit n < 0x80 ∧
    hexValue (Char.ofNat (Hex.digit n).toNat) = some n ∧
    Char.ofNat (Hex.digit n).toNat ≠ '%' ∧ Char.ofNat (Hex.digit n).toNat ≠ '.' ∧
    Char.ofNat (Hex.digit n).toNat ≠ '+' := by
  decide

theorem hexText_pair (h : n < 256) : ∃ a b, asciiText (Hex.pair n) = [a, b] ∧
    bytes [a, b] = Hex.pair n ∧ hexValue a = some (n / 16) ∧ hexValue b = some (n % 16) ∧
    a ≠ '%' ∧ a ≠ '.' ∧ a ≠ '+' ∧ b ≠ '%' ∧ b ≠ '.' ∧ b ≠ '+' := by
  obtain ⟨halt, ha, ha1, ha2, ha3⟩ := hexText_digit (n / 16) (by omega)
  obtain ⟨hblt, hb, hb1, hb2, hb3⟩ := hexText_digit (n % 16) (by omega)
  have hbytes : bytes (asciiText (Hex.pair n)) = Hex.pair n := by
    refine bytes_asciiText ?_
    rintro b (_ | ⟨_, _ | ⟨_, ⟨⟩⟩⟩)
    · exact halt
    · exact hblt
  exact ⟨_, _, rfl, hbytes, ha, hb, ha1, ha2, ha3, hb1, hb2, hb3⟩

/-- With dots for percent signs the client's escapes are the C runtime's. -/
theorem bytes_percentEscape (c : Char) :
    bytes ((percentEscape c).map fun d => if d = '%' then '.' else d) =
      (String.utf8EncodeChar c).flatMap fun b => escape b.toNat := by
  unfold percentEscape
  rw [List.map_flatMap, bytes_flatMap]
  refine congrArg (List.flatMap · _) (funext fun b => ?_)
  obtain ⟨x, y, he, hpair, -, -, hx, -, -, hy, -⟩ := hexText_pair b.toNat_lt
  simp only [he, List.map_cons, List.map_nil, if_true, hx, hy, if_false]
  rw [bytes_cons, hpair, escape, Nat.mod_eq_of_lt b.toNat_lt]
  rfl

theorem unurlifyLoop_escapes (bs : List UInt8) (s : List UInt8) :
    unurlifyLoop false ((bs.flatMap fun b => escape b.toNat) ++ s) =
      (bs ++ ·) <$> unurlifyLoop false s := by
  induction bs with
  | nil => simp
  | cons b bs ih =>
    rw [List.flatMap_cons, List.append_assoc, unurlifyLoop_escape b.toNat_lt, ih]
    simp [Functor.map_map]

/-- The marks and the alphanumerics are ASCII, and only `.` means something to the decoder. -/
theorem unescaped_ascii {c : Char} (h : uriUnescaped c = true) : c.toNat ≤ 0x7f ∧
    UInt8.ofNat c.toNat ≠ 0x2B ∧ UInt8.ofNat c.toNat ≠ 0x25 ∧ UInt8.ofNat c.toNat ≠ 0x2F ∧
    (c ≠ '.' → UInt8.ofNat c.toNat ≠ 0x2E) ∧ (c ≠ '_' → UInt8.ofNat c.toNat ≠ 0x5F) := by
  rcases Bool.or_eq_true _ _ ▸ h with h | h
  · obtain ⟨h1, h2, h3, h4, h5⟩ := alnum_ne h
    exact ⟨isalnum_le h, h1, h2, h5, fun _ => h3, fun _ => h4⟩
  · have hall : ∀ c ∈ "-_.!~*\x27()".toList, c.toNat ≤ 0x7f ∧
        UInt8.ofNat c.toNat ≠ 0x2B ∧ UInt8.ofNat c.toNat ≠ 0x25 ∧ UInt8.ofNat c.toNat ≠ 0x2F ∧
        (c ≠ '.' → UInt8.ofNat c.toNat ≠ 0x2E) ∧ (c ≠ '_' → UInt8.ofNat c.toNat ≠ 0x5F) :=
      List.all_iff_forall_prop.1 (by decide)
    exact hall c (List.contains_iff_mem.mp h)

/-- The bytes of one encoded character: itself, or escapes of its UTF-8 bytes. -/
theorem bytes_ufChar (c : Char) :
    (uriUnescaped c = true ∧ c ≠ '.' ∧ bytes (ufChar c) = [UInt8.ofNat c.toNat]) ∨
      ((uriUnescaped c = false ∨ c = '.') ∧
        bytes (ufChar c) = (String.utf8EncodeChar c).flatMap fun b => escape b.toNat) := by
  unfold ufChar
  split
  next h => exact .inr ⟨.inr h, by subst h; decide⟩
  next hdot =>
    split
    next h =>
      obtain ⟨hle, -⟩ := unescaped_ascii h
      exact .inl ⟨h, hdot, by rw [bytes_cons, utf8EncodeChar_ascii hle]; rfl⟩
    next h => exact .inr ⟨.inl (Bool.eq_false_iff.mpr h), bytes_percentEscape c⟩

theorem unurlifyLoop_ufChar (c : Char) (s : List UInt8) :
    unurlifyLoop false (bytes (ufChar c) ++ s) =
      (String.utf8EncodeChar c ++ ·) <$> unurlifyLoop false s := by
  obtain ⟨h, hdot, he⟩ | ⟨-, he⟩ := bytes_ufChar c
  · obtain ⟨hle, hplus, hpct, -, hne, -⟩ := unescaped_ascii h
    rw [he, utf8EncodeChar_ascii hle]
    exact unurlifyLoop_plain hplus hpct (hne hdot) s
  · rw [he]
    exact unurlifyLoop_escapes _ s

theorem unurlifyLoop_uf (s : List Char) :
    unurlifyLoop false (bytes (s.flatMap ufChar)) = .ok (bytes s) := by
  induction s with
  | nil => rfl
  | cons c s ih =>
    rw [List.flatMap_cons, bytes_append, unurlifyLoop_ufChar, ih, bytes_cons]
    rfl

theorem slash_not_mem_escapes (bs : List UInt8) :
    0x2F ∉ bs.flatMap fun b => escape b.toNat := by
  intro h
  obtain ⟨b, -, hb⟩ := List.mem_flatMap.mp h
  obtain ⟨x, y, hp, -, -, -, -, -, hx, hy⟩ := hexPair_spec b.toNat b.toNat_lt
  rw [escape, Nat.mod_eq_of_lt b.toNat_lt, hp] at hb
  simp [Ne.symm hx, Ne.symm hy] at hb

theorem slash_not_mem_uf (s : List Char) : 0x2F ∉ bytes (uf s) := by
  by_cases hs : s = []
  · subst hs
    decide
  · rw [uf_eq hs, bytes_append, bytes_flatMap, List.mem_append, not_or]
    refine ⟨by split <;> decide, fun h => ?_⟩
    obtain ⟨c, -, hc⟩ := List.mem_flatMap.mp h
    obtain ⟨hu, -, he⟩ | ⟨-, he⟩ := bytes_ufChar c
    · rw [he, List.mem_singleton] at hc
      exact (unescaped_ascii hu).2.2.2.1 hc.symm
    · exact slash_not_mem_escapes _ (he ▸ hc)

/-- The escape of an underscore is the only one that the decoder skips. -/
theorem skipUnderscore_escape (h : n < 256) (hn : n ≠ 0x5f) (s : List UInt8) :
    skipUnderscore (escape n ++ s) = escape n ++ s := by
  have hpair : ∀ n < 256, n ≠ 0x5f → ¬ (Hex.digit (n / 16) = 0x35 ∧
      (Hex.digit (n % 16) = 0x66 ∨ Hex.digit (n % 16) = 0x46)) := by
    intro n hn hne ⟨h1, h2⟩
    have hhi : n / 16 = 5 := by
      have := congrArg Hex.value h1
      rw [Hex.value_digit (by omega)] at this
      exact Option.some.inj this
    have hlo : n % 16 = 15 := by
      rcases h2 with h2 | h2
      · have := congrArg Hex.value h2
        rw [Hex.value_digit (by omega)] at this
        exact Option.some.inj this
      · have := congrArg Hex.value h2
        rw [Hex.value_digit (by omega)] at this
        exact Option.some.inj this
    omega
  have := hpair n h hn
  simp [escape, Nat.mod_eq_of_lt h, Hex.pair, skipUnderscore, this]

theorem skipUnderscore_escapes {c : Char} (hc : c ≠ '_') (s : List UInt8) :
    skipUnderscore (((String.utf8EncodeChar c).flatMap fun b => escape b.toNat) ++ s) =
      ((String.utf8EncodeChar c).flatMap fun b => escape b.toNat) ++ s := by
  by_cases hle : c.toNat ≤ 0x7f
  · have hne : c.toNat ≠ 0x5f := fun h => hc (Char.toNat_inj.mp h)
    rw [utf8EncodeChar_ascii hle, List.flatMap_singleton, toNat_ofNat_ascii hle]
    exact skipUnderscore_escape (by omega) hne s
  · obtain ⟨b, l, he, hb⟩ := utf8EncodeChar_head (Nat.lt_of_not_le hle)
    have hne : b.toNat ≠ 0x5f := fun h => hb (UInt8.lt_iff_toNat_lt.mpr (h ▸ by decide))
    rw [he, List.flatMap_cons, List.append_assoc]
    exact skipUnderscore_escape b.toNat_lt hne _

theorem skipUnderscore_ufChar {c : Char} (hc : c ≠ '_') (s : List UInt8) :
    skipUnderscore (bytes (ufChar c) ++ s) = bytes (ufChar c) ++ s := by
  obtain ⟨h, hdot, he⟩ | ⟨-, he⟩ := bytes_ufChar c
  · obtain ⟨-, -, hpct, -, hd, hu⟩ := unescaped_ascii h
    rw [he]
    cases s with
    | nil => simp [skipUnderscore, hu hc]
    | cons a s => cases s <;> simp [skipUnderscore, hpct, hd hdot, hu hc]
  · rw [he]
    exact skipUnderscore_escapes hc s

theorem unurlifyStringTo_uf {s : List Char} (h : '\x00' ∉ s) :
    unurlifyStringTo false (bytes (uf s)) = .ok (bytes s) := by
  have hskip : skipUnderscore (bytes (uf s)) = bytes (s.flatMap ufChar) := by
    cases s with
    | nil => rfl
    | cons c s =>
      rw [uf_eq (by simp), List.head?_cons]
      by_cases hc : c = '_'
      · subst hc
        rfl
      · rw [if_neg (by simpa using hc), List.nil_append, List.flatMap_cons, bytes_append]
        exact skipUnderscore_ufChar hc _
  have hloop := unurlifyLoop_uf s
  simp [unurlifyStringTo, hskip, hloop, cString_bytes h]

-- ---------------------------------------------------------------------------
-- The client reads what the server encodes
-- ---------------------------------------------------------------------------

theorem percentByte_pair (b : UInt8) (s : List Char) :
    percentByte ('%' :: asciiText (Hex.pair b.toNat) ++ s) = some (b, s) := by
  obtain ⟨x, y, he, -, hx, hy, -⟩ := hexText_pair b.toNat_lt
  rw [he]
  simp [percentByte, hx, hy, Nat.div_add_mod]

theorem percentBytes_escapes (bs : List UInt8) (s : List Char) :
    percentBytes bs.length ((bs.flatMap fun b => '%' :: asciiText (Hex.pair b.toNat)) ++ s) =
      some (bs, s) := by
  induction bs with
  | nil => rfl
  | cons b bs ih =>
    rw [List.flatMap_cons, List.append_assoc, List.length_cons, percentBytes, percentByte_pair]
    simp only [ih, Option.map_some]

theorem sequenceLength_ofNat (h : n < 256) : sequenceLength (UInt8.ofNat n) =
    if n < 0x80 then some 1
    else if n < 0xC0 then none
    else if n < 0xE0 then some 2
    else if n < 0xF0 then some 3
    else if n < 0xF8 then some 4
    else none := by
  simp only [sequenceLength, UInt8.lt_iff_toNat_lt, UInt8.toNat_ofNat_of_lt' h]
  rfl

/-- The first byte tells how many bytes there are. -/
theorem sequenceLength_utf8 (c : Char) : ∃ b l, String.utf8EncodeChar c = b :: l ∧
    sequenceLength b = some (l.length + 1) := by
  unfold String.utf8EncodeChar
  dsimp only
  split
  · refine ⟨_, _, rfl, ?_⟩
    rw [sequenceLength_ofNat (by omega), if_pos (by omega)]
    rfl
  · split
    · refine ⟨_, _, rfl, ?_⟩
      rw [sequenceLength_ofNat (by omega), if_neg (by omega), if_neg (by omega),
        if_pos (by omega)]
      rfl
    · split
      · refine ⟨_, _, rfl, ?_⟩
        rw [sequenceLength_ofNat (by omega), if_neg (by omega), if_neg (by omega),
          if_neg (by omega), if_pos (by omega)]
        rfl
      · refine ⟨_, _, rfl, ?_⟩
        rw [sequenceLength_ofNat (by omega), if_neg (by omega), if_neg (by omega),
          if_neg (by omega), if_neg (by omega), if_pos (by omega)]
        rfl

theorem utf8Char_utf8 (c : Char) : utf8Char (String.utf8EncodeChar c) = some c := by
  have h := ByteArray.utf8DecodeChar?_utf8EncodeChar_append (b := ByteArray.empty) (c := c)
  rw [ByteArray.append_empty] at h
  simp [utf8Char, h]

theorem percentChar_escape (c : Char) (s : List Char) :
    percentChar (percentEscape c ++ s) = some (c, s) := by
  obtain ⟨b, l, he, hlen⟩ := sequenceLength_utf8 c
  have hchar := utf8Char_utf8 c
  unfold percentEscape percentChar
  rw [he] at hchar ⊢
  simp only [List.flatMap_cons, List.append_assoc, percentByte_pair, hlen, Nat.add_sub_cancel,
    percentBytes_escapes, hchar, Option.map_some]

theorem decodeURIComponent_escape (c : Char) (s : List Char) :
    decodeURIComponent (percentEscape c ++ s) = (c :: ·) <$> decodeURIComponent s := by
  obtain ⟨b, l, he, -⟩ := sequenceLength_utf8 c
  have hchar := percentChar_escape c s
  obtain ⟨rest, hrest⟩ : ∃ rest, percentEscape c ++ s = '%' :: rest := by
    rw [percentEscape, he]
    exact ⟨_, rfl⟩
  rw [hrest] at hchar ⊢
  rw [decodeURIComponent, if_pos rfl]
  split
  next hnone => rw [hchar] at hnone; cases hnone
  next hsome => rw [hchar] at hsome; cases hsome; rfl

theorem decodeURIComponent_plain (h : c ≠ '%') (s : List Char) :
    decodeURIComponent (c :: s) = (c :: ·) <$> decodeURIComponent s := by
  rw [decodeURIComponent, if_neg h]

/-- What `uu` makes of the text before it decodes it. -/
def unescapeText (s : List Char) : List Char :=
  (s.map fun c => if c = '+' then ' ' else c).map fun c => if c = '.' then '%' else c

theorem unescapeText_append (s t : List Char) :
    unescapeText (s ++ t) = unescapeText s ++ unescapeText t := by
  simp [unescapeText]

theorem unescapeText_escapes (bs : List UInt8) :
    unescapeText (asciiText (bs.flatMap fun b => escape b.toNat)) =
      bs.flatMap fun b => '%' :: asciiText (Hex.pair b.toNat) := by
  induction bs with
  | nil => rfl
  | cons b bs ih =>
    obtain ⟨x, y, he, -, -, -, -, hx, hx', -, hy, hy'⟩ := hexText_pair b.toNat_lt
    have hhead : unescapeText (asciiText (escape b.toNat)) =
        '%' :: asciiText (Hex.pair b.toNat) := by
      have htext : asciiText (escape b.toNat) = '.' :: asciiText (Hex.pair b.toNat) := by
        rw [escape, Nat.mod_eq_of_lt b.toNat_lt]
        rfl
      rw [htext, he]
      simp [unescapeText, hx, hx', hy, hy']
    have happ : asciiText (escape b.toNat ++ bs.flatMap fun b => escape b.toNat) =
        asciiText (escape b.toNat) ++ asciiText (bs.flatMap fun b => escape b.toNat) :=
      List.map_append
    rw [List.flatMap_cons, List.flatMap_cons, happ, unescapeText_append, hhead, ih]

theorem asciiText_ofNat {c : Char} (h : c.toNat ≤ 0x7f) :
    asciiText [UInt8.ofNat c.toNat] = [c] := by
  rw [asciiText, List.map_cons, List.map_nil, toNat_ofNat_ascii h, Char.ofNat_toNat]

/-- The decoder undoes what the server made of one character. -/
theorem decode_codePoint (c : Char) (s : List Char) :
    decodeURIComponent (unescapeText (asciiText (urlifyCodePoint c)) ++ s) =
      (c :: ·) <$> decodeURIComponent s := by
  unfold urlifyCodePoint
  split
  next hc =>
    obtain rfl : c = ' ' := Char.toNat_inj.mp hc
    exact decodeURIComponent_plain (by decide) s
  next =>
    split
    next ha =>
      have hne : ∀ d : Char, isalnum d.toNat = false → c ≠ d := by
        rintro d hd rfl
        rw [ha] at hd
        cases hd
      have hplus : c ≠ '+' := hne '+' (by decide)
      have hdot : c ≠ '.' := hne '.' (by decide)
      rw [asciiText_ofNat (isalnum_le ha)]
      simp only [unescapeText, List.map_cons, List.map_nil, if_neg hplus, if_neg hdot]
      exact decodeURIComponent_plain (hne '%' (by decide)) s
    next =>
      rw [auxUrlifyChar_bytes, unescapeText_escapes]
      exact decodeURIComponent_escape c s

theorem decode_codePoints (s : List Char) :
    decodeURIComponent (unescapeText (asciiText (s.flatMap urlifyCodePoint))) = some s := by
  induction s with
  | nil => simp [unescapeText, asciiText, decodeURIComponent]
  | cons c s ih =>
    have happ : asciiText (urlifyCodePoint c ++ s.flatMap urlifyCodePoint) =
        asciiText (urlifyCodePoint c) ++ asciiText (s.flatMap urlifyCodePoint) :=
      List.map_append
    rw [List.flatMap_cons, happ, unescapeText_append, decode_codePoint, ih]
    rfl

/-- Everything the server writes is ASCII, and none of it is a slash. -/
theorem urlifyCodePoint_ascii (c : Char) :
    ∀ b ∈ urlifyCodePoint c, b < 0x80 ∧ b ≠ 0x2F := by
  intro b hb
  unfold urlifyCodePoint at hb
  split at hb
  next =>
    rw [List.mem_singleton] at hb
    exact hb ▸ by decide
  next =>
    split at hb
    next ha =>
      obtain ⟨-, -, -, -, hslash⟩ := alnum_ne ha
      rw [List.mem_singleton] at hb
      have hle := isalnum_le ha
      refine ⟨?_, hb ▸ hslash⟩
      rw [hb, UInt8.lt_iff_toNat_lt, toNat_ofNat_ascii hle]
      exact Nat.lt_succ_of_le hle
    next =>
      rw [auxUrlifyChar_bytes] at hb
      refine ⟨?_, fun h => slash_not_mem_escapes _ (h ▸ hb)⟩
      obtain ⟨x, -, hx⟩ := List.mem_flatMap.mp hb
      obtain ⟨hhi, -⟩ := hexText_digit (x.toNat / 16) (by have := x.toNat_lt; omega)
      obtain ⟨hlo, -⟩ := hexText_digit (x.toNat % 16) (by omega)
      rw [escape, Nat.mod_eq_of_lt x.toNat_lt] at hx
      rcases hx with _ | ⟨_, _ | ⟨_, _ | ⟨_, ⟨⟩⟩⟩⟩
      · decide
      · exact hhi
      · exact hlo

/-- An underscore in front marks the empty string and what starts with one. -/
def underscore (s : List Char) : List UInt8 :=
  if s = [] ∨ s.head? = some '_' then [0x5F] else []

theorem urlifyString_utf8 (u : Libunistring) (s : List Char) :
    urlifyString u (bytes s) = underscore s ++ s.flatMap urlifyCodePoint := by
  cases s with
  | nil => rfl
  | cons c s =>
    have hloop : urlifyBytes u (bytes (c :: s)) = _ := urlifyBytes_utf8 u (c :: s)
    obtain ⟨b, l, he, hb⟩ : ∃ b l, String.utf8EncodeChar c = b :: l ∧ (b = 0x5F ↔ c = '_') := by
      by_cases hle : c.toNat ≤ 0x7f
      · refine ⟨_, _, utf8EncodeChar_ascii hle, ?_⟩
        rw [← UInt8.toNat_inj, toNat_ofNat_ascii hle, ← Char.toNat_inj]
        rfl
      · obtain ⟨b, l, he, hge⟩ := utf8EncodeChar_head (Nat.lt_of_not_le hle)
        refine ⟨b, l, he, fun h => absurd (h ▸ by decide) hge, fun h => ?_⟩
        exact absurd (h ▸ by decide) hle
    rw [bytes_cons, he, List.cons_append] at hloop ⊢
    simp only [urlifyString, hloop, underscore, hb]
    simp

/-- The two runtimes skip the same underscore. -/
theorem asciiText_skipUnderscore (bs : List UInt8) :
    asciiText (skipUnderscore bs) = dropUnderscore (asciiText bs) := by
  have hch : ∀ (b : UInt8) (d : Char), d.toNat < 256 →
      (Char.ofNat b.toNat = d ↔ b = UInt8.ofNat d.toNat) := by
    intro b d hd
    rw [← Char.toNat_inj, toNat_ofNat_byte, ← UInt8.toNat_inj, UInt8.toNat_ofNat_of_lt' hd]
  have hunder : ∀ b : UInt8, Char.ofNat b.toNat = '_' ↔ b = 0x5F :=
    fun b => hch b '_' (by decide)
  have hpct : ∀ b : UInt8, Char.ofNat b.toNat = '%' ↔ b = 0x25 :=
    fun b => hch b '%' (by decide)
  have hdot : ∀ b : UInt8, Char.ofNat b.toNat = '.' ↔ b = 0x2E :=
    fun b => hch b '.' (by decide)
  have hfive : ∀ b : UInt8, Char.ofNat b.toNat = '5' ↔ b = 0x35 :=
    fun b => hch b '5' (by decide)
  have hf : ∀ b : UInt8, Char.ofNat b.toNat = 'f' ↔ b = 0x66 :=
    fun b => hch b 'f' (by decide)
  have hF : ∀ b : UInt8, Char.ofNat b.toNat = 'F' ↔ b = 0x46 :=
    fun b => hch b 'F' (by decide)
  match bs with
  | [] => rfl
  | [a] =>
    simp only [skipUnderscore, asciiText, List.map_cons, List.map_nil, dropUnderscore, hunder]
    split <;> rfl
  | [a, b] =>
    simp only [skipUnderscore, asciiText, List.map_cons, List.map_nil, dropUnderscore, hunder]
    split <;> rfl
  | a :: b :: c :: s =>
    simp only [skipUnderscore, asciiText, List.map_cons, dropUnderscore, hunder, hpct, hdot,
      hfive, hf, hF]
    split
    · rfl
    · split <;> rfl

theorem skipUnderscore_urlified (u : Libunistring) (s : List Char) :
    skipUnderscore (urlifyString u (bytes s)) = s.flatMap urlifyCodePoint := by
  rw [urlifyString_utf8]
  cases s with
  | nil => rfl
  | cons c s =>
    by_cases hc : c = '_'
    · subst hc
      rfl
    · have hnone : underscore (c :: s) = [] := if_neg (by simpa using hc)
      rw [hnone, List.nil_append, List.flatMap_cons]
      by_cases hle : c.toNat ≤ 0x7f
      · exact skipUnderscore_codePoint hle (fun h => hc (Char.toNat_inj.mp h)) _
      · have hplain : urlifyCodePoint c = auxUrlifyChar c.toNat := by
          have hspace : c.toNat ≠ 0x20 := by omega
          have halnum : ¬ isalnum c.toNat = true := fun h => hle (isalnum_le h)
          rw [urlifyCodePoint, if_neg hspace, if_neg halnum]
        rw [hplain, auxUrlifyChar_bytes]
        exact skipUnderscore_escapes hc _

theorem uu_urlified (u : Libunistring) (s : List Char) :
    uu (asciiText (urlifyString u (bytes s))) = some s := by
  have hskip := skipUnderscore_urlified u s
  unfold uu
  rw [← asciiText_skipUnderscore, hskip]
  exact decode_codePoints s

theorem urlifyString_ascii (u : Libunistring) (s : List Char) :
    ∀ b ∈ urlifyString u (bytes s), b < 0x80 ∧ b ≠ 0x2F := by
  intro b hb
  rw [urlifyString_utf8, List.mem_append] at hb
  rcases hb with hb | hb
  · unfold underscore at hb
    split at hb
    · rw [List.mem_singleton] at hb
      exact hb ▸ by decide
    · cases hb
  · obtain ⟨c, -, hc⟩ := List.mem_flatMap.mp hb
    exact urlifyCodePoint_ascii c b hc

-- ---------------------------------------------------------------------------
-- One element of a path
-- ---------------------------------------------------------------------------

/-- What the server reads as the element of a path after `n` others, and what it
leaves of the path. -/
def readElement (n : Nat) (path : List UInt8) : Except UrlError (List UInt8) × List UInt8 :=
  let s := (fun s => (unurlifyAdvance s).2)^[n] path
  (unurlifyString s, (unurlifyAdvance s).2)

/-- `uu(s.split("/")[n])`. -/
def clientElement (n : Nat) (path : List Char) : Option (List Char) :=
  (path.splitOn '/')[n]?.bind uu

theorem unurlifyAdvance_cons {p : List UInt8} (h : 0x2F ∉ p) (ps : List (List UInt8)) :
    unurlifyAdvance ([0x2F].intercalate (p :: ps)) = (p, [0x2F].intercalate ps) := by
  have hp : ∀ b ∈ p, decide (b ≠ 0x2F) = true := fun b hb => by
    simpa using fun he : b = 0x2F => h (he ▸ hb)
  cases ps with
  | nil =>
    rw [List.intercalate_singleton, unurlifyAdvance, List.takeWhile_eq_self_iff.mpr hp,
      List.dropWhile_eq_nil_iff.mpr hp]
    rfl
  | cons q ps =>
    rw [List.intercalate_cons_cons, List.append_assoc, unurlifyAdvance,
      List.takeWhile_append_of_pos hp, List.dropWhile_append_of_pos hp]
    simp

theorem unurlifyAdvance_iterate {before : List (List UInt8)} (h : ∀ p ∈ before, 0x2F ∉ p)
    (ps : List (List UInt8)) :
    (fun s => (unurlifyAdvance s).2)^[before.length] ([0x2F].intercalate (before ++ ps)) =
      [0x2F].intercalate ps := by
  induction before with
  | nil => rfl
  | cons p before ih =>
    rw [List.length_cons, Function.iterate_succ_apply, List.cons_append,
      unurlifyAdvance_cons (h p (by simp))]
    exact ih fun q hq => h q (by simp [hq])

/-- Between slash-free elements each side reads back the string that the other encoded. -/
theorem url_codecs_agree (u : Libunistring) (s : List Char) (h : '\x00' ∉ s) :
    (∀ before after : List (List UInt8), (∀ p ∈ before, 0x2F ∉ p) →
      readElement before.length ([0x2F].intercalate (before ++ bytes (uf s) :: after)) =
        (.ok (bytes s), [0x2F].intercalate after)) ∧
    (∀ (before after : List (List Char)) (t : List Char), (∀ p ∈ before ++ after, '/' ∉ p) →
      bytes t = urlifyString u (bytes s) →
      clientElement before.length (['/'].intercalate (before ++ t :: after)) = some s) := by
  refine ⟨fun before after hb => ?_, fun before after t hb ht => ?_⟩
  · have hadv := unurlifyAdvance_cons (slash_not_mem_uf s) after
    rw [readElement, unurlifyAdvance_iterate hb, unurlifyString, hadv]
    exact congrArg (·, _) (unurlifyStringTo_uf h)
  · have hasc := urlifyString_ascii u s
    obtain rfl : t = asciiText (urlifyString u (bytes s)) :=
      bytes_injective (ht.trans (bytes_asciiText fun b hb => (hasc b hb).1).symm)
    have hslash : '/' ∉ asciiText (urlifyString u (bytes s)) := by
      intro hm
      obtain ⟨b, hb, he⟩ := List.mem_map.mp hm
      refine (hasc b hb).2 (UInt8.toNat_inj.mp ?_)
      rw [← toNat_ofNat_byte, he]
      rfl
    have hall : ∀ p ∈ before ++ asciiText (urlifyString u (bytes s)) :: after, '/' ∉ p := by
      intro p hp
      rcases List.mem_append.mp hp with hp | hp
      · exact hb p (List.mem_append_left _ hp)
      · rcases List.mem_cons.mp hp with rfl | hp
        · exact hslash
        · exact hb p (List.mem_append_right _ hp)
    rw [clientElement, List.splitOn_intercalate '/' hall (by simp)]
    simpa using uu_urlified u s

/-- An underscore, a dot, a space, a plus sign and a character of three bytes. -/
theorem url_codecs_agree_marks :
    readElement 1 ([0x2F].intercalate [[0x61], bytes (uf "_. +€".toList), [0x62]]) =
        (.ok (bytes "_. +€".toList), [0x62]) ∧
      clientElement 1 (['/'].intercalate [['a'],
        asciiText (urlifyString .strict (bytes "_. +€".toList)), ['b']]) =
          some "_. +€".toList := by
  obtain ⟨hserver, hclient⟩ := url_codecs_agree .strict "_. +€".toList (by decide)
  refine ⟨hserver [[0x61]] [[0x62]] (by decide), hclient [['a']] [['b']] _ (by decide) ?_⟩
  exact bytes_asciiText fun b hb => (urlifyString_ascii .strict _ b hb).1

end UrWeb.Runtime
