import Mathlib.Data.Bool.AllAny
import UrWeb.Parse.Literals

/-!
# What the scanner makes of a string

The scanner's reading of a text is never shorter than the callback's value, and on a
text that is not plain it is longer. Reading and value go out of step after an
escape that takes a backslash, so the bound is stated for a text and for the same
text after a backslash at once.
-/

namespace UrWeb.Parse

-- ---------------------------------------------------------------------------
-- Characters
-- ---------------------------------------------------------------------------

theorem exists_ascii (h : c.val ≤ 127) : ∃ n < 128, c = Char.ofNat n :=
  ⟨c.toNat, Nat.lt_succ_of_le h, (Char.ofNat_toNat c).symm⟩

theorem latin_ascii (h : c.val ≤ 127) : latin (String.utf8EncodeChar c) = [c] := by
  obtain ⟨n, hn, rfl⟩ := exists_ascii h
  have hall : ∀ n < 128, latin (String.utf8EncodeChar (Char.ofNat n)) = [Char.ofNat n] := by
    decide +kernel
  exact hall n hn

theorem scannedEscape_ascii (h : e.val ≤ 127) :
    scannedEscape e = (simpleEscape e).elim ['\x5c', e] fun x => [x] := by
  obtain ⟨n, hn, rfl⟩ := exists_ascii h
  have hall : ∀ n < 128, scannedEscape (Char.ofNat n) =
      (simpleEscape (Char.ofNat n)).elim ['\x5c', Char.ofNat n] fun x => [x] := by
    decide +kernel
  exact hall n hn

theorem latin_length (c : Char) : (latin (String.utf8EncodeChar c)).length = c.utf8Size := by
  rw [latin, List.length_map, String.length_utf8EncodeChar]

theorem utf8Size_of_not_ascii {c : Char} (h : ¬ c.val ≤ 127) : 2 ≤ c.utf8Size := by
  have hne : c.utf8Size ≠ 1 := fun h1 => h (Char.utf8Size_eq_one_iff.1 h1)
  have := c.utf8Size_pos
  omega

theorem stringEscape_high (h : ¬ b < 0x80) : stringEscape b = ['\x5c', Char.ofUInt8 b] := by
  have hne : ∀ c : Char, c.toUInt8 < 0x80 → b ≠ c.toUInt8 := by
    rintro c hc rfl
    exact h hc
  rw [stringEscape, if_neg (hne 'n' (by decide)), if_neg (hne 't' (by decide)),
    if_neg (hne 'r' (by decide)), if_neg (hne '\x5c' (by decide)),
    if_neg (hne '\x22' (by decide)), if_neg (hne '\x27' (by decide)),
    if_neg (hne 'a' (by decide)), if_neg (hne 'b' (by decide)), if_neg (hne 'f' (by decide)),
    if_neg (hne 'v' (by decide)), if_neg (hne '0' (by decide))]

theorem scannedEscape_high (h : ¬ e.val ≤ 127) : 3 ≤ (scannedEscape e).length := by
  have hlen := String.length_utf8EncodeChar e
  have hsize := utf8Size_of_not_ascii h
  have hhigh := Utf8.high_bytes (c := e) (Nat.lt_of_not_le h)
  rw [scannedEscape]
  cases hb : String.utf8EncodeChar e with
  | nil => exact absurd hb String.utf8EncodeChar_ne_nil
  | cons b bs =>
    rw [hb, List.length_cons] at hlen
    rw [hb] at hhigh
    simp only [stringEscape_high (hhigh b (by simp)), List.length_append, List.length_cons,
      List.length_nil, latin, List.length_map]
    omega

theorem simpleEscape_ascii (h : simpleEscape e = some x) : e.val ≤ 127 ∧ ¬ LongEscape e := by
  have hmem : e ∈ ['n', 't', 'r', '\x5c', '\x22', '\x27', 'a', 'b', 'f', 'v', '0'] := by
    by_contra hne
    simp only [List.mem_cons, List.not_mem_nil, or_false, not_or] at hne
    simp only [simpleEscape, hne, if_false, reduceCtorEq] at h
  have hall : ∀ e ∈ ['n', 't', 'r', '\x5c', '\x22', '\x27', 'a', 'b', 'f', 'v', '0'],
      e.val ≤ 127 ∧ ¬ LongEscape e := by
    unfold LongEscape
    exact List.all_iff_forall_prop.1 (by decide)
  exact hall e hmem

theorem scannedEscape_length (e : Char) (h : ∀ x, simpleEscape e ≠ some x) :
    2 ≤ (scannedEscape e).length := by
  by_cases he : e.val ≤ 127
  · rw [scannedEscape_ascii he, Option.eq_none_iff_forall_ne_some.2 h]
    exact Nat.le_refl 2
  · exact Nat.le_of_succ_le (scannedEscape_high he)

theorem scannedEscape_pos (e : Char) : 1 ≤ (scannedEscape e).length := by
  cases hs : simpleEscape e with
  | none => exact Nat.le_of_succ_le (scannedEscape_length e (by simp [hs]))
  | some x =>
    rw [scannedEscape_ascii (simpleEscape_ascii hs).1, hs]
    exact Nat.le_refl 1

-- ---------------------------------------------------------------------------
-- The scanner's reading
-- ---------------------------------------------------------------------------

attribute [local simp] scanned in
theorem scanned_char (h : c ≠ '\x5c') (cs : List Char) :
    scanned (c :: cs) = latin (String.utf8EncodeChar c) ++ scanned cs := by
  cases cs with
  | nil => simp only [scanned, if_neg h]
  | cons => rw [scanned, if_neg h]

theorem scanned_escape (e : Char) (cs : List Char) :
    scanned ('\x5c' :: e :: cs) = scannedEscape e ++ scanned cs := by
  rw [scanned, if_pos rfl]

theorem length_scanned_char (h : c ≠ '\x5c') (cs : List Char) :
    (scanned (c :: cs)).length = c.utf8Size + (scanned cs).length := by
  rw [scanned_char h, List.length_append, latin_length]

theorem length_scanned_escape (e : Char) (cs : List Char) :
    (scanned ('\x5c' :: e :: cs)).length = (scannedEscape e).length + (scanned cs).length := by
  rw [scanned_escape, List.length_append]

/-- The length of the reading of a text, aligned or after a backslash, whichever is less. -/
def least (cs : List Char) : Nat := min (scanned cs).length (scanned ('\x5c' :: cs)).length

theorem least_le (cs : List Char) : least cs ≤ (scanned cs).length := Nat.min_le_left _ _

theorem least_le_escaped (cs : List Char) : least cs ≤ (scanned ('\x5c' :: cs)).length :=
  Nat.min_le_right _ _

/-- A character more never makes the least reading shorter. -/
theorem least_tail (c : Char) (cs : List Char) : least cs ≤ least (c :: cs) := by
  have hescape : least cs ≤ (scanned ('\x5c' :: c :: cs)).length := by
    have := least_le cs
    rw [length_scanned_escape]
    omega
  refine Nat.le_min.2 ⟨?_, hescape⟩
  by_cases hc : c = '\x5c'
  · rw [hc]
    exact least_le_escaped cs
  · have := least_le cs
    rw [length_scanned_char hc]
    omega

theorem least_suffix (h : d <:+ cs) : least d ≤ least cs := by
  obtain ⟨p, rfl⟩ := h
  induction p with
  | nil => exact Nat.le_refl _
  | cons c p ih => exact Nat.le_trans ih (least_tail c (p ++ d))

-- ---------------------------------------------------------------------------
-- The callback's value
-- ---------------------------------------------------------------------------

attribute [local simp] processEscapes escape in
/-- An escape is one character, or a long one, or no escape at all. -/
theorem escape_cases (h : escape e cs = some (out, rest)) :
    (∃ x, simpleEscape e = some x ∧ out = [x] ∧ rest = cs) ∨
    (simpleEscape e = none ∧ LongEscape e ∧ out.length ≤ 1 ∧ rest <:+ cs) ∨
    (simpleEscape e = none ∧ ¬ LongEscape e ∧ out = ['\x5c', e] ∧ rest = cs) := by
  unfold escape at h
  cases hs : simpleEscape e with
  | some x =>
    rw [hs] at h
    cases h
    exact .inl ⟨x, rfl, rfl, rfl⟩
  | none =>
    rw [hs] at h
    simp only at h
    refine .inr ?_
    split_ifs at h with hcaret hd hdigits hu hgap
    · refine .inl ⟨rfl, .inl hcaret, ?_⟩
      cases cs with
      | nil => cases h
      | cons x cs =>
        cases h
        refine ⟨?_, List.suffix_cons _ _⟩
        split_ifs <;> simp
    · cases h
      exact .inl ⟨rfl, .inr (.inl hd), Nat.le_refl 1, List.drop_suffix _ _⟩
    · refine .inl ⟨rfl, .inr (.inr (.inl hu)), ?_⟩
      split at h
      · cases h
      · cases h
        exact ⟨Nat.le_refl 1, List.drop_suffix _ _⟩
    · cases h
      exact .inl ⟨rfl, .inr (.inr (.inr hgap)), Nat.zero_le _,
        (List.drop_suffix _ _).trans (List.dropWhile_suffix _)⟩
    · cases h
      refine .inr ⟨rfl, ?_, rfl, rfl⟩
      rintro (h | h | h | h)
      · exact hcaret h
      · exact hd h
      · exact hu h
      · exact hgap h

theorem processEscapes_char (h : c ≠ '\x5c') (n : Nat) (cs : List Char) :
    processEscapes (n + 1) (c :: cs) = (processEscapes n cs).map (c :: ·) := by
  cases cs <;> rw [processEscapes, if_pos h]

theorem processEscapes_escape (n : Nat) (e : Char) (cs : List Char) :
    processEscapes (n + 1) ('\x5c' :: e :: cs) =
      (escape e cs).bind fun r => (processEscapes n r.2).map (r.1 ++ ·) := by
  rw [processEscapes, if_neg (by decide)]
  cases escape e cs <;> rfl

theorem processEscapes_le (h : processEscapes n cs = some s) : s.length ≤ least cs := by
  induction n generalizing cs s with
  | zero => cases h
  | succ n ih =>
    match cs with
    | [] =>
      cases h
      exact Nat.zero_le _
    | c :: cs =>
      by_cases hc : c = '\x5c'
      · subst hc
        match cs with
        | [] => cases h
        | e :: cs =>
          rw [processEscapes_escape] at h
          obtain ⟨⟨out, rest⟩, hesc, h⟩ := Option.bind_eq_some_iff.1 h
          obtain ⟨s, hs, rfl⟩ := Option.map_eq_some_iff.1 h
          have hle := ih hs
          -- After two backslashes the character begins the text again.
          have hmis : (scanned ('\x5c' :: '\x5c' :: e :: cs)).length =
              1 + (scanned (e :: cs)).length := length_scanned_escape _ _
          have hchar : e ≠ '\x5c' → (scanned (e :: cs)).length =
              e.utf8Size + (scanned cs).length := fun he => length_scanned_char he cs
          have hsize := e.utf8Size_pos
          simp only at hle hs ⊢
          rw [List.length_append]
          refine Nat.le_min.2 ?_
          rw [length_scanned_escape, hmis]
          have hleast := least_le cs
          obtain ⟨x, hx, rfl, rfl⟩ | ⟨hnone, hlong, hout, hsuf⟩ | ⟨hnone, hlong, rfl, rfl⟩ :=
            escape_cases hesc
          · have hpos := scannedEscape_pos e
            have hescaped := least_le_escaped rest
            rw [List.length_singleton]
            refine ⟨by omega, ?_⟩
            by_cases he : e = '\x5c'
            · rw [he]
              omega
            · rw [hchar he]
              omega
          · have hlen := scannedEscape_length e (by simp [hnone])
            have hrest := least_suffix hsuf
            have he : e ≠ '\x5c' := by
              rintro rfl
              exact absurd hnone (by decide)
            rw [hchar he]
            omega
          · have hlen := scannedEscape_length e (by simp [hnone])
            have he : e ≠ '\x5c' := by
              rintro rfl
              exact absurd hnone (by decide)
            rw [hchar he]
            simp only [List.length_cons, List.length_nil]
            omega
      · rw [processEscapes_char hc] at h
        obtain ⟨s, hs, rfl⟩ := Option.map_eq_some_iff.1 h
        have hle := ih hs
        have hleast := least_le cs
        have hsize := c.utf8Size_pos
        have hesc := scannedEscape_pos c
        refine Nat.le_min.2 ?_
        rw [length_scanned_char hc, length_scanned_escape, List.length_cons]
        omega

/-- On a text that is not plain the reading is longer than the value. -/
theorem processEscapes_lt (h : processEscapes n cs = some s) (hp : ¬ Plain cs) :
    s.length < (scanned cs).length := by
  induction n generalizing cs s with
  | zero => cases h
  | succ n ih =>
    match cs with
    | [] => exact absurd .nil hp
    | c :: cs =>
      by_cases hc : c = '\x5c'
      · subst hc
        match cs with
        | [] => cases h
        | e :: cs =>
          rw [processEscapes_escape] at h
          obtain ⟨⟨out, rest⟩, hesc, h⟩ := Option.bind_eq_some_iff.1 h
          obtain ⟨s, hs, rfl⟩ := Option.map_eq_some_iff.1 h
          have hle := processEscapes_le hs
          have hleast := least_le cs
          simp only at hle hs ⊢
          rw [List.length_append, length_scanned_escape]
          obtain ⟨x, hx, rfl, rfl⟩ | ⟨hnone, hlong, hout, hsuf⟩ | ⟨hnone, hlong, rfl, rfl⟩ :=
            escape_cases hesc
          · obtain ⟨hascii, hlong⟩ := simpleEscape_ascii hx
            have hlt := ih hs fun hplain => hp (.escape hlong hascii hplain)
            have hpos := scannedEscape_pos e
            rw [List.length_singleton]
            omega
          · have hlen := scannedEscape_length e (by simp [hnone])
            have hrest := least_suffix hsuf
            omega
          · rw [List.length_cons, List.length_singleton]
            by_cases hascii : e.val ≤ 127
            · have hlt := ih hs fun hplain => hp (.escape hlong hascii hplain)
              have hlen := scannedEscape_length e (by simp [hnone])
              omega
            · have hhigh := scannedEscape_high hascii
              omega
      · rw [processEscapes_char hc] at h
        obtain ⟨s, hs, rfl⟩ := Option.map_eq_some_iff.1 h
        rw [length_scanned_char hc, List.length_cons]
        by_cases hascii : c.val ≤ 127
        · have hlt := ih hs fun hplain => hp (.char hc hascii hplain)
          have hsize := c.utf8Size_pos
          omega
        · have hle := processEscapes_le hs
          have hleast := least_le cs
          have hsize := utf8Size_of_not_ascii hascii
          omega

theorem escape_plain (he : ¬ LongEscape e) (ha : e.val ≤ 127) (cs : List Char) :
    escape e cs = some (scannedEscape e, cs) := by
  unfold escape
  rw [scannedEscape_ascii ha]
  cases simpleEscape e with
  | some x => rfl
  | none =>
    simp only [LongEscape, not_or] at he
    simp only
    rw [if_neg he.1, if_neg he.2.1, if_neg he.2.2.1, if_neg (by simpa using he.2.2.2)]
    rfl

theorem processEscapes_plain (h : Plain cs) (hn : cs.length < n) :
    processEscapes n cs = some (scanned cs) := by
  induction h generalizing n with
  | nil =>
    obtain ⟨n, rfl⟩ := Nat.exists_eq_add_of_lt hn
    rfl
  | char hc ha _ ih =>
    obtain ⟨n, rfl⟩ := Nat.exists_eq_add_of_lt hn
    rw [processEscapes_char hc, ih (by rw [List.length_cons]; omega), scanned_char hc,
      latin_ascii ha]
    rfl
  | escape he ha _ ih =>
    obtain ⟨n, rfl⟩ := Nat.exists_eq_add_of_lt hn
    rw [processEscapes_escape, escape_plain he ha, Option.bind_some,
      ih (by simp only [List.length_cons]; omega), scanned_escape]
    rfl

/-- The scanner reads the callback's value exactly from the plain texts. -/
theorem scanned_eq_iff (h : processStringEscapes t = some s) : scanned t = s ↔ Plain t := by
  constructor
  · intro he
    by_contra hp
    have hlt := processEscapes_lt h hp
    rw [he] at hlt
    exact Nat.lt_irrefl _ hlt
  · intro hp
    have hlen := Utf8.length_le_encode t
    have hv := processEscapes_plain hp
      (show t.length < (Utf8.encode t).length * 8 + 64 by omega)
    exact Option.some.inj (hv.symm.trans h)

end UrWeb.Parse
