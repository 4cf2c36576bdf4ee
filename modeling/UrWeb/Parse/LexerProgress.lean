import UrWeb.Parse.Skips

/-!
# Progress of the lexer

Every scan of a token takes at least one byte, except the scan of an attribute name
that begins with an underscore: it takes none, and the lexer stays where it is for
ever. A run that never meets one reaches the end of the source.
-/

namespace UrWeb.Parse

variable {F : Type}

/-- An item read at `start`: it takes bytes, and a token spans exactly these. -/
structure Consumes (src : List UInt8) (start : Nat) (out : LexResult F × XmlAwareLexer) :
    Prop where
  src_eq : out.2.src = src
  lt : start < out.2.pos
  le : out.2.pos ≤ src.length
  spans : out.1 = .ok (lo, t, hi) → lo = start ∧ hi = out.2.pos

theorem consumes_ok {s s' : XmlAwareLexer} {n : Nat} (t : Token F) (hsrc : s'.src = s.src)
    (hpos : s'.pos = s.pos + n) (h0 : 0 < n) (hn : s.pos + n ≤ s.src.length) :
    Consumes s.src s.pos (.ok (s.pos, t, s.pos + n), s') where
  src_eq := hsrc
  lt := by simp only; omega
  le := by simp only; omega
  spans h := by
    cases h
    exact ⟨rfl, hpos.symm⟩

theorem consumes_error {s : XmlAwareLexer} (e : LexError) (hn : s.pos + 1 ≤ s.src.length) :
    Consumes s.src s.pos ((.error e : LexResult F), s.advance 1) where
  src_eq := rfl
  lt := Nat.lt_succ_self _
  le := hn
  spans h := nomatch h

theorem length_of_rest {s : XmlAwareLexer} (h : s.rest = b :: bs) :
    s.src.length = s.pos + (b :: bs).length := by
  have hl := congrArg List.length h
  rw [XmlAwareLexer.rest, List.length_drop, List.length_cons] at hl
  rw [List.length_cons]
  omega

theorem lt_of_at {s : XmlAwareLexer} (h : s.at k = some c) : s.pos + k < s.src.length := by
  obtain ⟨hk, -⟩ := List.getElem?_eq_some_iff.1 h
  rw [XmlAwareLexer.rest, List.length_drop] at hk
  omega

theorem drop_length_le (s : XmlAwareLexer) (hs : s.pos + k ≤ s.src.length) :
    s.pos + k + (s.rest.drop k).length = s.src.length := by
  rw [XmlAwareLexer.rest, List.drop_drop, List.length_drop]
  omega

-- ---------------------------------------------------------------------------
-- Measures stay within the text
-- ---------------------------------------------------------------------------

theorem takeWhile_length_le (p : UInt8 → Bool) (bs : List UInt8) :
    (bs.takeWhile p).length ≤ bs.length := (List.takeWhile_prefix p).length_le

theorem scanXmlId_le (bs : List UInt8) : scanXmlId bs ≤ bs.length := by
  cases bs with
  | nil => exact Nat.le_refl 0
  | cons b bs =>
    have := takeWhile_length_le isXmlIdByte bs
    rw [scanXmlId, List.length_cons]
    split_ifs <;> omega

theorem scanIdentRun_le (bs : List UInt8) : scanIdentRun bs ≤ bs.length :=
  takeWhile_length_le _ bs

theorem scanDigits_le (bs : List UInt8) : scanDigits bs ≤ bs.length :=
  takeWhile_length_le _ bs

theorem stringBody_le (quote : UInt8) (bs : List UInt8) :
    (stringBody quote bs).2 ≤ bs.length := by
  fun_induction stringBody quote bs with
  | case1 => exact Nat.le_refl 0
  | case2 => exact Nat.le_refl 1
  | case3 esc bs ih =>
    simp only [List.length_cons]
    omega
  | case4 bs =>
    simp only [List.length_cons]
    omega
  | case5 b bs hb hq ih =>
    simp only [List.length_cons]
    omega

theorem dottedPath_le (fuel : Nat) (bs : List UInt8) : (dottedPath fuel bs).2 ≤ bs.length := by
  induction fuel generalizing bs with
  | zero => exact Nat.zero_le _
  | succ fuel ih =>
    rw [dottedPath]
    split_ifs with h
    · match bs, h with
      | b :: bs, _ =>
        have hn := scanIdentRun_le bs
        have hrest := ih ((b :: bs).drop (1 + scanIdentRun bs))
        simp only [List.tail_cons, List.length_drop, List.length_cons] at hrest ⊢
        omega
    · exact Nat.zero_le _

theorem pos_of_identStart (h : isIdentStart b) : 0 < scanIdentRun (b :: bs) := by
  have hb : isIdentByte b := by
    simp only [isIdentStart, isAsciiAlphabetic, isIdentByte, Bool.or_eq_true,
      Char.isAlphanum] at h ⊢
    obtain h | h := h
    · exact .inl (.inl (.inl h))
    · exact .inl (.inr h)
  rw [scanIdentRun, List.takeWhile_cons, if_pos hb]
  exact Nat.succ_pos _

-- ---------------------------------------------------------------------------
-- The scans of one token
-- ---------------------------------------------------------------------------

theorem scanRegularString_consumes {s : XmlAwareLexer} (hst : start < s.pos)
    (hs : s.pos ≤ s.src.length) (quote : UInt8) :
    Consumes s.src start (s.scanRegularString quote start : LexResult F × XmlAwareLexer) := by
  have hle := stringBody_le quote s.rest
  have hlen := drop_length_le (k := 0) s hs
  rw [List.drop_zero] at hlen
  rw [XmlAwareLexer.scanRegularString]
  split
  · exact ⟨rfl, by simp only [XmlAwareLexer.advance_pos]; omega,
      by simp only [XmlAwareLexer.advance_pos]; omega, nofun⟩
  · refine ⟨rfl, by simp only [XmlAwareLexer.advance_pos]; omega,
      by simp only [XmlAwareLexer.advance_pos]; omega, fun h => ?_⟩
    cases h
    exact ⟨rfl, rfl⟩

theorem scanChar_consumes {s : XmlAwareLexer} (hst : start < s.pos) (hs : s.pos ≤ s.src.length) :
    Consumes s.src start (s.scanChar start : LexResult F × XmlAwareLexer) := by
  rw [XmlAwareLexer.scanChar]
  split
  · exact ⟨rfl, hst, hs, nofun⟩
  · rename_i hc
    have h0 := lt_of_at hc
    split_ifs with hq
    · have h1 := lt_of_at hq
      refine ⟨rfl, by simp only [XmlAwareLexer.advance_pos]; omega,
        by simp only [XmlAwareLexer.advance_pos]; omega, fun h => ?_⟩
      cases h
      exact ⟨rfl, rfl⟩
    · refine ⟨rfl, by simp only [XmlAwareLexer.advance_pos]; omega,
        by simp only [XmlAwareLexer.advance_pos]; omega, fun h => ?_⟩
      cases h
      exact ⟨rfl, rfl⟩

/-- The sign and the digits of a number are at least one byte. -/
theorem intLength_bounds {s : XmlAwareLexer} (hr : s.rest = b :: bs)
    (hd : isAsciiDigit b ∨ b = '-'.toUInt8 ∧ (s.at 1).any isAsciiDigit) :
    0 < intLength s.rest ∧ s.pos + intLength s.rest ≤ s.src.length := by
  have hlen := length_of_rest hr
  rw [List.length_cons] at hlen
  rw [hr, intLength, signLength, List.head?_cons]
  split_ifs with hm
  · have hdig := scanDigits_le bs
    simp only [List.drop_succ_cons, List.drop_zero]
    omega
  · have hdig := scanDigits_le (b :: bs)
    obtain hd | ⟨rfl, -⟩ := hd
    · have hpos : 0 < scanDigits (b :: bs) := by
        rw [scanDigits, List.takeWhile_cons, if_pos hd]
        exact Nat.succ_pos _
      rw [List.length_cons] at hdig
      rw [List.drop_zero]
      omega
    · exact absurd rfl hm

theorem scanNumber_consumes [F64 F] {s : XmlAwareLexer} (hr : s.rest = b :: bs)
    (hd : isAsciiDigit b ∨ b = '-'.toUInt8 ∧ (s.at 1).any isAsciiDigit) :
    Consumes s.src s.pos (s.scanNumber s.pos : LexResult F × XmlAwareLexer) := by
  obtain ⟨hpos, hle⟩ := intLength_bounds hr hd
  rw [XmlAwareLexer.scanNumber]
  simp only
  split_ifs with hf
  · obtain ⟨c, hc⟩ := Option.isSome_iff_exists.1 (Option.isSome_of_any hf.2)
    have hk := lt_of_at hc
    have hfrac := scanDigits_le (s.rest.drop (intLength s.rest + 1))
    have hdrop := drop_length_le s (Nat.le_of_lt hk)
    exact consumes_ok _ rfl rfl (by omega) (by omega)
  · exact consumes_ok _ rfl rfl hpos hle

theorem scanIdent_consumes {s : XmlAwareLexer} (hr : s.rest = b :: bs) (hb : isIdentStart b) :
    Consumes s.src s.pos (s.scanIdent s.pos : LexResult F × XmlAwareLexer) := by
  have hlen := length_of_rest hr
  have hpos : 0 < scanIdentRun s.rest := by rw [hr]; exact pos_of_identStart hb
  have hle : s.pos + scanIdentRun s.rest ≤ s.src.length := by
    have := scanIdentRun_le s.rest
    rw [hlen, ← hr]
    omega
  rw [XmlAwareLexer.scanIdent]
  simp only
  split_ifs with hw hcolon
  · have := lt_of_at hcolon.2.1
    exact consumes_ok _ rfl rfl (by omega) (by omega)
  · exact consumes_ok _ rfl rfl hpos hle
  · exact consumes_ok _ rfl rfl hpos hle

theorem scanAtInferencePath_consumes {s : XmlAwareLexer} {out : LexResult F × XmlAwareLexer}
    (h : s.scanAtInferencePath s.pos = some out) : Consumes s.src s.pos out := by
  have hindex : ∀ k, (s.at k).any isIdentStart →
      s.pos + (k + scanIdentRun (s.rest.drop k)) ≤ s.src.length := by
    intro k hk
    obtain ⟨c, hc⟩ := Option.isSome_iff_exists.1 (Option.isSome_of_any hk)
    have hlt := lt_of_at hc
    have hrun := scanIdentRun_le (s.rest.drop k)
    have hdrop := drop_length_le s (Nat.le_of_lt hlt)
    omega
  rw [XmlAwareLexer.scanAtInferencePath] at h
  simp only at h
  by_cases hstart : (s.at (atLength s.rest)).any isIdentStart
  · have hrun := hindex _ hstart
    have hdot := dottedPath_le
      ((s.rest.drop (atLength s.rest + scanIdentRun (s.rest.drop (atLength s.rest)))).length + 1)
      (s.rest.drop (atLength s.rest + scanIdentRun (s.rest.drop (atLength s.rest))))
    have hdrop := drop_length_le s hrun
    have hat : 0 < atLength s.rest := by
      rw [atLength]
      split_ifs <;> omega
    rw [if_pos hstart] at h
    split at h
    · cases h
    · cases h
      exact consumes_ok _ rfl rfl (by omega) (by omega)
  · rw [if_neg hstart] at h
    cases h

theorem xmlStart_consumes {s : XmlAwareLexer} {out : LexResult F × XmlAwareLexer}
    (h : s.xmlStart s.pos = some out) : Consumes s.src s.pos out := by
  rw [XmlAwareLexer.xmlStart] at h
  simp only at h
  split_ifs at h with hn hclose hgt
  · cases h
    have := lt_of_at hclose.2
    exact consumes_ok _ rfl rfl (by omega) (by omega)
  · cases h
    have := lt_of_at hgt
    exact consumes_ok _ rfl rfl (by omega) (by omega)

theorem operators_pos : ∀ op ∈ operators (F := F), 0 < (bytes op.1).length := by
  simp [operators, bytes]

theorem tryMultiCharOp_consumes {s s' : XmlAwareLexer} {t : Token F} (hr : s.rest = b :: bs)
    (h : s.tryMultiCharOp = some (t, s')) :
    Consumes s.src s.pos ((.ok (s.pos, t, s'.pos) : LexResult F), s') := by
  rw [XmlAwareLexer.tryMultiCharOp] at h
  split at h
  · rename_i op hop
    cases h
    have hpre : (bytes op.1).isPrefixOf s.rest := by
      have := List.find?_some hop
      exact this
    have hle := (List.isPrefixOf_iff_prefix.1 hpre).length_le
    rw [hr] at hle
    exact consumes_ok _ rfl rfl (operators_pos op (List.mem_of_find?_eq_some hop))
      (by rw [length_of_rest hr]; omega)
  · cases h

theorem scanPunctuation_consumes {s : XmlAwareLexer} (hr : s.rest = b :: bs) :
    Consumes s.src s.pos (s.scanPunctuation b s.pos : LexResult F × XmlAwareLexer) := by
  have hlen := length_of_rest hr
  rw [List.length_cons] at hlen
  rw [XmlAwareLexer.scanPunctuation]
  split
  · exact consumes_ok _ rfl rfl Nat.one_pos (by omega)
  · by_cases hb : b = '\x60'.toUInt8
    · have hpath := takeWhile_length_le (· != '\x60'.toUInt8) (s.rest.drop 1)
      have hdrop := drop_length_le (k := 1) s (by omega)
      rw [if_pos hb, backtickPath]
      refine consumes_ok _ rfl rfl (by split_ifs <;> omega) ?_
      split_ifs with hend
      · omega
      · obtain ⟨c, hc⟩ := Option.ne_none_iff_exists'.1 hend
        have := lt_of_at hc
        omega
    · rw [if_neg hb]
      exact consumes_error _ (by omega)

theorem shallower_src (s : XmlAwareLexer) : s.shallower.src = s.src ∧ s.shallower.pos = s.pos := by
  rw [XmlAwareLexer.shallower]
  split
  · split_ifs <;> exact ⟨rfl, rfl⟩
  · exact ⟨rfl, rfl⟩

theorem deeper_src (s : XmlAwareLexer) : s.deeper.src = s.src ∧ s.deeper.pos = s.pos := by
  rw [XmlAwareLexer.deeper]
  split <;> exact ⟨rfl, rfl⟩

theorem regularToken_consumes [F64 F] {s : XmlAwareLexer} (hr : s.rest = b :: bs) :
    Consumes s.src s.pos (s.regularToken b : LexResult F × XmlAwareLexer) := by
  have hlen := length_of_rest hr
  rw [List.length_cons] at hlen
  have hlt : s.pos < (s.advance 1).pos := Nat.lt_succ_self _
  have hle : (s.advance 1).pos ≤ (s.advance 1).src.length := by
    simp only [XmlAwareLexer.advance_pos, XmlAwareLexer.advance_src]
    omega
  have hok : ∀ (t : Token F) (s' : XmlAwareLexer), s'.src = s.src ∧ s'.pos = (s.advance 1).pos →
      Consumes s.src s.pos ((.ok (s.pos, t, s.pos + 1) : LexResult F), s') :=
    fun t s' hs' => consumes_ok t hs'.1 hs'.2 Nat.one_pos (by omega)
  rw [XmlAwareLexer.regularToken]
  by_cases hquote : b = '\x22'.toUInt8 ∨ b = '\x27'.toUInt8
  · rw [if_pos hquote]
    exact scanRegularString_consumes (s := s.advance 1) hlt hle b
  rw [if_neg hquote]
  by_cases hchar : b = '#'.toUInt8 ∧ s.at 1 = some '\x22'.toUInt8
  · have := lt_of_at hchar.2
    rw [if_pos hchar]
    exact scanChar_consumes (s := s.advance 2) (by rw [XmlAwareLexer.advance_pos]; omega)
      (by simp only [XmlAwareLexer.advance_pos, XmlAwareLexer.advance_src]; omega)
  rw [if_neg hchar]
  split
  · rename_i r hstart
    split_ifs at hstart
    · exact xmlStart_consumes hstart
  split
  · rename_i t s' hop
    exact tryMultiCharOp_consumes hr hop
  split_ifs with hlb hrb hlp hunit hrp hnum hident hat
  · exact hok _ _ (deeper_src _)
  · exact hok _ _ (shallower_src _)
  · have := lt_of_at hunit
    exact consumes_ok _ rfl rfl (by omega) (by omega)
  · exact hok _ _ (deeper_src _)
  · exact hok _ _ (shallower_src _)
  · exact scanNumber_consumes hr hnum
  · refine scanIdent_consumes hr ?_
    simpa [isIdentStart] using hident
  · cases hpath : s.scanAtInferencePath (F := F) s.pos with
    | none => exact hok _ _ ⟨rfl, rfl⟩
    | some out => exact scanAtInferencePath_consumes hpath
  · exact scanPunctuation_consumes hr

theorem xmlEndTag_consumes {s : XmlAwareLexer} {out : LexResult F × XmlAwareLexer}
    (h : s.xmlEndTag s.pos = some out) : Consumes s.src s.pos out := by
  rw [XmlAwareLexer.xmlEndTag] at h
  simp only at h
  split at h
  · rename_i hc
    cases h
    have := lt_of_at hc.2.2
    refine consumes_ok _ ?_ ?_ (by omega) (by omega)
    · split_ifs <;> rfl
    · split_ifs <;> rfl
  · cases h

theorem xmlBeginTag_consumes {s : XmlAwareLexer} {out : LexResult F × XmlAwareLexer}
    (hr : s.rest = b :: bs) (h : s.xmlBeginTag s.pos = some out) :
    Consumes s.src s.pos out := by
  have hlen := length_of_rest hr
  rw [List.length_cons] at hlen
  have hid := scanXmlId_le (s.rest.drop 1)
  have hdrop := drop_length_le (k := 1) s (by omega)
  rw [XmlAwareLexer.xmlBeginTag] at h
  simp only at h
  split_ifs at h
  cases h
  exact consumes_ok _ rfl rfl (by omega) (by omega)

theorem xmlToken_consumes {s : XmlAwareLexer} (hr : s.rest = b :: bs) :
    Consumes s.src s.pos (s.xmlToken b : LexResult F × XmlAwareLexer) := by
  have hlen := length_of_rest hr
  rw [List.length_cons] at hlen
  rw [XmlAwareLexer.xmlToken]
  by_cases hnl : b = '\n'.toUInt8
  · rw [if_pos hnl]
    exact consumes_ok _ rfl rfl Nat.one_pos (by omega)
  rw [if_neg hnl]
  by_cases hlt : b = '<'.toUInt8
  · rw [if_pos hlt]
    cases hend : s.xmlEndTag (F := F) s.pos with
    | some out => exact xmlEndTag_consumes hend
    | none =>
    cases hbegin : s.xmlBeginTag (F := F) s.pos with
    | some out => exact xmlBeginTag_consumes hr hbegin
    | none => exact consumes_ok _ rfl rfl Nat.one_pos (by omega)
  rw [if_neg hlt]
  split_ifs with hlb hlp
  · exact consumes_ok _ rfl rfl Nat.one_pos (by omega)
  · exact consumes_ok _ rfl rfl Nat.one_pos (by omega)
  by_cases ht : s.rest.takeWhile isTextByte ≠ []
  · have hle := takeWhile_length_le isTextByte s.rest
    rw [hr, List.length_cons] at hle
    simp only
    rw [if_pos ht]
    refine consumes_ok _ rfl rfl (List.length_pos_iff.2 ht) ?_
    rw [hr]
    omega
  · simp only
    rw [if_neg ht]
    exact consumes_error _ (by omega)

theorem scanXmlId_alphabetic (h : isAsciiAlphabetic b) (bs : List UInt8) :
    0 < scanXmlId (b :: bs) := by
  rw [scanXmlId, if_pos h]
  omega

theorem scanXmlId_underscore (bs : List UInt8) : scanXmlId ('_'.toUInt8 :: bs) = 0 := by
  rw [scanXmlId, if_neg (by decide)]

theorem attributeName_consumes {s : XmlAwareLexer} (hr : s.rest = b :: bs)
    (hb : isAsciiAlphabetic b) :
    Consumes s.src s.pos (s.attributeName s.pos : LexResult F × XmlAwareLexer) := by
  have hid := scanXmlId_le s.rest
  have hpos := scanXmlId_alphabetic hb bs
  rw [← hr] at hpos
  have hlen := length_of_rest hr
  rw [← hr] at hlen
  exact consumes_ok _ rfl rfl hpos (by omega)

theorem xmlTagToken_consumes [F64 F] {s : XmlAwareLexer} (hr : s.rest = b :: bs)
    (hb : b ≠ '_'.toUInt8) :
    Consumes s.src s.pos (s.xmlTagToken b : LexResult F × XmlAwareLexer) := by
  have hlen := length_of_rest hr
  rw [List.length_cons] at hlen
  have hok : ∀ (t : Token F) (s' : XmlAwareLexer), s'.src = s.src ∧ s'.pos = s.pos + 1 →
      Consumes s.src s.pos ((.ok (s.pos, t, s.pos + 1) : LexResult F), s') :=
    fun t s' hs' => consumes_ok t hs'.1 hs'.2 Nat.one_pos (by omega)
  rw [XmlAwareLexer.xmlTagToken]
  by_cases hgt : b = '>'.toUInt8
  · rw [if_pos hgt]
    exact hok _ _ ⟨rfl, rfl⟩
  rw [if_neg hgt]
  split_ifs with hdiv hquote hlb hlp hunit heq hdig hid
  · exact hok _ _ ⟨rfl, rfl⟩
  · have hle : (s.advance 1).pos ≤ (s.advance 1).src.length := by
      simp only [XmlAwareLexer.advance_pos, XmlAwareLexer.advance_src]
      omega
    let s1 : XmlAwareLexer := { s.advance 1 with stringReturn := some .xmlTag }
    exact scanRegularString_consumes (s := s1) (Nat.lt_succ_self _) hle b
  · exact hok _ _ ⟨rfl, rfl⟩
  · have := lt_of_at hunit
    exact consumes_ok _ rfl rfl (by omega) (by omega)
  · exact hok _ _ ⟨rfl, rfl⟩
  · exact hok _ _ ⟨rfl, rfl⟩
  · exact scanNumber_consumes hr (.inl hdig)
  · obtain hid | hid := hid
    · exact attributeName_consumes hr hid
    · exact absurd hid hb
  · exact consumes_error _ (by omega)

-- ---------------------------------------------------------------------------
-- Runs
-- ---------------------------------------------------------------------------

variable [F64 F]

/-- A name inside a tag is about to begin with an underscore. -/
def XmlAwareLexer.NamesUnderscore (s : XmlAwareLexer) : Prop :=
  s.mode = .xmlTag ∧ ∃ gap bs, Skipped .xmlTag gap ∧ s.rest = gap ++ '_'.toUInt8 :: bs

/-- The stream, item after item. -/
inductive XmlAwareLexer.Yields : XmlAwareLexer → List (LexResult F) → XmlAwareLexer → Prop
  | nil : Yields s [] s
  | cons : s.next = some (r, s1) → Yields s1 items s2 → Yields s (r :: items) s2

/-- The bytes from one position to another. -/
def slice (src : List UInt8) (lo hi : Nat) : List UInt8 := (src.drop lo).take (hi - lo)

/-- The stream has at most as many items as the source has bytes. Each takes a byte at
least, after nothing but blanks and comments, and a token spans what was taken. -/
structure Progresses (F : Type) [F64 F] (src : List UInt8) (allowXmlMarkup : Bool) : Prop where
  ends : ∃ (items : List (LexResult F)) (s : XmlAwareLexer),
    (XmlAwareLexer.withXmlMarkupPolicy src allowXmlMarkup).Yields items s ∧
    s.next (F := F) = none ∧ items.length ≤ src.length
  spans : ∀ (items : List (LexResult F)) (s : XmlAwareLexer) (r : LexResult F) s',
    (XmlAwareLexer.withXmlMarkupPolicy src allowXmlMarkup).Yields items s →
    s.next = some (r, s') →
    ∃ start, s.pos ≤ start ∧ start < s'.pos ∧ s'.pos ≤ src.length ∧
      Skipped s.mode (slice src s.pos start) ∧
      ∀ lo t hi, r = .ok (lo, t, hi) → lo = start ∧ hi = s'.pos

theorem next_eq (s : XmlAwareLexer) :
    ∃ e, s.next (F := F) = s.strides s.mode.skip s.mode.token e (s.src.length + 1) := by
  rw [XmlAwareLexer.next]
  cases s.mode
  · exact ⟨_, rfl⟩
  · exact ⟨_, rfl⟩
  · exact ⟨_, rfl⟩

theorem rest_length_lt (s : XmlAwareLexer) : s.rest.length < s.src.length + 1 := by
  rw [XmlAwareLexer.rest, List.length_drop]
  omega

theorem next_end {s : XmlAwareLexer} (h : s.rest = []) : s.next (F := F) = none := by
  obtain ⟨e, he⟩ := next_eq (F := F) s
  rw [he, XmlAwareLexer.strides, h]

/-- Where nothing is skipped the next item begins at once. -/
theorem next_token {s : XmlAwareLexer} (hr : s.rest = b :: bs)
    (hskip : s.mode.skip (b :: bs) = none) : s.next = some (s.mode.token (F := F) s b) := by
  obtain ⟨e, he⟩ := next_eq (F := F) s
  rw [he, strides_skipped .nil hr hskip (Nat.succ_pos _)]
  rfl

/-- An item stands after blanks and comments. -/
theorem next_some {s : XmlAwareLexer} {out : LexResult F × XmlAwareLexer}
    (h : s.next = some out) :
    ∃ gap b bs, s.rest = gap ++ b :: bs ∧ Skipped s.mode gap ∧
      out = s.mode.token (s.advance gap.length) b := by
  obtain ⟨e, he⟩ := next_eq (F := F) s
  rw [he] at h
  obtain ⟨gap, b, bs, hr, hgap, -, hout⟩ := strides_some (rest_length_lt s) h
  exact ⟨gap, b, bs, hr, hgap, hout⟩

theorem token_consumes {s : XmlAwareLexer} (m : LexMode) (hr : s.rest = b :: bs)
    (hb : m = .xmlTag → b ≠ '_'.toUInt8) :
    Consumes s.src s.pos (m.token s b : LexResult F × XmlAwareLexer) := by
  cases m with
  | regular => exact regularToken_consumes hr
  | xml => exact xmlToken_consumes hr
  | xmlTag => exact xmlTagToken_consumes hr (hb rfl)

/-- The step lemma: away from an underscore, an item takes a byte. -/
theorem next_consumes {s : XmlAwareLexer} {out : LexResult F × XmlAwareLexer}
    (hu : ¬ s.NamesUnderscore) (h : s.next = some out) :
    ∃ start, s.pos ≤ start ∧ Skipped s.mode (slice s.src s.pos start) ∧
      Consumes s.src start out := by
  obtain ⟨gap, b, bs, hr, hgap, rfl⟩ := next_some h
  refine ⟨s.pos + gap.length, Nat.le_add_right _ _, ?_, ?_⟩
  · have hslice : slice s.src s.pos (s.pos + gap.length) = gap := by
      rw [slice, Nat.add_sub_cancel_left]
      exact (congrArg (List.take gap.length) hr).trans List.take_left
    rw [hslice]
    exact hgap
  · have hrest : (s.advance gap.length).rest = b :: bs := by
      rw [XmlAwareLexer.rest_advance, hr, List.drop_left]
    refine token_consumes s.mode hrest ?_
    rintro hm rfl
    exact hu ⟨hm, gap, bs, hm ▸ hgap, hr⟩

/-- At an underscore the lexer gives an empty name and stays. -/
theorem next_underscore {s : XmlAwareLexer} (h : s.NamesUnderscore) :
    ∃ pos t s', s.next (F := F) = some (.ok (pos, t, pos), s') ∧ s'.pos = pos := by
  obtain ⟨hm, gap, bs, hgap, hr⟩ := h
  obtain ⟨e, he⟩ := next_eq (F := F) s
  have hlen : gap.length < s.src.length + 1 := by
    have := rest_length_lt s
    rw [hr, List.length_append, List.length_cons] at this
    omega
  have hskip : LexMode.xmlTag.skip ('_'.toUInt8 :: bs) = none := by
    rw [LexMode.skip, skipCode, if_neg (by decide), if_neg fun h => absurd h.1 (by decide)]
    decide
  have hid : scanXmlId (s.advance gap.length).rest = 0 := by
    rw [XmlAwareLexer.rest_advance, hr, List.drop_left, scanXmlId_underscore]
  have htoken : ∀ s' : XmlAwareLexer,
      s'.xmlTagToken (F := F) '_'.toUInt8 = s'.attributeName s'.pos := fun s' => rfl
  rw [he, hm, strides_skipped hgap hr hskip hlen, LexMode.token, htoken,
    XmlAwareLexer.attributeName]
  simp only [hid, Nat.add_zero]
  exact ⟨_, _, _, rfl, rfl⟩

theorem yields_bounds {s s' : XmlAwareLexer} {items : List (LexResult F)}
    (hu : ∀ (items : List (LexResult F)) s', s.Yields items s' → ¬ s'.NamesUnderscore)
    (hs : s.pos ≤ s.src.length) (h : s.Yields items s') :
    s'.src = s.src ∧ s.pos + items.length ≤ s'.pos ∧ s'.pos ≤ s.src.length := by
  induction h with
  | nil => exact ⟨rfl, Nat.le_refl _, hs⟩
  | cons hn _ ih =>
    obtain ⟨start, hstart, -, hc⟩ := next_consumes (hu [] _ .nil) hn
    have hsrc := hc.src_eq
    have hlt := hc.lt
    have hle := hc.le
    simp only at hsrc hlt hle
    obtain ⟨hsrc', hpos, hle'⟩ :=
      ih (fun items s' hy => hu _ s' (.cons hn hy)) (by rw [hsrc]; exact hle)
    rw [hsrc] at hsrc' hle'
    rw [List.length_cons]
    exact ⟨hsrc', by omega, hle'⟩

theorem yields_end {s : XmlAwareLexer}
    (hu : ∀ (items : List (LexResult F)) s', s.Yields items s' → ¬ s'.NamesUnderscore) :
    ∃ (items : List (LexResult F)) (s' : XmlAwareLexer),
      s.Yields items s' ∧ s'.next (F := F) = none := by
  induction hk : s.src.length - s.pos using Nat.strongRecOn generalizing s with
  | ind k ih =>
    cases hn : s.next (F := F) with
    | none => exact ⟨[], s, .nil, hn⟩
    | some out =>
      obtain ⟨r, s1⟩ := out
      obtain ⟨start, hstart, -, hc⟩ := next_consumes (hu [] s .nil) hn
      have hsrc := hc.src_eq
      have hlt := hc.lt
      have hle := hc.le
      simp only at hsrc hlt hle
      have hdec : s1.src.length - s1.pos < k := by
        rw [hsrc]
        omega
      obtain ⟨items, s', hy, hend⟩ :=
        ih _ hdec (fun items s' hy => hu _ s' (.cons hn hy)) rfl
      exact ⟨r :: items, s', .cons hn hy, hend⟩

/-- The lexer makes progress on a source exactly when no name inside a tag begins with
an underscore on the way. -/
theorem progresses_iff (src : List UInt8) (allowXmlMarkup : Bool) :
    Progresses F src allowXmlMarkup ↔
      ∀ (items : List (LexResult F)) s,
        (XmlAwareLexer.withXmlMarkupPolicy src allowXmlMarkup).Yields items s →
        ¬ s.NamesUnderscore := by
  constructor
  · intro hp items s hy hu
    obtain ⟨pos, t, s', hn, hs'⟩ := next_underscore (F := F) hu
    obtain ⟨start, -, hlt, -, -, hspan⟩ := hp.spans items s _ s' hy hn
    obtain ⟨hlo, hhi⟩ := hspan pos t pos rfl
    omega
  · intro hu
    have hs : (XmlAwareLexer.withXmlMarkupPolicy src allowXmlMarkup).pos ≤
        (XmlAwareLexer.withXmlMarkupPolicy src allowXmlMarkup).src.length := Nat.zero_le _
    refine ⟨?_, ?_⟩
    · obtain ⟨items, s, hy, hend⟩ := yields_end hu
      obtain ⟨-, hpos, hle⟩ := yields_bounds hu hs hy
      refine ⟨items, s, hy, hend, ?_⟩
      simp only [XmlAwareLexer.withXmlMarkupPolicy] at hpos hle
      omega
    · intro items s r s' hy hn
      obtain ⟨hsrc, -, -⟩ := yields_bounds hu hs hy
      obtain ⟨start, hstart, hgap, hc⟩ := next_consumes (hu items s hy) hn
      rw [hsrc] at hgap hc
      exact ⟨start, hstart, hc.lt, hc.le, hgap, fun _ _ _ => hc.spans⟩

/-- Floats kept as their texts. -/
instance : F64 (List Char) where
  parse t := some t
  zero := ['0']

theorem not_progresses_underscore :
    ¬ Progresses (List Char) (bytes "<xml><a _") true := by
  intro hp
  obtain ⟨start, -, hlt, -, -, hspan⟩ := hp.spans
    [.ok (0, .beginTag "xml".toList, 5), .ok (5, .beginTag ['a'], 7)] _ _ _
    (.cons rfl (.cons rfl .nil)) rfl
  obtain ⟨hlo, hhi⟩ := hspan 8 (.xmlAttrNameBare []) 8 rfl
  omega

end UrWeb.Parse
