import Mathlib.Data.Bool.AllAny
import UrWeb.Parse.UrsQuantifiersRead

/-!
# What bracketing quantifiers changes

`Bracketed s o`: the text `o` is `s` with brackets and blanks put around some
bare quantifiers. The pass returns such a text exactly where the source is
`Kept`: it pushes no byte of a character beyond ASCII on its own, finds a kind
after every double colon and the end of every kind, brackets no quantifier with
more than one blank beside its colons, and is not cut short inside a word or a
character.
-/

namespace UrWeb.Parse.Urs

open Insertion

/-- What the pass may add: brackets and blanks. -/
def isAdded (b : UInt8) : Bool := b = 0x5b || b = 0x5d || b = 0x20

def isBlank (b : UInt8) : Bool := b = 0x20

inductive Bracketed : Bytes → Bytes → Prop
  | nil : Bracketed [] []
  | keep : Bracketed s o → Bracketed (b :: s) (b :: o)
  | quantifier : BareQuantifier ident ws1 colons ws2 kind →
      Inserted isBlank (ident ++ ws1 ++ colons ++ ws2 ++ kind) q → Bracketed s o →
      Bracketed (ident ++ ws1 ++ colons ++ ws2 ++ kind ++ s) (0x5b :: (q ++ 0x5d :: o))

/-- The pass returns the text with brackets and blanks added around quantifiers. -/
def Restored (s : Bytes) : Prop := ∃ o, quantifierPass s = some o ∧ Bracketed s o

def isAscii (b : UInt8) : Bool := b < 0x80

def AtMostOneBlank (ws : Bytes) : Prop := ws = [] ∨ ws = [0x20]

def Piece.Kept : Piece → Prop
  | .raw bs => ∀ b ∈ bs, isAscii b
  | .slice _ => True
  | .noKind .. => False
  | .quantifier _ ws1 _ ws2 _ _ => AtMostOneBlank ws1 ∧ AtMostOneBlank ws2

def Ending.Kept : Ending → Prop
  | .complete _ => True
  | .early s => (∀ b ∈ s.pushed, isAscii b) ∧ s.pending = [] ∧ isCharBoundary s.rest

/-- A source in which the pass reads only what it writes back. -/
structure Kept (s : Bytes) : Prop where
  read : ∀ p ∈ (pieces s).1, p.Kept
  ending : (pieces s).2.Kept

-- ---------------------------------------------------------------------------
-- Bytes pushed as characters
-- ---------------------------------------------------------------------------

theorem asChar_ascii (h : isAscii b) : asChar b = [b] := by
  have hlt : b.toNat < 128 := UInt8.lt_iff_toNat_lt.mp (by simpa [isAscii] using h)
  have hval : (Char.ofUInt8 b).val ≤ 127 := by
    rw [UInt32.le_iff_toNat_le]
    change b.toUInt32.toNat ≤ 127
    rw [UInt8.toNat_toUInt32]
    omega
  rw [asChar, Utf8.encode_ascii _ hval]
  change [b.toUInt32.toUInt8] = [b]
  rw [UInt8.toUInt8_toUInt32]

/-- Beyond ASCII a byte is pushed as two, both beyond ASCII. -/
theorem asChar_high (h : ¬ isAscii b) :
    1 < (asChar b).length ∧ ∀ c ∈ asChar b, ¬ isAscii c := by
  have hge : 128 ≤ b.toNat :=
    Nat.le_of_not_lt fun hlt => h (by simpa [isAscii, UInt8.lt_iff_toNat_lt] using hlt)
  have hval : (Char.ofUInt8 b).toNat = b.toNat := UInt8.toNat_toUInt32 b
  constructor
  · have hsize : (Char.ofUInt8 b).utf8Size ≠ 1 := by
      rw [Ne, Char.utf8Size_eq_one_iff, UInt32.le_iff_toNat_le]
      change ¬ (Char.ofUInt8 b).toNat ≤ 127
      omega
    have hpos := Char.utf8Size_pos (Char.ofUInt8 b)
    rw [asChar, String.length_utf8EncodeChar]
    omega
  · intro c hc
    simpa [isAscii] using Utf8.high_bytes (by omega) c hc

/-- Bytes that are ASCII are counted alike. -/
theorem countP_asChar (hq : ∀ b, q b → isAscii b) (bs : Bytes) :
    (bs.flatMap asChar).countP q = bs.countP q := by
  induction bs with
  | nil => rfl
  | cons b bs ih =>
    rw [List.flatMap_cons, List.countP_append, ih, List.countP_cons, Nat.add_comm]
    by_cases hb : isAscii b
    · rw [asChar_ascii hb, List.countP_singleton]
    · rw [List.countP_eq_zero.mpr fun c hc hqc => (asChar_high hb).2 c hc (hq c hqc),
        if_neg fun hqb => hb (hq b hqb)]

def isHigh (b : UInt8) : Bool := !isAscii b

theorem countP_high_asChar (b : UInt8) :
    [b].countP isHigh ≤ (asChar b).countP isHigh ∧
      ([b].countP isHigh = (asChar b).countP isHigh → isAscii b) := by
  by_cases hb : isAscii b
  · rw [asChar_ascii hb]
    exact ⟨Nat.le_refl _, fun _ => hb⟩
  · obtain ⟨hlen, hall⟩ := asChar_high hb
    have hcount : (asChar b).countP isHigh = (asChar b).length :=
      List.countP_eq_length.mpr fun c hc => by simpa [isHigh] using hall c hc
    have hone : [b].countP isHigh = 1 := by simp [isHigh, hb]
    rw [hcount, hone]
    exact ⟨Nat.le_of_lt hlen, fun h => absurd h (Nat.ne_of_lt hlen)⟩

theorem high_le_asChar (bs : Bytes) : bs.countP isHigh ≤ (bs.flatMap asChar).countP isHigh := by
  have h := countP_flatMap_le (l := bs) (q := isHigh) (f := fun b => [b]) (g := asChar)
    fun b _ => (countP_high_asChar b).1
  rwa [List.flatMap_singleton'] at h

theorem ascii_of_asChar {bs : Bytes} (h : (bs.flatMap asChar).countP isHigh ≤ bs.countP isHigh) :
    ∀ b ∈ bs, isAscii b := by
  intro b hb
  refine (countP_high_asChar b).2 ?_
  refine countP_flatMap_eq (l := bs) (q := isHigh) (f := fun b => [b]) (g := asChar)
    (fun b _ => (countP_high_asChar b).1) ?_ b hb
  rwa [List.flatMap_singleton']

theorem asChar_of_ascii {bs : Bytes} (h : ∀ b ∈ bs, isAscii b) : bs.flatMap asChar = bs := by
  induction bs with
  | nil => rfl
  | cons b bs ih =>
    obtain ⟨hb, hbs⟩ := List.forall_mem_cons.mp h
    rw [List.flatMap_cons, ih hbs, asChar_ascii hb]
    rfl

-- ---------------------------------------------------------------------------
-- Kept sources are restored
-- ---------------------------------------------------------------------------

theorem Bracketed.append_same (s : Bytes) (h : Bracketed t o) : Bracketed (s ++ t) (s ++ o) := by
  induction s with
  | nil => exact h
  | cons b s ih => exact .keep ih

theorem AtMostOneBlank.inserted (h : AtMostOneBlank ws) : Inserted isBlank ws [0x20] := by
  obtain rfl | rfl := h
  · exact .insert rfl .nil
  · exact .refl _

theorem Piece.Kept.bracketed (h : Piece.Kept p) (hp : p.Formed) (ht : Bracketed t o) :
    Bracketed (p.taken ++ t) (p.put ++ o) := by
  cases p with
  | raw bs =>
    rw [Piece.put, asChar_of_ascii h]
    exact ht.append_same _
  | slice bs => exact ht.append_same _
  | noKind => exact h.elim
  | quantifier ident ws1 colons ws2 kind ws3 =>
    have hins : Inserted isBlank (ident ++ ws1 ++ colons ++ ws2 ++ kind)
        (ident ++ [0x20] ++ colons ++ [0x20] ++ kind) :=
      ((((Inserted.refl _).append h.1.inserted).append (.refl _)).append h.2.inserted).append
        (.refl _)
    have hq := Bracketed.quantifier hp hins (ht.append_same ws3)
    simpa [Piece.taken, Piece.put] using hq

theorem restored_of_kept (h : Kept s) : Restored s := by
  obtain ⟨htaken, hformed, hend⟩ := pieces_taken s
  have htail : ∃ o, (pieces s).2.put = some o ∧ Bracketed (pieces s).2.taken o := by
    have hending := h.ending
    cases hp : (pieces s).2 with
    | complete rest =>
      rw [hp] at hend
      obtain rfl : rest = [] := hend
      exact ⟨[], rfl, .nil⟩
    | early st =>
      rw [hp] at hending
      obtain ⟨hascii, hpending, hboundary⟩ := hending
      refine ⟨st.pushed ++ st.rest, ?_, ?_⟩
      · simp [Ending.put, hboundary, asChar_of_ascii hascii]
      · have hsame := Bracketed.nil.append_same (st.pushed ++ st.rest)
        simpa [Ending.taken, Stop.taken, hpending] using hsame
  obtain ⟨o, hput, hbracketed⟩ := htail
  refine ⟨(pieces s).1.flatMap Piece.put ++ o, by simp [quantifierPass, hput], ?_⟩
  have hall : ∀ ps : List Piece, (∀ p ∈ ps, p.Kept) → (∀ p ∈ ps, p.Formed) →
      Bracketed (ps.flatMap Piece.taken ++ (pieces s).2.taken) (ps.flatMap Piece.put ++ o) := by
    intro ps hkept hform
    induction ps with
    | nil => exact hbracketed
    | cons p ps ih =>
      obtain ⟨hk, hks⟩ := List.forall_mem_cons.mp hkept
      obtain ⟨hf, hfs⟩ := List.forall_mem_cons.mp hform
      rw [List.flatMap_cons, List.flatMap_cons, List.append_assoc, List.append_assoc]
      exact hk.bracketed hf (ih hks hfs)
  have hb := hall (pieces s).1 h.read hformed
  rwa [← htaken] at hb

-- ---------------------------------------------------------------------------
-- Restored sources are kept
-- ---------------------------------------------------------------------------

theorem Bracketed.inserted (h : Bracketed s o) : Inserted isAdded s o := by
  induction h with
  | nil => exact .nil
  | keep _ ih => exact .keep ih
  | quantifier _ hins _ ih =>
    have hq := hins.mono (q := isAdded) fun b hb => by
      simp only [isBlank, isAdded, decide_eq_true_eq, Bool.or_eq_true] at *
      exact Or.inr hb
    exact .insert rfl (hq.append (.insert rfl ih))

/-- The blanks beside the colons that a bracketed quantifier does without. -/
def Piece.dropped : Piece → Bytes
  | .quantifier _ ws1 _ ws2 _ _ => ws1 ++ ws2
  | _ => []

/-- The colons that are pushed twice. -/
def Piece.doubled : Piece → Bytes
  | .noKind _ _ colons _ => colons
  | _ => []

theorem countP_put (hq : ∀ b, q b → isAscii b) (hadded : ∀ b, isAdded b → q b = false)
    (p : Piece) :
    p.put.countP q + p.dropped.countP q = p.taken.countP q + p.doubled.countP q := by
  cases p with
  | raw bs => simp [Piece.put, Piece.taken, Piece.dropped, Piece.doubled, countP_asChar hq]
  | slice bs => rfl
  | noKind ident ws1 colons ws2 =>
    simp only [Piece.put, Piece.taken, Piece.dropped, Piece.doubled, List.countP_append,
      List.countP_nil]
    omega
  | quantifier ident ws1 colons ws2 kind ws3 =>
    have hno (b : UInt8) (hb : isAdded b) : [b].countP q = 0 := by
      simp [hadded b hb]
    simp only [Piece.put, Piece.taken, Piece.dropped, Piece.doubled, List.countP_append,
      hno 0x5b rfl, hno 0x20 rfl, hno 0x5d rfl, List.countP_nil]
    omega

theorem isWs_facts (h : isWs b) : idCont b = false ∧ isAscii b ∧ b ≠ 0x3a := by
  simp only [isWs, Bool.or_eq_true, decide_eq_true_eq] at h
  obtain ((rfl | rfl) | rfl) | rfl := h
  all_goals exact ⟨rfl, rfl, by decide⟩

theorem isAdded_facts (h : isAdded b) :
    idCont b = false ∧ isAscii b ∧ b ≠ 0x3a ∧ (isWs b && !isBlank b) = false := by
  simp only [isAdded, Bool.or_eq_true, decide_eq_true_eq] at h
  obtain (rfl | rfl) | rfl := h
  all_goals exact ⟨rfl, rfl, by decide, rfl⟩

theorem IsColons.facts (h : IsColons colons) :
    (∀ b ∈ colons, idCont b = false ∧ isAscii b) ∧ 0 < colons.countP (· = 0x3a) ∧
      (∃ rest, colons = 0x3a :: rest) ∧ ∃ front, colons = front ++ [0x3a] := by
  obtain rfl | rfl := h
  · exact ⟨List.all_iff_forall_prop.1 (by decide), by decide, ⟨_, rfl⟩, ascii ":", rfl⟩
  · exact ⟨List.all_iff_forall_prop.1 (by decide), by decide, ⟨_, rfl⟩, ascii "::", rfl⟩

theorem idCont_ascii (h : idCont b) : isAscii b := by
  simp only [idCont, isAsciiAlphabetic, isAsciiLowercase, isAscii, Bool.or_eq_true,
    Bool.and_eq_true, decide_eq_true_eq, ← UInt8.toNat_inj, UInt8.le_iff_toNat_le,
    UInt8.lt_iff_toNat_lt, UInt8.toNat_ofNat] at *
  omega

theorem Piece.Formed.dropped_ws (h : Piece.Formed p) : ∀ b ∈ p.dropped, isWs b := by
  cases p with
  | quantifier ident ws1 colons ws2 kind ws3 =>
    intro b hb
    obtain hb | hb := List.mem_append.mp hb
    · exact h.ws1 b hb
    · exact h.ws2 b hb
  | _ => nofun

theorem Piece.Formed.doubled_colons (h : Piece.Formed p) : p.doubled = [] ∨ IsColons p.doubled := by
  cases p with
  | noKind ident ws1 colons ws2 => exact Or.inr h
  | _ => exact Or.inl rfl

theorem Piece.Formed.idCont_put (h : Piece.Formed p) :
    p.put.countP idCont = p.taken.countP idCont := by
  have hput := countP_put (q := idCont) (fun b hb => idCont_ascii hb)
    (fun b hb => (isAdded_facts hb).1) p
  have hdropped : p.dropped.countP idCont = 0 :=
    List.countP_eq_zero.mpr fun b hb => by simp [(isWs_facts (h.dropped_ws b hb)).1]
  have hdoubled : p.doubled.countP idCont = 0 := by
    obtain hd | hd := h.doubled_colons
    · rw [hd]
      rfl
    · exact List.countP_eq_zero.mpr fun b hb => by simp [(hd.facts.1 b hb).1]
  omega

theorem Piece.Formed.high_put (h : Piece.Formed p) :
    p.taken.countP isHigh ≤ p.put.countP isHigh := by
  cases p with
  | raw bs => exact high_le_asChar bs
  | slice bs => exact Nat.le_refl _
  | noKind ident ws1 colons ws2 =>
    simp only [Piece.put, Piece.taken, List.countP_append]
    omega
  | quantifier ident ws1 colons ws2 kind ws3 =>
    have hws (ws : Bytes) (hws : ∀ b ∈ ws, isWs b) : ws.countP isHigh = 0 :=
      List.countP_eq_zero.mpr fun b hb => by simp [isHigh, (isWs_facts (hws b hb)).2.1]
    simp only [Piece.put, Piece.taken, List.countP_append, hws ws1 h.ws1, hws ws2 h.ws2]
    omega

theorem Piece.Formed.colons_put (h : Piece.Formed p) :
    p.taken.countP (· = 0x3a) ≤ p.put.countP (· = 0x3a) := by
  have hput := countP_put (q := (· = 0x3a)) (fun b hb => by simp_all [isAscii])
    (fun b hb => by simp [(isAdded_facts hb).2.2.1]) p
  have hdropped : p.dropped.countP (· = 0x3a) = 0 :=
    List.countP_eq_zero.mpr fun b hb => by simp [(isWs_facts (h.dropped_ws b hb)).2.2]
  omega

theorem Piece.Formed.ws_put (h : Piece.Formed p) :
    p.put.countP (fun b => isWs b && !isBlank b) ≤
      p.taken.countP fun b => isWs b && !isBlank b := by
  have hput := countP_put (q := fun b => isWs b && !isBlank b)
    (fun b hb => (isWs_facts (Bool.and_eq_true_iff.mp hb).1).2.1)
    (fun b hb => (isAdded_facts hb).2.2.2) p
  have hdoubled : p.doubled.countP (fun b => isWs b && !isBlank b) = 0 := by
    obtain hd | hd := h.doubled_colons
    · rw [hd]
      rfl
    · obtain hd | hd := hd
      · rw [hd]
        rfl
      · rw [hd]
        rfl
  omega

/-- An ending that loses no letter has all it read pushed, or nothing pending. -/
theorem Ending.letters_kept {tail : Bytes} (hf : Ending.Formed e) (hput : e.put = some tail)
    (hletters : tail.countP idCont = e.taken.countP idCont) :
    ∃ pushed rest, e.taken = pushed ++ rest ∧ tail = pushed.flatMap asChar ++ rest ∧
      ((∀ b ∈ pushed, isAscii b) → e.Kept) := by
  cases e with
  | complete rest =>
    obtain rfl : rest = [] := hf
    obtain rfl : [] = tail := Option.some.inj hput
    exact ⟨[], [], rfl, rfl, fun _ => trivial⟩
  | early s =>
    obtain ⟨hboundary, htail⟩ := Option.ite_none_right_eq_some.mp hput
    obtain rfl := Option.some.inj htail
    simp only [Ending.taken, Stop.taken, List.countP_append,
      countP_asChar fun b hb => idCont_ascii hb] at hletters
    have hnone : s.pending.countP idCont = 0 := by omega
    have hpending : s.pending = [] := by
      obtain ⟨-, hhead⟩ | hnil := hf
      · cases hp : s.pending with
        | nil => rfl
        | cons b bs =>
          rw [hp] at hnone hhead
          exact absurd (hhead b rfl) (List.countP_eq_zero.mp hnone b List.mem_cons_self)
      · exact hnil
    refine ⟨s.pushed, s.rest, by simp [Ending.taken, Stop.taken, hpending], rfl, fun hascii => ?_⟩
    exact ⟨hascii, hpending, hboundary⟩

/-- What counting leaves open: how many blanks stand beside the colons. -/
def Piece.Nearly : Piece → Prop
  | .raw bs => ∀ b ∈ bs, isAscii b
  | .slice _ => True
  | .noKind .. => False
  | .quantifier _ ws1 _ ws2 _ _ => ∀ b ∈ ws1 ++ ws2, isBlank b

theorem Piece.Nearly.fixed (h : Piece.Nearly p) :
    p.taken.countP (!isAdded ·) = p.put.countP (!isAdded ·) := by
  cases p with
  | raw bs =>
    rw [Piece.put, asChar_of_ascii h]
    rfl
  | slice bs => rfl
  | noKind => exact h.elim
  | quantifier ident ws1 colons ws2 kind ws3 =>
    have hws : (ws1 ++ ws2).countP (!isAdded ·) = 0 := by
      refine List.countP_eq_zero.mpr fun b hb => ?_
      obtain rfl : b = 0x20 := by simpa [isBlank] using h b hb
      decide
    have hno (b : UInt8) (hb : isAdded b) : [b].countP (!isAdded ·) = 0 := by simp [hb]
    simp only [List.countP_append] at hws
    simp only [Piece.put, Piece.taken, List.countP_append, hno 0x5b rfl, hno 0x20 rfl, hno 0x5d rfl]
    omega

theorem Piece.Formed.nearly (h : Piece.Formed p)
    (hhigh : p.taken.countP isHigh = p.put.countP isHigh)
    (hcolons : p.taken.countP (· = 0x3a) = p.put.countP (· = 0x3a))
    (hws : p.put.countP (fun b => isWs b && !isBlank b) =
      p.taken.countP fun b => isWs b && !isBlank b) : p.Nearly := by
  cases p with
  | raw bs => exact ascii_of_asChar (Nat.le_of_eq hhigh.symm)
  | slice bs => trivial
  | noKind ident ws1 colons ws2 =>
    have hpos := (IsColons.facts h).2.1
    simp only [Piece.put, Piece.taken, List.countP_append] at hcolons
    omega
  | quantifier ident ws1 colons ws2 kind ws3 =>
    have hcount := countP_put (q := fun b => isWs b && !isBlank b)
      (fun b hb => (isWs_facts (Bool.and_eq_true_iff.mp hb).1).2.1)
      (fun b hb => (isAdded_facts hb).2.2.2) (.quantifier ident ws1 colons ws2 kind ws3)
    have hzero : (ws1 ++ ws2).countP (fun b => isWs b && !isBlank b) = 0 := by
      simp only [Piece.dropped, Piece.doubled, List.countP_nil] at hcount
      omega
    intro b hb
    have hb' := List.countP_eq_zero.mp hzero b hb
    simpa [h.dropped_ws b hb] using hb'

theorem isBlank_one (hw : ∀ b ∈ ws, isBlank b) (h : Inserted isAdded ws [0x20]) :
    AtMostOneBlank ws := by
  have hlen := h.length_le
  cases ws with
  | nil => exact Or.inl rfl
  | cons b ws =>
    obtain rfl : ws = [] := List.eq_nil_of_length_eq_zero (by simpa using hlen)
    obtain rfl : b = 0x20 := by simpa [isBlank] using hw b List.mem_cons_self
    exact Or.inr rfl

theorem idCont_not_added (h : idCont b) : isAdded b = false := by
  by_contra hb
  have hno := (isAdded_facts (by simpa using hb)).1
  rw [h] at hno
  cases hno

theorem IsKindAtom.head (h : IsKindAtom kind) :
    ∃ k kind', kind = k :: kind' ∧ isAdded k = false := by
  obtain ⟨hne, hall⟩ | ⟨inside, rfl | rfl⟩ := h
  · obtain ⟨k, kind', rfl⟩ := List.exists_cons_of_ne_nil hne
    exact ⟨k, kind', rfl, idCont_not_added (hall k List.mem_cons_self)⟩
  · exact ⟨_, _, rfl, rfl⟩
  · exact ⟨_, _, rfl, rfl⟩

/-- Between the last byte of a name and the colons, and between the colons and the kind,
there is at most one blank for the one that the pass puts there. -/
theorem quantifier_blanks (hq : BareQuantifier ident ws1 colons ws2 kind)
    (hws : ∀ b ∈ ws1 ++ ws2, isBlank b) (hfix : s.countP (!isAdded ·) = o.countP (!isAdded ·))
    (h : Inserted isAdded (s ++ (ident ++ ws1 ++ colons ++ ws2 ++ kind ++ t))
      (o ++ ([0x5b] ++ ident ++ [0x20] ++ colons ++ [0x20] ++ kind ++ w))) :
    AtMostOneBlank ws1 ∧ AtMostOneBlank ws2 := by
  have hno (ws : Bytes) (hw : ∀ b ∈ ws, isBlank b) : ws.countP (!isAdded ·) = 0 := by
    refine List.countP_eq_zero.mpr fun b hb => ?_
    obtain rfl : b = 0x20 := by simpa [isBlank] using hw b hb
    decide
  have hw1 : ∀ b ∈ ws1, isBlank b := fun b hb => hws b (List.mem_append_left _ hb)
  have hw2 : ∀ b ∈ ws2, isBlank b := fun b hb => hws b (List.mem_append_right _ hb)
  obtain ⟨front, c, rfl⟩ := List.eq_nil_or_concat' ident |>.resolve_left hq.ident.1
  obtain ⟨-, -, ⟨back, hback⟩, head, hhead⟩ := hq.colons.facts
  obtain ⟨k, kind', rfl, hk⟩ := hq.kind.head
  have hbracket : [(0x5b : UInt8)].countP (!isAdded ·) = 0 := rfl
  have hblank : [(0x20 : UInt8)].countP (!isAdded ·) = 0 := rfl
  constructor
  · refine isBlank_one hw1 (Inserted.between (s := s ++ front) (a := c) (b := 0x3a)
      (t := back ++ ws2 ++ k :: kind' ++ t) (o := o ++ [0x5b] ++ front)
      (w := back ++ [0x20] ++ k :: kind' ++ w) ?_ ?_ rfl ?_ ?_)
    · rw [hback] at h
      simpa using h
    · exact idCont_not_added (hq.ident.2 c (List.mem_append_right _ List.mem_cons_self))
    · simp only [List.countP_append, hfix, hbracket, Nat.add_zero]
    · rw [hno ws1 hw1]
      rfl
  · refine isBlank_one hw2 (Inserted.between (s := s ++ front ++ [c] ++ ws1 ++ head) (a := 0x3a)
      (b := k) (t := kind' ++ t) (o := o ++ [0x5b] ++ front ++ [c] ++ [0x20] ++ head)
      (w := kind' ++ w) ?_ rfl hk ?_ ?_)
    · rw [hhead] at h
      simpa using h
    · simp only [List.countP_append, hfix, hbracket, hblank, hno ws1 hw1, Nat.add_zero]
    · rw [hno ws2 hw2]
      rfl

/-- The pass returns the text with brackets and blanks added around quantifiers exactly where
it reads nothing that it writes back otherwise. -/
theorem bracketed_iff (s : Bytes) : Restored s ↔ Kept s := by
  refine ⟨?_, restored_of_kept⟩
  rintro ⟨o, hpass, hb⟩
  obtain ⟨htaken, hformed, hend⟩ := pieces_taken s
  obtain ⟨tail, hput, rfl⟩ := Option.map_eq_some_iff.mp hpass
  have hcount (q : UInt8 → Bool) (hq : ∀ b, isAdded b → q b = false) :
      ((pieces s).1.flatMap Piece.put).countP q + tail.countP q =
        ((pieces s).1.flatMap Piece.taken).countP q + (pieces s).2.taken.countP q := by
    rw [← List.countP_append, ← List.countP_append, hb.inserted.countP hq, ← htaken]
  -- Letters: nothing read is left unpushed.
  have hletters := hcount idCont fun b hb => (isAdded_facts hb).1
  rw [countP_flatMap_congr fun p hp => (hformed p hp).idCont_put] at hletters
  obtain ⟨pushed, rest, htail, rfl, hkept⟩ :=
    Ending.letters_kept hend hput (Nat.add_left_cancel hletters)
  -- Bytes beyond ASCII: none is pushed on its own.
  have hhigh := hcount isHigh fun b hb => by simp [isHigh, (isAdded_facts hb).2.1]
  have hpieces := countP_flatMap_le fun p hp => (hformed p hp).high_put
  have hpushed := high_le_asChar pushed
  rw [htail, List.countP_append, List.countP_append] at hhigh
  have hascii : ∀ b ∈ pushed, isAscii b := ascii_of_asChar (by omega)
  have hhighs := countP_flatMap_eq (fun p hp => (hformed p hp).high_put) (by omega)
  rw [asChar_of_ascii hascii] at hcount hb
  have hparts (q : UInt8 → Bool) (hq : ∀ b, isAdded b → q b = false) :
      ((pieces s).1.flatMap Piece.put).countP q = ((pieces s).1.flatMap Piece.taken).countP q := by
    have h := hcount q hq
    rw [htail] at h
    exact Nat.add_right_cancel h
  -- Colons: none is pushed twice.
  have hcolons := countP_flatMap_eq (fun p hp => (hformed p hp).colons_put)
    (Nat.le_of_eq (hparts _ fun b hb => by simp [(isAdded_facts hb).2.2.1]))
  -- Tabs and line ends: none is dropped.
  have hws := countP_flatMap_eq (fun p hp => (hformed p hp).ws_put)
    (Nat.le_of_eq (hparts _ fun b hb => (isAdded_facts hb).2.2.2).symm)
  have hnearly : ∀ p ∈ (pieces s).1, p.Nearly := fun p hp =>
    (hformed p hp).nearly (hhighs p hp) (hcolons p hp) (hws p hp)
  refine ⟨fun p hp => ?_, hkept hascii⟩
  -- Blanks: the piece stands between the same letters and colons in both texts.
  obtain ⟨before, after, hsplit⟩ := List.append_of_mem hp
  have hfix : (before.flatMap Piece.taken).countP (!isAdded ·) =
      (before.flatMap Piece.put).countP (!isAdded ·) :=
    countP_flatMap_congr fun p' hp' =>
      (hnearly p' (hsplit ▸ List.mem_append_left _ hp')).fixed
  have hn := hnearly p hp
  have hf := hformed p hp
  cases p with
  | raw bs => exact hn
  | slice bs => trivial
  | noKind => exact hn.elim
  | quantifier ident ws1 colons ws2 kind ws3 =>
    refine quantifier_blanks (t := ws3 ++ after.flatMap Piece.taken ++ (pushed ++ rest))
      (w := 0x5d :: ws3 ++ after.flatMap Piece.put ++ (pushed ++ rest)) hf hn hfix ?_
    have hins := hb.inserted
    rw [hsplit] at hins
    rw [htail, hsplit] at htaken
    rw [htaken] at hins
    simpa [Piece.taken, Piece.put] using hins

-- ---------------------------------------------------------------------------
-- A letter beyond ASCII
-- ---------------------------------------------------------------------------

/-- A comment with the letter U+00E9, whose two bytes are pushed as two characters. -/
theorem not_restored_letter : ¬ Restored (Utf8.encode ['(', '*', '\u00e9', '*', ')']) := by
  rintro ⟨o, hpass, hb⟩
  have hbytes : Utf8.encode ['(', '*', '\u00e9', '*', ')'] =
      [0x28, 0x2a, 0xc3, 0xa9, 0x2a, 0x29] := by decide
  have hout : quantifierPass [0x28, 0x2a, 0xc3, 0xa9, 0x2a, 0x29] =
      some [0x28, 0x2a, 0xc3, 0x83, 0xc2, 0xa9, 0x2a, 0x29] := by decide +kernel
  rw [hbytes] at hpass hb
  obtain rfl := Option.some.inj (hout.symm.trans hpass)
  have hcount := hb.inserted.countP (q := isHigh) fun b hb => by
    simp [isHigh, (isAdded_facts hb).2.1]
  exact absurd hcount (by decide)

end UrWeb.Parse.Urs
