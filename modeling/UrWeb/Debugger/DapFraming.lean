import Mathlib.Algebra.Group.Int.Defs
import Mathlib.Algebra.Group.Nat.Defs
import Mathlib.Algebra.GroupWithZero.Nat
import Mathlib.Data.Bool.AllAny
import UrWeb.Lib.Utf8
import UrWeb.Lib.Text

/-!
# Message framing

A message of the debug adapter protocol is a block of header lines, a blank line
and a body of the length the header gives. The reader takes the bytes that are
left of its stream and returns those it leaves.
-/

namespace UrWeb.Debugger

def maxHeaderLines : Nat := 64
def maxBodyBytes : Nat := 64 * 1024 * 1024
def maxHeaderLineBytes : Nat := 4096
def stackBodyMax : Nat := 8192

inductive ErrorKind
  | invalidData
  | unexpectedEof

inductive FramingError
  | notUtf8
  | headerLineTooLong
  | tooManyHeaderLines
  | invalidContentLength
  | budgetExhausted
  | missingContentLength
  | bodyTooLarge
  | bodyCut
  | invalidJson (e : String)

def FramingError.kind : FramingError → ErrorKind
  | .bodyCut => .unexpectedEof
  | _ => .invalidData

def FramingError.message : FramingError → String
  | .notUtf8 => "stream did not contain valid UTF-8"
  | .headerLineTooLong => "DAP framing: header line exceeds maximum length"
  | .tooManyHeaderLines => "DAP framing: too many header lines before blank line"
  | .invalidContentLength => "invalid Content-Length"
  | .budgetExhausted => "DAP framing: header scan budget exhausted before blank line"
  | .missingContentLength => "missing Content-Length"
  | .bodyTooLarge => "DAP framing: Content-Length exceeds maximum allowed body size"
  | .bodyCut => "failed to fill whole buffer"
  | .invalidJson e => "invalid JSON: " ++ e

/-- The JSON library: a text for every value, and a value or an error's text for every body. -/
structure Json (Value : Type) where
  toVec : Value → List UInt8
  fromSlice : List UInt8 → Except String Value

/-- What the framing relies on. -/
structure Json.Lawful (j : Json Value) : Prop where
  fromSlice_toVec : ∀ v, j.fromSlice (j.toVec v) = .ok v
  fromSlice_empty : ∃ e, j.fromSlice [] = .error e

/-- `read_line`: the bytes up to and including the next newline, or all that are left. -/
def readLine : List UInt8 → List UInt8 × List UInt8
  | [] => ([], [])
  | b :: bs =>
    if b = '\n'.toUInt8 then ([b], bs) else (b :: (readLine bs).1, (readLine bs).2)

/-- `str::parse::<usize>`. -/
def parseUsize (s : List Char) : Option Nat :=
  let digits := if s.head? = some '+' then s.tail else s
  if digits.isEmpty || !digits.all Char.isDigit then none
  else
    let n := Nat.ofDigitChars 10 digits 0
    if n < 2 ^ 64 then some n else none

def contentLength : List Char := "Content-Length:".toList

/-- A header line without its end. -/
def headerText (line : List Char) : List Char :=
  Text.trimEndMatches (fun c => c = '\r' || c = '\n') line

/-- What a round of the header scan does with the line it has read. -/
inductive Round
  | fail (e : FramingError)
  | eof
  | blank
  | header (len : Option Nat)

def headerRound (markers : Nat) (len : Option Nat) (raw : List UInt8) : Round :=
  match Utf8.decode raw with
  | none => .fail .notUtf8
  | some line =>
    if raw.isEmpty then .eof
    else if maxHeaderLineBytes < raw.length then .fail .headerLineTooLong
    else
      let h := headerText line
      if h.isEmpty then .blank
      else if maxHeaderLines ≤ markers then .fail .tooManyHeaderLines
      else match Text.stripPrefix contentLength h with
        | none => .header len
        | some rest => match parseUsize (Text.trim rest) with
          | none => .fail .invalidContentLength
          | some n => .header (some n)

/-- The header scan: `none` at the end of the stream, else the length it has seen and the bytes
after the blank line. -/
def scanHeaders : Nat → Nat → Option Nat → List UInt8 →
    Except FramingError (Option (Option Nat × List UInt8))
  | 0, _, _, _ => .error .budgetExhausted
  | rounds + 1, markers, len, bs =>
    match headerRound markers len (readLine bs).1 with
    | .fail e => .error e
    | .eof => .ok none
    | .blank => .ok (some (len, (readLine bs).2))
    | .header len' => scanHeaders rounds (markers + 1) len' (readLine bs).2

/-- `read_exact` of a body, then its value. The stack and the heap buffer hold the same bytes. -/
def readBody (j : Json Value) (n : Nat) (bs : List UInt8) :
    Except FramingError (Option (Value × List UInt8)) :=
  if bs.length < n then .error .bodyCut
  else match j.fromSlice (bs.take n) with
    | .error e => .error (.invalidJson e)
    | .ok v => .ok (some (v, bs.drop n))

/-- One message and the bytes after it, or `none` at the end of the stream. -/
def readDapMessage (j : Json Value) (bs : List UInt8) :
    Except FramingError (Option (Value × List UInt8)) :=
  match scanHeaders (maxHeaderLines + 2) 0 none bs with
  | .error e => .error e
  | .ok none => .ok none
  | .ok (some (none, _)) => .error .missingContentLength
  | .ok (some (some n, rest)) =>
    if maxBodyBytes < n then .error .bodyTooLarge
    else if n ≤ stackBodyMax then readBody j n rest
    else readBody j n rest

def writeDapMessage (j : Json Value) (msg : Value) : List UInt8 :=
  let body := j.toVec msg
  Utf8.encode ("Content-Length: ".toList ++ Nat.toDigits 10 body.length ++ "\r\n\r\n".toList) ++ body

/-- Reading a stream to its end gives these messages. -/
inductive Reads (j : Json Value) : List UInt8 → List Value → Prop
  | done : readDapMessage j bs = .ok none → Reads j bs []
  | next : readDapMessage j bs = .ok (some (v, rest)) → Reads j rest vs → Reads j bs (v :: vs)

-- ---------------------------------------------------------------------------
-- Lines
-- ---------------------------------------------------------------------------

theorem readLine_of_newline (h : '\n'.toUInt8 ∉ l) (rest : List UInt8) :
    readLine (l ++ '\n'.toUInt8 :: rest) = (l ++ ['\n'.toUInt8], rest) := by
  induction l with
  | nil => simp [readLine]
  | cons b l ih =>
    obtain ⟨hb, hl⟩ := not_or.1 (mt List.mem_cons.2 h)
    simp [readLine, Ne.symm hb, ih hl]

theorem readLine_of_end (h : '\n'.toUInt8 ∉ l) : readLine l = (l, []) := by
  induction l with
  | nil => rfl
  | cons b l ih =>
    obtain ⟨hb, hl⟩ := not_or.1 (mt List.mem_cons.2 h)
    simp [readLine, Ne.symm hb, ih hl]

/-- A stream is a complete line and what follows, or has no more line ends. -/
theorem line_cases (bs : List UInt8) :
    (∃ l rest, bs = l ++ '\n'.toUInt8 :: rest ∧ '\n'.toUInt8 ∉ l) ∨ '\n'.toUInt8 ∉ bs := by
  by_cases h : '\n'.toUInt8 ∈ bs
  · exact .inl (List.eq_append_cons_of_mem h)
  · exact .inr h

/-- The lines of a stream, each with its end where it has one. -/
def linesOf : List UInt8 → List (List UInt8)
  | [] => []
  | b :: bs =>
    if b = '\n'.toUInt8 then [b] :: linesOf bs
    else match linesOf bs with
      | [] => [[b]]
      | l :: ls => (b :: l) :: ls

theorem linesOf_eq (h : bs ≠ []) : linesOf bs = (readLine bs).1 :: linesOf (readLine bs).2 := by
  induction bs with
  | nil => exact absurd rfl h
  | cons b bs ih =>
    by_cases hb : b = '\n'.toUInt8
    · simp [linesOf, readLine, hb]
    · cases bs with
      | nil => simp [linesOf, readLine, hb]
      | cons c bs =>
        have hline : readLine (b :: c :: bs) =
            (b :: (readLine (c :: bs)).1, (readLine (c :: bs)).2) := if_neg hb
        rw [linesOf, if_neg hb, ih (List.cons_ne_nil _ _), hline]

theorem readLine_ne_nil (h : bs ≠ []) : (readLine bs).1 ≠ [] := by
  cases bs with
  | nil => exact absurd rfl h
  | cons b bs =>
    rw [readLine]
    split <;> exact List.cons_ne_nil _ _

/-- A line the header scan goes past. -/
def headerLine (raw : List UInt8) : Bool :=
  match Utf8.decode raw with
  | none => false
  | some line =>
    raw.length ≤ maxHeaderLineBytes && !(headerText line).isEmpty &&
      match Text.stripPrefix contentLength (headerText line) with
      | none => true
      | some value => (parseUsize (Text.trim value)).isSome

/-- The stream ends inside the header of a message: it is one header line or more, the last
perhaps cut, and no blank line. -/
def headerOnly (bs : List UInt8) : Bool :=
  !bs.isEmpty && (linesOf bs).length ≤ maxHeaderLines && (linesOf bs).all headerLine

/-- A round goes past exactly the header lines, and past no more than it may. -/
theorem headerRound_cases (h : raw ≠ []) (m : Nat) (len : Option Nat) :
    (headerLine raw ∧ m < maxHeaderLines ∧ ∃ len', headerRound m len raw = .header len') ∨
    ((¬ headerLine raw ∨ maxHeaderLines ≤ m) ∧
      (headerRound m len raw = .blank ∨ ∃ e, headerRound m len raw = .fail e)) := by
  have hraw : raw.isEmpty = false := by simpa using h
  simp only [headerRound, headerLine, hraw]
  cases hd : Utf8.decode raw with
  | none => exact .inr ⟨.inl (by simp), .inr ⟨_, rfl⟩⟩
  | some line =>
    by_cases hlong : maxHeaderLineBytes < raw.length
    · exact .inr ⟨.inl (by simp [Nat.not_le.2 hlong]), .inr ⟨.headerLineTooLong, by simp [hlong]⟩⟩
    have hshort : raw.length ≤ maxHeaderLineBytes := Nat.le_of_not_lt hlong
    by_cases hblank : (headerText line).isEmpty
    · exact .inr ⟨.inl (by simp [hblank]), .inl (by simp [hlong, hblank])⟩
    by_cases hm : maxHeaderLines ≤ m
    · exact .inr ⟨.inr hm, .inr ⟨.tooManyHeaderLines, by simp [hlong, hblank, hm]⟩⟩
    have hlt : m < maxHeaderLines := Nat.lt_of_not_le hm
    cases hp : Text.stripPrefix contentLength (headerText line) with
    | none => exact .inl ⟨by simp [hblank, hshort, hp], hlt, len, by simp [hlong, hblank, hm, hp]⟩
    | some rest =>
      cases hn : parseUsize (Text.trim rest) with
      | none =>
        exact .inr ⟨.inl (by simp [hp, hn]),
          .inr ⟨.invalidContentLength, by simp [hlong, hblank, hm, hp, hn]⟩⟩
      | some n =>
        exact .inl ⟨by simp [hblank, hshort, hp, hn], hlt, some n,
          by simp [hlong, hblank, hm, hp, hn]⟩

theorem headerRound_nil (m : Nat) (len : Option Nat) : headerRound m len [] = .eof := by
  have hd : Utf8.decode [] = some [] := Utf8.decode_encode []
  simp [headerRound, hd]

theorem scanHeaders_eof_iff (hrm : m + r = maxHeaderLines + 2) (hm : m ≤ maxHeaderLines) :
    scanHeaders r m len bs = .ok none ↔
      (linesOf bs).all headerLine ∧ m + (linesOf bs).length ≤ maxHeaderLines := by
  induction r generalizing m len bs with
  | zero => omega
  | succ r ih =>
    by_cases hbs : bs = []
    · subst hbs
      simp [scanHeaders, readLine, headerRound_nil, linesOf, hm]
    · rw [linesOf_eq hbs, List.all_cons, List.length_cons, Bool.and_eq_true]
      obtain ⟨hl, hlt, len', hs⟩ | ⟨hno, hstop⟩ := headerRound_cases (readLine_ne_nil hbs) m len
      · rw [scanHeaders, hs, ih (by omega) hlt]
        constructor
        · exact fun ⟨ha, hc⟩ => ⟨⟨hl, ha⟩, by omega⟩
        · exact fun ⟨⟨_, ha⟩, hc⟩ => ⟨ha, by omega⟩
      · have hne : scanHeaders (r + 1) m len bs ≠ .ok none := by
          obtain hs | ⟨e, hs⟩ := hstop <;> simp [scanHeaders, hs]
        refine ⟨fun h => absurd h hne, fun ⟨⟨hl, _⟩, hc⟩ => ?_⟩
        obtain hno | hno := hno
        · exact absurd hl hno
        · omega

theorem readBody_ne_none (j : Json Value) (n : Nat) (bs : List UInt8) :
    readBody j n bs ≠ .ok none := by
  rw [readBody]
  split
  · simp
  · split <;> simp

theorem readBody_cases (h : readBody j n bs = .ok (some (v, rest))) :
    n ≤ bs.length ∧ j.fromSlice (bs.take n) = .ok v ∧ rest = bs.drop n := by
  rw [readBody] at h
  by_cases hn : bs.length < n
  · simp [hn] at h
  · rw [if_neg hn] at h
    cases hv : j.fromSlice (bs.take n) with
    | error e => simp [hv] at h
    | ok w =>
      simp only [hv, Except.ok.injEq, Option.some.injEq, Prod.mk.injEq] at h
      exact ⟨Nat.le_of_not_lt hn, by rw [h.1], h.2.symm⟩

/-- The reader reports a clean end exactly when the header scan met the end of the stream. -/
theorem readDapMessage_none_iff (j : Json Value) (bs : List UInt8) :
    readDapMessage j bs = .ok none ↔ bs = [] ∨ headerOnly bs := by
  have hscan : readDapMessage j bs = .ok none ↔
      scanHeaders (maxHeaderLines + 2) 0 none bs = .ok none := by
    rw [readDapMessage]
    cases scanHeaders (maxHeaderLines + 2) 0 none bs with
    | error e => simp
    | ok got =>
      obtain _ | ⟨_ | n, rest⟩ := got
      · simp
      · simp
      · simp only [Except.ok.injEq, reduceCtorEq, iff_false]
        split
        · simp
        · split <;> exact readBody_ne_none _ _ _
  rw [hscan, scanHeaders_eof_iff (by omega) (by omega), headerOnly]
  cases bs with
  | nil => simp [linesOf, maxHeaderLines]
  | cons b bs => simp [and_comm]

-- ---------------------------------------------------------------------------
-- Whole messages
-- ---------------------------------------------------------------------------

/-- A header that is complete stays what it is when more bytes arrive. -/
theorem scanHeaders_append (h : scanHeaders r m len bs = .ok (some (len', rest)))
    (hrest : rest ≠ []) (ext : List UInt8) :
    scanHeaders r m len (bs ++ ext) = .ok (some (len', rest ++ ext)) := by
  induction r generalizing m len bs with
  | zero => cases h
  | succ r ih =>
    obtain ⟨l, tail, rfl, hl⟩ | hno := line_cases bs
    · have hext : readLine (l ++ '\n'.toUInt8 :: tail ++ ext) =
          (l ++ ['\n'.toUInt8], tail ++ ext) := by
        rw [List.append_assoc, List.cons_append, readLine_of_newline hl]
      rw [scanHeaders, readLine_of_newline hl] at h
      rw [scanHeaders, hext]
      cases hround : headerRound m len (l ++ ['\n'.toUInt8]) with
      | fail e => simp [hround] at h
      | eof => simp [hround] at h
      | blank =>
        simp only [hround, Except.ok.injEq, Option.some.injEq, Prod.mk.injEq] at h ⊢
        exact ⟨h.1, h.2 ▸ rfl⟩
      | header len'' =>
        simp only [hround] at h ⊢
        exact ih h
    · -- The stream ends in this line, so nothing is left for a body.
      rw [scanHeaders, readLine_of_end hno] at h
      cases hround : headerRound m len bs with
      | fail e => simp [hround] at h
      | eof => simp [hround] at h
      | blank =>
        simp only [hround, Except.ok.injEq, Option.some.injEq, Prod.mk.injEq] at h
        exact absurd h.2.symm hrest
      | header len'' =>
        simp only [hround] at h
        cases r <;> simp [scanHeaders, readLine, headerRound_nil] at h

theorem parseUsize_toDigits (h : n < 2 ^ 64) : parseUsize (Nat.toDigits 10 n) = some n := by
  have hdigits : ∀ c ∈ Nat.toDigits 10 n, c.isDigit := fun c hc =>
    Nat.isDigit_of_mem_toDigits (by decide) (by decide) hc
  have hval : Nat.ofDigitChars 10 (Nat.toDigits 10 n) 0 = n := Nat.ofDigitChars_ten_toDigits
  have hplus : (Nat.toDigits 10 n).head? ≠ some '+' := fun hd =>
    absurd (hdigits '+' (List.mem_of_head? hd)) (by decide)
  have hok : ((Nat.toDigits 10 n).isEmpty || !(Nat.toDigits 10 n).all Char.isDigit) = false := by
    simpa [List.isEmpty_iff, Nat.toDigits_ne_nil] using hdigits
  simpa [parseUsize, hplus, hok, hval] using h

theorem digits_kept (n : Nat) (p : Char → Bool) (hp : ∀ c, c.isDigit → p c = false) (s : List Char) :
    Text.trimEndMatches p (s ++ Nat.toDigits 10 n) = s ++ Nat.toDigits 10 n := by
  obtain ⟨l, c, hl⟩ : ∃ l c, Nat.toDigits 10 n = l ++ [c] :=
    ⟨_, _, (List.dropLast_concat_getLast Nat.toDigits_ne_nil).symm⟩
  have hc : c.isDigit :=
    Nat.isDigit_of_mem_toDigits (by decide) (by decide) (hl ▸ List.mem_concat_self)
  rw [hl, ← List.append_assoc]
  exact Text.trimEndMatches_concat (hp c hc)

/-- The header line a message is written with, without its end. -/
def lengthLine (n : Nat) : List Char := "Content-Length: ".toList ++ Nat.toDigits 10 n

theorem isDigit_range {c : Char} (h : c.isDigit) : 48 ≤ c.toNat ∧ c.toNat ≤ 57 := by
  simpa [Char.isDigit, UInt32.le_iff_toNat_le] using h

theorem ascii_lengthLine (n : Nat) : ∀ c ∈ lengthLine n, c.val ≤ 127 := by
  have hword : ∀ c ∈ "Content-Length: ".toList, c.val ≤ 127 :=
    List.all_iff_forall_prop.1 (by decide)
  intro c hc
  obtain hc | hc := List.mem_append.1 hc
  · exact hword c hc
  · have hrange := isDigit_range (Nat.isDigit_of_mem_toDigits (by decide) (by decide) hc)
    exact UInt32.le_iff_toNat_le.2 (le_trans hrange.2 (by decide))

theorem length_lengthLine (h : n ≤ maxBodyBytes) : (lengthLine n).length ≤ 24 := by
  have hn : n < 10 ^ 8 := by
    unfold maxBodyBytes at h
    omega
  have hlen : (Nat.toDigits 10 n).length ≤ 8 :=
    (Nat.length_toDigits_le_iff (by decide) (by decide)).2 hn
  have hsum : ∀ d : List Char, ("Content-Length: ".toList ++ d).length = 16 + d.length := fun d => by
    rw [List.length_append]
    rfl
  exact le_of_eq_of_le (hsum _) (Nat.add_le_add_left hlen 16)

theorem headerText_lengthLine (n : Nat) : headerText (lengthLine n ++ ['\r', '\n']) = lengthLine n := by
  rw [headerText, Text.trimEndMatches_append (List.all_iff_forall_prop.1 (by decide))]
  refine digits_kept n _ (fun c hc => ?_) _
  have hcr : c ≠ '\r' := by rintro rfl; exact absurd hc (by decide)
  have hnl : c ≠ '\n' := by rintro rfl; exact absurd hc (by decide)
  simp [hcr, hnl]

theorem trim_digits (n : Nat) : Text.trim (' ' :: Nat.toDigits 10 n) = Nat.toDigits 10 n := by
  have hdigit : ∀ c : Char, c.isDigit → Text.isWhitespace c = false := by
    intro c hc
    have hrange := isDigit_range hc
    simp only [Text.isWhitespace, decide_eq_false_iff_not]
    omega
  have hstart : (' ' :: Nat.toDigits 10 n).dropWhile Text.isWhitespace = Nat.toDigits 10 n := by
    obtain ⟨c, l, hl⟩ := List.exists_cons_of_ne_nil (Nat.toDigits_ne_nil (n := n) (b := 10))
    have hc : c.isDigit :=
      Nat.isDigit_of_mem_toDigits (by decide) (by decide) (hl ▸ List.mem_cons_self ..)
    have hspace : Text.isWhitespace ' ' = true := by decide
    rw [hl, List.dropWhile_cons_of_pos hspace, List.dropWhile_cons_of_neg (by simp [hdigit c hc])]
  rw [Text.trim, hstart]
  exact digits_kept n _ hdigit []

theorem headerRound_lengthLine (h : n ≤ maxBodyBytes) (len : Option Nat) :
    headerRound 0 len (Utf8.encode (lengthLine n ++ ['\r', '\n'])) = .header (some n) := by
  have hend : ∀ c ∈ ['\r', '\n'], c.val ≤ 127 := List.all_iff_forall_prop.1 (by decide)
  have hascii : ∀ c ∈ lengthLine n ++ ['\r', '\n'], c.val ≤ 127 :=
    List.forall_mem_append.2 ⟨ascii_lengthLine n, hend⟩
  have hlen : (Utf8.encode (lengthLine n ++ ['\r', '\n'])).length ≤ maxHeaderLineBytes := by
    have hline : (lengthLine n ++ ['\r', '\n']).length = (lengthLine n).length + 2 :=
      List.length_append ..
    calc (Utf8.encode (lengthLine n ++ ['\r', '\n'])).length
        = (lengthLine n).length + 2 := by
          rw [Utf8.encode_of_ascii hascii, List.length_map, hline]
      _ ≤ 24 + 2 := Nat.add_le_add_right (length_lengthLine h) 2
      _ ≤ maxHeaderLineBytes := by decide
  have hne : (Utf8.encode (lengthLine n ++ ['\r', '\n'])).isEmpty = false := by
    simpa using Utf8.encode_ne_nil (t := lengthLine n ++ ['\r', '\n']) (by simp)
  have hpre : Text.stripPrefix contentLength (lengthLine n) = some (' ' :: Nat.toDigits 10 n) := by
    have hsplit : ∀ d : List Char, "Content-Length: ".toList ++ d = contentLength ++ ' ' :: d :=
      fun _ => rfl
    exact (congrArg _ (hsplit _)).trans (Text.stripPrefix_append contentLength _)
  have hblank : (lengthLine n).isEmpty = false := by
    have hword : ∀ d : List Char, ("Content-Length: ".toList ++ d).isEmpty = false := fun _ => rfl
    exact hword _
  have hparse : parseUsize (Nat.toDigits 10 n) = some n :=
    parseUsize_toDigits (lt_of_le_of_lt h (by unfold maxBodyBytes; decide))
  simp [headerRound, hne, Nat.not_lt.2 hlen, headerText_lengthLine, hblank, hpre, trim_digits,
    hparse, maxHeaderLines]

theorem headerRound_blank (m : Nat) (len : Option Nat) :
    headerRound m len ['\r'.toUInt8, '\n'.toUInt8] = .blank := by
  have hbytes : ['\r'.toUInt8, '\n'.toUInt8] = Utf8.encode ['\r', '\n'] :=
    (Utf8.encode_of_ascii (t := ['\r', '\n']) (List.all_iff_forall_prop.1 (by decide))).symm
  have hd : Utf8.decode ['\r'.toUInt8, '\n'.toUInt8] = some ['\r', '\n'] := by
    rw [hbytes, Utf8.decode_encode]
  have htext : headerText ['\r', '\n'] = [] := by decide
  simp [headerRound, hd, htext, maxHeaderLineBytes]

theorem not_newline_lengthLine (n : Nat) :
    ∀ c ∈ lengthLine n ++ ['\r'], c.toUInt8 ≠ '\n'.toUInt8 := by
  have hword : ∀ c ∈ "Content-Length: ".toList, c.toUInt8 ≠ '\n'.toUInt8 :=
    List.all_iff_forall_prop.1 (by decide)
  have hcr : ∀ c ∈ ['\r'], c.toUInt8 ≠ '\n'.toUInt8 := List.all_iff_forall_prop.1 (by decide)
  refine List.forall_mem_append.2 ⟨List.forall_mem_append.2 ⟨hword, fun c hc heq => ?_⟩, hcr⟩
  have hrange := isDigit_range (Nat.isDigit_of_mem_toDigits (by decide) (by decide) hc)
  have hmod : c.toNat % 256 = 10 := congrArg UInt8.toNat heq
  omega

/-- The bytes of a message, line by line. -/
theorem writeDapMessage_eq (j : Json Value) (v : Value) :
    writeDapMessage j v = Utf8.encode (lengthLine (j.toVec v).length ++ ['\r']) ++
      '\n'.toUInt8 :: '\r'.toUInt8 :: '\n'.toUInt8 :: j.toVec v := by
  have htail : Utf8.encode ['\n', '\r', '\n'] = ['\n'.toUInt8, '\r'.toUInt8, '\n'.toUInt8] :=
    Utf8.encode_of_ascii (t := ['\n', '\r', '\n']) (List.all_iff_forall_prop.1 (by decide))
  have hsplit : ∀ l : List Char, l ++ "\r\n\r\n".toList = l ++ ['\r'] ++ ['\n', '\r', '\n'] :=
    fun l => (List.append_assoc l ['\r'] _).symm
  rw [writeDapMessage, hsplit, Utf8.encode_append, htail, List.append_assoc]
  rfl

theorem newline_not_mem_header (n : Nat) :
    '\n'.toUInt8 ∉ Utf8.encode (lengthLine n ++ ['\r']) := by
  have hcr : ∀ c ∈ ['\r'], c.val ≤ 127 := List.all_iff_forall_prop.1 (by decide)
  rw [Utf8.encode_of_ascii (List.forall_mem_append.2 ⟨ascii_lengthLine n, hcr⟩)]
  intro h
  obtain ⟨c, hc, heq⟩ := List.mem_map.1 h
  exact not_newline_lengthLine n c hc heq

/-- A message that was written is read, up to its last byte. -/
theorem readDapMessage_writeDapMessage (hj : j.Lawful) (hmax : (j.toVec v).length ≤ maxBodyBytes)
    (s : List UInt8) : readDapMessage j (writeDapMessage j v ++ s) = .ok (some (v, s)) := by
  have hnl := newline_not_mem_header (j.toVec v).length
  have hraw : Utf8.encode (lengthLine (j.toVec v).length ++ ['\r']) ++ ['\n'.toUInt8] =
      Utf8.encode (lengthLine (j.toVec v).length ++ ['\r', '\n']) := by
    have hend : Utf8.encode ['\n'] = ['\n'.toUInt8] :=
      Utf8.encode_of_ascii (t := ['\n']) (List.all_iff_forall_prop.1 (by decide))
    rw [← hend, ← Utf8.encode_append, List.append_assoc]
    rfl
  have hblank : readLine ('\r'.toUInt8 :: '\n'.toUInt8 :: (j.toVec v ++ s)) =
      (['\r'.toUInt8, '\n'.toUInt8], j.toVec v ++ s) :=
    readLine_of_newline (l := ['\r'.toUInt8]) (by decide) _
  have hscan : scanHeaders (64 + 1 + 1) 0 none (writeDapMessage j v ++ s) =
      .ok (some (some (j.toVec v).length, j.toVec v ++ s)) := by
    rw [writeDapMessage_eq, List.append_assoc, scanHeaders]
    simp only [List.cons_append]
    rw [readLine_of_newline hnl, hraw, headerRound_lengthLine hmax]
    simp only [scanHeaders, hblank, headerRound_blank]
  have hbody : readBody j (j.toVec v).length (j.toVec v ++ s) = .ok (some (v, s)) := by
    simp [readBody, hj.fromSlice_toVec]
  rw [readDapMessage, show maxHeaderLines + 2 = 64 + 1 + 1 from rfl, hscan]
  simp only [Nat.not_lt.2 hmax, if_false, hbody, ite_self]

theorem reads_written {j : Json Value} (hj : j.Lawful) (hmax : ∀ v ∈ msgs, (j.toVec v).length ≤ maxBodyBytes) :
    Reads j (msgs.flatMap (writeDapMessage j)) msgs := by
  induction msgs with
  | nil => exact .done ((readDapMessage_none_iff j []).2 (.inl rfl))
  | cons v msgs ih =>
    obtain ⟨hv, hmsgs⟩ := List.forall_mem_cons.1 hmax
    exact .next (readDapMessage_writeDapMessage hj hv _) (ih hmsgs)

/-- A message is found only where it is there as a whole. -/
theorem readDapMessage_append (hj : j.Lawful) (h : readDapMessage j bs = .ok (some (v, rest)))
    (ext : List UInt8) : readDapMessage j (bs ++ ext) = .ok (some (v, rest ++ ext)) := by
  rw [readDapMessage] at h
  cases hscan : scanHeaders (maxHeaderLines + 2) 0 none bs with
  | error e => simp [hscan] at h
  | ok got =>
    obtain _ | ⟨_ | n, body⟩ := got
    · simp [hscan] at h
    · simp [hscan] at h
    · simp only [hscan, ite_self] at h
      by_cases hbig : maxBodyBytes < n
      · simp [hbig] at h
      · rw [if_neg hbig] at h
        obtain ⟨hn, hv, rfl⟩ := readBody_cases h
        have hbody : body ≠ [] := by
          rintro rfl
          obtain ⟨e, he⟩ := hj.fromSlice_empty
          rw [List.take_nil, he] at hv
          cases hv
        rw [readDapMessage, scanHeaders_append hscan hbody ext]
        simp only [ite_self, if_neg hbig]
        have hlen : ¬ (body ++ ext).length < n := by
          rw [List.length_append]
          omega
        rw [readBody, if_neg hlen, List.take_append_of_le_length hn, hv,
          List.drop_append_of_le_length hn]

/-- The bytes of a message are not all there. -/
def CutMessage (j : Json Value) (bs : List UInt8) : Prop :=
  ∃ v missing, (j.toVec v).length ≤ maxBodyBytes ∧ bs ≠ [] ∧ missing ≠ [] ∧
    writeDapMessage j v = bs ++ missing

theorem cut_not_read (hj : j.Lawful) (hcut : CutMessage j bs) :
    readDapMessage j bs ≠ .ok (some (v, rest)) := by
  obtain ⟨w, missing, hmax, -, hne, hw⟩ := hcut
  intro h
  have hlong := readDapMessage_append hj h missing
  rw [← hw, ← List.append_nil (writeDapMessage j w), readDapMessage_writeDapMessage hj hmax] at hlong
  have hrest : [] = rest ++ missing := congrArg Prod.snd (Option.some.inj (Except.ok.inj hlong))
  exact hne (List.append_eq_nil_iff.1 hrest.symm).2

/-- What a reader may take for the end of a stream. -/
structure FramesExactly (j : Json Value) (msgs : List Value) (bs : List UInt8) : Prop where
  reads : Reads j (msgs.flatMap (writeDapMessage j)) msgs
  clean_end : readDapMessage j bs = .ok none → bs = []
  cut : CutMessage j bs → ∃ e, readDapMessage j bs = .error e

/-- The messages of a stream are read exactly, and a stream ends cleanly exactly at its start,
unless it ends inside a header. -/
theorem framesExactly_iff {j : Json Value} (hj : j.Lawful)
    (hmax : ∀ v ∈ msgs, (j.toVec v).length ≤ maxBodyBytes) (bs : List UInt8) : FramesExactly j msgs bs ↔ ¬ headerOnly bs := by
  constructor
  · intro h hhdr
    obtain rfl := h.clean_end ((readDapMessage_none_iff j bs).2 (.inr hhdr))
    exact absurd hhdr (by decide)
  · intro hhdr
    refine ⟨reads_written hj hmax, fun hend => ?_, fun hcut => ?_⟩
    · exact ((readDapMessage_none_iff j bs).1 hend).resolve_right hhdr
    · cases h : readDapMessage j bs with
      | error e => exact ⟨e, rfl⟩
      | ok got =>
        obtain _ | ⟨v, rest⟩ := got
        · obtain ⟨_, _, _, hne, _⟩ := hcut
          exact absurd (((readDapMessage_none_iff j bs).1 h).resolve_right hhdr) hne
        · exact absurd h (cut_not_read hj hcut)

/-- The JSON texts of the two booleans. -/
def boolJson : Json Bool where
  toVec v := Utf8.encode (if v then "true".toList else "false".toList)
  fromSlice bs :=
    if bs = Utf8.encode "true".toList then .ok true
    else if bs = Utf8.encode "false".toList then .ok false
    else .error "expected value at line 1 column 1"

theorem boolJson_lawful : boolJson.Lawful where
  fromSlice_toVec v := by
    cases v
    · rfl
    · rfl
  fromSlice_empty := ⟨_, rfl⟩

/-- Two messages, and a stream that ends inside a body. -/
theorem framesExactly_booleans : FramesExactly boolJson [true, false]
    (Utf8.encode "Content-Length: 4\r\n\r\ntr".toList) :=
  (framesExactly_iff boolJson_lawful (by decide) _).2 (by decide +kernel)

/-- A stream that ends after its first header line passes for one that ended cleanly. -/
theorem not_framesExactly_header :
    ¬ FramesExactly boolJson [] (Utf8.encode "Content-Length: 4\r\n".toList) := by
  intro h
  have hend : readDapMessage boolJson (Utf8.encode "Content-Length: 4\r\n".toList) = .ok none :=
    (readDapMessage_none_iff ..).2 (.inr (by decide +kernel))
  exact absurd (h.clean_end hend) (by decide)

end UrWeb.Debugger
