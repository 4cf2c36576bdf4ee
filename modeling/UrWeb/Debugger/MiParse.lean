import UrWeb.Lib.Utf8
import UrWeb.Lib.Text

/-!
# Slicing debugger output

The slicers that cut blocks in braces and quoted values out of a GDB/MI line, and
the lines GDB prints: tuples of named strings in which a quote and a backslash
are escaped.
-/

namespace UrWeb.Debugger

abbrev MiText := List Char

-- ---------------------------------------------------------------------------
-- The slicers
-- ---------------------------------------------------------------------------

/-- The value of the first `key="value"`. -/
def miGetStr (payload key : MiText) : Option MiText :=
  let needle := key ++ ['=', '\x22']
  match Text.find needle payload with
  | none => none
  | some start =>
    let val := payload.drop (start + needle.length)
    match Text.find ['\x22'] val with
    | none => none
    | some n => some (val.take n)

/-- The scan of `brace_close_index`: the place of the brace that closes the first. -/
def braceScan (depth : Int) (inQuote : Bool) : MiText → Option Nat
  | [] => none
  | c :: s =>
    if c = '\x22' then (braceScan depth (!inQuote) s).map (· + 1)
    else if c = '\x7b' ∧ !inQuote then (braceScan (depth + 1) inQuote s).map (· + 1)
    else if c = '\x7d' ∧ !inQuote then
      if depth - 1 = 0 then some 0 else (braceScan (depth - 1) inQuote s).map (· + 1)
    else (braceScan depth inQuote s).map (· + 1)

def braceCloseIndex (s : MiText) : Option Nat :=
  if ['\x7b'].isPrefixOf s then braceScan 0 false s else none

/-- The blocks in braces behind each occurrence of a label, with a budget of rounds. -/
def extractBlocks (label : MiText) : Nat → MiText → List MiText
  | 0, _ => []
  | budget + 1, rest =>
    match Text.find (label ++ ['\x7b']) rest with
    | none => []
    | some pos =>
      let inner := rest.drop (pos + label.length)
      match braceCloseIndex inner with
      | none => []
      | some e => inner.take (e + 1) :: extractBlocks label budget (inner.drop (e + 1))

def frameLabel : MiText := ['f', 'r', 'a', 'm', 'e', '=']

def childLabel : MiText := ['c', 'h', 'i', 'l', 'd', '=']

def miExtractFrames (payload : MiText) : List MiText :=
  extractBlocks frameLabel ((Utf8.encode payload).length + 1) payload

def miExtractVarChildren (payload : MiText) : List MiText :=
  extractBlocks childLabel ((Utf8.encode payload).length + 1) payload

-- ---------------------------------------------------------------------------
-- The lines
-- ---------------------------------------------------------------------------

def plainChar (c : Char) : Bool :=
  c ≠ '\x22' && c ≠ '\x7b' && c ≠ '\x7d' && c ≠ ',' && c ≠ '=' && c ≠ '\x5c'

/-- The name of a field. -/
structure Name where
  text : MiText
  nonempty : text ≠ []
  plain : ∀ c ∈ text, plainChar c

structure Field where
  name : Name
  value : MiText

def escapeChar (c : Char) : MiText := if c = '\x22' ∨ c = '\x5c' then ['\x5c', c] else [c]

/-- A string as GDB prints it, without the quotes around it. -/
def escape (v : MiText) : MiText := v.flatMap escapeChar

def Field.text (f : Field) : MiText :=
  f.name.text ++ ['=', '\x22'] ++ escape f.value ++ ['\x22']

def tupleText : List Field → MiText
  | [] => ['\x7b', '\x7d']
  | f :: fs => '\x7b' :: f.text ++ fs.flatMap (fun g => ',' :: g.text) ++ ['\x7d']

def frameText (t : List Field) : MiText := frameLabel ++ tupleText t

def stackOpen : MiText := ['s', 't', 'a', 'c', 'k', '=', '[']

def stackText : List (List Field) → MiText
  | [] => stackOpen ++ [']']
  | t :: ts => stackOpen ++ frameText t ++ ts.flatMap (fun u => ',' :: frameText u) ++ [']']

/-- What a tuple says of a name: the printed value of the first field of that name. -/
def lookup (key : Name) : List Field → Option MiText
  | [] => none
  | f :: fs => if f.name.text = key.text then some (escape f.value) else lookup key fs

-- ---------------------------------------------------------------------------
-- When the braces of a tuple can be matched
-- ---------------------------------------------------------------------------

/-- The braces of some values that an odd number of their quotes precede: whether the number of
quotes so far is odd and how many braces are open, unless one is closed that was not opened. -/
def exposed : Bool → Nat → MiText → Option (Bool × Nat)
  | odd, d, [] => some (odd, d)
  | odd, d, c :: v =>
    if c = '\x22' then exposed (!odd) d v
    else if c = '\x7b' ∧ odd then exposed odd (d + 1) v
    else if c = '\x7d' ∧ odd then if d = 0 then none else exposed odd (d - 1) v
    else exposed odd d v

/-- The values of a tuple have an even number of quotes between them, and the braces that an odd
number of these precede are balanced. -/
def closes (t : List Field) : Bool := exposed false 0 (t.flatMap Field.value) = some (false, 0)

theorem exposed_append (odd : Bool) (d : Nat) (a b : MiText) :
    exposed odd d (a ++ b) = (exposed odd d a).bind fun p => exposed p.1 p.2 b := by
  induction a generalizing odd d with
  | nil => rfl
  | cons c a ih =>
    simp only [List.cons_append, exposed]
    split
    · exact ih ..
    · split
      · exact ih ..
      · split
        · split
          · rfl
          · exact ih ..
        · exact ih ..

/-- What is outside of the values has no braces and no quotes. -/
theorem braceScan_plain (h : ∀ c ∈ a, c ≠ '\x22' ∧ c ≠ '\x7b' ∧ c ≠ '\x7d')
    (d : Int) (q : Bool) (s : MiText) :
    braceScan d q (a ++ s) = (braceScan d q s).map (· + a.length) := by
  induction a with
  | nil => simp
  | cons c a ih =>
    obtain ⟨⟨hq, ho, hc⟩, ha⟩ := List.forall_mem_cons.1 h
    simp [braceScan, hq, ho, hc, ih ha, Option.map_map, Function.comp_def, Nat.add_assoc]

/-- A scan has gone through a stretch of this length and goes on as `k` from what the stretch
has exposed, or it has ended inside the stretch. -/
def Passes (len : Nat) (after : Option (Bool × Nat)) (scan : Option Nat)
    (k : Bool → Nat → Option Nat) : Prop :=
  match after with
  | some (odd, d) => scan = (k odd d).map (· + len)
  | none => ∃ n < len, scan = some n

theorem Passes.shift (h : Passes len after scan k) (m : Nat) :
    Passes (len + m) after (scan.map (· + m)) k := by
  cases after with
  | none =>
    obtain ⟨n, hn, rfl⟩ := h
    exact ⟨n + m, by omega, rfl⟩
  | some p =>
    obtain rfl := h
    simp [Passes, Option.map_map, Function.comp_def, Nat.add_assoc]

/-- One stretch after another. -/
theorem Passes.bind {next : Bool → Nat → Option (Bool × Nat)} (h : Passes len after scan k)
    (hnext : ∀ odd d, Passes len' (next odd d) (k odd d) k') :
    Passes (len' + len) (after.bind fun p => next p.1 p.2) scan k' := by
  cases after with
  | none =>
    obtain ⟨n, hn, rfl⟩ := h
    exact ⟨n, by omega, rfl⟩
  | some p =>
    obtain rfl := h
    exact (hnext p.1 p.2).shift len

/-- The scan after a stretch inside a value. -/
def scanValue (s : MiText) (odd : Bool) (d : Nat) : Option Nat := braceScan (d + 1) (!odd) s

/-- The scan after a stretch between values. -/
def scanOutside (s : MiText) (odd : Bool) (d : Nat) : Option Nat := braceScan (d + 1) odd s

theorem passes_escape (odd : Bool) (d : Nat) (v s : MiText) :
    Passes (escape v).length (exposed odd d v) (scanValue (escape v ++ s) odd d) (scanValue s) := by
  unfold scanValue
  induction v generalizing odd d with
  | nil => simp [Passes, exposed, escape]
  | cons c v ih =>
    by_cases hquote : c = '\x22'
    · have hscan : braceScan (d + 1) (!odd) (escape (c :: v) ++ s) =
          (braceScan (d + 1) (!!odd) (escape v ++ s)).map (· + 2) := by
        simp [escape, escapeChar, braceScan, hquote, Option.map_map, Function.comp_def]
      have hlen : (escape (c :: v)).length = (escape v).length + 2 := by
        simp [escape, escapeChar, hquote]
      rw [hscan, hlen, exposed, if_pos hquote]
      exact (ih (!odd) d).shift 2
    by_cases hback : c = '\x5c'
    · have hscan : braceScan (d + 1) (!odd) (escape (c :: v) ++ s) =
          (braceScan (d + 1) (!odd) (escape v ++ s)).map (· + 2) := by
        simp [escape, escapeChar, braceScan, hback, Option.map_map, Function.comp_def]
      have hlen : (escape (c :: v)).length = (escape v).length + 2 := by
        simp [escape, escapeChar, hback]
      have hexp : exposed odd d (c :: v) = exposed odd d v := by
        simp [exposed, hback]
      rw [hscan, hlen, hexp]
      exact (ih odd d).shift 2
    have htext : escape (c :: v) = c :: escape v := by simp [escape, escapeChar, hquote, hback]
    rw [htext, List.length_cons, List.cons_append, exposed, if_neg hquote, braceScan, if_neg hquote]
    cases odd with
    | false => simpa using (ih false d).shift 1
    | true =>
      by_cases hopen : c = '\x7b'
      · simpa [hopen] using (ih true (d + 1)).shift 1
      by_cases hclose : c = '\x7d'
      · cases d with
        | zero =>
          have hzero : Passes ((escape v).length + 1) none (some 0)
              (fun odd d => braceScan (d + 1) (!odd) s) := ⟨0, Nat.succ_pos _, rfl⟩
          simpa [hclose] using hzero
        | succ d =>
          have hd : ¬ (d : Int) + 1 = 0 := by omega
          simpa [hclose, hd] using (ih true d).shift 1
      · simpa [hopen, hclose] using (ih true d).shift 1

theorem Name.outside (x : Name) : ∀ c ∈ x.text, c ≠ '\x22' ∧ c ≠ '\x7b' ∧ c ≠ '\x7d' := by
  intro c hc
  have hplain := x.plain c hc
  simp only [plainChar, Bool.and_eq_true, decide_eq_true_eq] at hplain
  exact ⟨hplain.1.1.1.1.1, hplain.1.1.1.1.2, hplain.1.1.1.2⟩

/-- A field is scanned as its value is. -/
theorem passes_text (odd : Bool) (d : Nat) (f : Field) (s : MiText) :
    Passes f.text.length (exposed odd d f.value) (scanOutside (f.text ++ s) odd d)
      (scanOutside s) := by
  have hsplit : f.text ++ s =
      f.name.text ++ ('=' :: '\x22' :: (escape f.value ++ '\x22' :: s)) := by
    simp [Field.text]
  have hname : scanOutside (f.text ++ s) odd d =
      (scanValue (escape f.value ++ '\x22' :: s) odd d).map (· + (f.name.text.length + 2)) := by
    rw [scanOutside, hsplit, braceScan_plain f.name.outside]
    simp [scanValue, braceScan, Option.map_map, Function.comp_def, Nat.add_comm, Nat.add_left_comm]
  have hquote : ∀ odd d, Passes 1 (some (odd, d)) (scanValue ('\x22' :: s) odd d) (scanOutside s) := by
    intro odd d
    simp [Passes, scanValue, scanOutside, braceScan]
  have hlen : f.text.length = 1 + (escape f.value).length + (f.name.text.length + 2) := by
    simp [Field.text]
    omega
  have hpass := (passes_escape odd d f.value ('\x22' :: s)).bind hquote
  have hafter : ((exposed odd d f.value).bind fun p => some (p.1, p.2)) = exposed odd d f.value := by
    cases exposed odd d f.value <;> rfl
  rw [hname, hlen, ← hafter]
  exact hpass.shift (f.name.text.length + 2)

theorem passes_more (odd : Bool) (d : Nat) (fs : List Field) (s : MiText) :
    Passes (fs.flatMap fun g => ',' :: g.text).length (exposed odd d (fs.flatMap Field.value))
      (scanOutside ((fs.flatMap fun g => ',' :: g.text) ++ s) odd d) (scanOutside s) := by
  induction fs generalizing odd d with
  | nil => simp [Passes, exposed, scanOutside]
  | cons f fs ih =>
    have hcomma : scanOutside (((f :: fs).flatMap fun g => ',' :: g.text) ++ s) odd d =
        (scanOutside (f.text ++ ((fs.flatMap fun g => ',' :: g.text) ++ s)) odd d).map (· + 1) := by
      simp [scanOutside, braceScan]
    have hlen : ((f :: fs).flatMap fun g => ',' :: g.text).length =
        (fs.flatMap fun g => ',' :: g.text).length + f.text.length + 1 := by
      simp only [List.flatMap_cons, List.length_append, List.length_cons]
      omega
    have hpass := (passes_text odd d f ((fs.flatMap fun g => ',' :: g.text) ++ s)).bind ih
    rw [hcomma, hlen, List.flatMap_cons, exposed_append]
    exact hpass.shift 1

/-- The closing brace of a tuple closes it when no quote and no brace is open. -/
theorem scanOutside_close (odd : Bool) (d : Nat) (s : MiText) :
    scanOutside ('\x7d' :: s) odd d = some 0 ↔ odd = false ∧ d = 0 := by
  cases odd with
  | true => simp [scanOutside, braceScan]
  | false =>
    by_cases hd : d = 0
    · simp [scanOutside, braceScan, hd]
    · simp [scanOutside, braceScan, hd]

/-- The brace that opens a tuple is closed at its end exactly when its values allow it. -/
theorem braceCloseIndex_tuple (t : List Field) (s : MiText) :
    braceCloseIndex (tupleText t ++ s) = some ((tupleText t).length - 1) ↔ closes t := by
  cases t with
  | nil => simp [tupleText, braceCloseIndex, braceScan, closes, exposed]
  | cons f fs =>
    let more := fs.flatMap fun g => ',' :: g.text
    have hopen : braceCloseIndex (tupleText (f :: fs) ++ s) =
        (scanOutside (f.text ++ (more ++ '\x7d' :: s)) false 0).map (· + 1) := by
      simp [tupleText, braceCloseIndex, braceScan, scanOutside, more]
    have hlen : (tupleText (f :: fs)).length - 1 = more.length + f.text.length + 1 := by
      simp [tupleText, more]
      omega
    have hpass := (passes_text false 0 f (more ++ '\x7d' :: s)).bind
      (passes_more · · fs ('\x7d' :: s))
    rw [← exposed_append, ← List.flatMap_cons] at hpass
    rw [hopen, hlen, closes, decide_eq_true_iff]
    cases h : exposed false 0 ((f :: fs).flatMap Field.value) with
    | none =>
      rw [h] at hpass
      obtain ⟨n, hn, hscan⟩ := hpass
      have hshort : n < more.length + f.text.length := hn
      rw [hscan]
      simp only [Option.map_some, Option.some.injEq, reduceCtorEq, iff_false]
      omega
    | some p =>
      obtain ⟨odd, d⟩ := p
      rw [h] at hpass
      have hscan : scanOutside (f.text ++ (more ++ '\x7d' :: s)) false 0 =
          (scanOutside ('\x7d' :: s) odd d).map (· + (more.length + f.text.length)) := hpass
      rw [hscan, Option.map_map]
      have hclose := scanOutside_close odd d s
      cases hend : scanOutside ('\x7d' :: s) odd d with
      | none => simpa [hend] using hclose
      | some n => simpa [hend] using hclose

-- ---------------------------------------------------------------------------
-- The frames of a stack
-- ---------------------------------------------------------------------------

theorem braceScan_lt (h : braceScan d q s = some n) : n < s.length := by
  induction s generalizing d q n with
  | nil => cases h
  | cons c s ih =>
    have hmap : ∀ d q, (braceScan d q s).map (· + 1) = some n → n < (c :: s).length := by
      intro d q hsome
      obtain ⟨m, hm, rfl⟩ := Option.map_eq_some_iff.1 hsome
      exact Nat.succ_lt_succ (ih hm)
    rw [braceScan] at h
    split at h
    · exact hmap _ _ h
    · split at h
      · exact hmap _ _ h
      · split at h
        · split at h
          · obtain rfl := Option.some.inj h
            exact Nat.succ_pos _
          · exact hmap _ _ h
        · exact hmap _ _ h

theorem braceCloseIndex_lt (h : braceCloseIndex s = some n) : n < s.length := by
  rw [braceCloseIndex] at h
  split at h
  · exact braceScan_lt h
  · cases h

theorem tupleText_ne_nil (t : List Field) : tupleText t ≠ [] := by
  cases t <;> simp [tupleText]

/-- A round takes a tuple off the text if its braces can be matched, and otherwise the blocks do
not begin with it. -/
theorem extractBlocks_tuple (label pre rest : MiText) (t : List Field) (n : Nat)
    (hpre : Text.NoneIn (label ++ ['\x7b']) pre (label ++ (tupleText t ++ rest))) :
    (closes t → extractBlocks label (n + 1) (pre ++ (label ++ (tupleText t ++ rest))) =
      tupleText t :: extractBlocks label n rest) ∧
    (¬ closes t → ∀ ts,
      extractBlocks label (n + 1) (pre ++ (label ++ (tupleText t ++ rest))) ≠ tupleText t :: ts) := by
  have hbrace : ∃ tail, tupleText t = '\x7b' :: tail := by cases t <;> exact ⟨_, rfl⟩
  have hfind : Text.find (label ++ ['\x7b']) (pre ++ (label ++ (tupleText t ++ rest))) =
      some pre.length := by
    obtain ⟨tail, htail⟩ := hbrace
    have hsplit : label ++ (tupleText t ++ rest) = (label ++ ['\x7b']) ++ (tail ++ rest) := by
      simp [htail]
    have hhere : (label ++ ['\x7b']).isPrefixOf (label ++ (tupleText t ++ rest)) := by
      rw [hsplit]
      exact List.isPrefixOf_iff_prefix.2 (List.prefix_append _ _)
    rw [Text.find_append hpre, Text.find_of_isPrefixOf hhere]
    simp
  have hinner : (pre ++ (label ++ (tupleText t ++ rest))).drop (pre.length + label.length) =
      tupleText t ++ rest := by
    rw [← List.append_assoc, List.drop_left' (by simp)]
  have hpos : 0 < (tupleText t).length := List.length_pos_iff.2 (tupleText_ne_nil t)
  rw [extractBlocks, hfind]
  simp only [hinner]
  constructor
  · intro h
    rw [(braceCloseIndex_tuple t rest).2 h]
    have hlen : (tupleText t).length - 1 + 1 = (tupleText t).length := Nat.sub_add_cancel hpos
    simp only [hlen, List.take_left, List.drop_left]
  · intro h ts heq
    cases hclose : braceCloseIndex (tupleText t ++ rest) with
    | none => simp [hclose] at heq
    | some e =>
      simp only [hclose, List.cons.injEq] at heq
      have hlt := braceCloseIndex_lt hclose
      have hlen := congrArg List.length heq.1
      rw [List.length_take] at hlen
      have he : e = (tupleText t).length - 1 := by omega
      exact h ((braceCloseIndex_tuple t rest).1 (he ▸ hclose))

/-- What follows the first frame of a stack. -/
def moreFrames (ts : List (List Field)) : MiText :=
  ts.flatMap (fun u => ',' :: frameText u) ++ [']']

/-- A block that is not cut out whole spoils the list. -/
theorem extractBlocks_frame (pre : MiText) (t : List Field) (ts : List (List Field)) (n : Nat)
    (hpre : 'f' ∉ pre)
    (hmore : extractBlocks frameLabel n (moreFrames ts) = ts.map tupleText ↔
      ∀ u ∈ ts, closes u) :
    extractBlocks frameLabel (n + 1) (pre ++ (frameText t ++ moreFrames ts)) =
      (t :: ts).map tupleText ↔ ∀ u ∈ t :: ts, closes u := by
  have hnone : Text.NoneIn (frameLabel ++ ['\x7b']) pre
      (frameLabel ++ (tupleText t ++ moreFrames ts)) := Text.noneIn_of_head hpre
  obtain ⟨hyes, hno⟩ := extractBlocks_tuple frameLabel pre (moreFrames ts) t n hnone
  rw [frameText, List.append_assoc, List.forall_mem_cons, List.map_cons]
  by_cases ht : closes t
  · rw [hyes ht, List.cons.injEq, ← hmore]
    simp [ht]
  · exact ⟨fun h => absurd h (hno ht _), fun h => absurd h.1 ht⟩

theorem extractBlocks_more (h : ts.length < n) :
    extractBlocks frameLabel n (moreFrames ts) = ts.map tupleText ↔ ∀ u ∈ ts, closes u := by
  induction ts generalizing n with
  | nil =>
    have hend : extractBlocks frameLabel n (moreFrames []) = [] := by
      cases n with
      | zero => rfl
      | succ n => rfl
    rw [hend]
    simp
  | cons t ts ih =>
    cases n with
    | zero => exact absurd h (Nat.not_lt_zero _)
    | succ n =>
      have htext : moreFrames (t :: ts) = [','] ++ (frameText t ++ moreFrames ts) := by
        simp [moreFrames]
      rw [htext]
      exact extractBlocks_frame [','] t ts n (by decide) (ih (Nat.lt_of_succ_lt_succ h))

theorem length_le_moreFrames (ts : List (List Field)) : ts.length < (moreFrames ts).length := by
  induction ts with
  | nil => exact Nat.one_pos
  | cons t ts ih =>
    have hcons : (moreFrames (t :: ts)).length =
        1 + (frameText t).length + (moreFrames ts).length := by
      simp [moreFrames, Nat.add_assoc, Nat.add_comm, Nat.add_left_comm]
    rw [hcons, List.length_cons]
    omega

/-- The frames of a stack are cut out exactly when the braces of each can be matched. -/
theorem miExtractFrames_stackText (ts : List (List Field)) :
    miExtractFrames (stackText ts) = ts.map tupleText ↔ ∀ t ∈ ts, closes t := by
  cases ts with
  | nil => exact ⟨fun _ => by simp, fun _ => by decide +kernel⟩
  | cons t ts =>
    have htext : stackText (t :: ts) = stackOpen ++ (frameText t ++ moreFrames ts) := by
      simp only [stackText, moreFrames, List.append_assoc]
    have hbudget : ts.length < (Utf8.encode (stackText (t :: ts))).length := by
      have hmore := length_le_moreFrames ts
      have hbytes := Utf8.length_le_encode (stackText (t :: ts))
      have hlen : (moreFrames ts).length ≤ (stackText (t :: ts)).length := by
        rw [htext, List.length_append, List.length_append]
        omega
      omega
    rw [miExtractFrames, htext]
    rw [htext] at hbudget
    exact extractBlocks_frame _ t ts _ (by decide) (extractBlocks_more hbudget)

end UrWeb.Debugger
