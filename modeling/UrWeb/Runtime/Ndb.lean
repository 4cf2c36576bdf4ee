import UrWeb.Lib.Utf8
import UrWeb.Lib.Text

/-!
# The line store

A handle's file is one `UrK=… UrV=…` line for each stored pair, and a look-up
reads the whole file and keeps the last line of its key. Reading and writing the
file succeed.
-/

namespace UrWeb.Runtime.Ndb

def prefixK : List Char := "UrK=".toList
def midV : List Char := " UrV=".toList

def validField (bytes : List UInt8) : Bool :=
  !bytes.isEmpty && !bytes.contains '='.toUInt8 && !bytes.contains '\n'.toUInt8 &&
    !bytes.contains '\r'.toUInt8

/-- The line of a pair, its end included. -/
def line (k v : List Char) : List Char := prefixK ++ k ++ midV ++ v ++ ['\n']

/-- The code a put returns, and the file after it. -/
def put (file key val : List UInt8) : Int32 × List UInt8 :=
  if !validField key || !validField val then (-1, file)
  else match Utf8.decode key, Utf8.decode val with
    | some ks, some vs => (0, file ++ Utf8.encode (line ks vs))
    | _, _ => (-1, file)

/-- Ends one line of `str::lines`, where a carriage return before the newline is dropped. -/
def stripCr (l : List Char) : List Char := if l.getLast? = some '\r' then l.dropLast else l

/-- `str::lines`, with the line being read. -/
def linesFrom (cur : List Char) : List Char → List (List Char)
  | [] => if cur.isEmpty then [] else [cur]
  | c :: s => if c = '\n' then stripCr cur :: linesFrom [] s else linesFrom (cur ++ [c]) s

def lines (buf : List Char) : List (List Char) := linesFrom [] buf

/-- The value one line of the file gives a key. -/
def valueIn (ks rawLine : List Char) : Option (List UInt8) :=
  match Text.stripPrefix prefixK (Text.trimEndMatches (· = '\r') rawLine) with
  | none => none
  | some rest => match Text.splitOnce midV rest with
    | none => none
    | some (kpart, vpart) => if kpart = ks then some (Utf8.encode vpart) else none

inductive Got
  | found (bytes : List UInt8)
  | missing
  | error
  deriving DecidableEq

/-- The code of a look-up, with the bytes it hands out. -/
def Got.code : Got → Int32
  | .found _ => 0
  | .missing => 1
  | .error => -1

def get (file key : List UInt8) : Got :=
  match Utf8.decode key with
  | none => .error
  | some ks => match Utf8.decode file with
    | none => .error
    | some buf =>
      match (lines buf).foldl (fun found rawLine => (valueIn ks rawLine).or found) none with
      | none => .missing
      | some bytes => .found bytes

-- ---------------------------------------------------------------------------
-- Runs
-- ---------------------------------------------------------------------------

inductive Call
  | put (key val : List UInt8)
  | get (key : List UInt8)

/-- The file after one call. -/
def step (file : List UInt8) : Call → List UInt8
  | .put k v => (put file k v).2
  | .get _ => file

/-- The file after a run of calls over an empty file. -/
def fileAfter (calls : List Call) : List UInt8 := calls.foldl step []

/-- The code a call returns. -/
def returned (file : List UInt8) : Call → Int32
  | .put k v => (put file k v).1
  | .get k => (get file k).code

/-- The calls of a run, each with the code it returns. -/
def trace (file : List UInt8) : List Call → List (Call × Int32)
  | [] => []
  | c :: calls => (c, returned file c) :: trace (step file c) calls

/-- What a call stores under a key. -/
def stored (key : List UInt8) : Call × Int32 → Option (List UInt8)
  | (.put k v, code) => if k = key ∧ code = 0 then some v else none
  | (.get _, _) => none

/-- What the last put of a key that returned 0 stored. -/
def lastStored (key : List UInt8) (calls : List Call) : Option (List UInt8) :=
  ((trace [] calls).filterMap (stored key)).getLast?

-- ---------------------------------------------------------------------------
-- One line
-- ---------------------------------------------------------------------------

/-- A text a line can carry in either place. -/
structure Clean (t : List Char) : Prop where
  eq : '=' ∉ t
  newline : '\n' ∉ t
  cr : '\r' ∉ t
  nonempty : t ≠ []

theorem not_mem_of_byte (ha : c.val ≤ 127) (h : ¬ (Utf8.encode t).contains c.toUInt8) :
    c ∉ t := fun hm => h (List.contains_iff_mem.2 (Utf8.byte_mem_encode ha hm))

theorem clean_of_validField (hv : validField bs) (hd : Utf8.decode bs = some t) : Clean t := by
  obtain rfl := Utf8.decode_eq_some_iff.1 hd
  simp only [validField, Bool.and_eq_true, Bool.not_eq_true', List.isEmpty_eq_false_iff] at hv
  obtain ⟨⟨⟨hne, heq⟩, hnl⟩, hcr⟩ := hv
  refine ⟨?_, ?_, ?_, ?_⟩
  · exact not_mem_of_byte (by decide) (by simpa using heq)
  · exact not_mem_of_byte (by decide) (by simpa using hnl)
  · exact not_mem_of_byte (by decide) (by simpa using hcr)
  · rintro rfl
    exact hne rfl

/-- The separator ends in the only `=` of a line after its prefix. -/
theorem splitOnce_mid (h : '=' ∉ k) : Text.splitOnce midV (k ++ midV ++ v) = some (k, v) := by
  apply Text.splitOnce_append
  induction k with
  | nil => exact Text.noneIn_nil _ _
  | cons c k ih =>
    have hk : '=' ∉ k := fun hm => h (List.mem_cons_of_mem _ hm)
    refine Text.noneIn_cons ?_ (ih hk)
    rcases k with _ | ⟨c₁, _ | ⟨c₂, _ | ⟨c₃, _ | ⟨c₄, k⟩⟩⟩⟩ <;>
      simp_all [midV, List.isPrefixOf]

theorem trimEnd_of_not_mem (h : '\r' ∉ l) : Text.trimEndMatches (· = '\r') l = l :=
  Text.trimEndMatches_of_forall fun _ hc => decide_eq_false fun heq => h (heq ▸ hc)

theorem stripCr_of_not_mem (h : '\r' ∉ l) : stripCr l = l := by
  rw [stripCr, if_neg]
  exact fun hl => h (List.mem_of_getLast? hl)

theorem linesFrom_line (h : '\n' ∉ l) :
    linesFrom cur (l ++ '\n' :: s) = stripCr (cur ++ l) :: linesFrom [] s := by
  induction l generalizing cur with
  | nil => simp [linesFrom]
  | cons c l ih =>
    have hc : c ≠ '\n' := fun hc => h (hc ▸ List.mem_cons_self ..)
    have hl : '\n' ∉ l := fun hm => h (List.mem_cons_of_mem _ hm)
    simp [linesFrom, hc, ih hl]

-- ---------------------------------------------------------------------------
-- The file
-- ---------------------------------------------------------------------------

/-- The file of the pairs stored so far. -/
def text (ps : List (List Char × List Char)) : List Char := ps.flatMap fun p => line p.1 p.2

/-- Every pair can be told from its line. -/
def AllClean (ps : List (List Char × List Char)) : Prop := ∀ p ∈ ps, Clean p.1 ∧ Clean p.2

/-- A line without its end. -/
def body (p : List Char × List Char) : List Char := prefixK ++ p.1 ++ midV ++ p.2

theorem not_mem_body (hk : c ∉ p.1) (hv : c ∉ p.2) (hp : c ∉ prefixK) (hm : c ∉ midV) :
    c ∉ body p := by
  simp only [body, List.mem_append]
  rintro (((h | h) | h) | h)
  · exact hp h
  · exact hk h
  · exact hm h
  · exact hv h

theorem lines_text (h : AllClean ps) : lines (text ps) = ps.map body := by
  induction ps with
  | nil => rfl
  | cons p ps ih =>
    obtain ⟨⟨hk, hv⟩, hps⟩ := List.forall_mem_cons.1 h
    have hnl : '\n' ∉ body p := not_mem_body hk.newline hv.newline (by decide) (by decide)
    have hcr : '\r' ∉ body p := not_mem_body hk.cr hv.cr (by decide) (by decide)
    have htext : text (p :: ps) = body p ++ '\n' :: text ps := by
      simp [text, line, body]
    have hrest : linesFrom [] (text ps) = ps.map body := ih hps
    rw [lines, htext, linesFrom_line hnl, List.nil_append, stripCr_of_not_mem hcr, hrest]
    rfl

theorem valueIn_body (hk : Clean p.1) (hv : Clean p.2) (ks : List Char) :
    valueIn ks (body p) = if p.1 = ks then some (Utf8.encode p.2) else none := by
  have hcr : '\r' ∉ body p := not_mem_body hk.cr hv.cr (by decide) (by decide)
  have hpre : Text.stripPrefix prefixK (body p) = some (p.1 ++ midV ++ p.2) := by
    rw [body, List.append_assoc, List.append_assoc, Text.stripPrefix_append, List.append_assoc]
  rw [valueIn, trimEnd_of_not_mem hcr, hpre]
  simp only [splitOnce_mid hk.eq]

/-- Keeping the last hit of a walk. -/
theorem foldl_or (f : α → Option β) (l : List α) (was : Option β) :
    l.foldl (fun found a => (f a).or found) was = ((l.filterMap f).getLast?).or was := by
  induction l generalizing was with
  | nil => rfl
  | cons a l ih =>
    rw [List.foldl_cons, ih]
    cases ha : f a with
    | none => rw [List.filterMap_cons_none ha, Option.none_or]
    | some b =>
      rw [List.filterMap_cons_some ha, Option.some_or]
      cases hl : (l.filterMap f) with
      | nil => rfl
      | cons d s => simp [List.getLast?_cons]

/-- A look-up over the file of some pairs. -/
theorem get_text (h : AllClean ps) (hk : Utf8.decode key = some ks) :
    get (Utf8.encode (text ps)) key =
      match (ps.filterMap fun p => if p.1 = ks then some (Utf8.encode p.2) else none).getLast? with
      | some v => .found v
      | none => .missing := by
  have hvals : (ps.map body).filterMap (valueIn ks) =
      ps.filterMap fun p => if p.1 = ks then some (Utf8.encode p.2) else none := by
    rw [List.filterMap_map]
    exact List.filterMap_congr fun p hp => valueIn_body (h p hp).1 (h p hp).2 ks
  have hfold : (lines (text ps)).foldl (fun found rawLine => (valueIn ks rawLine).or found) none =
      (ps.filterMap fun p => if p.1 = ks then some (Utf8.encode p.2) else none).getLast? := by
    rw [lines_text h, foldl_or, hvals, Option.or_none]
  simp only [get, hk, Utf8.decode_encode, hfold]
  cases (ps.filterMap fun p => if p.1 = ks then some (Utf8.encode p.2) else none).getLast? <;> rfl

-- ---------------------------------------------------------------------------
-- Runs
-- ---------------------------------------------------------------------------

/-- A put either refuses its fields and leaves the file, or adds their line. -/
theorem put_cases (file key val : List UInt8) :
    put file key val = (-1, file) ∨
      ∃ ks vs, key = Utf8.encode ks ∧ val = Utf8.encode vs ∧ Clean ks ∧ Clean vs ∧
        put file key val = (0, file ++ Utf8.encode (line ks vs)) := by
  by_cases hvalid : validField key ∧ validField val
  · cases hk : Utf8.decode key with
    | none => exact .inl (by simp [put, hk])
    | some ks =>
      cases hv : Utf8.decode val with
      | none => exact .inl (by simp [put, hv])
      | some vs =>
        refine .inr ⟨ks, vs, Utf8.decode_eq_some_iff.1 hk, Utf8.decode_eq_some_iff.1 hv,
          clean_of_validField hvalid.1 hk, clean_of_validField hvalid.2 hv, ?_⟩
        simp [put, hvalid.1, hvalid.2, hk, hv]
  · refine .inl (if_pos ?_)
    rw [not_and_or] at hvalid
    simpa using hvalid

/-- The file holds exactly the pairs a run has stored, in order. -/
structure Holds (file : List UInt8) (done : List (Call × Int32))
    (ps : List (List Char × List Char)) : Prop where
  clean : AllClean ps
  file_eq : file = Utf8.encode (text ps)
  stored_eq : ∀ key, done.filterMap (stored key) =
    ps.filterMap fun p => if Utf8.encode p.1 = key then some (Utf8.encode p.2) else none

/-- One call adds to the file what it has stored. -/
theorem Holds.step (h : Holds file done ps) (c : Call) :
    ∃ ps', Holds (step file c) (done ++ [(c, returned file c)]) ps' := by
  cases c with
  | get k =>
    refine ⟨ps, h.clean, h.file_eq, fun key => ?_⟩
    rw [List.filterMap_append, h.stored_eq]
    exact List.append_nil _
  | put k v =>
    obtain hno | ⟨ks, vs, rfl, rfl, hks, hvs, hput⟩ := put_cases file k v
    · refine ⟨ps, h.clean, by rw [Ndb.step, hno]; exact h.file_eq, fun key => ?_⟩
      rw [List.filterMap_append, h.stored_eq]
      simp [returned, hno, stored]
    · refine ⟨ps ++ [(ks, vs)], ?_, ?_, fun key => ?_⟩
      · exact List.forall_mem_append.2 ⟨h.clean, List.forall_mem_singleton.2 ⟨hks, hvs⟩⟩
      · rw [Ndb.step, hput, h.file_eq]
        simp [text, Utf8.encode_append]
      · rw [List.filterMap_append, List.filterMap_append, h.stored_eq]
        by_cases hkey : Utf8.encode ks = key
        · subst hkey
          simp [returned, hput, stored]
        · simp [stored, hkey]

theorem trace_append (file : List UInt8) (cs ds : List Call) :
    trace file (cs ++ ds) = trace file cs ++ trace (cs.foldl step file) ds := by
  induction cs generalizing file with
  | nil => rfl
  | cons c cs ih => simp [trace, ih]

theorem holds_fileAfter (calls : List Call) : ∃ ps, Holds (fileAfter calls) (trace [] calls) ps := by
  induction calls using List.reverseRecOn with
  | nil => exact ⟨[], by simp [AllClean], rfl, fun _ => rfl⟩
  | append_singleton cs c ih =>
    obtain ⟨ps, h⟩ := ih
    obtain ⟨ps', h'⟩ := h.step c
    refine ⟨ps', ?_⟩
    rw [fileAfter, List.foldl_append, trace_append]
    exact h'

/-- After any run, a look-up of a text answers with what was stored last under it, and any
other key is an error. -/
theorem get_fileAfter (calls : List Call) (key : List UInt8) :
    get (fileAfter calls) key =
      match Utf8.decode key, lastStored key calls with
      | none, _ => .error
      | some _, some v => .found v
      | some _, none => .missing := by
  cases hk : Utf8.decode key with
  | none => simp [get, hk]
  | some ks =>
    obtain ⟨ps, h⟩ := holds_fileAfter calls
    have hkey : (fun p : List Char × List Char =>
          if Utf8.encode p.1 = key then some (Utf8.encode p.2) else none) =
        fun p => if p.1 = ks then some (Utf8.encode p.2) else none := by
      funext p
      have hiff : Utf8.encode p.1 = key ↔ p.1 = ks := by
        rw [Utf8.decode_eq_some_iff.1 hk]
        exact ⟨Utf8.encode_injective, congrArg _⟩
      simp only [hiff]
    rw [h.file_eq, get_text h.clean hk, lastStored, h.stored_eq, hkey]
    cases (ps.filterMap fun p => if p.1 = ks then some (Utf8.encode p.2) else none).getLast? <;> rfl

/-- The store is a map: a look-up of a text answers with what was stored last under it, and a
put that is refused changes no later answer. -/
theorem store_is_map (calls : List Call) :
    (∀ key, (Utf8.decode key).isSome →
      get (fileAfter calls) key =
        match lastStored key calls with
        | some v => .found v
        | none => .missing) ∧
    (∀ key, (Utf8.decode key) = none → get (fileAfter calls) key = .error) ∧
    ∀ key val later, (put (fileAfter calls) key val).1 = -1 →
      fileAfter (calls ++ .put key val :: later) = fileAfter (calls ++ later) := by
  refine ⟨fun key hk => ?_, fun key hk => ?_, fun key val later hput => ?_⟩
  · obtain ⟨ks, hks⟩ := Option.isSome_iff_exists.1 hk
    rw [get_fileAfter, hks]
    cases lastStored key calls <;> rfl
  · rw [get_fileAfter, hk]
  · obtain hno | ⟨ks, vs, rfl, rfl, -, -, hyes⟩ := put_cases (fileAfter calls) key val
    · simp only [fileAfter, List.foldl_append, List.foldl_cons] at hno ⊢
      rw [Ndb.step, hno]
    · rw [hyes] at hput
      exact absurd hput (show (0 : Int32) ≠ -1 by decide)

/-- A key that is no text is an error and not a missing key. -/
theorem get_not_text : get (fileAfter []) [0xFF] = .error ∧ lastStored [0xFF] [] = none := by
  decide +kernel

end UrWeb.Runtime.Ndb
