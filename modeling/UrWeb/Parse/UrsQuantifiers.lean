import UrWeb.Lib.Utf8

/-!
# Bracketing the quantifiers of a signature file

The last pass before a `.urs` file is lexed writes `[nm :: Kind]` where the text
has a bare `nm :: Kind ->`. It works on the bytes of the text: comments, strings
and single bytes are pushed one byte at a time, words and what follows them as
slices of the source. `Piece` is what one round of the loop reads, `Piece.put`
what it pushes for it. Every round burns fuel; where the fuel runs out, or a
delimiter is never closed, the pass pushes the source from its place on and
returns.
-/

namespace UrWeb.Parse.Urs

abbrev Bytes := List UInt8

/-- A byte that is pushed as a character. -/
def asChar (b : UInt8) : Bytes := String.utf8EncodeChar (Char.ofUInt8 b)

/-- Whether a slice of the source may start here. -/
def isCharBoundary (rest : Bytes) : Bool :=
  rest.head?.all fun b => b < 0x80 || 0xc0 ≤ b

def isWs (b : UInt8) : Bool := b = 0x20 || b = 0x09 || b = 0x0a || b = 0x0d

def isAsciiLowercase (b : UInt8) : Bool := 0x61 ≤ b && b ≤ 0x7a

def isAsciiAlphabetic (b : UInt8) : Bool := isAsciiLowercase b || 0x41 ≤ b && b ≤ 0x5a

def idCont (b : UInt8) : Bool :=
  b = 0x5f || b = 0x27 || 0x30 ≤ b && b ≤ 0x39 || isAsciiAlphabetic b

def idStart (b : UInt8) : Bool := isAsciiAlphabetic b || b = 0x5f

def ascii (s : String) : Bytes := s.toList.map Char.toUInt8

def declKeywords : List Bytes :=
  ["con", "class", "type", "structure", "signature", "datatype", "val"].map ascii

def pseudoTokens : List Bytes :=
  ["sgn_where", "sgn_subwhere", "arm_sep", "case_bar", "case_end", "dt_con0", "dt_bar", "dt_done",
    "dtype_of"].map ascii

-- ---------------------------------------------------------------------------
-- Pieces
-- ---------------------------------------------------------------------------

inductive Piece
  /-- A comment, a string, a blank or any other byte. -/
  | raw (bs : Bytes)
  /-- A word, with a kind colonsAndKind that no arrow follows. -/
  | slice (bs : Bytes)
  /-- A word with colons that no kind follows. -/
  | noKind (ident ws1 colons ws2 : Bytes)
  | quantifier (ident ws1 colons ws2 kind ws3 : Bytes)

def Piece.put : Piece → Bytes
  | .raw bs => bs.flatMap asChar
  | .slice bs => bs
  | .noKind ident ws1 colons ws2 => ident ++ (ws1 ++ colons) ++ colons ++ ws2
  | .quantifier ident _ colons _ kind ws3 =>
    [0x5b] ++ ident ++ [0x20] ++ colons ++ [0x20] ++ kind ++ [0x5d] ++ ws3

/-- An early return: what the round has pushed, what it has read and not pushed, and the
source from its place on. -/
structure Stop where
  pushed : Bytes
  pending : Bytes
  rest : Bytes

structure Step where
  piece : Piece
  fuel : Nat
  last : Bytes
  rest : Bytes

inductive Ending
  | complete (rest : Bytes)
  | early (s : Stop)

/-- What is pushed at the end, unless the source is cut inside a character. -/
def Ending.put : Ending → Option Bytes
  | .complete rest => some (if isCharBoundary rest then rest else [])
  | .early s => if isCharBoundary s.rest then some (s.pushed.flatMap asChar ++ s.rest) else none

-- ---------------------------------------------------------------------------
-- Readers
-- ---------------------------------------------------------------------------

def burn (units fuel : Nat) : Option Nat := if units ≤ fuel then some (fuel - units) else none

def burnHotInner (fuel : Nat) : Option Nat := burn 16 fuel

abbrev Reading := Except Stop (Bytes × Nat × Bytes)

def Reading.push (bs : Bytes) : Reading → Reading
  | .ok (taken, fuel, rest) => .ok (bs ++ taken, fuel, rest)
  | .error s => .error { s with pushed := bs ++ s.pushed }

def withPending (bs : Bytes) : Except Stop α → Except Stop α
  | .ok a => .ok a
  | .error s => .error { s with pending := bs ++ s.pending }

def Reading.take (bs : Bytes) (r : Reading) : Reading :=
  withPending bs (r.map fun a => (bs ++ a.1, a.2))

/-- The inside of a comment, up to the end of the outermost one. -/
def comment (fuel depth : Nat) (bs : Bytes) : Reading :=
  match burnHotInner fuel with
  | none => .error ⟨[], [], bs⟩
  | some fuel =>
    match bs with
    | [] => if depth = 0 then .ok ([], fuel, []) else .error ⟨[], [], []⟩
    | [b] => if depth = 0 then .ok ([], fuel, [b]) else (comment fuel depth []).push [b]
    | b :: c :: rest =>
      if depth = 0 then .ok ([], fuel, b :: c :: rest)
      else if b = 0x28 ∧ c = 0x2a then (comment fuel (depth + 1) rest).push [b, c]
      else if b = 0x2a ∧ c = 0x29 then (comment fuel (depth - 1) rest).push [b, c]
      else (comment fuel depth (c :: rest)).push [b]

/-- The inside of a string, up to its closing quote. -/
def stringBody (fuel : Nat) (bs : Bytes) : Reading :=
  match burnHotInner fuel with
  | none => .error ⟨[], [], bs⟩
  | some fuel =>
    match bs with
    | [] => .ok ([], fuel, [])
    | [b] => if b = 0x22 then .ok ([], fuel, [b]) else (stringBody fuel []).push [b]
    | b :: c :: rest =>
      if b = 0x22 then .ok ([], fuel, b :: c :: rest)
      else if b = 0x5c then (stringBody fuel rest).push [b, c]
      else (stringBody fuel (c :: rest)).push [b]

/-- The bytes that `p` holds of: of an identifier or of blanks. -/
def span (p : UInt8 → Bool) (fuel : Nat) (bs : Bytes) : Reading :=
  match burnHotInner fuel with
  | none => .error ⟨[], [], bs⟩
  | some fuel =>
    match bs with
    | [] => .ok ([], fuel, [])
    | b :: rest => if p b then (span p fuel rest).take [b] else .ok ([], fuel, b :: rest)

def scanKindAtomBalancedDelims (openDelim closeDelim : UInt8) (fuel depth : Nat) (bs : Bytes) :
    Reading :=
  match burnHotInner fuel with
  | none => .error ⟨[], [], bs⟩
  | some fuel =>
    match bs with
    | [] => if depth = 0 then .ok ([], fuel, []) else .error ⟨[], [], []⟩
    | b :: rest =>
      if depth = 0 then .ok ([], fuel, b :: rest)
      else
        let depth := if b = openDelim then depth + 1
          else if b = closeDelim then depth - 1 else depth
        (scanKindAtomBalancedDelims openDelim closeDelim fuel depth rest).take [b]

def parseDoubleOrTripleColon (bs : Bytes) : Option (Bytes × Bytes) :=
  if bs.take 3 = ascii ":::" ∧ bs[3]? ≠ some 0x3a then some (ascii ":::", bs.drop 3)
  else if bs.take 2 = ascii "::" ∧ bs[2]? ≠ some 0x3a then some (ascii "::", bs.drop 2)
  else none

/-- A kind: a name, or anything between braces or parentheses. -/
def kindAtom (fuel : Nat) (bs : Bytes) : Except Stop (Option (Bytes × Nat × Bytes)) :=
  match bs with
  | [] => .ok none
  | b :: rest =>
    if b = 0x7b then ((scanKindAtomBalancedDelims 0x7b 0x7d fuel 1 rest).take [b]).map some
    else if b = 0x28 then ((scanKindAtomBalancedDelims 0x28 0x29 fuel 1 rest).take [b]).map some
    else if idStart b then (span idCont fuel (b :: rest)).map some
    else .ok none

-- ---------------------------------------------------------------------------
-- The loop
-- ---------------------------------------------------------------------------

def startsArrow (bs : Bytes) : Bool := bs.take 2 = [0x2d, 0x3e]

/-- The colons, the kind and the arrow after a word. -/
def colonsAndKind (ident ws1 : Bytes) (fuel : Nat) (colons bs : Bytes) : Except Stop Step := do
  let (ws2, fuel, bs) ← withPending (ident ++ ws1 ++ colons) (span isWs fuel bs)
  match ← withPending (ident ++ ws1 ++ colons ++ ws2) (kindAtom fuel bs) with
  | none => .ok ⟨.noKind ident ws1 colons ws2, fuel, ident, bs⟩
  | some (kind, fuel, bs) => do
    let (ws3, fuel, bs) ← withPending (ident ++ ws1 ++ colons ++ ws2 ++ kind) (span isWs fuel bs)
    if startsArrow bs then
      .ok ⟨.quantifier ident ws1 colons ws2 kind ws3, fuel, [0x5d], bs⟩
    else .ok ⟨.slice (ident ++ ws1 ++ colons ++ ws2 ++ kind ++ ws3), fuel, ident, bs⟩

def word (fuel : Nat) (last bs : Bytes) : Except Stop Step := do
  let isDeclName := last ∈ declKeywords
  let (ident, fuel, rest) ← span idCont fuel bs
  let allowQuant := bs.head?.any fun b => isAsciiLowercase b || b = 0x5f
  if isDeclName ∨ ident ∈ pseudoTokens ∨ !allowQuant then .ok ⟨.slice ident, fuel, ident, rest⟩
  else do
    let (ws1, fuel, rest) ← withPending ident (span isWs fuel rest)
    match parseDoubleOrTripleColon rest with
    | none => .ok ⟨.slice (ident ++ ws1), fuel, ident, rest⟩
    | some (colons, rest) => colonsAndKind ident ws1 fuel colons rest

/-- One round of the loop, at a byte `b`. -/
def step (fuel : Nat) (last : Bytes) (b : UInt8) (rest : Bytes) : Except Stop Step :=
  if b = 0x28 ∧ rest.head? = some 0x2a then do
    let (taken, fuel, rest) ← (comment fuel 1 rest.tail).push [0x28, 0x2a]
    .ok ⟨.raw taken, fuel, last, rest⟩
  else if b = 0x22 then do
    let (taken, fuel, rest) ← (stringBody fuel rest).push [b]
    .ok ⟨.raw (taken ++ rest.take 1), fuel, [b], rest.drop 1⟩
  else if isWs b then .ok ⟨.raw [b], fuel, last, rest⟩
  else if idStart b then word fuel last (b :: rest)
  else .ok ⟨.raw [b], fuel, asChar b, rest⟩

/-- The loop: `rounds` is the bound the source puts on its length. -/
def scan (rounds fuel : Nat) (last bs : Bytes) : List Piece × Ending :=
  match rounds, bs with
  | 0, bs => ([], .complete bs)
  | _ + 1, [] => ([], .complete [])
  | rounds + 1, b :: rest =>
    match burn 1 fuel with
    | none => ([], .early ⟨[], [], b :: rest⟩)
    | some fuel =>
      match step fuel last b rest with
      | .error s => ([], .early s)
      | .ok st =>
        let r := scan rounds st.fuel st.last st.rest
        (st.piece :: r.1, r.2)

def maxFuel : Nat := 120000000

/-- What the pass reads in a text, piece by piece. -/
def pieces (s : Bytes) : List Piece × Ending :=
  scan (s.length + 2) (min (s.length * 1024 + 65536) maxFuel) [] s

/-- The text that the pass returns. -/
def quantifierPass (s : Bytes) : Option Bytes :=
  (pieces s).2.put.map fun tail => (pieces s).1.flatMap Piece.put ++ tail

end UrWeb.Parse.Urs
