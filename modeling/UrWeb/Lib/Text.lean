import Mathlib.Data.List.Induction
import Mathlib.Data.List.TakeWhile

/-!
# Texts as lists of characters

Trimming, prefixes and searching. `find_append` moves a search past a stretch in
which no occurrence begins.
-/

namespace Text

/-- The characters with the Unicode property White_Space. -/
def isWhitespace (c : Char) : Bool :=
  let n := c.toNat
  (0x09 ≤ n ∧ n ≤ 0x0D) ∨ n = 0x20 ∨ n = 0x85 ∨ n = 0xA0 ∨ n = 0x1680 ∨
    (0x2000 ≤ n ∧ n ≤ 0x200A) ∨ n = 0x2028 ∨ n = 0x2029 ∨ n = 0x202F ∨ n = 0x205F ∨ n = 0x3000

/-- A text without the characters at its end that meet a condition. -/
def trimEndMatches (p : Char → Bool) (s : List Char) : List Char :=
  (s.reverse.dropWhile p).reverse

def trim (s : List Char) : List Char := trimEndMatches isWhitespace (s.dropWhile isWhitespace)

/-- What is left of a text after a prefix. -/
def stripPrefix (pre s : List Char) : Option (List Char) :=
  if pre.isPrefixOf s then some (s.drop pre.length) else none

/-- The place of the first occurrence of a pattern. -/
def find (pat : List Char) : List Char → Option Nat
  | [] => if pat.isEmpty then some 0 else none
  | c :: s => if pat.isPrefixOf (c :: s) then some 0 else (find pat s).map (· + 1)

/-- The text before and after the first occurrence of a separator. -/
def splitOnce (sep s : List Char) : Option (List Char × List Char) :=
  (find sep s).map fun i => (s.take i, s.drop (i + sep.length))

-- ---------------------------------------------------------------------------
-- Letters and digits
-- ---------------------------------------------------------------------------

theorem isAlpha_iff {c : Char} :
    c.isAlpha ↔ (65 ≤ c.toNat ∧ c.toNat ≤ 90) ∨ (97 ≤ c.toNat ∧ c.toNat ≤ 122) := by
  change (decide ('A'.val ≤ c.val ∧ c.val ≤ 'Z'.val) ||
    (decide ('a'.val ≤ c.val) && decide (c.val ≤ 'z'.val))) = true ↔ _
  simp only [Bool.or_eq_true, Bool.and_eq_true, decide_eq_true_eq, UInt32.le_iff_toNat_le]
  exact Iff.rfl

theorem isDigit_iff {c : Char} : c.isDigit ↔ 48 ≤ c.toNat ∧ c.toNat ≤ 57 := by
  change (decide ('0'.val ≤ c.val) && decide (c.val ≤ '9'.val)) = true ↔ _
  simp only [Bool.and_eq_true, decide_eq_true_eq, UInt32.le_iff_toNat_le]
  exact Iff.rfl

theorem isAlphanum_iff {c : Char} : c.isAlphanum ↔
    ((65 ≤ c.toNat ∧ c.toNat ≤ 90) ∨ (97 ≤ c.toNat ∧ c.toNat ≤ 122)) ∨
      (48 ≤ c.toNat ∧ c.toNat ≤ 57) := by
  change (c.isAlpha || c.isDigit) = true ↔ _
  rw [Bool.or_eq_true, isAlpha_iff, isDigit_iff]

-- ---------------------------------------------------------------------------
-- Laws
-- ---------------------------------------------------------------------------

/-- A last character that stays keeps what is before it. -/
theorem trimEndMatches_concat (h : p c = false) : trimEndMatches p (s ++ [c]) = s ++ [c] := by
  simp [trimEndMatches, h]

theorem trimEndMatches_of_forall (h : ∀ c ∈ s, p c = false) : trimEndMatches p s = s := by
  cases s using List.reverseRecOn with
  | nil => rfl
  | append_singleton s c => exact trimEndMatches_concat (h c (by simp))

/-- Characters that meet the condition go. -/
theorem trimEndMatches_append (h : ∀ c ∈ t, p c = true) :
    trimEndMatches p (s ++ t) = trimEndMatches p s := by
  have hall : t.reverse.dropWhile p = [] := by
    simpa [List.dropWhile_eq_nil_iff] using h
  simp [trimEndMatches, List.dropWhile_append, hall]

theorem stripPrefix_append (pre s : List Char) : stripPrefix pre (pre ++ s) = some s := by
  simp [stripPrefix]

theorem find_of_isPrefixOf (h : pat.isPrefixOf s) : find pat s = some 0 := by
  cases s with
  | nil =>
    have hnil : pat = [] := by simpa using h
    simp [find, hnil]
  | cons c s => rw [find, if_pos h]

/-- No occurrence of a pattern begins inside `a` when `s` follows it. -/
def NoneIn (pat a s : List Char) : Prop :=
  ∀ u c v, a = u ++ c :: v → pat.isPrefixOf (c :: v ++ s) = false

theorem NoneIn.tail (h : NoneIn pat (c :: a) s) : NoneIn pat a s :=
  fun u d v ha => h (c :: u) d v (by rw [ha]; rfl)

theorem noneIn_nil (pat s : List Char) : NoneIn pat [] s := by
  intro u c v h
  cases u <;> cases h

theorem noneIn_cons (hc : pat.isPrefixOf (c :: a ++ s) = false) (h : NoneIn pat a s) :
    NoneIn pat (c :: a) s := by
  intro u d v ha
  cases u with
  | nil =>
    obtain ⟨rfl, rfl⟩ := List.cons.inj ha
    exact hc
  | cons e u => exact h u d v (List.cons.inj ha).2

/-- None begins where its first character does not stand. -/
theorem noneIn_of_head (h : p ∉ a) : NoneIn (p :: ps) a s := by
  rintro u c v rfl
  have hc : (p == c) = false := by
    refine beq_false_of_ne ?_
    rintro rfl
    exact h (by simp)
  simp [List.isPrefixOf, hc]

theorem find_append (h : NoneIn pat a s) : find pat (a ++ s) = (find pat s).map (· + a.length) := by
  induction a with
  | nil => simp
  | cons c a ih =>
    have hc : pat.isPrefixOf (c :: (a ++ s)) = false := h [] c a rfl
    rw [List.cons_append, find, hc, ih h.tail]
    simp [Option.map_map, Function.comp_def, Nat.add_assoc]

/-- A pattern right after a stretch in which none begins is the first. -/
theorem splitOnce_append (h : NoneIn sep a (sep ++ s)) : splitOnce sep (a ++ sep ++ s) = some (a, s) := by
  have hfind : find sep (a ++ (sep ++ s)) = some a.length := by
    rw [find_append h, find_of_isPrefixOf (by simp)]
    simp
  simp [splitOnce, List.append_assoc, hfind, ← List.drop_drop]

end Text
