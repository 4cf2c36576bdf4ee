/-!
# Primitives shared by the intermediate representations

Literals, string modes, datatype representations and the annotations that the
Core and the Mono trees both carry. A float is kept as its 64-bit pattern:
no modelled function does arithmetic with one.
-/

namespace UrWeb

inductive StringMode
  | normal
  | html
  deriving DecidableEq, Repr

inductive Prim
  | int (n : Int64)
  | float (bits : UInt64)
  | string (mode : StringMode) (s : String)
  | char (c : Char)
  deriving DecidableEq

/-- Runtime representation of a datatype. -/
inductive DatatypeKind
  | enum
  | option
  | default
  deriving DecidableEq, Repr

/-- What an exported function can do. -/
inductive Effect
  | readOnly
  | readCookieWrite
  | readWrite
  deriving DecidableEq, Repr

inductive ExportKind
  | link (effect : Effect)
  | action (effect : Effect)
  | rpc (effect : Effect)
  | external (effect : Effect)
  deriving DecidableEq, Repr

inductive FailureMode
  | error
  | none
  deriving DecidableEq, Repr

-- ---------------------------------------------------------------------------
-- Equality of literals
-- ---------------------------------------------------------------------------

def floatIsNaN (bits : UInt64) : Bool := 0x7FF0000000000000 < bits &&& 0x7FFFFFFFFFFFFFFF

/-- Equality of 64-bit floats: no NaN equals itself, and the zeros are equal. -/
def floatEq (a b : UInt64) : Bool :=
  !floatIsNaN a && !floatIsNaN b && (a = b || (a ||| b) &&& 0x7FFFFFFFFFFFFFFF = 0)

def primEq : Prim → Prim → Bool
  | .int a, .int b => a = b
  | .float a, .float b => floatEq a b
  | .string _ a, .string _ b => a = b
  | .char a, .char b => a = b
  | _, _ => false

theorem or_and_eq_zero {a b m : UInt64} : (a ||| b) &&& m = 0 ↔ a &&& m = 0 ∧ b &&& m = 0 := by
  simp only [← UInt64.toBitVec_inj, UInt64.toBitVec_and, UInt64.toBitVec_or,
    BitVec.and_or_distrib_right]
  exact BitVec.or_eq_zero_iff

theorem floatEq_symm (h : floatEq a b = true) : floatEq b a = true := by
  simp only [floatEq, Bool.and_eq_true, Bool.not_eq_true', Bool.or_eq_true, decide_eq_true_eq]
    at h ⊢
  obtain ⟨⟨ha, hb⟩, rfl | h0⟩ := h
  · exact ⟨⟨hb, ha⟩, .inl rfl⟩
  · exact ⟨⟨hb, ha⟩, .inr (or_and_eq_zero.mpr (or_and_eq_zero.mp h0).symm)⟩

theorem floatEq_trans (h : floatEq a b = true) (h' : floatEq b c = true) :
    floatEq a c = true := by
  simp only [floatEq, Bool.and_eq_true, Bool.not_eq_true', Bool.or_eq_true, decide_eq_true_eq]
    at h h' ⊢
  obtain ⟨⟨ha, hb⟩, hab⟩ := h
  obtain ⟨⟨-, hc⟩, hbc⟩ := h'
  refine ⟨⟨ha, hc⟩, ?_⟩
  rcases hab with rfl | hab
  · exact hbc
  rcases hbc with rfl | hbc
  · exact .inr hab
  · exact .inr (or_and_eq_zero.mpr ⟨(or_and_eq_zero.mp hab).1, (or_and_eq_zero.mp hbc).2⟩)

theorem primEq_symm (h : primEq p q = true) : primEq q p = true := by
  cases p <;> cases q <;> simp_all [primEq, floatEq_symm]

theorem primEq_trans (h : primEq p q = true) (h' : primEq q r = true) : primEq p r = true := by
  cases p <;> cases q <;> cases r <;> simp_all [primEq]
  exact floatEq_trans h h'

end UrWeb
