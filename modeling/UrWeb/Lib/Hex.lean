import Mathlib.Data.List.Basic
import Mathlib.Tactic.IntervalCases

/-!
# Bytes in hexadecimal

Two upper-case digits for a byte, and the value of a digit of either case.
-/

namespace Hex

/-- The upper-case digit of a value below 16. -/
def digit (n : Nat) : UInt8 := if n < 10 then UInt8.ofNat (0x30 + n) else UInt8.ofNat (0x37 + n)

def value (b : UInt8) : Option Nat :=
  if 0x30 ≤ b ∧ b ≤ 0x39 then some (b.toNat - 0x30)
  else if 0x41 ≤ b ∧ b ≤ 0x46 then some (b.toNat - 0x37)
  else if 0x61 ≤ b ∧ b ≤ 0x66 then some (b.toNat - 0x57)
  else none

/-- The two digits of a byte. -/
def pair (n : Nat) : List UInt8 := [digit (n / 16), digit (n % 16)]

@[simp] theorem length_pair : (pair n).length = 2 := rfl

theorem value_digit (h : n < 16) : value (digit n) = some n := by
  interval_cases n <;> rfl

/-- A digit is none of the bytes that end or skip a scan. -/
theorem digit_range (h : n < 16) : 0x30 ≤ digit n ∧ digit n ≤ 0x46 := by
  interval_cases n <;> decide

end Hex
