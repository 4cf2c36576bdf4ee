import Mathlib.Algebra.Order.Field.Power
import Mathlib.Algebra.Order.Ring.Rat
import Mathlib.Data.Int.Log
import Mathlib.Data.Rat.Floor
import Mathlib.Tactic.FieldSimp
import Mathlib.Tactic.Linarith
import Mathlib.Tactic.NormNum
import Mathlib.Tactic.Ring

/-!
# Doubles and their decimals

The magnitudes of 64-bit floats as rationals, and the 17 significant decimal digits
that determine one: it is nearer to them than any other magnitude. Exponents are not
bounded above, as when an overflow is told from a rounded result.
-/

namespace Binary64

/-- 53 binary digits, or fewer at the least exponent. -/
def Magnitude (q : ℚ) : Prop :=
  ∃ (m : Nat) (e : Int), m < 2 ^ 53 ∧ -1074 ≤ e ∧ (e = -1074 ∨ 2 ^ 52 ≤ m) ∧ q = m * 2 ^ e

/-- The magnitude that a number is rounded to, without a tie. -/
def Nearest (x q : ℚ) : Prop :=
  Magnitude q ∧ ∀ q', Magnitude q' → q' ≠ q → |x - q| < |x - q'|

/-- The magnitude that a number is rounded to: the nearest, of two the even one. -/
def Rounds (x q : ℚ) : Prop :=
  Magnitude q ∧ ∀ q', Magnitude q' → q' ≠ q → |x - q| < |x - q'| ∨
    |x - q| = |x - q'| ∧ ∃ (m : Nat) (e : Int), Even m ∧ m < 2 ^ 53 ∧ -1074 ≤ e ∧
      (e = -1074 ∨ 2 ^ 52 ≤ m) ∧ q = m * 2 ^ e

/-- A magnitude is rounded to itself. -/
theorem Magnitude.rounds (h : Magnitude q) : Rounds q q := by
  refine ⟨h, fun q' _ hne => .inl ?_⟩
  rw [sub_self, abs_zero]
  exact abs_pos.mpr (sub_ne_zero.mpr hne.symm)

theorem Magnitude.nonneg (h : Magnitude q) : 0 ≤ q := by
  obtain ⟨m, e, -, -, -, rfl⟩ := h
  positivity

/-- Two magnitudes are apart by one unit in the last place of the smaller step. -/
theorem Magnitude.spacing (h : Magnitude q) (h' : Magnitude q') (hne : q ≠ q') :
    q / 2 ^ 53 ≤ |q - q'| := by
  obtain ⟨m, e, hm, -, hme, rfl⟩ := h
  obtain ⟨m', e', hm', he', -, rfl⟩ := h'
  have hmq : (m : ℚ) < 2 ^ 53 := by exact_mod_cast hm
  by_cases hle : e ≤ e'
  · -- Both are multiples of `2 ^ e`.
    have hpow : (2 : ℚ) ^ e' = 2 ^ (e' - e).toNat * 2 ^ e := by
      rw [← zpow_natCast, Int.toNat_of_nonneg (by omega), ← zpow_add₀ (by norm_num)]
      congr 1
      omega
    have hunit : (0 : ℚ) < 2 ^ e := by positivity
    have hdiff : (m : ℚ) * 2 ^ e - m' * 2 ^ e' =
        ((m - m' * 2 ^ (e' - e).toNat : Int) : ℚ) * 2 ^ e := by
      rw [hpow]
      push_cast
      ring
    have hint : (1 : ℚ) ≤ |((m - m' * 2 ^ (e' - e).toNat : Int) : ℚ)| := by
      have hne' : (m - m' * 2 ^ (e' - e).toNat : Int) ≠ 0 := by
        intro hzero
        rw [hzero, Int.cast_zero, zero_mul] at hdiff
        exact hne (sub_eq_zero.mp hdiff)
      exact_mod_cast Int.one_le_abs hne'
    rw [hdiff, abs_mul, abs_of_pos hunit]
    calc (m : ℚ) * 2 ^ e / 2 ^ 53 = m / 2 ^ 53 * 2 ^ e := by ring
      _ ≤ 1 * 2 ^ e := by
        gcongr
        rw [div_le_one (by positivity)]
        exact hmq.le
      _ ≤ _ := by gcongr
  · -- The other has a smaller step, so it lies below `2 ^ 53` halves of a unit.
    have hle' : e' ≤ e - 1 := by omega
    have hbig : (2 ^ 52 : ℚ) ≤ m := by
      have : 2 ^ 52 ≤ m := hme.resolve_left (by omega)
      exact_mod_cast this
    have hpow : (2 : ℚ) ^ e = 2 * 2 ^ (e - 1) := by
      rw [← zpow_one_add₀ (by norm_num)]
      congr 1
      omega
    have hunit : (0 : ℚ) < 2 ^ (e - 1) := by positivity
    have hlow : (m' : ℚ) * 2 ^ e' ≤ (2 ^ 53 - 1) * 2 ^ (e - 1) := by
      have hm1 : (m' : ℚ) ≤ 2 ^ 53 - 1 := by
        have : m' + 1 ≤ 2 ^ 53 := hm'
        have : (m' : ℚ) + 1 ≤ 2 ^ 53 := by exact_mod_cast this
        linarith
      have he1 : (2 : ℚ) ^ e' ≤ 2 ^ (e - 1) := zpow_le_zpow_right₀ (by norm_num) hle'
      gcongr
    have hslope : (m : ℚ) * 2 / 2 ^ 53 ≤ m * 2 - (2 ^ 53 - 1) := by
      have : (0 : ℚ) ≤ (m - 2 ^ 52) * (2 - 2 / 2 ^ 53) :=
        mul_nonneg (by linarith) (by norm_num)
      linarith
    calc (m : ℚ) * 2 ^ e / 2 ^ 53 = (m : ℚ) * 2 / 2 ^ 53 * 2 ^ (e - 1) := by
          rw [hpow]
          ring
      _ ≤ ((m : ℚ) * 2 - (2 ^ 53 - 1)) * 2 ^ (e - 1) := by gcongr
      _ = (m : ℚ) * 2 ^ e - (2 ^ 53 - 1) * 2 ^ (e - 1) := by
        rw [hpow]
        ring
      _ ≤ (m : ℚ) * 2 ^ e - m' * 2 ^ e' := by linarith
      _ ≤ _ := le_abs_self _

/-- A number less than half a step away is rounded to the magnitude. -/
theorem Magnitude.nearest (h : Magnitude q) (hx : 2 * |x - q| < q / 2 ^ 53) : Nearest x q := by
  refine ⟨h, fun q' h' hne => ?_⟩
  have hsep := h.spacing h' hne.symm
  have htri : |q - q'| ≤ |x - q| + |x - q'| := by
    rw [abs_sub_comm x q]
    exact abs_sub_le q x q'
  linarith

-- ---------------------------------------------------------------------------
-- Seventeen digits
-- ---------------------------------------------------------------------------

/-- The nearest integer, the even one of two. -/
def roundHalfEven (x : ℚ) : Nat :=
  if x - ⌊x⌋₊ < 1 / 2 then ⌊x⌋₊
  else if 1 / 2 < x - ⌊x⌋₊ then ⌊x⌋₊ + 1
  else if ⌊x⌋₊ % 2 = 0 then ⌊x⌋₊ else ⌊x⌋₊ + 1

theorem abs_roundHalfEven_sub_le (h : 0 ≤ x) : |(roundHalfEven x : ℚ) - x| ≤ 1 / 2 := by
  have hlow := Nat.floor_le h
  have hhigh := Nat.lt_floor_add_one x
  rw [abs_le, roundHalfEven]
  split_ifs
  · constructor <;> linarith
  · push_cast
    constructor <;> linarith
  · constructor <;> linarith
  · push_cast
    constructor <;> linarith

/-- Seventeen digits and the exponent of the first. -/
def scientific (x : ℚ) : Nat × Int :=
  if x = 0 then (0, 0)
  else
    let k := Int.log 10 x
    let n := roundHalfEven (x / 10 ^ (k - 16))
    if n = 10 ^ 17 then (10 ^ 16, k + 1) else (n, k)

/-- The number that digits before and after a point write. -/
def decimalValue (d : Nat × Int) : ℚ := d.1 * 10 ^ (d.2 - 16)

/-- The digits are off by half a unit of the last one at most. -/
theorem abs_decimalValue_sub_le (h : 0 < x) :
    |decimalValue (scientific x) - x| ≤ 10 ^ (Int.log 10 x - 16) / 2 := by
  have hunit : (0 : ℚ) < 10 ^ (Int.log 10 x - 16) := by positivity
  have hround : |(roundHalfEven (x / 10 ^ (Int.log 10 x - 16)) : ℚ) * 10 ^ (Int.log 10 x - 16) - x| ≤
      10 ^ (Int.log 10 x - 16) / 2 := by
    have hr := abs_roundHalfEven_sub_le (x := x / 10 ^ (Int.log 10 x - 16)) (by positivity)
    have heq : (roundHalfEven (x / 10 ^ (Int.log 10 x - 16)) : ℚ) * 10 ^ (Int.log 10 x - 16) - x =
        (roundHalfEven (x / 10 ^ (Int.log 10 x - 16)) - x / 10 ^ (Int.log 10 x - 16)) *
          10 ^ (Int.log 10 x - 16) := by
      rw [sub_mul, div_mul_cancel₀ _ hunit.ne']
    rw [heq, abs_mul, abs_of_pos hunit]
    calc _ ≤ 1 / 2 * (10 : ℚ) ^ (Int.log 10 x - 16) := by gcongr
      _ = _ := by ring
  rw [scientific, if_neg h.ne']
  simp only
  split_ifs with hn
  · -- A carry into an eighteenth digit moves the point.
    have hcarry : decimalValue (10 ^ 16, Int.log 10 x + 1) =
        ((10 ^ 17 : Nat) : ℚ) * 10 ^ (Int.log 10 x - 16) := by
      have hpow : (10 : ℚ) ^ (Int.log 10 x + 1 - 16) = 10 * 10 ^ (Int.log 10 x - 16) := by
        rw [← zpow_one_add₀ (by norm_num)]
        congr 1
        omega
      rw [decimalValue, hpow]
      push_cast
      ring
    rw [hcarry, ← hn]
    exact hround
  · exact hround

/-- Seventeen digits determine a magnitude. -/
theorem Magnitude.nearest_scientific (h : Magnitude q) :
    Nearest (decimalValue (scientific q)) q := by
  by_cases hzero : q = 0
  · subst hzero
    refine ⟨h, fun q' _ hne => ?_⟩
    simpa [scientific, decimalValue] using hne
  have hpos : 0 < q := lt_of_le_of_ne h.nonneg (Ne.symm hzero)
  refine h.nearest ?_
  have hlog : (10 : ℚ) ^ Int.log 10 q ≤ q := by
    exact_mod_cast Int.zpow_log_le_self (b := 10) (by norm_num) hpos
  have hsplit : (10 : ℚ) ^ (Int.log 10 q - 16) = 10 ^ Int.log 10 q / 10 ^ 16 := by
    rw [zpow_sub₀ (by norm_num)]
    norm_cast
  have hbound := abs_decimalValue_sub_le hpos
  calc 2 * |decimalValue (scientific q) - q| ≤ 10 ^ (Int.log 10 q - 16) := by linarith
    _ = 10 ^ Int.log 10 q / 10 ^ 16 := hsplit
    _ ≤ q / 10 ^ 16 := by gcongr
    _ < q / 2 ^ 53 := by
      gcongr
      norm_num

/-- At most seventeen digits. -/
theorem scientific_lt (h : 0 ≤ x) : (scientific x).1 < 10 ^ 17 := by
  rw [scientific]
  split_ifs with hzero
  · norm_num
  simp only
  split_ifs with hn
  · norm_num
  have hpos : 0 < x := lt_of_le_of_ne h (Ne.symm hzero)
  have hunit : (0 : ℚ) < 10 ^ (Int.log 10 x - 16) := by positivity
  have hlt : x / 10 ^ (Int.log 10 x - 16) < 10 ^ 17 := by
    rw [div_lt_iff₀ hunit]
    have hlog := Int.lt_zpow_succ_log_self (b := 10) (by norm_num) x
    have hpow : ((10 : Nat) : ℚ) ^ (Int.log 10 x + 1) = 10 ^ 17 * 10 ^ (Int.log 10 x - 16) := by
      rw [← zpow_natCast, ← zpow_add₀ (by norm_num)]
      push_cast
      congr 1
      omega
    rwa [hpow] at hlog
  have hround := abs_roundHalfEven_sub_le (x := x / 10 ^ (Int.log 10 x - 16)) (by positivity)
  have hle : (roundHalfEven (x / 10 ^ (Int.log 10 x - 16)) : ℚ) < (10 ^ 17 + 1 : Nat) := by
    push_cast
    linarith [(abs_le.mp hround).2]
  have hle' := Nat.lt_succ_iff.mp (Nat.cast_lt.mp hle)
  exact lt_of_le_of_ne hle' hn

-- ---------------------------------------------------------------------------
-- Bit patterns
-- ---------------------------------------------------------------------------

def exponentBits (bits : UInt64) : Nat := bits.toNat / 2 ^ 52 % 2 ^ 11

def fractionBits (bits : UInt64) : Nat := bits.toNat % 2 ^ 52

def isFinite (bits : UInt64) : Bool := exponentBits bits ≠ 2047

def negative (bits : UInt64) : Bool := 2 ^ 63 ≤ bits.toNat

/-- The absolute value of a finite float. -/
def magnitude (bits : UInt64) : ℚ :=
  if exponentBits bits = 0 then fractionBits bits * 2 ^ (-1074 : Int)
  else (2 ^ 52 + fractionBits bits : Nat) * 2 ^ ((exponentBits bits : Int) - 1075)

theorem magnitude_isMagnitude (bits : UInt64) : Magnitude (magnitude bits) := by
  have hf : fractionBits bits < 2 ^ 52 := Nat.mod_lt _ (by norm_num)
  rw [magnitude]
  split_ifs with he
  · exact ⟨fractionBits bits, -1074, by omega, le_refl _, .inl rfl, rfl⟩
  · exact ⟨2 ^ 52 + fractionBits bits, exponentBits bits - 1075, by omega, by omega,
      .inr (by omega), rfl⟩

end Binary64
