import Mathlib.Algebra.Group.Int.Defs
import Mathlib.Algebra.Group.Nat.Defs
import UrWeb.Mono.Semantics
import UrWeb.Mono.Typing

/-!
# Numeric narrowing

Finds declarations whose value is a known number, and the smallest numeric type
that holds it. What the pass reports about a float is on its bit pattern.
-/

namespace UrWeb

-- ---------------------------------------------------------------------------
-- Narrowed numeric types
-- ---------------------------------------------------------------------------

inductive IntWidth
  | i8
  | i16
  | i32
  | i64
  deriving DecidableEq, Repr

inductive UintWidth
  | u8
  | u16
  | u32
  | u64
  deriving DecidableEq, Repr

inductive FloatWidth
  | f32
  | f64
  deriving DecidableEq, Repr

inductive NarrowedNumeric
  | int (w : IntWidth)
  | uint (w : UintWidth)
  | float (w : FloatWidth)
  deriving DecidableEq, Repr

def narrowIntWidth (n : Int64) : IntWidth :=
  if -128 ≤ n ∧ n ≤ 127 then .i8
  else if -32768 ≤ n ∧ n ≤ 32767 then .i16
  else if -2147483648 ≤ n ∧ n ≤ 2147483647 then .i32
  else .i64

def narrowUintWidth (n : UInt64) : UintWidth :=
  if n ≤ 255 then .u8
  else if n ≤ 65535 then .u16
  else if n ≤ 4294967295 then .u32
  else .u64

/-- To single precision and back. -/
def throughSingle (bits : UInt64) : UInt64 := (Float.ofBits bits).toFloat32.toFloat.toBits

def narrowFloatWidth (bits : UInt64) : FloatWidth :=
  if throughSingle bits = bits then .f32 else .f64

def NarrowedNumeric.fromPrim : Prim → Option NarrowedNumeric
  | .float bits => some (.float (narrowFloatWidth bits))
  | .int n => if 0 ≤ n then some (.uint (narrowUintWidth n.toUInt64))
    else some (.int (narrowIntWidth n))
  | .string _ _ | .char _ => none

end UrWeb

namespace UrWeb.Mono

-- ---------------------------------------------------------------------------
-- Arithmetic on known literals
-- ---------------------------------------------------------------------------

/-- An integer result, when it is in range. -/
def checkedInt (z : Int) : Option Int64 :=
  if -2 ^ 63 ≤ z ∧ z < 2 ^ 63 then some (Int64.ofInt z) else none

def floatOp (f : Float → Float → Float) (a b : UInt64) : UInt64 :=
  (f (Float.ofBits a) (Float.ofBits b)).toBits

def floatNeg (a : UInt64) : UInt64 := (-Float.ofBits a).toBits

def evalBinopPrim (op : String) : Prim → Prim → Option Prim
  | .int a, .int b =>
    let result := match op with
      | "+" => checkedInt (a.toInt + b.toInt)
      | "-" => checkedInt (a.toInt - b.toInt)
      | "*" => checkedInt (a.toInt * b.toInt)
      | "/" => if b = 0 then none else checkedInt (a.toInt.tdiv b.toInt)
      -- the remainder of the least integer by -1 counts as an overflow
      | "%" => if b = 0 ∨ (a = Int64.minValue ∧ b = -1) then none
        else checkedInt (a.toInt.tmod b.toInt)
      | _ => none
    result.map .int
  | .float a, .float b =>
    match op with
    | "+" => some (.float (floatOp (· + ·) a b))
    | "-" => some (.float (floatOp (· - ·) a b))
    | "*" => some (.float (floatOp (· * ·) a b))
    | "/" => some (.float (floatOp (· / ·) a b))
    | _ => none
  | _, _ => none

def evalUnopPrim (op : String) : Prim → Option Prim
  | .int n => match op with
    | "-" => (checkedInt (-n.toInt)).map .int
    | _ => none
  | .float f => match op with
    | "-" => some (.float (floatNeg f))
    | _ => none
  | _ => none

-- ---------------------------------------------------------------------------
-- Known values
-- ---------------------------------------------------------------------------

/-- Equality of literals as data: two strings need one mode. -/
def primSame : Prim → Prim → Bool
  | .string m a, .string m' b => m = m' ∧ a = b
  | p, q => primEq p q

/-- Only literal patterns are looked at. -/
def patternMatchesPrim : Pat → Prim → Bool
  | .prim p, discriminant => primSame p discriminant
  | _, _ => false

/-- The known values of the local variables, innermost first, and the narrowed
types of the global names. -/
structure NarrowEnv where
  relValues : List (Option Prim)
  namedNarrowings : Nat → Option NarrowedNumeric

/-- The narrowed types of the declarations, by id. -/
abbrev NarrowingTable := Nat → Option NarrowedNumeric

namespace NarrowEnv

def new : NarrowEnv := ⟨[], fun _ => none⟩

def withTable (env : NarrowEnv) (table : NarrowingTable) : NarrowEnv :=
  { env with namedNarrowings := table }

def pushUnknown (env : NarrowEnv) : NarrowEnv := { env with relValues := none :: env.relValues }

def pushKnown (env : NarrowEnv) (p : Prim) : NarrowEnv :=
  { env with relValues := some p :: env.relValues }

/-- Push what is known of a binding. -/
def push (env : NarrowEnv) : Option Prim → NarrowEnv
  | some p => env.pushKnown p
  | none => env.pushUnknown

mutual
def knownPrim (env : NarrowEnv) : Exp → Option Prim
  | .prim p => some p
  | .rel depth => env.relValues[depth]?.join
  | .named _ => none
  | .letIn _ _ boundExp bodyExp => knownPrim (env.push (knownPrim env boundExp)) bodyExp
  | .app (.abs _ _ _ bodyExp) argumentExp =>
    knownPrim (env.push (knownPrim env argumentExp)) bodyExp
  | .binop _ op leftExp rightExp => do
    let leftPrim ← knownPrim env leftExp
    let rightPrim ← knownPrim env rightExp
    evalBinopPrim op leftPrim rightPrim
  | .unop op operandExp => do
    let operandPrim ← knownPrim env operandExp
    evalUnopPrim op operandPrim
  | .case scrutineeExp arms _ => do
    let scrutineePrim ← knownPrim env scrutineeExp
    knownArms env scrutineePrim arms
  | .strcat leftExp rightExp => do
    let leftPrim ← knownPrim env leftExp
    let rightPrim ← knownPrim env rightExp
    match leftPrim, rightPrim with
    | .string _ a, .string _ b => some (.string .normal (a ++ b))
    | _, _ => none
  | _ => none
def knownArms (env : NarrowEnv) (scrutineePrim : Prim) : List (Pat × Exp) → Option Prim
  | [] => none
  | (pattern, bodyExp) :: arms =>
    if patternMatchesPrim pattern scrutineePrim then knownPrim env bodyExp
    else knownArms env scrutineePrim arms
end

def narrowExp (env : NarrowEnv) : Exp → Option NarrowedNumeric
  | .named id => env.namedNarrowings id
  | exp => (knownPrim env exp).bind NarrowedNumeric.fromPrim

end NarrowEnv

-- ---------------------------------------------------------------------------
-- The file
-- ---------------------------------------------------------------------------

def analyzeBinding (table : NarrowingTable) (vi : ValBinding) : NarrowingTable :=
  match (NarrowEnv.new.withTable table).narrowExp vi.e with
  | some narrowed => Function.update table vi.n (some narrowed)
  | none => table

def analyzeDecl (table : NarrowingTable) (d : Decl) : NarrowingTable :=
  d.bindings.foldl analyzeBinding table

def analyze (file : File) : NarrowingTable := file.1.foldl analyzeDecl fun _ => none

end UrWeb.Mono
