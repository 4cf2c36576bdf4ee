import Mathlib.Logic.Relation
import UrWeb.Iflow.Facts

/-!
# Models of the fact base

What the atoms and the relations of the fact base stand for, and which of the
atoms' literals stand for one constant.
-/

namespace UrWeb

-- ---------------------------------------------------------------------------
-- The constants of literals
-- ---------------------------------------------------------------------------

/-- The float a bit pattern stands for: there is one NaN and one zero. -/
def floatValue (bits : UInt64) : UInt64 :=
  if floatIsNaN bits then 0x7FF8000000000000
  else if bits &&& 0x7FFFFFFFFFFFFFFF = 0 then 0
  else bits

/-- The constant of a literal. The mode of a string only says how to print it. -/
def Prim.value : Prim → Prim
  | .int n => .int n
  | .float bits => .float (floatValue bits)
  | .string _ s => .string .normal s
  | .char c => .char c

theorem floatIsNaN_value (x : UInt64) : floatIsNaN (floatValue x) = floatIsNaN x := by
  unfold floatValue
  split
  · next h => rw [h]; rfl
  · split
    · next h h' => simp [floatIsNaN, h']
    · rfl

theorem floatValue_value (x : UInt64) : floatValue (floatValue x) = floatValue x := by
  rw [floatValue, floatIsNaN_value]
  by_cases hn : floatIsNaN x = true
  · simp [floatValue, hn]
  · by_cases h0 : x &&& 0x7FFFFFFFFFFFFFFF = 0 <;> simp [floatValue, hn, h0]

theorem floatValue_eq_of_eq (h : floatEq x y = true) : floatValue x = floatValue y := by
  simp only [floatEq, Bool.and_eq_true, Bool.not_eq_true', Bool.or_eq_true,
    decide_eq_true_eq] at h
  obtain ⟨⟨hx, hy⟩, rfl | h0⟩ := h
  · rfl
  · obtain ⟨ha, hb⟩ := or_and_eq_zero.mp h0
    simp [floatValue, hx, hy, ha, hb]

theorem floatEq_of_value_eq (hx : floatIsNaN x = false) (h : floatValue x = floatValue y) :
    floatEq x y = true := by
  have hy : floatIsNaN y = false := by rw [← floatIsNaN_value, ← h, floatIsNaN_value, hx]
  simp only [floatValue, hx, hy, Bool.false_eq_true, if_false] at h
  simp only [floatEq, hx, hy, Bool.not_false, Bool.true_and, Bool.or_eq_true, decide_eq_true_eq]
  split at h <;> split at h
  · next h1 h2 => exact .inr (or_and_eq_zero.mpr ⟨h1, h2⟩)
  · next h1 h2 =>
    subst h
    simp at h2
  · next h1 h2 =>
    subst h
    simp at h1
  · exact .inl h

@[simp] theorem value_value (p : Prim) : p.value.value = p.value := by
  cases p <;> simp [Prim.value, floatValue_value]

theorem cmpEqual_of_eq {p q : Prim} (h : p.eq q = true) : p.cmpEqual q = true := by
  cases p <;> cases q <;> simp_all [Prim.eq, Prim.cmpEqual]

/-- No NaN stands next to a float that is a number. The order of the literals
takes the two for equal. -/
def FloatsApart (ps : Prim → Prop) : Prop :=
  ∀ x y, ps (.float x) → ps (.float y) → floatIsNaN x = floatIsNaN y

theorem cmpEqual_iff_value {p q : Prim} (ha : FloatsApart ps) (hp : ps p) (hq : ps q) :
    p.cmpEqual q = true ↔ p.value = q.value := by
  cases p <;> cases q <;> try simp [Prim.cmpEqual, Prim.value]
  rename_i x y
  have hn : floatIsNaN x = floatIsNaN y := ha x y hp hq
  cases hx : floatIsNaN x with
  | true => simp [floatValue, hx, hn ▸ hx]
  | false =>
    rw [hx] at hn
    simp only [← hn, Bool.false_eq_true, false_or]
    exact ⟨floatValue_eq_of_eq, floatEq_of_value_eq hx⟩

namespace Iflow

-- ---------------------------------------------------------------------------
-- The constants of atoms
-- ---------------------------------------------------------------------------

mutual
/-- The literals of the atom are among `ps`. -/
def Atom.Over (ps : Prim → Prop) : Atom → Prop
  | .const p => ps p
  | .var _ | .lvar _ => True
  | .func _ args => OverArgs ps args
  | .recd fields => OverFields ps fields
  | .proj e _ => e.Over ps
def OverArgs (ps : Prim → Prop) : List Atom → Prop
  | [] => True
  | a :: as => a.Over ps ∧ OverArgs ps as
def OverFields (ps : Prim → Prop) : List (String × Atom) → Prop
  | [] => True
  | (_, a) :: xs => a.Over ps ∧ OverFields ps xs
end

mutual
/-- The atom with its literals replaced by their constants. -/
def Atom.value : Atom → Atom
  | .const p => .const p.value
  | .var n => .var n
  | .lvar n => .lvar n
  | .func f args => .func f (valueArgs args)
  | .recd fields => .recd (valueFields fields)
  | .proj e x => .proj e.value x
def valueArgs : List Atom → List Atom
  | [] => []
  | a :: as => a.value :: valueArgs as
def valueFields : List (String × Atom) → List (String × Atom)
  | [] => []
  | (x, a) :: xs => (x, a.value) :: valueFields xs
end

theorem overArgs_iff : OverArgs ps as ↔ ∀ a ∈ as, a.Over ps := by
  induction as with
  | nil => simp [OverArgs]
  | cons a as ih => simp [OverArgs, ih]

theorem overFields_iff : OverFields ps xs ↔ ∀ f ∈ xs, f.2.Over ps := by
  induction xs with
  | nil => simp [OverFields]
  | cons f xs ih => simp [OverFields, ih]

section
variable {ps : Prim → Prop} {p : Prim → Prim → Bool}
variable (hp : ∀ x y, ps x → ps y → (p x y = true ↔ x.value = y.value))
include hp

mutual
theorem compare_iff_value : ∀ a b : Atom, a.Over ps → b.Over ps →
    (a.compare p b = true ↔ a.value = b.value)
  | .const x, b, ha, hb => by
    cases b with
    | const y => simpa [Atom.compare, Atom.value] using hp x y ha hb
    | _ => simp [Atom.compare, Atom.value]
  | .var m, b, _, _ | .lvar m, b, _, _ => by
    cases b <;> simp [Atom.compare, Atom.value]
  | .func f as, b, ha, hb => by
    cases b with
    | func g bs => simp [Atom.compare, Atom.value, compareArgs_iff_value as bs ha hb]
    | _ => simp [Atom.compare, Atom.value]
  | .recd xs, b, ha, hb => by
    cases b with
    | recd ys => simp [Atom.compare, Atom.value, compareFields_iff_value xs ys ha hb]
    | _ => simp [Atom.compare, Atom.value]
  | .proj a x, b, ha, hb => by
    cases b with
    | proj b y => simp [Atom.compare, Atom.value, compare_iff_value a b ha hb]
    | _ => simp [Atom.compare, Atom.value]
theorem compareArgs_iff_value : ∀ as bs : List Atom, OverArgs ps as → OverArgs ps bs →
    (compareArgs p as bs = true ↔ valueArgs as = valueArgs bs)
  | [], bs, _, _ => by cases bs <;> simp [compareArgs, valueArgs]
  | a :: as, bs, ha, hb => by
    cases bs with
    | nil => simp [compareArgs, valueArgs]
    | cons b bs =>
      simp [compareArgs, valueArgs, compare_iff_value a b ha.1 hb.1,
        compareArgs_iff_value as bs ha.2 hb.2]
theorem compareFields_iff_value : ∀ xs ys : List (String × Atom), OverFields ps xs →
    OverFields ps ys → (compareFields p xs ys = true ↔ valueFields xs = valueFields ys)
  | [], ys, _, _ => by cases ys <;> simp [compareFields, valueFields]
  | (x, a) :: xs, ys, ha, hb => by
    cases ys with
    | nil => simp [compareFields, valueFields]
    | cons f ys =>
      obtain ⟨y, b⟩ := f
      simp [compareFields, valueFields, compare_iff_value a b ha.1 hb.1,
        compareFields_iff_value xs ys ha.2 hb.2]
end
end

section
variable {p q : Prim → Prim → Bool} (h : ∀ x y, p x y = true → q x y = true)
include h

mutual
theorem compare_mono : ∀ a b : Atom, a.compare p b = true → a.compare q b = true
  | .const x, b, hc => by
    cases b with
    | const y => exact h x y hc
    | _ => simp [Atom.compare] at hc
  | .var m, b, hc | .lvar m, b, hc => by
    cases b <;> simp_all [Atom.compare]
  | .func f as, b, hc => by
    cases b with
    | func g bs =>
      simp only [Atom.compare, Bool.and_eq_true] at hc ⊢
      exact ⟨hc.1, compareArgs_mono as bs hc.2⟩
    | _ => simp [Atom.compare] at hc
  | .recd xs, b, hc => by
    cases b with
    | recd ys => exact compareFields_mono xs ys hc
    | _ => simp [Atom.compare] at hc
  | .proj a x, b, hc => by
    cases b with
    | proj b y =>
      simp only [Atom.compare, Bool.and_eq_true] at hc ⊢
      exact ⟨compare_mono a b hc.1, hc.2⟩
    | _ => simp [Atom.compare] at hc
theorem compareArgs_mono : ∀ as bs : List Atom,
    compareArgs p as bs = true → compareArgs q as bs = true
  | [], bs, hc => by cases bs <;> simp_all [compareArgs]
  | a :: as, bs, hc => by
    cases bs with
    | nil => simp [compareArgs] at hc
    | cons b bs =>
      simp only [compareArgs, Bool.and_eq_true] at hc ⊢
      exact ⟨compare_mono a b hc.1, compareArgs_mono as bs hc.2⟩
theorem compareFields_mono : ∀ xs ys : List (String × Atom),
    compareFields p xs ys = true → compareFields q xs ys = true
  | [], ys, hc => by cases ys <;> simp_all [compareFields]
  | (x, a) :: xs, ys, hc => by
    cases ys with
    | nil => simp [compareFields] at hc
    | cons f ys =>
      obtain ⟨y, b⟩ := f
      simp only [compareFields, Bool.and_eq_true] at hc ⊢
      exact ⟨⟨hc.1.1, compare_mono a b hc.1.2⟩, compareFields_mono xs ys hc.2⟩
end
end

/-- Among atoms whose floats are apart, those of one key have one value. -/
theorem sameKey_iff (ha : FloatsApart ps) {a b : Atom} (hx : a.Over ps) (hy : b.Over ps) :
    a.sameKey b = true ↔ a.value = b.value :=
  compare_iff_value (fun _ _ hp hq => cmpEqual_iff_value ha hp hq) a b hx hy

theorem value_eq_of_eq (ha : FloatsApart ps) {a b : Atom} (hx : a.Over ps) (hy : b.Over ps)
    (h : a.eq b = true) : a.value = b.value :=
  (sameKey_iff ha hx hy).mp (compare_mono (fun _ _ => cmpEqual_of_eq) a b h)

-- ---------------------------------------------------------------------------
-- Models
-- ---------------------------------------------------------------------------

/-- How a value is built. -/
inductive Shape
  | const
  | dtCon0 (f : String)
  | dtCon1 (f : String)
  | record

def Shape.variety : Shape → Nat
  | .const => 0
  | .dtCon0 _ => 1
  | .dtCon1 _ => 2
  | .record => 3

/-- What the symbols stand for, and which values are known. Distinct constants
and constructors differ, records have their fields, and the known values are
closed under building and taking apart constructors, building records and
projecting fields. -/
structure Model where
  V : Type u
  const : Prim → V
  var : Nat → V
  lvar : Nat → V
  func : Func → List V → V
  record : List (String × V) → V
  proj : V → String → V
  /-- The comparison of `Ge`. -/
  Ge : V → V → Prop
  Known : V → Prop
  /-- The relations that the fact base does not look at. -/
  Other : Reln → List V → Prop
  shape : V → Option Shape
  const_inj : const p = const q ↔ p.value = q.value
  dtCon0_args : func (.dtCon0 f) vs = func (.dtCon0 f) []
  shape_const : shape (const p) = some .const
  shape_dtCon0 : shape (func (.dtCon0 f) vs) = some (.dtCon0 f)
  shape_dtCon1 : shape (func (.dtCon1 f) vs) = some (.dtCon1 f)
  shape_record : shape (record xs) = some .record
  proj_record : xs.lookup x = some v → proj (record xs) x = v
  ge_trans : Ge u v → Ge v w → Ge u w
  ge_int : Ge (const (.int m)) (const (.int n)) ↔ n ≤ m
  known_const : Known (const p)
  known_dtCon0 : Known (func (.dtCon0 f) vs)
  known_dtCon1 : Known (func (.dtCon1 f) vs) ↔ ∀ v ∈ vs, Known v
  known_record : (∀ f ∈ xs, Known f.2) → Known (record xs)
  known_proj : Known v → Known (proj v x)

namespace Model

variable (M : Model)

mutual
def eval : Atom → M.V
  | .const p => M.const p
  | .var n => M.var n
  | .lvar n => M.lvar n
  | .func f args => M.func f (evalArgs args)
  | .recd fields => M.record (evalFields fields)
  | .proj e x => M.proj (eval e) x
def evalArgs : List Atom → List M.V
  | [] => []
  | a :: as => eval a :: evalArgs as
def evalFields : List (String × Atom) → List (String × M.V)
  | [] => []
  | (x, a) :: xs => (x, eval a) :: evalFields xs
end

/-- What it takes for a fact to hold. -/
def Holds : Reln → List Atom → Prop
  | .known, [e] => M.Known (M.eval e)
  | .eq, [e1, e2] => M.eval e1 = M.eval e2
  | .pCon0 f, [e] => M.eval e = M.func (.dtCon0 f) []
  | .pCon1 f, [e] => ∃ vs, M.eval e = M.func (.dtCon1 f) vs
  | .ge, [e1, e2] => M.Ge (M.eval e1) (M.eval e2)
  | r, args => M.Other r (M.evalArgs args)

/-- What can be built from `bases`: what is known, the bases themselves, and
whatever constructors, records and functions make of these. -/
inductive Built (bases : List Atom) : M.V → Prop
  | known : M.Known v → Built bases v
  | base : b ∈ bases → Built bases (M.eval b)
  | dtCon1 : (∀ v ∈ vs, Built bases v) → Built bases (M.func (.dtCon1 f) vs)
  | record : (∀ f ∈ xs, Built bases f.2) → Built bases (M.record xs)
  | other : (∀ v ∈ vs, Built bases v) → Built bases (M.func (.other f) vs)

variable {M : Model}

theorem evalArgs_eq : M.evalArgs as = as.map M.eval := by
  induction as with
  | nil => rfl
  | cons a as ih => simp [evalArgs, ih]

theorem evalFields_eq : M.evalFields xs = xs.map fun f => (f.1, M.eval f.2) := by
  induction xs with
  | nil => rfl
  | cons f xs ih => simp [evalFields, ih]

theorem lookup_evalFields : (M.evalFields xs).lookup x = (xs.lookup x).map M.eval := by
  induction xs with
  | nil => rfl
  | cons f xs ih =>
    obtain ⟨y, a⟩ := f
    simp only [evalFields, List.lookup_cons]
    split <;> simp [ih]

theorem known_field {fields : List (String × Atom)} (hl : fields.lookup x = some b)
    (h : M.Known (M.eval (.recd fields))) : M.Known (M.eval b) := by
  have hb : (M.evalFields fields).lookup x = some (M.eval b) := by
    rw [lookup_evalFields, hl]
    rfl
  rw [← M.proj_record hb]
  exact M.known_proj h

mutual
theorem eval_value : ∀ a : Atom, M.eval a.value = M.eval a
  | .const p => M.const_inj.mpr (UrWeb.value_value p)
  | .var _ | .lvar _ => rfl
  | .func f args => by
    simp only [Atom.value, eval]
    rw [evalArgs_value args]
  | .recd fields => by
    simp only [Atom.value, eval]
    rw [evalFields_value fields]
  | .proj e x => by
    simp only [Atom.value, eval]
    rw [eval_value e]
theorem evalArgs_value : ∀ as, M.evalArgs (valueArgs as) = M.evalArgs as
  | [] => rfl
  | a :: as => by
    simp only [valueArgs, evalArgs]
    rw [eval_value a, evalArgs_value as]
theorem evalFields_value : ∀ xs, M.evalFields (valueFields xs) = M.evalFields xs
  | [] => rfl
  | (x, a) :: xs => by
    simp only [valueFields, evalFields]
    rw [eval_value a, evalFields_value xs]
end

theorem eval_eq_of_value {a b : Atom} (h : a.value = b.value) : M.eval a = M.eval b := by
  rw [← eval_value a, h, eval_value b]

end Model

end Iflow

end UrWeb
