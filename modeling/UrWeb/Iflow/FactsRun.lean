import UrWeb.Iflow.FactsSound

/-!
# Runs of the fact base

Calls on the database one after the other, and what their answers say about the
models of what has been asserted.
-/

namespace UrWeb.Iflow

open Failing

-- ---------------------------------------------------------------------------
-- Calls
-- ---------------------------------------------------------------------------

inductive Call
  | assertReln (r : Reln) (args : List Atom)
  | union (a b : Atom)
  | checkReln (r : Reln) (args : List Atom)
  | isKnown (a : Atom)
  | builtFrom (bases : List Atom) (derived : Atom)

namespace Call

def run (n : Nat) : Call → Failing CcDb Bool
  | .assertReln r args => CcDb.assertReln n r args
  | .union a b => CcDb.union n a b
  | .checkReln r args => CcDb.checkReln n r args
  | .isKnown a => CcDb.isKnown n a
  | .builtFrom bases derived => CcDb.builtFrom n bases derived

def atoms : Call → List Atom
  | .assertReln _ args | .checkReln _ args => args
  | .union a b => [a, b]
  | .isKnown a => [a]
  | .builtFrom bases derived => derived :: bases

/-- The call marks nothing as known without a reason. -/
def Quiet (ps : Prim → Prop) (db : CcDb) : Call → Prop
  | .assertReln r args => db.QuietAssert ps r args
  | .union a b => db.QuietUnion ps a b
  | _ => True

/-- What the call adds to the facts. -/
def Asserts (M : Model) : Call → Prop
  | .assertReln r args => M.Holds r args
  | .union a b => M.eval a = M.eval b
  | _ => True

/-- The answer is right in a model of the facts so far: a fact that may be added
is not refused, and a fact that is confirmed holds. -/
def Right (M : Model) : Call → Bool → Prop
  | .assertReln r args, ok => M.Holds r args → ok = true
  | .union a b, ok => M.eval a = M.eval b → ok = true
  | .checkReln r args, b => b = true → M.Holds r args
  | .isKnown a, b => b = true → M.Known (M.eval a)
  | .builtFrom bases derived, b => b = true → M.Built bases (M.eval derived)

end Call

/-- What a run of calls, the latest first, makes of the empty database. Each call
meets `ok` in the state it finds. -/
inductive Run (ok : CcDb → Call → Prop) : List (Call × Bool) → CcDb → Prop
  | empty : Run ok [] .empty
  | call : Run ok calls db → ok db c → c.run n db = (some b, db') → Run ok ((c, b) :: calls) db'

section
variable {ps : Prim → Prop} {M : Model} {db : CcDb} (hps : FloatsApart ps)
include hps

theorem Call.right (n : Nat) (c : Call) (hs : db.Sound ps M) (hc : ∀ a ∈ c.atoms, a.Over ps) :
    CcDb.Ends (c.run n) db fun b _ => c.Right M b := by
  cases c with
  | assertReln r args =>
    refine CcDb.Ends.imp fun hh => ?_
    exact (CcDb.assertReln_spec hps n hs hc hh).conseq (fun _ _ h => h.1) fun _ h => h
  | union a b =>
    refine CcDb.Ends.imp fun he => ?_
    exact (CcDb.union_spec hps n (.refl hs) rfl (hc a (by simp [atoms])) (hc b (by simp [atoms]))
      he).conseq (fun _ _ h => h.1) fun _ h => h
  | checkReln r args =>
    exact (CcDb.checkReln_spec hps n hs hc).conseq (fun _ _ h => h.2) fun _ h => h
  | isKnown a =>
    exact (CcDb.isKnown_spec hps n (.refl hs) (hc a (by simp [atoms]))).conseq
      (fun _ _ h => h.2) fun _ h => h
  | builtFrom bases derived =>
    exact (CcDb.builtFrom_spec hps n (.refl hs) (fun b hb => hc b (List.mem_cons_of_mem _ hb))
      (hc derived List.mem_cons_self)).conseq (fun _ _ h => h.2) fun _ h => h

/-- A quiet call on a sound database leaves one, in the models of what it asserts. -/
theorem Call.sound (n : Nat) (c : Call) (hs : db.Sound ps M) (hc : ∀ a ∈ c.atoms, a.Over ps)
    (hq : c.Quiet ps db) (hm : c.Asserts M) :
    CcDb.Ends (c.run n) db fun _ s' => s'.Sound ps M := by
  cases c with
  | assertReln r args =>
    exact (CcDb.assertReln_spec hps n hs hc hm).conseq (fun _ _ h => h.2 hq) fun _ h => h
  | union a b =>
    exact (CcDb.union_spec hps n (.refl hs) rfl (hc a (by simp [atoms])) (hc b (by simp [atoms]))
      hm).conseq (fun _ _ h => h.2 hq) fun _ h => h
  | checkReln r args =>
    exact (CcDb.checkReln_spec hps n hs hc).conseq (fun _ _ h => h.1) fun _ h => h
  | isKnown a =>
    exact (CcDb.isKnown_spec hps n (.refl hs) (hc a (by simp [atoms]))).conseq
      (fun _ _ h => h.1.toSound) fun _ h => h
  | builtFrom bases derived =>
    exact (CcDb.builtFrom_spec hps n (.refl hs) (fun b hb => hc b (List.mem_cons_of_mem _ hb))
      (hc derived List.mem_cons_self)).conseq (fun _ _ h => h.1.toSound) fun _ h => h

/-- Over a quiet run the database believes only what holds in the models of the
facts asserted. -/
theorem Run.sound (hr : Run (Call.Quiet ps) calls db)
    (hc : ∀ c ∈ calls, ∀ a ∈ c.1.atoms, a.Over ps) (hm : ∀ c ∈ calls, c.1.Asserts M) :
    db.Sound ps M := by
  induction hr with
  | empty => exact CcDb.sound_empty
  | @call calls db c n b db' _ hq hrun ih =>
    have hs : db.Sound ps M :=
      ih (fun c hcs => hc c (List.mem_cons_of_mem _ hcs))
        fun c hcs => hm c (List.mem_cons_of_mem _ hcs)
    have hend := c.sound hps n hs (hc _ List.mem_cons_self) hq (hm _ List.mem_cons_self)
    rw [CcDb.Ends, Triple, hrun] at hend
    exact hend

end

-- ---------------------------------------------------------------------------
-- Values built of literals, constructors and records
-- ---------------------------------------------------------------------------

inductive Value
  | const (p : Prim)
  | dtCon0 (f : String)
  | dtCon1 (f : String) (vs : List Value)
  | record (xs : List (String × Value))
  | other (known : Bool)

namespace Value

mutual
def Known : Value → Prop
  | .const _ | .dtCon0 _ => True
  | .dtCon1 _ vs => KnownArgs vs
  | .record xs => KnownFields xs
  | .other known => known = true
def KnownArgs : List Value → Prop
  | [] => True
  | v :: vs => v.Known ∧ KnownArgs vs
def KnownFields : List (String × Value) → Prop
  | [] => True
  | (_, v) :: xs => v.Known ∧ KnownFields xs
end

theorem knownArgs_iff : KnownArgs vs ↔ ∀ v ∈ vs, v.Known := by
  induction vs with
  | nil => simp [KnownArgs]
  | cons v vs ih => simp [KnownArgs, ih]

theorem knownFields_iff : KnownFields xs ↔ ∀ f ∈ xs, f.2.Known := by
  induction xs with
  | nil => simp [KnownFields]
  | cons f xs ih => simp [KnownFields, ih]

/-- The field, which is public in a value that is no record. -/
def proj (v : Value) (x : String) : Value :=
  match v with
  | .record xs => (xs.lookup x).getD (.other true)
  | _ => .other true

theorem known_proj {v : Value} (hv : v.Known) : (v.proj x).Known := by
  unfold proj
  split
  · next xs =>
    cases hl : xs.lookup x with
    | none => exact rfl
    | some w =>
      obtain ⟨ys, zs, rfl, -⟩ := List.lookup_eq_some_iff.mp hl
      exact knownFields_iff.mp hv (x, w) (by simp)
  · exact rfl

def func : Func → List Value → Value
  | .dtCon0 f, _ => .dtCon0 f
  | .dtCon1 f, vs => .dtCon1 f vs
  | _, _ => .other true

def shape : Value → Option Shape
  | .const _ => some .const
  | .dtCon0 f => some (.dtCon0 f)
  | .dtCon1 f _ => some (.dtCon1 f)
  | .record _ => some .record
  | .other _ => none

/-- The model of these values with the given variables. -/
def model (var : Nat → Value) : Model where
  V := Value
  const p := .const p.value
  var := var
  lvar := var
  func := func
  record := .record
  proj := proj
  Ge v w := ∃ m n, v = .const (.int m) ∧ w = .const (.int n) ∧ n ≤ m
  Known := Known
  Other _ _ := True
  shape := shape
  const_inj := by simp
  dtCon0_args := rfl
  shape_const := rfl
  shape_dtCon0 := rfl
  shape_dtCon1 := rfl
  shape_record := rfl
  proj_record h := by simp [proj, h]
  ge_trans := by
    rintro _ _ _ ⟨m, n, rfl, rfl, h⟩ ⟨n', k, hn, rfl, h'⟩
    cases hn
    exact ⟨m, k, rfl, rfl, Int64.le_trans h' h⟩
  ge_int := by simp [Prim.value]
  known_const := True.intro
  known_dtCon0 := True.intro
  known_dtCon1 := knownArgs_iff
  known_record h := knownFields_iff.mpr h
  known_proj := known_proj

end Value

-- ---------------------------------------------------------------------------
-- Answers
-- ---------------------------------------------------------------------------

section
variable {db : CcDb} (hp : ∀ a, db.parent a = none)
include hp

theorem root_self (h : db.Root a r) : r = a := (CcDb.Above.eq_of_none h.1 (hp a)).symm

theorem quiet_var (n : Nat) : db.Quiet ps (.var n) := by
  have hm {r : Atom} (h : db.Marks (.var n) r) : r = .var n := by
    induction h with
    | root hr _ => exact root_self hp hr
    | child _ hc _ _ ih =>
      subst ih
      cases hc
  exact ⟨fun h => (nomatch hm h), fun h => (nomatch hm h)⟩

theorem quiet_proj {e : Atom} (he : e.Over ps) (hk : db.known e = true) :
    db.Quiet ps (.proj e x) := by
  have hm {r : Atom} (h : db.Marks (.proj e x) r) : r = .proj e x := by
    induction h with
    | root hr _ => exact root_self hp hr
    | child _ hc hr hn ih =>
      subst ih
      cases hc
      rw [root_self hp hr, hk] at hn
      cases hn
  refine ⟨fun h => ?_, fun h => (nomatch hm h)⟩
  cases hm h
  exact .known he hk

end

/-- After a quiet run, whatever call comes next is answered rightly in every model
of the facts asserted. -/
theorem answers_sound {M : Model} {c : Call} (hps : FloatsApart ps)
    (hr : Run (Call.Quiet ps) calls db)
    (hc : ∀ c ∈ calls, ∀ a ∈ c.1.atoms, a.Over ps) (hm : ∀ c ∈ calls, c.1.Asserts M)
    (hcall : ∀ a ∈ c.atoms, a.Over ps) (hrun : c.run n db = (some b, db')) : c.Right M b := by
  have hend := c.right hps n (hr.sound hps hc hm) hcall
  rw [CcDb.Ends, Triple, hrun] at hend
  exact hend

theorem answers_sound_projection :
    ∃ db db' : CcDb,
      Run (Call.Quiet fun _ => False)
        [(.assertReln .known [.proj (.var 0) "a"], true), (.assertReln .known [.var 0], true)] db ∧
      (Call.isKnown (.recd [("b", .proj (.var 0) "a")])).run 3 db = (some true, db') ∧
      (Call.isKnown (.recd [("b", .proj (.var 0) "a")])).Right (Value.model fun _ => .other true)
        true := by
  have hr : Run (Call.Quiet fun _ => False)
      [(.assertReln .known [.proj (.var 0) "a"], true), (.assertReln .known [.var 0], true)] _ :=
    .call (n := 3)
      (.call (n := 3) .empty (quiet_var (fun _ => rfl) 0) rfl)
      (quiet_proj (fun _ => rfl) True.intro rfl) rfl
  refine ⟨_, _, hr, rfl, ?_⟩
  refine answers_sound (n := 3) (fun _ _ h => h.elim) hr ?_ ?_ ?_ rfl
  · simp [Call.atoms, Atom.Over]
  · simp [Call.Asserts, Model.Holds, Model.eval, Value.model, Value.proj, Value.Known]
  · simp [Call.atoms, Atom.Over, OverFields]

/-- Once a field of a record is known, the database takes the record for known,
whose other fields need not be. -/
theorem known_field_marks_record :
    ∃ db db' : CcDb,
      Run (fun _ _ => True) [(.assertReln .known [.proj (.var 0) "a"], true)] db ∧
      (Call.isKnown (.var 0)).run 2 db = (some true, db') ∧
      ∃ M : Model.{0}, M.Holds .known [.proj (.var 0) "a"] ∧ ¬ M.Known (M.eval (.var 0)) := by
  refine ⟨_, _, Run.call (n := 3) Run.empty True.intro rfl, rfl,
    Value.model fun _ => .other false, rfl, ?_⟩
  intro h
  cases h

end UrWeb.Iflow
