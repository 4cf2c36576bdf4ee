import UrWeb.Mono.FuseSound
import UrWeb.Mono.NumericNarrowing

/-!
# Narrowing is sound where no literal arm is overtaken

A known value is what evaluation returns, as long as no literal arm of a `case`
stands behind an arm that takes the literal first: known arms are chosen among
the literal ones only. The narrowed type of a declaration then holds its value.
-/

namespace UrWeb.Mono

open Behaviour

-- ---------------------------------------------------------------------------
-- Statements
-- ---------------------------------------------------------------------------

/-- The run-time operators on numbers: integers of 64 bits that wrap around,
and floats. -/
structure Arithmetic (W : World) : Prop where
  add : W.operator "+" [.prim (.int a), .prim (.int b)] = some (.ret (.prim (.int (a + b))))
  sub : W.operator "-" [.prim (.int a), .prim (.int b)] = some (.ret (.prim (.int (a - b))))
  mul : W.operator "*" [.prim (.int a), .prim (.int b)] = some (.ret (.prim (.int (a * b))))
  div : b ≠ 0 → ¬(a = Int64.minValue ∧ b = -1) →
    W.operator "/" [.prim (.int a), .prim (.int b)] = some (.ret (.prim (.int (a / b))))
  mod : b ≠ 0 → ¬(a = Int64.minValue ∧ b = -1) →
    W.operator "%" [.prim (.int a), .prim (.int b)] = some (.ret (.prim (.int (a % b))))
  neg : W.operator "-" [.prim (.int a)] = some (.ret (.prim (.int (-a))))
  floatAdd : W.operator "+" [.prim (.float x), .prim (.float y)] =
    some (.ret (.prim (.float (floatOp (· + ·) x y))))
  floatSub : W.operator "-" [.prim (.float x), .prim (.float y)] =
    some (.ret (.prim (.float (floatOp (· - ·) x y))))
  floatMul : W.operator "*" [.prim (.float x), .prim (.float y)] =
    some (.ret (.prim (.float (floatOp (· * ·) x y))))
  floatDiv : W.operator "/" [.prim (.float x), .prim (.float y)] =
    some (.ret (.prim (.float (floatOp (· / ·) x y))))
  floatNeg : W.operator "-" [.prim (.float x)] = some (.ret (.prim (.float (floatNeg x))))

/-- The known entries are true of the run-time environment. -/
def NarrowEnv.TrueOf (env : NarrowEnv) (rho : List Value) : Prop :=
  ∀ (n : Nat) (p : Prim), env.relValues[n]? = some (some p) →
    rho[n]? = some (Value.prim (Prim.erase p))

/-- Every evaluation that returns gives the literal. -/
def Yields (r : Comp Value) (p : Prim) : Prop :=
  ∀ ⦃h h' v⦄, r h h' (.ret v) → v = .prim (Prim.erase p)

/-- The values of the narrower C type. -/
def InRange : NarrowedNumeric → Value → Prop
  | .int w, .prim (.int n) => match w with
    | .i8 => -2 ^ 7 ≤ n.toInt ∧ n.toInt < 2 ^ 7
    | .i16 => -2 ^ 15 ≤ n.toInt ∧ n.toInt < 2 ^ 15
    | .i32 => -2 ^ 31 ≤ n.toInt ∧ n.toInt < 2 ^ 31
    | .i64 => -2 ^ 63 ≤ n.toInt ∧ n.toInt < 2 ^ 63
  | .uint w, .prim (.int n) => match w with
    | .u8 => 0 ≤ n.toInt ∧ n.toInt < 2 ^ 8
    | .u16 => 0 ≤ n.toInt ∧ n.toInt < 2 ^ 16
    | .u32 => 0 ≤ n.toInt ∧ n.toInt < 2 ^ 32
    | .u64 => 0 ≤ n.toInt ∧ n.toInt < 2 ^ 64
  | .float .f32, .prim (.float bits) => throughSingle bits = bits
  | .float .f64, .prim (.float _) => True
  | _, _ => False

/-- Whether a pattern matches the value of a literal. -/
def Pat.takes (p : Pat) (q : Prim) : Bool := (p.matches (.prim (Prim.erase q)) []).isSome

/-- An arm for a literal that the pattern takes. -/
def Pat.overtakes (p : Pat) (arm : Pat × Exp) : Bool :=
  match arm.1 with
  | .prim q => p.takes q
  | _ => false

mutual
/-- No literal arm that a known value can choose stands behind a pattern that
takes its literal. -/
def Exp.inOrder : Exp → Bool
  | .letIn _ _ e1 e2 | .binop _ _ e1 e2 | .strcat e1 e2 => e1.inOrder && e2.inOrder
  | .app (.abs _ _ _ body) e => e.inOrder && body.inOrder
  | .unop _ e => e.inOrder
  | .case disc arms _ => disc.inOrder && armsInOrder arms
  | _ => true
def armsInOrder : List (Pat × Exp) → Bool
  | [] => true
  | (.prim q, e) :: arms => !arms.any (Pat.overtakes (.prim q)) && e.inOrder && armsInOrder arms
  | (p, _) :: arms => !arms.any p.overtakes && armsInOrder arms
end

-- ---------------------------------------------------------------------------
-- Literals and patterns
-- ---------------------------------------------------------------------------

@[simp] theorem primEq_erase (p q : Prim) : primEq p (Prim.erase q) = primEq p q := by
  cases p <;> cases q <;> rfl

theorem primSame_primEq (h : primSame p q) : primEq p q := by
  cases p <;> cases q <;> simp_all [primSame, primEq]

/-- A pattern takes equal literals, in every environment. -/
theorem takes_of_match {p : Pat} (hd : primSame q d)
    (h : (p.matches (.prim (Prim.erase d)) rho).isSome) : p.takes q := by
  cases p with
  | var => rfl
  | record fields =>
    cases fields with
    | nil => rfl
    | cons f fields => cases h
  | prim r =>
    simp only [Pat.takes, Pat.matches, primEq_erase] at h ⊢
    split at h
    · next hr => simp [primEq_trans hr (primEq_symm (primSame_primEq hd))]
    · cases h
  | con | none | some => simp [Pat.matches] at h

theorem patternMatchesPrim_prim (h : patternMatchesPrim p d) : ∃ q, p = .prim q ∧ primSame q d := by
  cases p with
  | prim q => exact ⟨q, rfl, h⟩
  | _ => simp [patternMatchesPrim] at h

/-- The arm that a known value chooses. -/
theorem knownArms_mem (h : NarrowEnv.knownArms env d arms = some p) :
    ∃ q e, (Pat.prim q, e) ∈ arms ∧ primSame q d := by
  induction arms with
  | nil => simp [NarrowEnv.knownArms] at h
  | cons arm arms ih =>
    obtain ⟨pat, e⟩ := arm
    rw [NarrowEnv.knownArms] at h
    split at h
    · next hp =>
      obtain ⟨q, rfl, hq⟩ := patternMatchesPrim_prim hp
      exact ⟨q, e, List.mem_cons_self, hq⟩
    · obtain ⟨q, e', hmem, hq⟩ := ih h
      exact ⟨q, e', List.mem_cons_of_mem _ hmem, hq⟩

theorem armsInOrder_cons {p : Pat} (h : armsInOrder ((p, e) :: arms)) :
    (∀ arm ∈ arms, p.overtakes arm = false) ∧ (∀ q, p = .prim q → e.inOrder) ∧
      armsInOrder arms := by
  cases p with
  | prim q =>
    simp only [armsInOrder, Bool.and_eq_true, Bool.not_eq_true', List.any_eq_false,
      Bool.not_eq_true] at h
    exact ⟨h.1.1, fun _ _ => h.1.2, h.2⟩
  | _ =>
    simp only [armsInOrder, Bool.and_eq_true, Bool.not_eq_true', List.any_eq_false,
      Bool.not_eq_true] at h
    exact ⟨h.1, by simp, h.2⟩

-- ---------------------------------------------------------------------------
-- Arithmetic
-- ---------------------------------------------------------------------------

theorem Yields.pure : Yields (Run.pure (.prim (Prim.erase p))) p := by
  rintro h h' v ⟨-, hv⟩
  cases hv
  rfl

theorem Yields.bind (hr : Yields r p) (hf : Yields (f (.prim (Prim.erase p))) q) :
    Yields (Run.bind r f) q := by
  intro h h' v hb
  cases hb with
  | ret h1 h2 =>
    rw [hr h1] at h2
    exact hf h2

theorem checkedInt_eq (h : checkedInt z = some c) : c = Int64.ofInt z := by
  simp only [checkedInt, Option.ite_none_right_eq_some, Option.some.injEq] at h
  exact h.2.symm

theorem operate_yields (args : List Prim)
    (h : W.operator s (args.map Scalar.prim) = some (.ret (.prim p))) :
    Yields (operate W s (args.map Value.prim)) p := by
  have hargs : (args.map Value.prim).mapM Value.scalar = some (args.map Scalar.prim) := by
    clear h
    induction args with
    | nil => rfl
    | cons q args ih => simp [List.mapM_cons, Value.scalar, ih]
  intro k k' v hr
  simp only [operate, hargs, Option.bind_some, h] at hr
  obtain ⟨-, hr⟩ := hr
  cases hr
  rfl

theorem Int64.ofInt_tdiv_toInt (a b : Int64) : Int64.ofInt (a.toInt.tdiv b.toInt) = a / b := by
  rw [← Int64.toInt_inj, Int64.toInt_ofInt, Int64.toInt_div]

theorem Int64.ofInt_tmod_toInt (a b : Int64) : Int64.ofInt (a.toInt.tmod b.toInt) = a % b := by
  rw [← Int64.toInt_mod, Int64.ofInt_toInt]

theorem checkedInt_minValue : checkedInt (Int64.minValue.toInt.tdiv (-1 : Int64).toInt) = none := by
  decide

theorem evalBinopPrim_sound (hA : Arithmetic W) (h : evalBinopPrim op p q = some r) :
    Yields (operate W op [.prim (Prim.erase p), .prim (Prim.erase q)]) r := by
  cases p with
  | int a =>
    cases q with
    | int b =>
      refine operate_yields [.int a, .int b] ?_
      obtain ⟨c, hc, rfl⟩ := Option.map_eq_some_iff.mp h
      split at hc
      · rw [checkedInt_eq hc, Int64.ofInt_add, Int64.ofInt_toInt, Int64.ofInt_toInt]
        exact hA.add
      · rw [checkedInt_eq hc, Int64.ofInt_sub, Int64.ofInt_toInt, Int64.ofInt_toInt]
        exact hA.sub
      · rw [checkedInt_eq hc, Int64.ofInt_mul, Int64.ofInt_toInt, Int64.ofInt_toInt]
        exact hA.mul
      · obtain ⟨hb, hc⟩ := Option.ite_none_left_eq_some.mp hc
        rw [checkedInt_eq hc, Int64.ofInt_tdiv_toInt]
        refine hA.div hb ?_
        rintro ⟨rfl, rfl⟩
        rw [checkedInt_minValue] at hc
        cases hc
      · obtain ⟨hb, hc⟩ := Option.ite_none_left_eq_some.mp hc
        rw [checkedInt_eq hc, Int64.ofInt_tmod_toInt]
        rw [not_or] at hb
        exact hA.mod hb.1 hb.2
      · cases hc
    | _ => simp [evalBinopPrim] at h
  | float x =>
    cases q with
    | float y =>
      refine operate_yields [.float x, .float y] ?_
      simp only [evalBinopPrim] at h
      split at h
      · cases h
        exact hA.floatAdd
      · cases h
        exact hA.floatSub
      · cases h
        exact hA.floatMul
      · cases h
        exact hA.floatDiv
      · cases h
    | _ => simp [evalBinopPrim] at h
  | _ => cases q <;> simp [evalBinopPrim] at h

theorem evalUnopPrim_sound (hA : Arithmetic W) (h : evalUnopPrim op p = some r) :
    Yields (operate W op [.prim (Prim.erase p)]) r := by
  cases p with
  | int n =>
    refine operate_yields [.int n] ?_
    simp only [evalUnopPrim] at h
    split at h
    · obtain ⟨c, hc, rfl⟩ := Option.map_eq_some_iff.mp h
      rw [checkedInt_eq hc, Int64.ofInt_neg, Int64.ofInt_toInt]
      exact hA.neg
    · cases h
  | float x =>
    refine operate_yields [.float x] ?_
    simp only [evalUnopPrim] at h
    split at h
    · cases h
      exact hA.floatNeg
    · cases h
  | _ => simp [evalUnopPrim] at h

-- ---------------------------------------------------------------------------
-- Known values
-- ---------------------------------------------------------------------------

theorem NarrowEnv.TrueOf.push {env : NarrowEnv} {o : Option Prim} (h : env.TrueOf rho)
    (hv : ∀ p, o = some p → v = .prim (Prim.erase p)) : (env.push o).TrueOf (v :: rho) := by
  intro n p hp
  cases n with
  | zero =>
    cases o with
    | none => simp [NarrowEnv.push, NarrowEnv.pushUnknown] at hp
    | some q =>
      obtain rfl : q = p := by simpa [NarrowEnv.push, NarrowEnv.pushKnown] using hp
      simp [hv q rfl]
  | succ n =>
    refine h n p ?_
    cases o <;> simpa [NarrowEnv.push, NarrowEnv.pushUnknown, NarrowEnv.pushKnown] using hp

theorem strcat_yields (m1 m2 : StringMode) (s1 s2 : String) :
    Yields (strcat (.prim (Prim.erase (.string m1 s1))) (.prim (Prim.erase (.string m2 s2))))
      (.string .normal (s1 ++ s2)) :=
  Yields.pure (p := .string .normal (s1 ++ s2))

theorem knownPrim_yields (hA : Arithmetic W) (decls : List Decl) (env : NarrowEnv) (e : Exp) :
    ∀ depth rho p, e.inOrder → env.TrueOf rho → env.knownPrim e = some p →
      Yields (eval W decls depth e rho) p := by
  refine NarrowEnv.knownPrim.induct
    (fun env e => ∀ depth rho p, e.inOrder → env.TrueOf rho → env.knownPrim e = some p →
      Yields (eval W decls depth e rho) p)
    (fun env d arms => ∀ depth rho p, armsInOrder arms → env.TrueOf rho →
      env.knownArms d arms = some p →
      Yields (evalArms W (apply W decls depth) (global W decls depth) arms
        (.prim (Prim.erase d)) rho) p)
    ?prim ?rel ?named ?letIn ?app ?binop ?unop ?case ?strcat ?other ?nil ?chosen ?skipped env e
  case prim =>
    intro env p depth rho q _ _ h
    rw [NarrowEnv.knownPrim, Option.some.injEq] at h
    subst h
    rw [eval_eq, evalWith]
    exact .pure
  case rel =>
    intro env n depth rho p _ henv h
    rw [NarrowEnv.knownPrim, Option.join_eq_some_iff] at h
    rw [eval_eq, evalWith, henv n p h]
    exact .pure
  case named =>
    intro env n depth rho p _ _ h
    simp [NarrowEnv.knownPrim] at h
  case letIn =>
    intro env x t e1 e2 ih1 ih2 depth rho p ho henv h
    rw [NarrowEnv.knownPrim] at h
    simp only [Exp.inOrder, Bool.and_eq_true] at ho
    intro k k' v hr
    rw [eval_eq, evalWith, ← eval_eq] at hr
    cases hr with
    | ret h1 h2 =>
      refine ih2 depth _ p ho.2 (henv.push fun q hq => ?_) h h2
      exact ih1 depth rho q ho.1 henv hq h1
  case app =>
    intro env x dom ran body arg ih1 ih2 depth rho p ho henv h
    rw [NarrowEnv.knownPrim] at h
    simp only [Exp.inOrder, Bool.and_eq_true] at ho
    intro k k' v hr
    rw [eval_eq, evalWith, evalWith, Run.bind_pure_left, ← eval_eq] at hr
    cases hr with
    | ret h1 h2 =>
      cases depth with
      | zero => cases h2.2
      | succ depth =>
        refine ih2 depth _ p ho.2 (henv.push fun q hq => ?_) h h2
        exact ih1 _ rho q ho.1 henv hq h1
  case binop =>
    intro env bi op e1 e2 ih1 ih2 depth rho p ho henv h
    simp only [NarrowEnv.knownPrim, Option.bind_eq_bind, Option.bind_eq_some_iff] at h
    obtain ⟨p1, h1, p2, h2, hop⟩ := h
    simp only [Exp.inOrder, Bool.and_eq_true] at ho
    rw [eval_eq, evalWith, ← eval_eq]
    refine (ih1 depth rho p1 ho.1 henv h1).bind ?_
    exact (ih2 depth rho p2 ho.2 henv h2).bind (evalBinopPrim_sound hA hop)
  case unop =>
    intro env op e ih depth rho p ho henv h
    simp only [NarrowEnv.knownPrim, Option.bind_eq_bind, Option.bind_eq_some_iff] at h
    obtain ⟨q, hq, hop⟩ := h
    rw [eval_eq, evalWith, ← eval_eq]
    exact (ih depth rho q ho henv hq).bind (evalUnopPrim_sound hA hop)
  case case =>
    intro env disc arms info ih1 ih2 depth rho p ho henv h
    simp only [NarrowEnv.knownPrim, Option.bind_eq_bind, Option.bind_eq_some_iff] at h
    obtain ⟨d, hd, harms⟩ := h
    simp only [Exp.inOrder, Bool.and_eq_true] at ho
    rw [eval_eq, evalWith, ← eval_eq]
    exact (ih1 depth rho d ho.1 henv hd).bind (ih2 d depth rho p ho.2 henv harms)
  case strcat =>
    intro env e1 e2 ih1 ih2 depth rho p ho henv h
    simp only [NarrowEnv.knownPrim, Option.bind_eq_bind, Option.bind_eq_some_iff] at h
    obtain ⟨p1, h1, p2, h2, hs⟩ := h
    simp only [Exp.inOrder, Bool.and_eq_true] at ho
    rw [eval_eq, evalWith, ← eval_eq]
    refine (ih1 depth rho p1 ho.1 henv h1).bind ?_
    refine (ih2 depth rho p2 ho.2 henv h2).bind ?_
    split at hs
    · cases hs
      exact strcat_yields _ _ _ _
    · cases hs
  case other =>
    intro e env h1 h2 h3 h4 h5 h6 h7 h8 h9 depth rho p _ _ h
    rw [NarrowEnv.knownPrim] at h <;> first | cases h | assumption
  case nil =>
    intro env d depth rho p _ _ h
    simp [NarrowEnv.knownArms] at h
  case chosen =>
    intro env d pat e arms hpat ih depth rho p ho henv h
    rw [NarrowEnv.knownArms, if_pos hpat] at h
    obtain ⟨q, rfl, hq⟩ := patternMatchesPrim_prim hpat
    rw [evalArms, Pat.matches, primEq_erase, if_pos (primSame_primEq hq), ← eval_eq]
    exact ih depth rho p ((armsInOrder_cons ho).2.1 q rfl) henv h
  case skipped =>
    intro env d pat e arms hpat ih depth rho p ho henv h
    rw [NarrowEnv.knownArms, if_neg hpat] at h
    obtain ⟨hover, -, ho⟩ := armsInOrder_cons ho
    obtain ⟨q, e', hmem, hq⟩ := knownArms_mem h
    have hnone : pat.matches (.prim (Prim.erase d)) rho = none := by
      rw [← Option.not_isSome_iff_eq_none]
      intro hm
      have hno : pat.takes q = false := hover _ hmem
      rw [takes_of_match hq hm] at hno
      cases hno
    rw [evalArms, hnone]
    exact ih depth rho p ho henv h

-- ---------------------------------------------------------------------------
-- Declarations
-- ---------------------------------------------------------------------------

theorem narrowUintWidth_inRange (h : 0 ≤ n) :
    InRange (.uint (narrowUintWidth n.toUInt64)) (.prim (.int n)) := by
  have hn : (n.toUInt64.toNat : Int) = n.toInt := by
    rw [Int64.toNat_toUInt64_of_le h, Int64.cast_toNatClampNeg n h]
  have hlt := n.toUInt64.toNat_lt
  simp only [narrowUintWidth, UInt64.le_iff_toNat_le]
  split
  · next hw =>
    simp only [InRange, UInt64.reduceToNat] at hw ⊢
    omega
  · split
    · next hw =>
      simp only [InRange, UInt64.reduceToNat] at hw ⊢
      omega
    · split
      · next hw =>
        simp only [InRange, UInt64.reduceToNat] at hw ⊢
        omega
      · simp only [InRange]
        omega

theorem narrowIntWidth_inRange (n : Int64) :
    InRange (.int (narrowIntWidth n)) (.prim (.int n)) := by
  simp only [narrowIntWidth, Int64.le_iff_toInt_le]
  split
  · next hw =>
    simp only [InRange, Int64.reduceToInt] at hw ⊢
    omega
  · split
    · next hw =>
      simp only [InRange, Int64.reduceToInt] at hw ⊢
      omega
    · split
      · next hw =>
        simp only [InRange, Int64.reduceToInt] at hw ⊢
        omega
      · exact ⟨n.le_toInt, n.toInt_lt⟩

theorem fromPrim_inRange (h : NarrowedNumeric.fromPrim p = some t) :
    InRange t (.prim (Prim.erase p)) := by
  cases p with
  | int n =>
    rw [NarrowedNumeric.fromPrim] at h
    split at h
    · next hn =>
      cases h
      exact narrowUintWidth_inRange hn
    · cases h
      exact narrowIntWidth_inRange n
  | float bits =>
    cases h
    unfold narrowFloatWidth
    split
    · next hb => exact hb
    · trivial
  | _ => cases h

/-- The values of the names in a table are of the narrowed types. -/
def NarrowingTable.Sound (W : World) (decls : List Decl) (table : NarrowingTable) : Prop :=
  ∀ ⦃n t⦄, table n = some t →
    ∀ ⦃depth h h' v⦄, global W decls depth n h h' (.ret v) → InRange t v

theorem narrowExp_inRange (hA : Arithmetic W) (ht : NarrowingTable.Sound W decls table)
    (ho : e.inOrder)
    (h : (NarrowEnv.new.withTable table).narrowExp e = some t)
    (hr : eval W decls depth e [] k k' (.ret v)) : InRange t v := by
  rw [NarrowEnv.narrowExp.eq_def] at h
  split at h
  · next m =>
    rw [eval_eq, evalWith] at hr
    exact ht h hr
  · obtain ⟨p, hp, hpt⟩ := Option.bind_eq_some_iff.mp h
    have henv : (NarrowEnv.new.withTable table).TrueOf [] := by
      intro m q hq
      simp [NarrowEnv.withTable, NarrowEnv.new] at hq
    rw [knownPrim_yields hA decls _ e depth [] p ho henv hp hr]
    exact fromPrim_inRange hpt

theorem analyzeBinding_sound (hA : Arithmetic W) (hnd : ((bindings decls).map ValBinding.n).Nodup)
    (hvi : vi ∈ bindings decls) (ho : vi.e.inOrder) (ht : NarrowingTable.Sound W decls table) :
    NarrowingTable.Sound W decls (analyzeBinding table vi) := by
  intro n t h depth k k' v hr
  cases hnar : (NarrowEnv.new.withTable table).narrowExp vi.e with
  | none =>
    simp only [analyzeBinding, hnar] at h
    exact ht h hr
  | some narrowed =>
    simp only [analyzeBinding, hnar, Function.update_apply] at h
    split at h
    · next hn =>
      cases h
      subst hn
      cases depth with
      | zero => cases hr.2
      | succ depth =>
        rw [global, declBody_eq hnd hvi] at hr
        exact narrowExp_inRange hA ht ho hnar hr
    · exact ht h hr

theorem analyze_eq (file : File) :
    analyze file = (bindings file.1).foldl analyzeBinding fun _ => none := by
  rw [analyze, bindings, List.foldl_flatMap]
  rfl

theorem analyze_sound (hA : Arithmetic W) (hnd : ((bindings file.1).map ValBinding.n).Nodup)
    (ho : ∀ vi ∈ bindings file.1, vi.e.inOrder) :
    NarrowingTable.Sound W file.1 (analyze file) := by
  rw [analyze_eq]
  have hrun : ∀ vis : List ValBinding, (∀ vi ∈ vis, vi ∈ bindings file.1) → ∀ table,
      NarrowingTable.Sound W file.1 table →
      NarrowingTable.Sound W file.1 (vis.foldl analyzeBinding table) := by
    intro vis
    induction vis with
    | nil => exact fun _ _ ht => ht
    | cons vi vis ih =>
      intro hvis table ht
      rw [List.forall_mem_cons] at hvis
      exact ih hvis.2 _ (analyzeBinding_sound hA hnd hvis.1 (ho vi hvis.1) ht)
  exact hrun _ (fun _ h => h) _ fun _ _ h => nomatch h

/-- Known values are what evaluation returns, and the values of narrowed names are
of their types, where no literal arm is overtaken. -/
theorem narrowing_sound (hA : Arithmetic W) :
    (∀ (decls : List Decl) (env : NarrowEnv) e depth rho p, e.inOrder → env.TrueOf rho →
      env.knownPrim e = some p → Yields (eval W decls depth e rho) p) ∧
    ∀ file : File, ((bindings file.1).map ValBinding.n).Nodup →
      (∀ vi ∈ bindings file.1, vi.e.inOrder) → NarrowingTable.Sound W file.1 (analyze file) :=
  ⟨knownPrim_yields hA, fun _ => analyze_sound hA⟩

-- ---------------------------------------------------------------------------
-- A world with arithmetic
-- ---------------------------------------------------------------------------

def numericOperator (s : String) : List Scalar → Option (Outcome Scalar)
  | [.prim (.int a), .prim (.int b)] =>
    match s with
    | "+" => some (.ret (.prim (.int (a + b))))
    | "-" => some (.ret (.prim (.int (a - b))))
    | "*" => some (.ret (.prim (.int (a * b))))
    | "/" => some (if b = 0 then .abort else .ret (.prim (.int (a / b))))
    | "%" => some (if b = 0 then .abort else .ret (.prim (.int (a % b))))
    | _ => none
  | [.prim (.float x), .prim (.float y)] =>
    match s with
    | "+" => some (.ret (.prim (.float (floatOp (· + ·) x y))))
    | "-" => some (.ret (.prim (.float (floatOp (· - ·) x y))))
    | "*" => some (.ret (.prim (.float (floatOp (· * ·) x y))))
    | "/" => some (.ret (.prim (.float (floatOp (· / ·) x y))))
    | _ => none
  | [.prim (.int a)] => if s = "-" then some (.ret (.prim (.int (-a)))) else none
  | [.prim (.float x)] => if s = "-" then some (.ret (.prim (.float (floatNeg x)))) else none
  | _ => none

def World.numeric : World := { World.silent with operator := numericOperator }

theorem numeric_arithmetic : Arithmetic World.numeric where
  add := rfl
  sub := rfl
  mul := rfl
  div hb _ := by simp [World.numeric, numericOperator, hb]
  mod hb _ := by simp [World.numeric, numericOperator, hb]
  neg := rfl
  floatAdd := rfl
  floatSub := rfl
  floatMul := rfl
  floatDiv := rfl
  floatNeg := rfl

/-- `let x = 1 + 2 in case x of 3 => 300 | _ => 3` -/
def ordered : Exp :=
  .letIn "x" .int (.binop .int "+" (.prim (.int 1)) (.prim (.int 2)))
    (.case (.rel 0) [(.prim (.int 3), .prim (.int 300)), (.var "_" .int, .prim (.int 3))]
      ⟨.int, .int⟩)

def orderedFile : File := ([.val ⟨"y", 0, .int, ordered, "y"⟩], [])

theorem narrowing_sound_ordered :
    Yields (eval World.numeric orderedFile.1 0 ordered []) (.int 300) ∧
    NarrowingTable.Sound World.numeric orderedFile.1 (analyze orderedFile) := by
  refine ⟨(narrowing_sound numeric_arithmetic).1 orderedFile.1 NarrowEnv.new ordered 0 [] _
      (by decide) (fun _ _ h => by simp [NarrowEnv.new] at h) (by decide),
    (narrowing_sound numeric_arithmetic).2 orderedFile (by decide) ?_⟩
  rintro vi hvi
  obtain rfl := List.mem_singleton.mp hvi
  decide

/-- `case 1 of _ => 300 | 1 => 3` -/
def overtaken : Exp :=
  .case (.prim (.int 1)) [(.var "_" .int, .prim (.int 300)), (.prim (.int 1), .prim (.int 3))]
    ⟨.int, .int⟩

def overtakenFile : File := ([.val ⟨"x", 0, .int, overtaken, "x"⟩], [])

theorem overtaken_run : eval World.numeric overtakenFile.1 0 overtaken [] [] []
    (.ret (.prim (.int 300))) :=
  .ret ⟨rfl, rfl⟩ ⟨rfl, rfl⟩

/-- The second arm is taken as known, and the value does not fit its narrowed type. -/
theorem not_narrowing_sound_overtaken :
    Arithmetic World.numeric ∧ NarrowEnv.TrueOf NarrowEnv.new [] ∧
    NarrowEnv.new.knownPrim overtaken = some (.int 3) ∧
    ¬Yields (eval World.numeric overtakenFile.1 0 overtaken []) (.int 3) ∧
    ¬NarrowingTable.Sound World.numeric overtakenFile.1 (analyze overtakenFile) := by
  refine ⟨numeric_arithmetic, fun _ _ h => by simp [NarrowEnv.new] at h, by decide, ?_, ?_⟩
  · intro h
    cases h overtaken_run
  · intro h
    have hv : InRange (.uint .u8) (.prim (.int 300)) :=
      @h 0 (.uint .u8) (by decide) 1 _ _ _ overtaken_run
    exact absurd hv.2 (by decide)

end UrWeb.Mono
