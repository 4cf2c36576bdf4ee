import UrWeb.Elaborated.ConstructorOperations
import UrWeb.Lib.DeBruijn

/-!
# The algebra of constructor variables

Lifting, squishing and substitution against the shifts and the capture-avoiding
substitution that enter inline sum types and move kind variables out of the way.
-/

namespace UrWeb.Elaborated

-- ---------------------------------------------------------------------------
-- The shifts and the substitution meant
-- ---------------------------------------------------------------------------

mutual
/-- The constructor variables from `bound` on move up, in every form. -/
def shiftCon (amount bound : Nat) : Constructor → Constructor
  | .rel n => if n < bound then .rel n else .rel (n + amount)
  | .unif depth k x cell => .unif (saturatingAdd depth amount) k x cell
  | .tFun dom ran => .tFun (shiftCon amount bound dom) (shiftCon amount bound ran)
  | .tCFun ex x k body => .tCFun ex x k (shiftCon amount (bound + 1) body)
  | .tRecord row => .tRecord (shiftCon amount bound row)
  | .tDisjoint c1 c2 body =>
    .tDisjoint (shiftCon amount bound c1) (shiftCon amount bound c2) (shiftCon amount bound body)
  | .app c1 c2 => .app (shiftCon amount bound c1) (shiftCon amount bound c2)
  | .abs x k body => .abs x k (shiftCon amount (bound + 1) body)
  | .kAbs x body => .kAbs x (shiftCon amount bound body)
  | .kApp c k => .kApp (shiftCon amount bound c) k
  | .tKFun x body => .tKFun x (shiftCon amount bound body)
  | .record k fields => .record k (shiftFields amount bound fields)
  | .concat c1 c2 => .concat (shiftCon amount bound c1) (shiftCon amount bound c2)
  | .tuple cs => .tuple (shiftCons amount bound cs)
  | .proj c n => .proj (shiftCon amount bound c) n
  | .enum arms => .enum (shiftArms amount bound arms)
  | .named n => .named n
  | .modProj n path x => .modProj n path x
  | .name s => .name s
  | .map k1 k2 => .map k1 k2
  | .unit => .unit
  | .error => .error
def shiftCons (amount bound : Nat) : List Constructor → List Constructor
  | [] => []
  | c :: cs => shiftCon amount bound c :: shiftCons amount bound cs
def shiftFields (amount bound : Nat) :
    List (Constructor × Constructor) → List (Constructor × Constructor)
  | [] => []
  | (c1, c2) :: fields =>
    (shiftCon amount bound c1, shiftCon amount bound c2) :: shiftFields amount bound fields
def shiftArms (amount bound : Nat) :
    List (String × List Constructor) → List (String × List Constructor)
  | [] => []
  | (tag, args) :: arms => (tag, shiftCons amount bound args) :: shiftArms amount bound arms
end

section
variable (place : Nat → Nat → Constructor) (sums : Bool)

mutual
/-- `place`, told how many binders of either sort are crossed, replaces the variable `xn`. -/
def replaceVar (amount kinds xn : Nat) : Constructor → Constructor
  | .rel n =>
    if n = xn then place amount kinds else if n > xn then .rel (n - 1) else .rel n
  | .tFun dom ran => .tFun (replaceVar amount kinds xn dom) (replaceVar amount kinds xn ran)
  | .tCFun ex x k body => .tCFun ex x k (replaceVar (amount + 1) kinds (xn + 1) body)
  | .tRecord row => .tRecord (replaceVar amount kinds xn row)
  | .tDisjoint c1 c2 body =>
    .tDisjoint (replaceVar amount kinds xn c1) (replaceVar amount kinds xn c2)
      (replaceVar amount kinds xn body)
  | .app c1 c2 => .app (replaceVar amount kinds xn c1) (replaceVar amount kinds xn c2)
  | .abs x k body => .abs x k (replaceVar (amount + 1) kinds (xn + 1) body)
  | .kAbs x body => .kAbs x (replaceVar amount (kinds + 1) xn body)
  | .kApp c k => .kApp (replaceVar amount kinds xn c) k
  | .tKFun x body => .tKFun x (replaceVar amount (kinds + 1) xn body)
  | .record k fields => .record k (replaceInFields amount kinds xn fields)
  | .concat c1 c2 => .concat (replaceVar amount kinds xn c1) (replaceVar amount kinds xn c2)
  | .tuple cs => .tuple (replaceInCons amount kinds xn cs)
  | .proj c n => .proj (replaceVar amount kinds xn c) n
  | .enum arms => .enum (if sums then replaceInArms amount kinds xn arms else arms)
  | .unif depth k x cell => .unif depth k x cell
  | .named n => .named n
  | .modProj n path x => .modProj n path x
  | .name s => .name s
  | .map k1 k2 => .map k1 k2
  | .unit => .unit
  | .error => .error
def replaceInCons (amount kinds xn : Nat) : List Constructor → List Constructor
  | [] => []
  | c :: cs => replaceVar amount kinds xn c :: replaceInCons amount kinds xn cs
def replaceInFields (amount kinds xn : Nat) :
    List (Constructor × Constructor) → List (Constructor × Constructor)
  | [] => []
  | (c1, c2) :: fields =>
    (replaceVar amount kinds xn c1, replaceVar amount kinds xn c2) ::
      replaceInFields amount kinds xn fields
def replaceInArms (amount kinds xn : Nat) :
    List (String × List Constructor) → List (String × List Constructor)
  | [] => []
  | (tag, args) :: arms =>
    (tag, replaceInCons amount kinds xn args) :: replaceInArms amount kinds xn arms
end

end

/-- The substitution that captures no variable of either sort. -/
def substCon (n : Nat) (rep c : Constructor) : Constructor :=
  replaceVar (fun k j => liftKindInCon^[j] (shiftCon k 0 rep)) true 0 0 n c

theorem shiftCons_eq (a b : Nat) (cs : List Constructor) :
    shiftCons a b cs = cs.map (shiftCon a b) := by
  induction cs with
  | nil => rfl
  | cons c cs ih => rw [shiftCons, ih, List.map_cons]

theorem shiftFields_eq (a b : Nat) (fields : List (Constructor × Constructor)) :
    shiftFields a b fields = fields.map fun f => (shiftCon a b f.1, shiftCon a b f.2) := by
  induction fields with
  | nil => rfl
  | cons f fields ih => rw [shiftFields, ih, List.map_cons]

theorem shiftArms_eq (a b : Nat) (arms : List (String × List Constructor)) :
    shiftArms a b arms = arms.map fun arm => (arm.1, arm.2.map (shiftCon a b)) := by
  induction arms with
  | nil => rfl
  | cons arm arms ih => rw [shiftArms, ih, List.map_cons, shiftCons_eq]

theorem shiftCon_node (a b : Nat) (hc : ∀ n, c ≠ Constructor.rel n)
    (hu : ∀ d k x cell, c ≠ Constructor.unif d k x cell) :
    shiftCon a b c = c.mapParts true fun k _ x => shiftCon a (b + k) x := by
  cases c with
  | rel n => exact absurd rfl (hc n)
  | unif d k x cell => exact absurd rfl (hu d k x cell)
  | record k fields => rw [shiftCon, shiftFields_eq, Constructor.mapParts, Nat.add_zero]
  | tuple cs => rw [shiftCon, shiftCons_eq, Constructor.mapParts, Nat.add_zero]
  | enum arms => rw [shiftCon, shiftArms_eq, Constructor.mapParts, if_pos rfl, Nat.add_zero]
  | _ => rfl

section
variable (place : Nat → Nat → Constructor) (sums : Bool)

theorem replaceInCons_eq (a j x : Nat) (cs : List Constructor) :
    replaceInCons place sums a j x cs = cs.map (replaceVar place sums a j x) := by
  induction cs with
  | nil => rfl
  | cons c cs ih => rw [replaceInCons, ih, List.map_cons]

theorem replaceInFields_eq (a j x : Nat) (fields : List (Constructor × Constructor)) :
    replaceInFields place sums a j x fields = fields.map fun f =>
      (replaceVar place sums a j x f.1, replaceVar place sums a j x f.2) := by
  induction fields with
  | nil => rfl
  | cons f fields ih => rw [replaceInFields, ih, List.map_cons]

theorem replaceInArms_eq (a j x : Nat) (arms : List (String × List Constructor)) :
    replaceInArms place sums a j x arms =
      arms.map fun arm => (arm.1, arm.2.map (replaceVar place sums a j x)) := by
  induction arms with
  | nil => rfl
  | cons arm arms ih => rw [replaceInArms, ih, List.map_cons, replaceInCons_eq]

theorem replaceVar_node (a j x : Nat) (hc : ∀ n, c ≠ Constructor.rel n) :
    replaceVar place sums a j x c =
      c.mapParts sums fun k i y => replaceVar place sums (a + k) (j + i) (x + k) y := by
  cases c with
  | rel n => exact absurd rfl (hc n)
  | record k fields => rw [replaceVar, replaceInFields_eq]; rfl
  | tuple cs => rw [replaceVar, replaceInCons_eq]; rfl
  | enum arms => rw [replaceVar, replaceInArms_eq]; rfl
  | _ => rfl

end

-- ---------------------------------------------------------------------------
-- The language of constructors
-- ---------------------------------------------------------------------------

theorem saturatingAdd_zero (n : Nat) : saturatingAdd n 0 = n := by
  unfold saturatingAdd
  omega

theorem saturatingAdd_saturatingAdd (n a d : Nat) :
    saturatingAdd (saturatingAdd n d) a = saturatingAdd n (d + a) := by
  unfold saturatingAdd
  omega

/-- The binders that the operations on constructor variables count. -/
def conBinding : DeBruijn.Binding Constructor where
  var := .rel
  parts c := (c.parts false).map fun p => (p.1, p.2.2)
  mapParts g := Constructor.mapParts false fun k _ x => g k x
  induct h c := Constructor.induct_parts false
    (fun c ih => h c (List.forall_mem_map.mpr ih)) c
  var_injective _ _ h := Constructor.rel.inj h
  parts_var _ := rfl
  parts_mapParts g c := by simp [Constructor.parts_mapParts, Function.comp_def]
  mapParts_ne_var g _ hc := Constructor.mapParts_ne_rel _ hc
  mapParts_id := Constructor.mapParts_id
  mapParts_mapParts f g := Constructor.mapParts_mapParts _ _
  mapParts_eq_iff f g c := by rw [Constructor.mapParts_eq_iff, List.forall_mem_map]

def conLifting : DeBruijn.Lifting conBinding where
  lift := liftConInConBound
  mark := Constructor.deepen
  mark_zero c := by cases c <;> simp [Constructor.deepen, saturatingAdd_zero]
  mark_mark a d c := by cases c <;> simp [Constructor.deepen, saturatingAdd_saturatingAdd]
  mark_mapParts a g c := by cases c <;> rfl
  mark_var _ _ := rfl
  mark_ne_var a c hc n := by
    cases c with
    | rel m => exact absurd rfl (hc m)
    | _ => simp [Constructor.deepen, conBinding]
  parts_mark a c := by cases c <;> rfl
  lift_var a b n := by
    show liftConInConBound a b (.rel n) = .rel _
    rw [liftConInConBound, ← apply_ite Constructor.rel]
  lift_node a b _ hc := liftConInConBound_node a b hc

/-- The code's substitution where no cell stops it. -/
def subCon (amount xn : Nat) (rep c : Constructor) : Constructor :=
  replaceVar (fun k _ => liftConInConBound k 0 rep) false amount 0 xn c

theorem replaceVar_kinds (place : Nat → Constructor) (sums : Bool) (a j i x : Nat)
    (c : Constructor) : replaceVar (fun k _ => place k) sums a j x c =
      replaceVar (fun k _ => place k) sums a i x c := by
  induction c using Constructor.induct_parts sums generalizing a j i x with
  | h c ih =>
    by_cases hc : ∃ n, c = .rel n
    · obtain ⟨n, rfl⟩ := hc
      rfl
    · have hc : ∀ n, c ≠ .rel n := fun n h => hc ⟨n, h⟩
      rw [replaceVar_node _ _ a j x hc, replaceVar_node _ _ a i x hc,
        Constructor.mapParts_eq_iff]
      exact fun p hp => ih p hp (a + p.1) (j + p.2.1) (i + p.2.1) (x + p.1)

theorem subCon_node (a x : Nat) (r : Constructor) (hc : ∀ n, c ≠ Constructor.rel n) :
    subCon a x r c = c.mapParts false fun k _ y => subCon (a + k) (x + k) r y := by
  rw [subCon, replaceVar_node _ _ a 0 x hc, Constructor.mapParts_eq_iff]
  exact fun p _ => replaceVar_kinds _ false _ _ 0 _ _

def conSubstitution : DeBruijn.Substitution conLifting where
  sub := subCon
  sub_var a x r n := by
    show subCon a x r (.rel n) = _
    rw [subCon, replaceVar, ← apply_ite Constructor.rel]
    rfl
  sub_node a x r _ hc := subCon_node a x r hc

theorem conBinding_parts (c : Constructor) :
    conBinding.parts c = (c.parts false).map fun p => (p.1, p.2.2) := rfl

theorem Constructor.CellFree.plain (h : c.CellFree) : conLifting.Plain c := by
  induction c using Constructor.induct_parts false with
  | h c ih =>
    refine .mk ?_ (List.forall_mem_map.mpr fun p hp => ih p hp (h.of_part hp))
    cases c with
    | unif d K y cell => exact absurd h Constructor.not_cellFree_unif
    | _ => rfl

-- ---------------------------------------------------------------------------
-- Substitution as the code does it
-- ---------------------------------------------------------------------------

theorem subConInConInner_eq (a x : Nat) (r : Constructor) (h : c.CellFree) :
    subConInConInner a x r c = .ok (subCon a x r c) := by
  induction c using Constructor.induct_nodes false generalizing a x with
  | rel n =>
    rw [subConInConInner, subCon, replaceVar, ← apply_ite Except.ok, ← apply_ite Except.ok]
  | unif d K y cell => exact absurd h Constructor.not_cellFree_unif
  | node c hc hu ih =>
    rw [subConInConInner_node a x r hc hu, subCon_node a x r hc]
    exact Constructor.traverseParts_ok fun p hp => ih p hp _ _ (h.of_part hp)

theorem subConInCon_eq (x : Nat) (r : Constructor) (h : c.CellFree) :
    subConInCon x r c = .ok (subCon 0 x r c) := subConInConInner_eq 0 x r h

theorem Constructor.cellFree_rel (n : Nat) : (Constructor.rel n).CellFree :=
  (Constructor.all_of_no_parts rfl).mpr (by simp)

theorem Constructor.CellFree.mapParts {c : Constructor}
    {g : Nat → Nat → Constructor → Constructor} (h : c.CellFree)
    (hg : ∀ p ∈ c.parts false, (g p.1 p.2.1 p.2.2).CellFree) :
    (c.mapParts false g).CellFree := by
  refine Constructor.all_iff.mpr ⟨Constructor.mapParts_ne_unif g (h 0 0 c .here), ?_⟩
  rw [Constructor.parts_mapParts, List.forall_mem_map]
  exact hg

theorem Constructor.CellFree.lift (a b : Nat) (h : c.CellFree) :
    (liftConInConBound a b c).CellFree := by
  induction c using Constructor.induct_nodes false generalizing b with
  | rel n =>
    rw [liftConInConBound, ← apply_ite Constructor.rel]
    exact Constructor.cellFree_rel _
  | unif d K y cell => exact absurd h Constructor.not_cellFree_unif
  | node c hc hu ih =>
    rw [liftConInConBound_plain a b hc hu]
    exact h.mapParts fun p hp => ih p hp _ (h.of_part hp)

/-- Substitution for a variable that was just made room for. -/
theorem subConInCon_liftConInCon (r : Constructor) (h : c.CellFree) :
    subConInCon 0 r (liftConInCon c) = .ok c := by
  have hsub : conSubstitution.sub 0 0 r (conLifting.lift (0 + 1) 0 c) = conLifting.lift 0 0 c :=
    conSubstitution.sub_lift h.plain (Nat.le_refl 0) (Nat.le_refl 0)
  rw [conLifting.lift_zero] at hsub
  rw [liftConInCon, subConInCon_eq 0 r (h.lift 1 0)]
  exact congrArg _ hsub

theorem liftConInConBound_comm (c : Constructor) (h : b ≤ d) :
    liftConInConBound 1 b (liftConInConBound 1 d c) =
      liftConInConBound 1 (d + 1) (liftConInConBound 1 b c) :=
  conLifting.lift_comm c h

theorem map_subConInCon_of_le (r : Constructor) (h : c.CellFree) (hb : b ≤ n) :
    (subConInCon n r c).map (liftConInConBound 1 b) =
      subConInCon (n + 1) (liftConInConBound 1 b r) (liftConInConBound 1 b c) := by
  rw [subConInCon_eq n r h, subConInCon_eq _ _ (h.lift 1 b)]
  exact congrArg Except.ok (conSubstitution.lift_sub_of_le c hb)

theorem map_subConInCon_of_ge (r : Constructor) (h : c.CellFree) (hb : n ≤ b) :
    (subConInCon n r c).map (liftConInConBound 1 b) =
      subConInCon n (liftConInConBound 1 b r) (liftConInConBound 1 (b + 1) c) := by
  rw [subConInCon_eq n r h, subConInCon_eq _ _ (h.lift 1 (b + 1))]
  exact congrArg Except.ok (conSubstitution.lift_sub_of_ge c hb)

theorem occursAt_iff (b : Nat) (c : Constructor) :
    occursAt 0 b c = true ↔ conBinding.Free b c := by
  induction c using conBinding.cases_var generalizing b with
  | var n =>
    have hvar : conBinding.Free b (.rel n) ↔ n = b := by
      rw [DeBruijn.Binding.free_iff]
      simp [conBinding, Constructor.parts]
    show occursAt 0 b (.rel n) = true ↔ conBinding.Free b (.rel n)
    simp [hvar, occursAt]
  | node c hc ih =>
    rw [occursAt_node 0 b hc, conBinding.free_node hc, List.any_eq_true]
    simp only [conBinding_parts, List.mem_map, exists_exists_and_eq_and]
    refine exists_congr fun p => and_congr_right fun hp => ?_
    exact ih (p.1, p.2.2) (List.mem_map_of_mem hp) (b + p.1)

/-- The occurrence check finds the variable that a replacement matters for. -/
theorem occurs_eq_false (h : c.CellFree) :
    occurs c = false ↔ ∀ r r', subConInCon 0 r c = subConInCon 0 r' c := by
  rw [← Bool.not_eq_true, occurs, occursAt_iff, conSubstitution.not_free_iff]
  simp only [subConInCon_eq 0 _ h, Except.ok.injEq]
  rfl

-- ---------------------------------------------------------------------------
-- Squishing
-- ---------------------------------------------------------------------------

theorem squishConBound_lift (a b : Nat) (h : c.CellFree) :
    squishConBound a b (liftConInConBound a b c) = .ok c := by
  induction c using Constructor.induct_nodes false generalizing b with
  | rel n =>
    rw [liftConInConBound]
    split
    next hn => rw [squishConBound, if_pos hn]
    next hn =>
      rw [squishConBound, if_neg (by omega), if_neg (by omega), Nat.add_sub_cancel]
  | unif d K y cell => exact absurd h Constructor.not_cellFree_unif
  | node c hc hu ih =>
    rw [liftConInConBound_plain a b hc hu,
      squishConBound_node a b (Constructor.mapParts_ne_rel _ hc) (Constructor.mapParts_ne_unif _ hu),
      Constructor.traverseParts_mapParts]
    refine (Constructor.traverseParts_ok (g := fun _ _ x => x) fun p hp => ?_).trans
      (congrArg Except.ok (Constructor.mapParts_id c))
    exact ih p hp (b + p.1) (h.of_part hp)

theorem lift_of_squishConBound (h : squishConBound a b c = .ok c') :
    liftConInConBound a b c' = c := by
  induction c using Constructor.induct_nodes false generalizing b c' with
  | rel n =>
    rw [squishConBound] at h
    split at h
    next hn =>
      cases h
      rw [liftConInConBound, if_pos hn]
    next hn =>
      split at h
      next => cases h
      next hlt =>
        cases h
        rw [liftConInConBound, if_neg (by omega), Nat.sub_add_cancel (by omega)]
  | unif d K y cell => cases h
  | node c hc hu ih =>
    rw [squishConBound_node a b hc hu] at h
    have hmap := Constructor.mapParts_of_traverseParts
      (g := fun k _ x => liftConInConBound a (b + k) x) (fun p hp y hy => ih p hp hy) h
    have hc' : ∀ n, c' ≠ .rel n := by
      rintro n rfl
      exact hc n hmap.symm
    have hu' : ∀ d K y cell, c' ≠ .unif d K y cell := by
      rintro d K y cell rfl
      exact hu d K y cell hmap.symm
    rw [liftConInConBound_plain a b hc' hu', hmap]

theorem lowerConInConBound_lift (b : Nat) (h : c.CellFree) :
    lowerConInConBound 1 b (liftConInConBound 1 b c) = c := by
  induction c using Constructor.induct_nodes false generalizing b with
  | rel n =>
    rw [liftConInConBound]
    split
    next hn => rw [lowerConInConBound, if_pos hn]
    next hn => rw [lowerConInConBound, if_neg (by omega), Nat.add_sub_cancel]
  | unif d K y cell => exact absurd h Constructor.not_cellFree_unif
  | node c hc hu ih =>
    rw [liftConInConBound_plain 1 b hc hu, lowerConInConBound_node 1 b
      (Constructor.mapParts_ne_rel _ hc) (Constructor.mapParts_ne_unif _ hu),
      Constructor.mapParts_mapParts]
    refine ((Constructor.mapParts_eq_iff _ (fun _ _ x => x) c).mpr fun p hp => ?_).trans
      (Constructor.mapParts_id c)
    exact ih p hp (b + p.1) (h.of_part hp)

/-- Lowering loses the variable at the bound. -/
theorem liftConInConBound_lower (b : Nat) (h : c.CellFree) :
    liftConInConBound 1 b (lowerConInConBound 1 b c) = c ↔
      c.All false fun k _ x => x ≠ .rel (b + k) := by
  induction c using Constructor.induct_nodes false generalizing b with
  | rel n =>
    rw [Constructor.all_of_no_parts rfl, lowerConInConBound]
    split
    next hn =>
      rw [liftConInConBound, if_pos hn]
      simp only [ne_eq, Constructor.rel.injEq, true_iff]
      omega
    next hn =>
      rw [liftConInConBound, ← apply_ite Constructor.rel]
      simp only [ne_eq, Constructor.rel.injEq]
      split <;> omega
  | unif d K y cell => exact absurd h Constructor.not_cellFree_unif
  | node c hc hu ih =>
    rw [lowerConInConBound_node 1 b hc hu, liftConInConBound_plain 1 b
      (Constructor.mapParts_ne_rel _ hc) (Constructor.mapParts_ne_unif _ hu),
      Constructor.mapParts_mapParts, Constructor.all_iff]
    have heq := @Constructor.mapParts_eq_iff false
      (fun k _ x => liftConInConBound 1 (b + k) (lowerConInConBound 1 (b + k) x))
      (fun _ _ x => x) c
    rw [Constructor.mapParts_id] at heq
    rw [heq]
    refine Iff.trans ?_ (and_iff_right (hc _)).symm
    refine forall₂_congr fun p hp => ?_
    simp only [← Nat.add_assoc]
    exact ih p hp (b + p.1) (h.of_part hp)

theorem squishCon_mliftConInCon (n : Nat) (h : c.CellFree) :
    squishCon n (mliftConInCon n c) = .ok c ↔
      (n = usizeMax → c.All false fun k _ x => x ≠ .rel k) := by
  by_cases hn : n = usizeMax
  · subst hn
    rw [squishCon, mliftConInCon, if_pos rfl, if_neg (by decide), if_pos rfl, Except.ok.injEq,
      liftConInConBound_lower 0 h]
    simp
  · simp only [hn, false_imp_iff, iff_true]
    rw [squishCon, mliftConInCon, if_neg hn]
    by_cases h0 : n = 0
    · simp [h0]
    · rw [if_neg h0, if_neg h0, if_neg hn]
      exact squishConBound_lift n 0 h

theorem mliftConInCon_squishCon (n : Nat) (h : c.CellFree) (hs : squishCon n c = .ok c') :
    mliftConInCon n c' = c := by
  rw [squishCon] at hs
  rw [mliftConInCon]
  split at hs
  next hn =>
    cases hs
    rw [if_neg (by rw [hn]; decide), if_pos hn, lowerConInConBound_lift 0 h]
  next hn =>
    split at hs
    next h0 =>
      cases hs
      rw [if_pos h0]
    next h0 =>
      rw [if_neg h0, if_neg hn]
      exact lift_of_squishConBound hs

-- ---------------------------------------------------------------------------
-- Unification cells
-- ---------------------------------------------------------------------------

/-- Substituting a closed constructor leaves no solved cell at the head. -/
theorem subConInConInner_ne_known (h : subConInConInner a x .unit c = .ok c') (d : Nat) (K : Kind)
    (y : String) (known : Constructor) : c' ≠ .unif d K y (.known known) := by
  induction hn : c.size using Nat.strong_induction_on generalizing c with
  | _ n ih =>
    subst hn
    by_cases hu : ∃ d K y cell, c = .unif d K y cell
    · obtain ⟨depth, K', y', cell, rfl⟩ := hu
      cases cell with
      | unknown =>
        rw [subConInConInner] at h
        split at h <;> cases h
        rintro ⟨⟩
      | known c =>
        rw [subConInConInner] at h
        refine ih _ ?_ h rfl
        rw [size_mliftConInCon, Constructor.size, CUnif.size]
        exact Nat.lt_succ_self _
    · have hu : ∀ d K y cell, c ≠ .unif d K y cell := fun d K y cell h => hu ⟨d, K, y, cell, h⟩
      by_cases hc : ∃ n, c = .rel n
      · obtain ⟨n, rfl⟩ := hc
        rw [subConInConInner] at h
        split at h
        · cases h
          rintro ⟨⟩
        · split at h <;> cases h <;> rintro ⟨⟩
      · rw [subConInConInner_node a x _ (fun n h => hc ⟨n, h⟩) hu] at h
        exact Constructor.traverseParts_ne_unif h hu d K y _

/-- Every unification cell that the operations reach is solved. -/
def Constructor.Solved (c : Constructor) : Prop :=
  c.All false fun _ _ x => ∀ d K y, x ≠ .unif d K y .unknown

/-- A solved cell does not come back from lifting and substitution: its solution does. -/
theorem cellFree_of_subConInConInner (hs : c.Solved)
    (h : subConInConInner a x .unit (liftConInConBound 1 b c) = .ok c) : c.CellFree := by
  induction c using Constructor.induct_nodes false generalizing a x b with
  | rel n => exact Constructor.cellFree_rel n
  | unif d K y cell =>
    cases cell with
    | unknown => exact absurd rfl (hs 0 0 _ .here d K y)
    | known c => exact absurd rfl (subConInConInner_ne_known h d K y c)
  | node c hc hu ih =>
    rw [liftConInConBound_plain 1 b hc hu,
      subConInConInner_node a x _ (Constructor.mapParts_ne_rel _ hc)
        (Constructor.mapParts_ne_unif _ hu), Constructor.traverseParts_mapParts] at h
    have hparts := Constructor.parts_of_traverseParts h
    exact Constructor.all_iff.mpr ⟨hu, fun p hp => ih p hp (hs.of_part hp) (hparts p hp)⟩

end UrWeb.Elaborated
