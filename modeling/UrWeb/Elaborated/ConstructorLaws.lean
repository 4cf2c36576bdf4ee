import UrWeb.Elaborated.ConstructorAlgebra

/-!
# Where the operations on constructors obey their laws

Inline sum types are not entered and kind variables are not moved out of the way, so
the laws hold exactly where neither matters.
-/

namespace UrWeb.Elaborated

-- ---------------------------------------------------------------------------
-- Shifting
-- ---------------------------------------------------------------------------

/-- No variable from `bound` on, and no cell that counts. -/
def Constructor.Fixed (bound : Nat) (c : Constructor) : Prop :=
  c.All true fun k _ x =>
    (∀ m, x = .rel m → m < bound + k) ∧ ∀ d K y cell, x = .unif d K y cell → usizeMax ≤ d

/-- Shifting past a binder leaves the inline sum types as they are. -/
def Constructor.SumsClosed (c : Constructor) : Prop :=
  c.All false fun k _ x => ∀ arms, x = .enum arms → shiftCon 1 k x = x

theorem Constructor.Fixed.mono {c : Constructor} (h : c.Fixed b) (hb : b ≤ d) : c.Fixed d :=
  Constructor.All.imp h fun _ _ _ hx =>
    ⟨fun m hm => Nat.lt_of_lt_of_le (hx.1 m hm) (Nat.add_le_add_right hb _), hx.2⟩

theorem Constructor.fixed_node {c : Constructor} (hc : ∀ n, c ≠ .rel n)
    (hu : ∀ d K y cell, c ≠ .unif d K y cell) :
    c.Fixed b ↔ ∀ p ∈ c.parts true, p.2.2.Fixed (b + p.1) := by
  rw [Constructor.Fixed, Constructor.all_iff]
  simp only [← Nat.add_assoc]
  exact and_iff_right ⟨fun m hm => absurd hm (hc m), fun d K y cell h => absurd h (hu d K y cell)⟩

theorem shiftCon_eq_self (ha : 0 < a) : shiftCon a b c = c ↔ c.Fixed b := by
  induction c using Constructor.induct_nodes true generalizing b with
  | rel n =>
    rw [Constructor.Fixed, Constructor.all_of_no_parts rfl, shiftCon, ← apply_ite Constructor.rel]
    simp only [Constructor.rel.injEq, forall_eq', Nat.add_zero, reduceCtorEq, false_imp_iff,
      implies_true, and_true]
    split <;> omega
  | unif d K y cell =>
    have hsat : saturatingAdd d a = d ↔ usizeMax ≤ d := by
      unfold saturatingAdd
      omega
    rw [Constructor.Fixed, Constructor.all_of_no_parts rfl, shiftCon]
    simp only [Constructor.unif.injEq, and_true, true_and, hsat, reduceCtorEq, false_imp_iff,
      implies_true, and_imp]
    exact ⟨fun h _ _ _ _ hd _ _ _ => hd ▸ h, fun h => h d K y cell rfl rfl rfl rfl⟩
  | node c hc hu ih =>
    have hid := @Constructor.mapParts_eq_iff true
      (fun k _ x => shiftCon a (b + k) x) (fun _ _ x => x) c
    rw [Constructor.mapParts_id] at hid
    rw [shiftCon_node a b hc hu, hid, Constructor.fixed_node hc hu]
    exact forall₂_congr fun p hp => ih p hp

theorem Constructor.not_enum {c : Constructor} (hc : ¬∃ arms, c = .enum arms) (arms) :
    c ≠ .enum arms := fun h => hc ⟨arms, h⟩

theorem lift_eq_shift (a b : Nat) (c : Constructor) :
    liftConInConBound a b c = shiftCon a b c ↔
      c.All false fun k _ x => ∀ arms, x = .enum arms → shiftCon a (b + k) x = x := by
  induction c using Constructor.induct_nodes false generalizing b with
  | rel n =>
    rw [Constructor.all_of_no_parts rfl]
    simp [liftConInConBound, shiftCon]
  | unif d K y cell =>
    rw [Constructor.all_of_no_parts rfl]
    simp [liftConInConBound, shiftCon]
  | node c hc hu ih =>
    by_cases he : ∃ arms, c = .enum arms
    · obtain ⟨arms, rfl⟩ := he
      rw [Constructor.all_of_no_parts rfl]
      simp [liftConInConBound, eq_comm]
    · have he := Constructor.not_enum he
      rw [liftConInConBound_plain a b hc hu, shiftCon_node a b hc hu,
        Constructor.mapParts_of_ne_enum _ he, Constructor.mapParts_eq_iff, Constructor.all_iff]
      simp only [← Nat.add_assoc]
      refine Iff.trans ?_ (and_iff_right fun arms h => absurd h (he arms)).symm
      exact forall₂_congr fun p hp => ih p hp (b + p.1)

theorem lift_eq_shift_zero (ha : 0 < a) :
    liftConInConBound a 0 c = shiftCon a 0 c ↔ c.SumsClosed := by
  rw [lift_eq_shift]
  simp only [Constructor.SumsClosed, Nat.zero_add, shiftCon_eq_self ha,
    shiftCon_eq_self Nat.zero_lt_one]

theorem Constructor.SumsClosed.lift_eq_shift (h : c.SumsClosed) (b : Nat) :
    liftConInConBound 1 b c = shiftCon 1 b c := by
  refine (UrWeb.Elaborated.lift_eq_shift 1 b c).mpr (Constructor.All.imp h fun k _ x hx arms he => ?_)
  rw [shiftCon_eq_self Nat.zero_lt_one]
  exact ((shiftCon_eq_self Nat.zero_lt_one).mp (hx arms he)).mono (Nat.le_add_left k b)

-- ---------------------------------------------------------------------------
-- Substitution
-- ---------------------------------------------------------------------------

section
variable (p p' : Nat → Nat → Constructor)

theorem Constructor.Fixed.replaceVar (a j : Nat) (h : c.Fixed b) (hx : b ≤ x) :
    replaceVar p true a j x c = c := by
  induction c using Constructor.induct_nodes true generalizing a j b x with
  | rel n =>
    have hn := (h 0 0 _ .here).1 n rfl
    rw [UrWeb.Elaborated.replaceVar, if_neg (by omega), if_neg (by omega)]
  | unif d K y cell => rfl
  | node c hc hu ih =>
    rw [Constructor.fixed_node hc hu] at h
    rw [replaceVar_node p true a j x hc]
    refine ((Constructor.mapParts_eq_iff _ (fun _ _ y => y) c).mpr fun q hq => ?_).trans
      (Constructor.mapParts_id c)
    exact ih q hq _ _ (h q hq) (Nat.add_le_add_right hx q.1)

/-- Two replacements agree if they do where the variable stands. -/
theorem replaceVar_eq_iff (a j : Nat)
    (hs : c.All false fun k _ y => ∀ arms, y = .enum arms → y.Fixed (b + k)) (hx : b ≤ x) :
    replaceVar p false a j x c = replaceVar p' true a j x c ↔
      c.All false fun k i y => y = .rel (x + k) → p (a + k) (j + i) = p' (a + k) (j + i) := by
  induction c using Constructor.induct_nodes false generalizing a j b x with
  | rel n =>
    rw [Constructor.all_of_no_parts rfl, replaceVar, replaceVar]
    simp only [Constructor.rel.injEq, Nat.add_zero]
    split
    next hn => simp [hn]
    next hn => simp [hn]
  | unif d K y cell =>
    rw [Constructor.all_of_no_parts rfl]
    simp [replaceVar]
  | node c hc hu ih =>
    by_cases he : ∃ arms, c = .enum arms
    · obtain ⟨arms, rfl⟩ := he
      rw [Constructor.all_of_no_parts rfl, (hs 0 0 _ .here arms rfl).replaceVar p' a j hx]
      simp [replaceVar]
    · have he := Constructor.not_enum he
      rw [replaceVar_node p false a j x hc, replaceVar_node p' true a j x hc,
        Constructor.mapParts_of_ne_enum _ he, Constructor.mapParts_eq_iff, Constructor.all_iff]
      refine Iff.trans ?_ (and_iff_right fun h => absurd h (hc _)).symm
      simp only [← Nat.add_assoc]
      refine forall₂_congr fun q hq => ih q hq _ _ ?_ (Nat.add_le_add_right hx q.1)
      simpa only [← Nat.add_assoc] using Constructor.All.of_part hs hq

end

-- ---------------------------------------------------------------------------
-- Kind variables
-- ---------------------------------------------------------------------------

def Kind.parts : Kind → List (Nat × Kind)
  | .arrow dom ran => [(0, dom), (0, ran)]
  | .record k => [(0, k)]
  | .tuple ks => ks.map (0, ·)
  | .kFun body => [(1, body)]
  | .typed _ | .star | .name | .unit | .unif _ _ | .tupleUnif _ _ | .rel _ => []

def Kind.mapParts (g : Nat → Kind → Kind) : Kind → Kind
  | .arrow dom ran => .arrow (g 0 dom) (g 0 ran)
  | .record k => .record (g 0 k)
  | .tuple ks => .tuple (ks.map (g 0))
  | .kFun body => .kFun (g 1 body)
  | k => k

theorem Kind.sizeOf_lt_of_part (h : p ∈ Kind.parts k) : sizeOf p.2 < sizeOf k := by
  cases k with
  | tuple ks =>
    obtain ⟨x, hx, rfl⟩ := List.mem_map.mp h
    have := List.sizeOf_lt_of_mem hx
    simp only [Kind.tuple.sizeOf_spec]
    omega
  | arrow dom ran =>
    simp only [Kind.parts, List.mem_cons, List.not_mem_nil, or_false] at h
    rcases h with rfl | rfl
    · simp
      omega
    · simp
  | record _ | kFun _ =>
    simp only [Kind.parts, List.mem_singleton] at h
    subst h
    simp
  | _ => cases h

/-- The binders of kinds. -/
def kindBinding : DeBruijn.Binding Kind where
  var := .rel
  parts := Kind.parts
  mapParts := Kind.mapParts
  induct h k := by
    induction hn : sizeOf k using Nat.strong_induction_on generalizing k with
    | _ n ih =>
      subst hn
      exact h k fun p hp => ih _ (Kind.sizeOf_lt_of_part hp) _ rfl
  var_injective _ _ h := Kind.rel.inj h
  parts_var _ := rfl
  parts_mapParts g k := by cases k <;> simp [Kind.parts, Kind.mapParts, Function.comp_def]
  mapParts_ne_var g k hk n := by
    cases k with
    | rel m => exact absurd rfl (hk m)
    | _ => simp [Kind.mapParts]
  mapParts_id k := by cases k <;> simp [Kind.mapParts]
  mapParts_mapParts f g k := by cases k <;> simp [Kind.mapParts, Function.comp_def]
  mapParts_eq_iff f g k := by
    cases k with
    | tuple ks =>
      simp only [Kind.mapParts, Kind.parts, Kind.tuple.injEq, List.map_inj_left,
        List.forall_mem_map]
    | _ => simp [Kind.mapParts, Kind.parts]

theorem liftKindsInKindBound_eq (a b : Nat) (ks : List Kind) :
    liftKindsInKindBound a b ks = ks.map (liftKindInKindBound a b) := by
  induction ks with
  | nil => rfl
  | cons k ks ih => rw [liftKindsInKindBound, ih, List.map_cons]

def kindLifting : DeBruijn.Lifting kindBinding where
  lift := liftKindInKindBound
  mark _ k := k
  mark_zero _ := rfl
  mark_mark _ _ _ := rfl
  mark_mapParts _ _ _ := rfl
  mark_var _ _ := rfl
  mark_ne_var _ _ hk := hk
  parts_mark _ _ := rfl
  lift_var a b n := by
    show liftKindInKindBound a b (.rel n) = .rel _
    rw [liftKindInKindBound, ← apply_ite Kind.rel]
  lift_node a b k hk := by
    cases k with
    | rel n => exact absurd rfl (hk n)
    | tuple ks =>
      rw [liftKindInKindBound, liftKindsInKindBound_eq]
      rfl
    | _ => rfl

theorem kind_plain (k : Kind) : kindLifting.Plain k := by
  refine kindBinding.induct (fun k ih => ?_) k
  exact .mk rfl ih

/-- A kind that lifting some number of times leaves alone has nothing to lift. -/
theorem liftKind_of_iterate (h : (liftKindInKindBound 1 b)^[a + 1] k = k) :
    liftKindInKindBound 1 b k = k := by
  have hiter : ∀ n, (liftKindInKindBound 1 b)^[n] k = kindLifting.lift n b k := by
    intro n
    induction n with
    | zero => exact (kindLifting.lift_zero b k).symm
    | succ n ih =>
      rw [Function.iterate_succ_apply', ih]
      exact kindLifting.lift_lift k (Nat.le_refl b) (Nat.le_add_right b n)
  rw [hiter] at h
  have hfree := (kindLifting.lift_eq_self_iff (kind_plain k) (Nat.succ_pos a)).mp h
  exact (kindLifting.lift_eq_self_iff (kind_plain k) Nat.zero_lt_one).mpr hfree

/-- The kinds of a node, all at the depth of the node itself. -/
def Constructor.mapKinds (f : Kind → Kind) : Constructor → Constructor
  | .tCFun ex x k body => .tCFun ex x (f k) body
  | .abs x k body => .abs x (f k) body
  | .kApp c k => .kApp c (f k)
  | .record k fields => .record (f k) fields
  | .map k1 k2 => .map (f k1) (f k2)
  | c => c

theorem Constructor.mapKinds_mapParts (f : Kind → Kind)
    (g : Nat → Nat → Constructor → Constructor) (c : Constructor) :
    (c.mapParts true g).mapKinds f = (c.mapKinds f).mapParts true g := by
  cases c <;> rfl

theorem Constructor.mapKinds_mapKinds (f g : Kind → Kind) (c : Constructor) :
    (c.mapKinds f).mapKinds g = c.mapKinds fun k => g (f k) := by
  cases c <;> rfl

/-- Kinds and parts of a node can be told apart. -/
theorem Constructor.mapKinds_eq_iff (f : Kind → Kind) (g h : Nat → Nat → Constructor → Constructor)
    (c : Constructor) : (c.mapKinds f).mapParts true g = c.mapParts true h ↔
      c.mapKinds f = c ∧ c.mapParts true g = c.mapParts true h := by
  cases c with
  | kApp c k => simp [Constructor.mapKinds, Constructor.mapParts, and_comm]
  | _ => simp [Constructor.mapKinds, Constructor.mapParts]

theorem liftKindInCons_eq (b : Nat) (cs : List Constructor) :
    liftKindInCons b cs = cs.map (liftKindInConBound b) := by
  induction cs with
  | nil => rfl
  | cons c cs ih => rw [liftKindInCons, ih, List.map_cons]

theorem liftKindInFields_eq (b : Nat) (fields : List (Constructor × Constructor)) :
    liftKindInFields b fields =
      fields.map fun f => (liftKindInConBound b f.1, liftKindInConBound b f.2) := by
  induction fields with
  | nil => rfl
  | cons f fields ih => rw [liftKindInFields, ih, List.map_cons]

theorem liftKindInArms_eq (b : Nat) (arms : List (String × List Constructor)) :
    liftKindInArms b arms = arms.map fun arm => (arm.1, arm.2.map (liftKindInConBound b)) := by
  induction arms with
  | nil => rfl
  | cons arm arms ih => rw [liftKindInArms, ih, List.map_cons, liftKindInCons_eq]

theorem liftKindInConBound_eq (b : Nat) (c : Constructor) :
    liftKindInConBound b c = (c.mapKinds (liftKindInKindBound 1 b)).mapParts true
      fun _ j x => liftKindInConBound (b + j) x := by
  cases c with
  | record k fields => rw [liftKindInConBound, liftKindInFields_eq]; rfl
  | tuple cs => rw [liftKindInConBound, liftKindInCons_eq]; rfl
  | enum arms => rw [liftKindInConBound, liftKindInArms_eq]; rfl
  | _ => rfl

theorem iterate_liftKindInConBound (b n : Nat) (c : Constructor) :
    (liftKindInConBound b)^[n] c = (c.mapKinds (liftKindInKindBound 1 b)^[n]).mapParts true
      fun _ j x => (liftKindInConBound (b + j))^[n] x := by
  induction n with
  | zero =>
    have hkinds : c.mapKinds (fun k => k) = c := by cases c <;> rfl
    exact ((congrArg _ hkinds).trans (Constructor.mapParts_id c)).symm
  | succ n ih =>
    rw [Function.iterate_succ_apply', ih, liftKindInConBound_eq, Constructor.mapKinds_mapParts,
      Constructor.mapKinds_mapKinds, Constructor.mapParts_mapParts]
    simp only [← Function.iterate_succ_apply']

theorem mapKinds_of_iterate {c : Constructor}
    (h : c.mapKinds (liftKindInKindBound 1 b)^[n + 1] = c) :
    c.mapKinds (liftKindInKindBound 1 b) = c := by
  cases c with
  | tCFun _ _ _ _ | abs _ _ _ | kApp _ _ | record _ _ | map _ _ =>
    simp only [Constructor.mapKinds, Constructor.tCFun.injEq, Constructor.abs.injEq,
      Constructor.kApp.injEq, Constructor.record.injEq, Constructor.map.injEq, and_true,
      true_and] at h ⊢
    first
    | exact liftKind_of_iterate h
    | exact ⟨liftKind_of_iterate h.1, liftKind_of_iterate h.2⟩
  | _ => rfl

theorem iterate_shiftCon_node (n a b d : Nat) (hc : ∀ n, c ≠ Constructor.rel n)
    (hu : ∀ d k x cell, c ≠ Constructor.unif d k x cell) :
    (liftKindInConBound d)^[n] (shiftCon a b c) =
      (c.mapKinds (liftKindInKindBound 1 d)^[n]).mapParts true
        fun k j x => (liftKindInConBound (d + j))^[n] (shiftCon a (b + k) x) := by
  rw [shiftCon_node a b hc hu, iterate_liftKindInConBound, Constructor.mapKinds_mapParts,
    Constructor.mapParts_mapParts]

theorem liftKindInConBound_eq_self (hk : c.mapKinds (liftKindInKindBound 1 d) = c)
    (hp : ∀ p ∈ c.parts true, liftKindInConBound (d + p.2.1) p.2.2 = p.2.2) :
    liftKindInConBound d c = c := by
  rw [liftKindInConBound_eq, hk]
  exact ((Constructor.mapParts_eq_iff _ (fun _ _ x => x) c).mpr hp).trans
    (Constructor.mapParts_id c)

/-- Where shifting and lifting kinds together change nothing, neither does alone. -/
theorem shift_of_iterate (h : (liftKindInConBound d)^[n + 1] (shiftCon a b c) = c) :
    shiftCon a b c = c ∧ liftKindInConBound d c = c := by
  induction c using Constructor.induct_nodes true generalizing b d with
  | rel m =>
    have hfix : ∀ i, liftKindInConBound d (.rel i) = .rel i := fun i => rfl
    rw [shiftCon, ← apply_ite Constructor.rel, Function.iterate_fixed (hfix _)] at h
    rw [shiftCon, ← apply_ite Constructor.rel]
    exact ⟨h, rfl⟩
  | unif depth K y cell =>
    rw [shiftCon, Function.iterate_fixed rfl] at h
    exact ⟨h, rfl⟩
  | node c hc hu ih =>
    have hid := @Constructor.mapParts_id true c
    rw [iterate_shiftCon_node _ a b d hc hu] at h
    obtain ⟨hkinds, hparts⟩ := (Constructor.mapKinds_eq_iff _ _ _ c).mp (h.trans hid.symm)
    rw [Constructor.mapParts_eq_iff] at hparts
    have hboth := fun p hp => ih p hp (hparts p hp)
    refine ⟨?_, liftKindInConBound_eq_self (mapKinds_of_iterate hkinds) fun p hp => (hboth p hp).2⟩
    rw [shiftCon_node a b hc hu]
    exact ((Constructor.mapParts_eq_iff _ (fun _ _ x => x) c).mpr
      fun p hp => (hboth p hp).1).trans hid

/-- Lifting as the code does it agrees with shifting and lifting kinds together only
where it agrees with shifting and there are no kinds to lift. -/
theorem lift_of_iterate
    (h : (liftKindInConBound d)^[n + 1] (shiftCon a b c) = liftConInConBound a b c) :
    liftConInConBound a b c = shiftCon a b c ∧ liftKindInConBound d c = c := by
  induction c using Constructor.induct_nodes false generalizing b d with
  | rel m => exact ⟨rfl, rfl⟩
  | unif depth K y cell => exact ⟨rfl, rfl⟩
  | node c hc hu ih =>
    by_cases he : ∃ arms, c = .enum arms
    · obtain ⟨arms, rfl⟩ := he
      have := shift_of_iterate h
      exact ⟨this.1.symm, this.2⟩
    · have he := Constructor.not_enum he
      rw [iterate_shiftCon_node _ a b d hc hu, liftConInConBound_plain a b hc hu,
        ← Constructor.mapParts_of_ne_enum _ he] at h
      obtain ⟨hkinds, hparts⟩ := (Constructor.mapKinds_eq_iff _ _ _ c).mp h
      rw [Constructor.mapParts_of_ne_enum _ he, Constructor.mapParts_of_ne_enum _ he,
        Constructor.mapParts_eq_iff] at hparts
      have hboth := fun p hp => ih p hp (hparts p hp)
      constructor
      · rw [liftConInConBound_plain a b hc hu, shiftCon_node a b hc hu,
          Constructor.mapParts_of_ne_enum _ he, Constructor.mapParts_eq_iff]
        exact fun p hp => (hboth p hp).1
      · refine liftKindInConBound_eq_self (mapKinds_of_iterate hkinds) ?_
        rw [Constructor.parts_of_ne_enum he]
        exact fun p hp => (hboth p hp).2

theorem shiftCon_zero (b : Nat) (c : Constructor) : shiftCon 0 b c = c := by
  induction c using Constructor.induct_nodes true generalizing b with
  | rel n => simp [shiftCon]
  | unif d K y cell => rw [shiftCon, saturatingAdd_zero]
  | node c hc hu ih =>
    rw [shiftCon_node 0 b hc hu]
    exact ((Constructor.mapParts_eq_iff _ (fun _ _ x => x) c).mpr
      fun p hp => ih p hp (b + p.1)).trans (Constructor.mapParts_id c)

theorem liftKindInConBound_shift (a b : Nat) (h : liftKindInConBound d c = c) :
    liftKindInConBound d (shiftCon a b c) = shiftCon a b c := by
  induction c using Constructor.induct_nodes true generalizing b d with
  | rel m =>
    rw [shiftCon, ← apply_ite Constructor.rel]
    rfl
  | unif depth K y cell => rfl
  | node c hc hu ih =>
    rw [liftKindInConBound_eq] at h
    obtain ⟨hkinds, hparts⟩ :=
      (Constructor.mapKinds_eq_iff _ _ _ c).mp (h.trans (Constructor.mapParts_id c).symm)
    rw [Constructor.mapParts_eq_iff] at hparts
    have hnode := iterate_shiftCon_node 1 a b d hc hu
    rw [Function.iterate_one, Function.iterate_one, hkinds] at hnode
    rw [hnode, shiftCon_node a b hc hu, Constructor.mapParts_eq_iff]
    exact fun p hp => ih p hp _ (hparts p hp)

/-- Moving a constructor past `k` constructor binders and `j` kind binders. -/
theorem lift_eq_place (k j : Nat) (r : Constructor) :
    liftConInConBound k 0 r = liftKindInCon^[j] (shiftCon k 0 r) ↔
      (k = 0 ∨ r.SumsClosed) ∧ (j = 0 ∨ liftKindInCon r = r) := by
  have hlift : liftConInConBound k 0 r = shiftCon k 0 r ↔ k = 0 ∨ r.SumsClosed := by
    cases k with
    | zero =>
      have hzero : liftConInConBound 0 0 r = r := conLifting.lift_zero 0 r
      simp [hzero, shiftCon_zero]
    | succ k => simp [lift_eq_shift_zero (Nat.succ_pos k)]
  cases j with
  | zero => simpa using hlift
  | succ j =>
    constructor
    · intro h
      have hboth := lift_of_iterate (d := 0) h.symm
      exact ⟨hlift.mp hboth.1, .inr hboth.2⟩
    · rintro ⟨hs, h⟩
      have hk : liftKindInCon (shiftCon k 0 r) = shiftCon k 0 r :=
        liftKindInConBound_shift k 0 (h.resolve_left (Nat.succ_ne_zero j))
      rw [Function.iterate_fixed hk]
      exact hlift.mpr hs

-- ---------------------------------------------------------------------------
-- The laws
-- ---------------------------------------------------------------------------

/-- What lifting, squishing, substitution and the occurrence check should be to each
other, and to the shifts and the substitution meant. -/
structure SubstitutionLaws (n : Nat) (r c : Constructor) : Prop where
  sub_lift : ∀ r', subConInCon 0 r' (liftConInCon c) = .ok c
  squish_mlift : squishCon n (mliftConInCon n c) = .ok c
  mlift_squish : ∀ c', squishCon n c = .ok c' → mliftConInCon n c' = c
  lift_lift : ∀ b d, b ≤ d → liftConInConBound 1 b (liftConInConBound 1 d c) =
    liftConInConBound 1 (d + 1) (liftConInConBound 1 b c)
  lift_sub_below : ∀ b, b ≤ n → (subConInCon n r c).map (liftConInConBound 1 b) =
    subConInCon (n + 1) (liftConInConBound 1 b r) (liftConInConBound 1 b c)
  lift_sub_above : ∀ b, n ≤ b → (subConInCon n r c).map (liftConInConBound 1 b) =
    subConInCon n (liftConInConBound 1 b r) (liftConInConBound 1 (b + 1) c)
  lift_shift : ∀ b, liftConInConBound 1 b c = shiftCon 1 b c
  sub_subst : subConInCon n r c = .ok (substCon n r c)
  occurs_iff : occurs c = false ↔ ∀ s s', subConInCon 0 s c = subConInCon 0 s' c

/-- Cells, inline sum types and kind binders are out of the way of the variables. -/
structure Regular (n : Nat) (r c : Constructor) : Prop where
  cellFree : c.CellFree
  sums : c.SumsClosed
  squishable : n = usizeMax → c.All false fun k _ x => x ≠ .rel k
  binders : c.All false fun k _ x => x = .rel (n + k) → k = 0 ∨ r.SumsClosed
  kinds : c.All false fun k j x => x = .rel (n + k) → j = 0 ∨ liftKindInCon r = r

theorem subConInCon_eq_substCon (n : Nat) (r : Constructor) (h : c.CellFree) (hs : c.SumsClosed) :
    subConInCon n r c = .ok (substCon n r c) ↔ c.All false fun k j x => x = .rel (n + k) →
      (k = 0 ∨ r.SumsClosed) ∧ (j = 0 ∨ liftKindInCon r = r) := by
  have hfixed : c.All false fun k _ y => ∀ arms, y = .enum arms → y.Fixed (0 + k) := by
    refine Constructor.All.imp hs fun k _ y hy arms he => ?_
    rw [Nat.zero_add, ← shiftCon_eq_self Nat.zero_lt_one]
    exact hy arms he
  rw [subConInCon_eq n r h, Except.ok.injEq, subCon, substCon,
    replaceVar_eq_iff _ _ 0 0 hfixed (Nat.zero_le n)]
  simp only [Nat.zero_add, lift_eq_place]

/-- The laws hold exactly of the regular inputs. -/
theorem substitutionLaws_iff (n : Nat) (r : Constructor) (h : c.Solved) :
    SubstitutionLaws n r c ↔ Regular n r c := by
  constructor
  · intro hl
    have hcell : c.CellFree := cellFree_of_subConInConInner h (hl.sub_lift .unit)
    have hsums : c.SumsClosed := (lift_eq_shift_zero Nat.zero_lt_one).mp (hl.lift_shift 0)
    have hplace := (subConInCon_eq_substCon n r hcell hsums).mp hl.sub_subst
    exact ⟨hcell, hsums, (squishCon_mliftConInCon n hcell).mp hl.squish_mlift,
      hplace.imp fun _ _ _ hx he => (hx he).1, hplace.imp fun _ _ _ hx he => (hx he).2⟩
  · intro hr
    have hcell := hr.cellFree
    exact {
      sub_lift := fun r' => subConInCon_liftConInCon r' hcell
      squish_mlift := (squishCon_mliftConInCon n hcell).mpr hr.squishable
      mlift_squish := fun _ hs => mliftConInCon_squishCon n hcell hs
      lift_lift := fun _ _ hb => liftConInConBound_comm c hb
      lift_sub_below := fun _ hb => map_subConInCon_of_le r hcell hb
      lift_sub_above := fun _ hb => map_subConInCon_of_ge r hcell hb
      lift_shift := hr.sums.lift_eq_shift
      sub_subst := (subConInCon_eq_substCon n r hcell hr.sums).mpr fun k j x hx he =>
        ⟨hr.binders k j x hx he, hr.kinds k j x hx he⟩
      occurs_iff := occurs_eq_false hcell }

/-- The laws at a type under both sorts of binders. -/
theorem substitutionLaws_polymorphic :
    SubstitutionLaws 1 (.abs "r" .star (.rel 0))
      (.tKFun "K" (.tCFun .explicit "t" (.rel 0) (.tRecord (.rel 2)))) := by
  have hrel : ∀ n Q, (Constructor.rel n).All false Q ↔ Q 0 0 (.rel n) :=
    fun n Q => Constructor.all_of_no_parts rfl
  have hall : ∀ Q, (Constructor.tKFun "K"
      (.tCFun .explicit "t" (.rel 0) (.tRecord (.rel 2)))).All false Q ↔
      Q 0 0 (.tKFun "K" (.tCFun .explicit "t" (.rel 0) (.tRecord (.rel 2)))) ∧
      Q 0 1 (.tCFun .explicit "t" (.rel 0) (.tRecord (.rel 2))) ∧
      Q 1 1 (.tRecord (.rel 2)) ∧ Q 1 1 (.rel 2) := by
    intro Q
    rw [Constructor.all_iff, Constructor.parts, List.forall_mem_singleton,
      Constructor.all_iff, Constructor.parts, List.forall_mem_singleton,
      Constructor.all_iff, Constructor.parts, List.forall_mem_singleton, hrel]
    exact Iff.rfl
  have hr : (Constructor.abs "r" .star (.rel 0)).SumsClosed := by
    rw [Constructor.SumsClosed, Constructor.all_iff, Constructor.parts, List.forall_mem_singleton,
      hrel]
    simp
  refine (substitutionLaws_iff 1 (.abs "r" .star (.rel 0)) ((hall _).mpr (by simp))).mpr
    ⟨(hall _).mpr (by simp), (hall _).mpr (by simp), fun h => absurd h (by decide),
      (hall _).mpr (by simp [hr]), (hall _).mpr ?_⟩
  simp [liftKindInCon, liftKindInConBound, liftKindInKindBound]

/-- A kind variable is captured under a kind binder. -/
theorem not_substitutionLaws_captured :
    ¬∀ n r c, Constructor.Solved c → SubstitutionLaws n r c := by
  intro h
  have hall : ∀ Q, (Constructor.kAbs "K" (.rel 0)).All false Q ↔
      Q 0 0 (.kAbs "K" (.rel 0)) ∧ Q 0 1 (.rel 0) := by
    intro Q
    rw [Constructor.all_iff, Constructor.parts, List.forall_mem_singleton,
      Constructor.all_of_no_parts rfl]
  have hl := h 0 (.abs "t" (.rel 0) .unit) (.kAbs "K" (.rel 0)) ((hall _).mpr (by simp))
  have hsub := hl.sub_subst
  rw [subConInCon_eq 0 _ ((hall _).mpr (by simp))] at hsub
  simp [subCon, substCon, replaceVar, liftConInConBound, shiftCon, liftKindInCon,
    liftKindInConBound, liftKindInKindBound] at hsub

end UrWeb.Elaborated
