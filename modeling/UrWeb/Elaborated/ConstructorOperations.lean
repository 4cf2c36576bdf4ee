import UrWeb.Elaborated.ConstructorParts

/-!
# Operations on constructors

Lifting, lowering, squishing, substitution and the occurrence check of
`type_operations`. An index is a natural number, so it never saturates; the depth
of a unification cell does, and the largest machine number there and in the
amount of a squish stands for minus one.
-/

namespace UrWeb.Elaborated

/-- `usize::MAX`. -/
def usizeMax : Nat := 2 ^ 64 - 1

/-- `saturating_add`, on numbers up to `usizeMax`. -/
def saturatingAdd (n amount : Nat) : Nat := max n (min (n + amount) usizeMax)

def wrappingSub (n amount : Nat) : Nat :=
  if amount ≤ n then n - amount else n + (usizeMax + 1) - amount

-- ---------------------------------------------------------------------------
-- Kinds
-- ---------------------------------------------------------------------------

mutual
def liftKindInKindBound (amount bound : Nat) : Kind → Kind
  | .rel n => if n < bound then .rel n else .rel (n + amount)
  | .arrow dom ran =>
    .arrow (liftKindInKindBound amount bound dom) (liftKindInKindBound amount bound ran)
  | .record k => .record (liftKindInKindBound amount bound k)
  | .tuple ks => .tuple (liftKindsInKindBound amount bound ks)
  | .kFun body => .kFun (liftKindInKindBound amount (bound + 1) body)
  | .typed head => .typed head
  | .star => .star
  | .name => .name
  | .unit => .unit
  | .unif x cell => .unif x cell
  | .tupleUnif members cell => .tupleUnif members cell
def liftKindsInKindBound (amount bound : Nat) : List Kind → List Kind
  | [] => []
  | k :: ks => liftKindInKindBound amount bound k :: liftKindsInKindBound amount bound ks
end

mutual
/-- The kind variables from `bound` on move up by one. -/
def liftKindInConBound (bound : Nat) : Constructor → Constructor
  | .tFun dom ran => .tFun (liftKindInConBound bound dom) (liftKindInConBound bound ran)
  | .tCFun ex x k body =>
    .tCFun ex x (liftKindInKindBound 1 bound k) (liftKindInConBound bound body)
  | .tRecord row => .tRecord (liftKindInConBound bound row)
  | .tDisjoint c1 c2 body =>
    .tDisjoint (liftKindInConBound bound c1) (liftKindInConBound bound c2)
      (liftKindInConBound bound body)
  | .app c1 c2 => .app (liftKindInConBound bound c1) (liftKindInConBound bound c2)
  | .abs x k body => .abs x (liftKindInKindBound 1 bound k) (liftKindInConBound bound body)
  | .kAbs x body => .kAbs x (liftKindInConBound (bound + 1) body)
  | .kApp c k => .kApp (liftKindInConBound bound c) (liftKindInKindBound 1 bound k)
  | .tKFun x body => .tKFun x (liftKindInConBound (bound + 1) body)
  | .record k fields =>
    .record (liftKindInKindBound 1 bound k) (liftKindInFields bound fields)
  | .concat c1 c2 => .concat (liftKindInConBound bound c1) (liftKindInConBound bound c2)
  | .map k1 k2 => .map (liftKindInKindBound 1 bound k1) (liftKindInKindBound 1 bound k2)
  | .tuple cs => .tuple (liftKindInCons bound cs)
  | .proj c n => .proj (liftKindInConBound bound c) n
  | .enum arms => .enum (liftKindInArms bound arms)
  | .rel n => .rel n
  | .named n => .named n
  | .modProj n path x => .modProj n path x
  | .name s => .name s
  | .unit => .unit
  | .error => .error
  | .unif depth k x cell => .unif depth k x cell
def liftKindInCons (bound : Nat) : List Constructor → List Constructor
  | [] => []
  | c :: cs => liftKindInConBound bound c :: liftKindInCons bound cs
def liftKindInFields (bound : Nat) :
    List (Constructor × Constructor) → List (Constructor × Constructor)
  | [] => []
  | (c1, c2) :: fields =>
    (liftKindInConBound bound c1, liftKindInConBound bound c2) :: liftKindInFields bound fields
def liftKindInArms (bound : Nat) :
    List (String × List Constructor) → List (String × List Constructor)
  | [] => []
  | (tag, args) :: arms => (tag, liftKindInCons bound args) :: liftKindInArms bound arms
end

def liftKindInCon (c : Constructor) : Constructor := liftKindInConBound 0 c

-- ---------------------------------------------------------------------------
-- Lifting and lowering
-- ---------------------------------------------------------------------------

mutual
/-- The variables from `bound` on move up by `amount`. -/
def liftConInConBound (amount bound : Nat) : Constructor → Constructor
  | .rel n => if n < bound then .rel n else .rel (n + amount)
  | .unif depth k x cell => .unif (saturatingAdd depth amount) k x cell
  | .tFun dom ran =>
    .tFun (liftConInConBound amount bound dom) (liftConInConBound amount bound ran)
  | .tCFun ex x k body => .tCFun ex x k (liftConInConBound amount (bound + 1) body)
  | .tRecord row => .tRecord (liftConInConBound amount bound row)
  | .tDisjoint c1 c2 body =>
    .tDisjoint (liftConInConBound amount bound c1) (liftConInConBound amount bound c2)
      (liftConInConBound amount bound body)
  | .app c1 c2 => .app (liftConInConBound amount bound c1) (liftConInConBound amount bound c2)
  | .abs x k body => .abs x k (liftConInConBound amount (bound + 1) body)
  | .kAbs x body => .kAbs x (liftConInConBound amount bound body)
  | .kApp c k => .kApp (liftConInConBound amount bound c) k
  | .tKFun x body => .tKFun x (liftConInConBound amount bound body)
  | .record k fields => .record k (liftConInFields amount bound fields)
  | .concat c1 c2 =>
    .concat (liftConInConBound amount bound c1) (liftConInConBound amount bound c2)
  | .tuple cs => .tuple (liftConInCons amount bound cs)
  | .proj c n => .proj (liftConInConBound amount bound c) n
  | .named n => .named n
  | .modProj n path x => .modProj n path x
  | .name s => .name s
  | .map k1 k2 => .map k1 k2
  | .unit => .unit
  | .error => .error
  | .enum arms => .enum arms
def liftConInCons (amount bound : Nat) : List Constructor → List Constructor
  | [] => []
  | c :: cs => liftConInConBound amount bound c :: liftConInCons amount bound cs
def liftConInFields (amount bound : Nat) :
    List (Constructor × Constructor) → List (Constructor × Constructor)
  | [] => []
  | (c1, c2) :: fields =>
    (liftConInConBound amount bound c1, liftConInConBound amount bound c2) ::
      liftConInFields amount bound fields
end

mutual
/-- The variables from `bound` on move down by `amount`. -/
def lowerConInConBound (amount bound : Nat) : Constructor → Constructor
  | .rel n => if n < bound then .rel n else .rel (n - amount)
  | .unif depth k x cell => .unif (wrappingSub depth amount) k x cell
  | .tFun dom ran =>
    .tFun (lowerConInConBound amount bound dom) (lowerConInConBound amount bound ran)
  | .tCFun ex x k body => .tCFun ex x k (lowerConInConBound amount (bound + 1) body)
  | .tRecord row => .tRecord (lowerConInConBound amount bound row)
  | .tDisjoint c1 c2 body =>
    .tDisjoint (lowerConInConBound amount bound c1) (lowerConInConBound amount bound c2)
      (lowerConInConBound amount bound body)
  | .app c1 c2 =>
    .app (lowerConInConBound amount bound c1) (lowerConInConBound amount bound c2)
  | .abs x k body => .abs x k (lowerConInConBound amount (bound + 1) body)
  | .kAbs x body => .kAbs x (lowerConInConBound amount bound body)
  | .kApp c k => .kApp (lowerConInConBound amount bound c) k
  | .tKFun x body => .tKFun x (lowerConInConBound amount bound body)
  | .record k fields => .record k (lowerConInFields amount bound fields)
  | .concat c1 c2 =>
    .concat (lowerConInConBound amount bound c1) (lowerConInConBound amount bound c2)
  | .tuple cs => .tuple (lowerConInCons amount bound cs)
  | .proj c n => .proj (lowerConInConBound amount bound c) n
  | .named n => .named n
  | .modProj n path x => .modProj n path x
  | .name s => .name s
  | .map k1 k2 => .map k1 k2
  | .unit => .unit
  | .error => .error
  | .enum arms => .enum arms
def lowerConInCons (amount bound : Nat) : List Constructor → List Constructor
  | [] => []
  | c :: cs => lowerConInConBound amount bound c :: lowerConInCons amount bound cs
def lowerConInFields (amount bound : Nat) :
    List (Constructor × Constructor) → List (Constructor × Constructor)
  | [] => []
  | (c1, c2) :: fields =>
    (lowerConInConBound amount bound c1, lowerConInConBound amount bound c2) ::
      lowerConInFields amount bound fields
end

def liftConInCon (c : Constructor) : Constructor := liftConInConBound 1 0 c

def mliftConInCon (binderCount : Nat) (c : Constructor) : Constructor :=
  if binderCount = 0 then c
  else if binderCount = usizeMax then lowerConInConBound 1 0 c
  else liftConInConBound binderCount 0 c

-- ---------------------------------------------------------------------------
-- Squishing
-- ---------------------------------------------------------------------------

structure CantSquish
  deriving DecidableEq

mutual
/-- Lifting undone; a variable among the `amount` above `bound` and a unification
cell stop it. -/
def squishConBound (amount bound : Nat) : Constructor → Except CantSquish Constructor
  | .rel n =>
    if n < bound then .ok (.rel n)
    else if n < bound + amount then .error {}
    else .ok (.rel (n - amount))
  | .unif _ _ _ _ => .error {}
  | .tFun dom ran => do
    return .tFun (← squishConBound amount bound dom) (← squishConBound amount bound ran)
  | .tCFun ex x k body => do return .tCFun ex x k (← squishConBound amount (bound + 1) body)
  | .tRecord row => do return .tRecord (← squishConBound amount bound row)
  | .tDisjoint c1 c2 body => do
    return .tDisjoint (← squishConBound amount bound c1) (← squishConBound amount bound c2)
      (← squishConBound amount bound body)
  | .app c1 c2 => do
    return .app (← squishConBound amount bound c1) (← squishConBound amount bound c2)
  | .abs x k body => do return .abs x k (← squishConBound amount (bound + 1) body)
  | .kAbs x body => do return .kAbs x (← squishConBound amount bound body)
  | .kApp c k => do return .kApp (← squishConBound amount bound c) k
  | .tKFun x body => do return .tKFun x (← squishConBound amount bound body)
  | .record k fields => do return .record k (← squishFields amount bound fields)
  | .concat c1 c2 => do
    return .concat (← squishConBound amount bound c1) (← squishConBound amount bound c2)
  | .tuple cs => do return .tuple (← squishCons amount bound cs)
  | .proj c n => do return .proj (← squishConBound amount bound c) n
  | .named n => .ok (.named n)
  | .modProj n path x => .ok (.modProj n path x)
  | .name s => .ok (.name s)
  | .map k1 k2 => .ok (.map k1 k2)
  | .unit => .ok .unit
  | .error => .ok .error
  | .enum arms => .ok (.enum arms)
def squishCons (amount bound : Nat) : List Constructor → Except CantSquish (List Constructor)
  | [] => .ok []
  | c :: cs => do return (← squishConBound amount bound c) :: (← squishCons amount bound cs)
def squishFields (amount bound : Nat) : List (Constructor × Constructor) →
    Except CantSquish (List (Constructor × Constructor))
  | [] => .ok []
  | (c1, c2) :: fields => do
    let c1' ← squishConBound amount bound c1
    let c2' ← squishConBound amount bound c2
    return (c1', c2') :: (← squishFields amount bound fields)
end

def squishCon (amount : Nat) (c : Constructor) : Except CantSquish Constructor :=
  if amount = usizeMax then .ok (liftConInConBound 1 0 c)
  else if amount = 0 then .ok c
  else squishConBound amount 0 c

-- ---------------------------------------------------------------------------
-- The functions on the parts
-- ---------------------------------------------------------------------------

/-- What lifting does to a node besides its parts: a cell counts its depth up. -/
def Constructor.deepen (amount : Nat) : Constructor → Constructor
  | .unif depth k x cell => .unif (saturatingAdd depth amount) k x cell
  | c => c

theorem liftConInCons_eq (a b : Nat) (cs : List Constructor) :
    liftConInCons a b cs = cs.map (liftConInConBound a b) := by
  induction cs with
  | nil => rfl
  | cons c cs ih => rw [liftConInCons, ih, List.map_cons]

theorem liftConInFields_eq (a b : Nat) (fields : List (Constructor × Constructor)) :
    liftConInFields a b fields =
      fields.map fun f => (liftConInConBound a b f.1, liftConInConBound a b f.2) := by
  induction fields with
  | nil => rfl
  | cons f fields ih => rw [liftConInFields, ih, List.map_cons]

theorem liftConInConBound_node (a b : Nat) (hc : ∀ n, c ≠ Constructor.rel n) :
    liftConInConBound a b c =
      (c.deepen a).mapParts false fun k _ x => liftConInConBound a (b + k) x := by
  cases c with
  | rel n => exact absurd rfl (hc n)
  | record k fields =>
    rw [liftConInConBound, liftConInFields_eq, Constructor.deepen, Constructor.mapParts,
      Nat.add_zero]
    simp
  | tuple cs =>
    rw [liftConInConBound, liftConInCons_eq, Constructor.deepen, Constructor.mapParts,
      Nat.add_zero]
    simp
  | _ => rfl

theorem Constructor.deepen_of_ne_unif (a : Nat) {c : Constructor}
    (hu : ∀ d k x cell, c ≠ .unif d k x cell) : c.deepen a = c := by
  cases c with
  | unif d k x cell => exact absurd rfl (hu d k x cell)
  | _ => rfl

theorem liftConInConBound_plain (a b : Nat) (hc : ∀ n, c ≠ Constructor.rel n)
    (hu : ∀ d k x cell, c ≠ Constructor.unif d k x cell) :
    liftConInConBound a b c = c.mapParts false fun k _ x => liftConInConBound a (b + k) x := by
  rw [liftConInConBound_node a b hc, Constructor.deepen_of_ne_unif a hu]

theorem lowerConInCons_eq (a b : Nat) (cs : List Constructor) :
    lowerConInCons a b cs = cs.map (lowerConInConBound a b) := by
  induction cs with
  | nil => rfl
  | cons c cs ih => rw [lowerConInCons, ih, List.map_cons]

theorem lowerConInFields_eq (a b : Nat) (fields : List (Constructor × Constructor)) :
    lowerConInFields a b fields =
      fields.map fun f => (lowerConInConBound a b f.1, lowerConInConBound a b f.2) := by
  induction fields with
  | nil => rfl
  | cons f fields ih => rw [lowerConInFields, ih, List.map_cons]

theorem lowerConInConBound_node (a b : Nat) (hc : ∀ n, c ≠ Constructor.rel n)
    (hu : ∀ d k x cell, c ≠ Constructor.unif d k x cell) :
    lowerConInConBound a b c = c.mapParts false fun k _ x => lowerConInConBound a (b + k) x := by
  cases c with
  | rel n => exact absurd rfl (hc n)
  | unif d k x cell => exact absurd rfl (hu d k x cell)
  | record k fields => rw [lowerConInConBound, lowerConInFields_eq, Constructor.mapParts, Nat.add_zero]
  | tuple cs => rw [lowerConInConBound, lowerConInCons_eq, Constructor.mapParts, Nat.add_zero]
  | _ => rfl

theorem squishCons_eq (a b : Nat) (cs : List Constructor) :
    squishCons a b cs = cs.mapM (squishConBound a b) := by
  induction cs with
  | nil => rfl
  | cons c cs ih =>
    rw [squishCons, ih, List.mapM_cons]

theorem squishFields_eq (a b : Nat) (fields : List (Constructor × Constructor)) :
    squishFields a b fields =
      fields.mapM fun f => do return (← squishConBound a b f.1, ← squishConBound a b f.2) := by
  induction fields with
  | nil => rfl
  | cons f fields ih =>
    rw [squishFields, ih, List.mapM_cons]
    simp

theorem squishConBound_node (a b : Nat) (hc : ∀ n, c ≠ Constructor.rel n)
    (hu : ∀ d k x cell, c ≠ Constructor.unif d k x cell) :
    squishConBound a b c = c.traverseParts fun k _ x => squishConBound a (b + k) x := by
  cases c with
  | rel n => exact absurd rfl (hc n)
  | unif d k x cell => exact absurd rfl (hu d k x cell)
  | record k fields =>
    rw [squishConBound, squishFields_eq, Constructor.traverseParts, Nat.add_zero]
  | tuple cs => rw [squishConBound, squishCons_eq, Constructor.traverseParts, Nat.add_zero]
  | _ => rfl

theorem size_liftConInConBound (a b : Nat) (c : Constructor) :
    (liftConInConBound a b c).size = c.size := by
  induction c using Constructor.induct_parts false generalizing b with
  | h c ih =>
    by_cases hc : ∃ n, c = .rel n
    · obtain ⟨n, rfl⟩ := hc
      rw [liftConInConBound]
      split <;> rfl
    · rw [liftConInConBound_node a b fun n h => hc ⟨n, h⟩]
      have hsize : (c.deepen a).size = c.size := by cases c <;> rfl
      have hparts : (c.deepen a).parts false = c.parts false := by cases c <;> rfl
      rw [Constructor.size_mapParts_false fun p hp => ih p (hparts ▸ hp) (b + p.1), hsize]

theorem size_lowerConInConBound (a b : Nat) (c : Constructor) :
    (lowerConInConBound a b c).size = c.size := by
  induction c using Constructor.induct_parts false generalizing b with
  | h c ih =>
    by_cases hc : ∃ n, c = .rel n
    · obtain ⟨n, rfl⟩ := hc
      rw [lowerConInConBound]
      split <;> rfl
    · by_cases hu : ∃ d k x cell, c = .unif d k x cell
      · obtain ⟨d, k, x, cell, rfl⟩ := hu
        rfl
      · rw [lowerConInConBound_node a b (fun n h => hc ⟨n, h⟩)
          fun d k x cell h => hu ⟨d, k, x, cell, h⟩]
        exact Constructor.size_mapParts_false fun p hp => ih p hp (b + p.1)

theorem size_mliftConInCon (n : Nat) (c : Constructor) : (mliftConInCon n c).size = c.size := by
  rw [mliftConInCon]
  split
  · rfl
  · split
    · exact size_lowerConInConBound 1 0 c
    · exact size_liftConInConBound n 0 c

-- ---------------------------------------------------------------------------
-- Substitution
-- ---------------------------------------------------------------------------

structure SubUnif
  deriving DecidableEq

mutual
/-- `rep`, lifted past the `amount` binders crossed, replaces the variable `xn`. The
solution of a cell is substituted in; an unsolved cell at depth minus one stops it. -/
def subConInConInner (amount xn : Nat) (rep : Constructor) :
    Constructor → Except SubUnif Constructor
  | .rel n =>
    if n = xn then .ok (liftConInConBound amount 0 rep)
    else if n > xn then .ok (.rel (n - 1))
    else .ok (.rel n)
  | .unif depth _ _ (.known c) => subConInConInner amount xn rep (mliftConInCon depth c)
  | .unif depth k x .unknown =>
    if depth = usizeMax then .error {} else .ok (.unif (wrappingSub depth 1) k x .unknown)
  | .tFun dom ran => do
    return .tFun (← subConInConInner amount xn rep dom) (← subConInConInner amount xn rep ran)
  | .tCFun ex x k body => do
    return .tCFun ex x k (← subConInConInner (amount + 1) (xn + 1) rep body)
  | .tRecord row => do return .tRecord (← subConInConInner amount xn rep row)
  | .tDisjoint c1 c2 body => do
    return .tDisjoint (← subConInConInner amount xn rep c1) (← subConInConInner amount xn rep c2)
      (← subConInConInner amount xn rep body)
  | .app c1 c2 => do
    return .app (← subConInConInner amount xn rep c1) (← subConInConInner amount xn rep c2)
  | .abs x k body => do return .abs x k (← subConInConInner (amount + 1) (xn + 1) rep body)
  | .kAbs x body => do return .kAbs x (← subConInConInner amount xn rep body)
  | .kApp c k => do return .kApp (← subConInConInner amount xn rep c) k
  | .tKFun x body => do return .tKFun x (← subConInConInner amount xn rep body)
  | .record k fields => do return .record k (← subConInFields amount xn rep fields)
  | .concat c1 c2 => do
    return .concat (← subConInConInner amount xn rep c1) (← subConInConInner amount xn rep c2)
  | .tuple cs => do return .tuple (← subConInCons amount xn rep cs)
  | .proj c n => do return .proj (← subConInConInner amount xn rep c) n
  | .named n => .ok (.named n)
  | .modProj n path x => .ok (.modProj n path x)
  | .name s => .ok (.name s)
  | .map k1 k2 => .ok (.map k1 k2)
  | .unit => .ok .unit
  | .error => .ok .error
  | .enum arms => .ok (.enum arms)
termination_by c => 2 * c.size
decreasing_by all_goals simp only [Constructor.size, CUnif.size, size_mliftConInCon]; omega
def subConInCons (amount xn : Nat) (rep : Constructor) :
    List Constructor → Except SubUnif (List Constructor)
  | [] => .ok []
  | c :: cs => do return (← subConInConInner amount xn rep c) :: (← subConInCons amount xn rep cs)
termination_by cs => 2 * Constructor.listSize cs + 1
decreasing_by all_goals have := c.size_pos; simp only [Constructor.listSize]; omega
def subConInFields (amount xn : Nat) (rep : Constructor) :
    List (Constructor × Constructor) → Except SubUnif (List (Constructor × Constructor))
  | [] => .ok []
  | (c1, c2) :: fields => do
    let c1' ← subConInConInner amount xn rep c1
    let c2' ← subConInConInner amount xn rep c2
    return (c1', c2') :: (← subConInFields amount xn rep fields)
termination_by fields => 2 * Constructor.fieldsSize fields + 1
decreasing_by all_goals have := c1.size_pos; simp only [Constructor.fieldsSize]; omega
end

def subConInCon (conIndex : Nat) (replacement c : Constructor) : Except SubUnif Constructor :=
  subConInConInner 0 conIndex replacement c

theorem subConInCons_eq (a x : Nat) (r : Constructor) (cs : List Constructor) :
    subConInCons a x r cs = cs.mapM (subConInConInner a x r) := by
  induction cs with
  | nil => rw [subConInCons, List.mapM_nil]; rfl
  | cons c cs ih => rw [subConInCons, ih, List.mapM_cons]

theorem subConInFields_eq (a x : Nat) (r : Constructor)
    (fields : List (Constructor × Constructor)) :
    subConInFields a x r fields = fields.mapM fun f => do
      return (← subConInConInner a x r f.1, ← subConInConInner a x r f.2) := by
  induction fields with
  | nil => rw [subConInFields, List.mapM_nil]; rfl
  | cons f fields ih =>
    rw [subConInFields, ih, List.mapM_cons]
    simp

theorem subConInConInner_node (a x : Nat) (r : Constructor) (hc : ∀ n, c ≠ Constructor.rel n)
    (hu : ∀ d k x cell, c ≠ Constructor.unif d k x cell) :
    subConInConInner a x r c =
      c.traverseParts fun k _ y => subConInConInner (a + k) (x + k) r y := by
  cases c with
  | rel n => exact absurd rfl (hc n)
  | unif d k x cell => exact absurd rfl (hu d k x cell)
  | record k fields =>
    rw [subConInConInner, subConInFields_eq]
    rfl
  | tuple cs =>
    rw [subConInConInner, subConInCons_eq]
    rfl
  | _ =>
    rw [subConInConInner]
    rfl

-- ---------------------------------------------------------------------------
-- Occurrence
-- ---------------------------------------------------------------------------

mutual
def occursAt (index bound : Nat) : Constructor → Bool
  | .rel m => m == index + bound
  | .tFun c1 c2 | .app c1 c2 | .concat c1 c2 => occursAt index bound c1 || occursAt index bound c2
  | .tCFun _ _ _ body | .abs _ _ body => occursAt index (bound + 1) body
  | .tRecord c | .kAbs _ c | .kApp c _ | .tKFun _ c | .proj c _ => occursAt index bound c
  | .tDisjoint c1 c2 body =>
    occursAt index bound c1 || occursAt index bound c2 || occursAt index bound body
  | .record _ fields => occursInFields index bound fields
  | .tuple cs => occursInCons index bound cs
  | .named _ | .modProj _ _ _ | .name _ | .map _ _ | .unit | .error | .unif _ _ _ _
  | .enum _ => false
def occursInCons (index bound : Nat) : List Constructor → Bool
  | [] => false
  | c :: cs => occursAt index bound c || occursInCons index bound cs
def occursInFields (index bound : Nat) : List (Constructor × Constructor) → Bool
  | [] => false
  | (c1, c2) :: fields =>
    occursAt index bound c1 || occursAt index bound c2 || occursInFields index bound fields
end

/-- The variable 0 occurs free. -/
def occurs (c : Constructor) : Bool := occursAt 0 0 c

theorem occursInCons_eq (i b : Nat) (cs : List Constructor) :
    occursInCons i b cs = cs.any (occursAt i b) := by
  induction cs with
  | nil => rfl
  | cons c cs ih => rw [occursInCons, ih, List.any_cons]

theorem occursInFields_eq (i b : Nat) (fields : List (Constructor × Constructor)) :
    occursInFields i b fields = fields.any fun f => occursAt i b f.1 || occursAt i b f.2 := by
  induction fields with
  | nil => rfl
  | cons f fields ih => rw [occursInFields, ih, List.any_cons]

theorem occursAt_node (i b : Nat) (hc : ∀ n, c ≠ Constructor.rel n) :
    occursAt i b c = (c.parts false).any fun p => occursAt i (b + p.1) p.2.2 := by
  cases c with
  | rel n => exact absurd rfl (hc n)
  | record k fields =>
    simp [occursAt, occursInFields_eq, Constructor.parts, List.any_flatMap]
  | tuple cs => simp [occursAt, occursInCons_eq, Constructor.parts, Function.comp_def]
  | _ => simp [occursAt, Constructor.parts, Bool.or_assoc]

end UrWeb.Elaborated
