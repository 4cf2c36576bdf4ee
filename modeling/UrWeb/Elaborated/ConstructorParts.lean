import Mathlib.Algebra.GroupWithZero.Nat
import Mathlib.Algebra.Order.BigOperators.Group.List
import Mathlib.Algebra.Order.Group.Nat
import UrWeb.Elaborated.Syntax

/-!
# The parts of a constructor

The parts of a node with the binders of both sorts that each is under, and the
rebuilding of a node from its parts. The arguments of an inline sum type count as
parts only if `sums`: the operations on constructor variables leave them out. The
solution of a unification cell is not a part.
-/

namespace UrWeb.Elaborated

/-- Each part with the constructor and the kind binders that it is under. -/
def Constructor.parts (sums : Bool) : Constructor → List (Nat × Nat × Constructor)
  | .tFun c1 c2 | .app c1 c2 | .concat c1 c2 => [(0, 0, c1), (0, 0, c2)]
  | .tCFun _ _ _ c | .abs _ _ c => [(1, 0, c)]
  | .kAbs _ c | .tKFun _ c => [(0, 1, c)]
  | .tRecord c | .kApp c _ | .proj c _ => [(0, 0, c)]
  | .tDisjoint c1 c2 c3 => [(0, 0, c1), (0, 0, c2), (0, 0, c3)]
  | .record _ fields => fields.flatMap fun f => [(0, 0, f.1), (0, 0, f.2)]
  | .tuple cs => cs.map (0, 0, ·)
  | .enum arms => if sums then arms.flatMap fun a => a.2.map (0, 0, ·) else []
  | .rel _ | .named _ | .modProj _ _ _ | .name _ | .map _ _ | .unit | .error | .unif _ _ _ _ => []

section
variable (sums : Bool) (g : Nat → Nat → Constructor → Constructor)

/-- A node with its parts rebuilt. -/
def Constructor.mapParts : Constructor → Constructor
  | .tFun dom ran => .tFun (g 0 0 dom) (g 0 0 ran)
  | .tCFun ex x k body => .tCFun ex x k (g 1 0 body)
  | .tRecord row => .tRecord (g 0 0 row)
  | .tDisjoint c1 c2 body => .tDisjoint (g 0 0 c1) (g 0 0 c2) (g 0 0 body)
  | .app c1 c2 => .app (g 0 0 c1) (g 0 0 c2)
  | .abs x k body => .abs x k (g 1 0 body)
  | .kAbs x body => .kAbs x (g 0 1 body)
  | .kApp c k => .kApp (g 0 0 c) k
  | .tKFun x body => .tKFun x (g 0 1 body)
  | .record k fields => .record k (fields.map fun f => (g 0 0 f.1, g 0 0 f.2))
  | .concat c1 c2 => .concat (g 0 0 c1) (g 0 0 c2)
  | .tuple cs => .tuple (cs.map (g 0 0))
  | .proj c n => .proj (g 0 0 c) n
  | .enum arms => .enum (if sums then arms.map fun a => (a.1, a.2.map (g 0 0)) else arms)
  | c => c

end

section
variable {sums : Bool}

attribute [local simp] Constructor.mapParts in
theorem Constructor.mapParts_id (c : Constructor) : c.mapParts sums (fun _ _ x => x) = c := by
  cases c with
  | enum arms => cases sums <;> simp
  | _ => simp

theorem Constructor.mapParts_mapParts (f g : Nat → Nat → Constructor → Constructor)
    (c : Constructor) : (c.mapParts sums f).mapParts sums g =
      c.mapParts sums fun k j x => g k j (f k j x) := by
  cases c with
  | enum arms => cases sums <;> simp [Constructor.mapParts, Function.comp_def]
  | _ => simp [Constructor.mapParts, Function.comp_def]

attribute [local simp] Constructor.mapParts Constructor.parts in
theorem Constructor.parts_mapParts (g : Nat → Nat → Constructor → Constructor) (c : Constructor) :
    (c.mapParts sums g).parts sums =
      (c.parts sums).map fun p => (p.1, p.2.1, g p.1 p.2.1 p.2.2) := by
  cases c with
  | enum arms =>
    cases sums <;> simp [List.flatMap_map, List.map_flatMap, Function.comp_def]
  | record k fields =>
    simp [List.flatMap_map, List.map_flatMap]
  | _ => simp [Function.comp_def]

theorem Constructor.mapParts_eq_iff (f g : Nat → Nat → Constructor → Constructor)
    (c : Constructor) : c.mapParts sums f = c.mapParts sums g ↔
      ∀ p ∈ c.parts sums, f p.1 p.2.1 p.2.2 = g p.1 p.2.1 p.2.2 := by
  cases c with
  | enum arms =>
    cases sums with
    | false => simp [Constructor.mapParts, Constructor.parts]
    | true =>
      simp only [Constructor.mapParts, Constructor.parts, if_true, Constructor.enum.injEq,
        List.map_inj_left, Prod.mk.injEq, true_and, List.forall_mem_flatMap, List.forall_mem_map]
  | record k fields =>
    simp only [Constructor.mapParts, Constructor.parts, Constructor.record.injEq, true_and,
      List.map_inj_left, Prod.mk.injEq, List.forall_mem_flatMap, List.forall_mem_cons]
    simp
  | tuple cs =>
    simp only [Constructor.mapParts, Constructor.parts, Constructor.tuple.injEq,
      List.map_inj_left, List.forall_mem_map]
  | _ => simp [Constructor.mapParts, Constructor.parts]

theorem Constructor.mapParts_ne_rel (g : Nat → Nat → Constructor → Constructor)
    (hc : ∀ n, c ≠ Constructor.rel n) (n : Nat) : c.mapParts sums g ≠ .rel n := by
  cases c with
  | rel m => exact absurd rfl (hc m)
  | _ => simp [Constructor.mapParts]

theorem Constructor.mapParts_ne_unif (g : Nat → Nat → Constructor → Constructor)
    (hc : ∀ d k x cell, c ≠ Constructor.unif d k x cell) (d : Nat) (k : Kind) (x : String)
    (cell : CUnif) : c.mapParts sums g ≠ .unif d k x cell := by
  cases c with
  | unif d k x cell => exact absurd rfl (hc d k x cell)
  | _ => simp [Constructor.mapParts]

end

section
variable (f : Nat → Nat → Constructor → Except ε Constructor)

/-- A node with its parts rebuilt from the left, as far as that succeeds. -/
def Constructor.traverseParts : Constructor → Except ε Constructor
  | .tFun dom ran => do return .tFun (← f 0 0 dom) (← f 0 0 ran)
  | .tCFun ex x k body => do return .tCFun ex x k (← f 1 0 body)
  | .tRecord row => do return .tRecord (← f 0 0 row)
  | .tDisjoint c1 c2 body => do return .tDisjoint (← f 0 0 c1) (← f 0 0 c2) (← f 0 0 body)
  | .app c1 c2 => do return .app (← f 0 0 c1) (← f 0 0 c2)
  | .abs x k body => do return .abs x k (← f 1 0 body)
  | .kAbs x body => do return .kAbs x (← f 0 1 body)
  | .kApp c k => do return .kApp (← f 0 0 c) k
  | .tKFun x body => do return .tKFun x (← f 0 1 body)
  | .record k fields => do
    return .record k (← fields.mapM fun p => do return (← f 0 0 p.1, ← f 0 0 p.2))
  | .concat c1 c2 => do return .concat (← f 0 0 c1) (← f 0 0 c2)
  | .tuple cs => do return .tuple (← cs.mapM (f 0 0))
  | .proj c n => do return .proj (← f 0 0 c) n
  | c => .ok c

end

theorem ok_bind (a : α) (f : α → Except ε β) : (Except.ok a >>= f) = f a := rfl

theorem bind_eq_ok {x : Except ε α} {f : α → Except ε β} :
    (x >>= f) = .ok b ↔ ∃ a, x = .ok a ∧ f a = .ok b := by
  cases x with
  | error e => simp [bind, Except.bind]
  | ok a => simp [bind, Except.bind]

theorem mapM_ok {f : α → Except ε β} {g : α → β} {xs : List α} (h : ∀ x ∈ xs, f x = .ok (g x)) :
    xs.mapM f = .ok (xs.map g) := by
  induction xs with
  | nil => rfl
  | cons x xs ih =>
    rw [List.mapM_cons, h x List.mem_cons_self, ih fun y hy => h y (List.mem_cons_of_mem x hy)]
    rfl

theorem of_mapM_ok {f : α → Except ε β} {g : β → α} {xs : List α} {ys : List β}
    (h : ∀ x ∈ xs, ∀ y, f x = .ok y → g y = x) (hm : xs.mapM f = .ok ys) : ys.map g = xs := by
  induction xs generalizing ys with
  | nil =>
    cases hm
    rfl
  | cons x xs ih =>
    rw [List.mapM_cons, bind_eq_ok] at hm
    obtain ⟨y, hx, hm⟩ := hm
    rw [bind_eq_ok] at hm
    obtain ⟨zs, hxs, hm⟩ := hm
    cases hm
    rw [List.map_cons, h x List.mem_cons_self y hx,
      ih (fun z hz => h z (List.mem_cons_of_mem x hz)) hxs]

attribute [local simp] Constructor.traverseParts in
theorem Constructor.traverseParts_ok {f : Nat → Nat → Constructor → Except ε Constructor}
    {g : Nat → Nat → Constructor → Constructor} {c : Constructor}
    (h : ∀ p ∈ c.parts false, f p.1 p.2.1 p.2.2 = .ok (g p.1 p.2.1 p.2.2)) :
    c.traverseParts f = .ok (c.mapParts false g) := by
  cases c with
  | record k fields =>
    have hm : fields.mapM (fun p => do return (← f 0 0 p.1, ← f 0 0 p.2)) =
        Except.ok (fields.map fun p => (g 0 0 p.1, g 0 0 p.2)) := by
      refine mapM_ok fun p hp => ?_
      have hfst := h (0, 0, p.1) (List.mem_flatMap.mpr ⟨p, hp, by simp⟩)
      have hsnd := h (0, 0, p.2) (List.mem_flatMap.mpr ⟨p, hp, by simp⟩)
      rw [hfst, hsnd]
      rfl
    rw [Constructor.traverseParts, hm]
    rfl
  | tuple cs =>
    have hm : cs.mapM (f 0 0) = Except.ok (cs.map (g 0 0)) :=
      mapM_ok fun x hx => h (0, 0, x) (List.mem_map_of_mem hx)
    rw [Constructor.traverseParts, hm]
    rfl
  | _ =>
    simp only [Constructor.parts, List.forall_mem_cons] at h
    simp [Constructor.traverseParts, Constructor.mapParts, h, ok_bind]

/-- What undoes the rebuilding of the parts undoes the rebuilding of the node. -/
theorem Constructor.mapParts_of_traverseParts {f : Nat → Nat → Constructor → Except ε Constructor}
    {g : Nat → Nat → Constructor → Constructor} {c c' : Constructor}
    (h : ∀ p ∈ c.parts false, ∀ y, f p.1 p.2.1 p.2.2 = .ok y → g p.1 p.2.1 y = p.2.2)
    (ht : c.traverseParts f = .ok c') : c'.mapParts false g = c := by
  cases c with
  | record k fields =>
    rw [Constructor.traverseParts, bind_eq_ok] at ht
    obtain ⟨ys, hm, ht⟩ := ht
    cases ht
    rw [Constructor.mapParts]
    refine congrArg _ (of_mapM_ok (fun p hp y hy => ?_) hm)
    obtain ⟨a, ha, hy⟩ := bind_eq_ok.mp hy
    obtain ⟨b, hb, hy⟩ := bind_eq_ok.mp hy
    cases hy
    rw [h (0, 0, p.1) (List.mem_flatMap.mpr ⟨p, hp, by simp⟩) a ha,
      h (0, 0, p.2) (List.mem_flatMap.mpr ⟨p, hp, by simp⟩) b hb]
  | tuple cs =>
    rw [Constructor.traverseParts, bind_eq_ok] at ht
    obtain ⟨ys, hm, ht⟩ := ht
    cases ht
    rw [Constructor.mapParts,
      of_mapM_ok (fun x hx y hy => h (0, 0, x) (List.mem_map_of_mem hx) y hy) hm]
  | tDisjoint c1 c2 body =>
    simp only [Constructor.parts, List.forall_mem_cons] at h
    obtain ⟨a, ha, ht⟩ := bind_eq_ok.mp ht
    obtain ⟨b, hb, ht⟩ := bind_eq_ok.mp ht
    obtain ⟨d, hd, ht⟩ := bind_eq_ok.mp ht
    cases ht
    rw [Constructor.mapParts, h.1 a ha, h.2.1 b hb, h.2.2.1 d hd]
  | tFun _ _ | app _ _ | concat _ _ =>
    simp only [Constructor.parts, List.forall_mem_cons] at h
    obtain ⟨a, ha, ht⟩ := bind_eq_ok.mp ht
    obtain ⟨b, hb, ht⟩ := bind_eq_ok.mp ht
    cases ht
    rw [Constructor.mapParts, h.1 a ha, h.2.1 b hb]
  | tCFun _ _ _ _ | tRecord _ | abs _ _ _ | kAbs _ _ | kApp _ _ | tKFun _ _ | proj _ _ =>
    simp only [Constructor.parts, List.forall_mem_cons] at h
    obtain ⟨a, ha, ht⟩ := bind_eq_ok.mp ht
    cases ht
    rw [Constructor.mapParts, h.1 a ha]
  | _ =>
    cases ht
    rfl

theorem Constructor.traverseParts_mapParts (f : Nat → Nat → Constructor → Except ε Constructor)
    (g : Nat → Nat → Constructor → Constructor) (c : Constructor) :
    (c.mapParts false g).traverseParts f = c.traverseParts fun k j x => f k j (g k j x) := by
  cases c with
  | record k fields =>
    simp [Constructor.mapParts, Constructor.traverseParts, List.mapM_map, Function.comp_def]
  | tuple cs =>
    simp [Constructor.mapParts, Constructor.traverseParts, List.mapM_map, Function.comp_def]
  | _ => rfl

theorem Constructor.traverseParts_ne_unif {f : Nat → Nat → Constructor → Except ε Constructor}
    {c c' : Constructor} (h : c.traverseParts f = .ok c')
    (hu : ∀ d k x cell, c ≠ .unif d k x cell) (d : Nat) (k : Kind) (x : String) (cell : CUnif) :
    c' ≠ .unif d k x cell := by
  cases c with
  | unif d k x cell => exact absurd rfl (hu d k x cell)
  | tDisjoint _ _ _ =>
    obtain ⟨_, _, h⟩ := bind_eq_ok.mp h
    obtain ⟨_, _, h⟩ := bind_eq_ok.mp h
    obtain ⟨_, _, h⟩ := bind_eq_ok.mp h
    cases h
    nofun
  | tFun _ _ | app _ _ | concat _ _ =>
    obtain ⟨_, _, h⟩ := bind_eq_ok.mp h
    obtain ⟨_, _, h⟩ := bind_eq_ok.mp h
    cases h
    nofun
  | tCFun _ _ _ _ | tRecord _ | abs _ _ _ | kAbs _ _ | kApp _ _ | tKFun _ _ | proj _ _
  | record _ _ | tuple _ =>
    obtain ⟨_, _, h⟩ := bind_eq_ok.mp h
    cases h
    nofun
  | _ =>
    cases h
    nofun

theorem of_mapM_eq_self {f : α → Except ε α} {xs : List α} (h : xs.mapM f = .ok xs) :
    ∀ x ∈ xs, f x = .ok x := by
  induction xs with
  | nil => simp
  | cons x xs ih =>
    obtain ⟨y, hx, h⟩ := bind_eq_ok.mp (List.mapM_cons.symm.trans h)
    obtain ⟨ys, hxs, h⟩ := bind_eq_ok.mp h
    cases h
    exact List.forall_mem_cons.mpr ⟨hx, ih hxs⟩

/-- A node that is rebuilt as it was has parts that are. -/
theorem Constructor.parts_of_traverseParts {f : Nat → Nat → Constructor → Except ε Constructor}
    {c : Constructor} (h : c.traverseParts f = .ok c) :
    ∀ p ∈ c.parts false, f p.1 p.2.1 p.2.2 = .ok p.2.2 := by
  cases c with
  | record k fields =>
    obtain ⟨ys, hm, h⟩ := bind_eq_ok.mp h
    cases h
    rw [Constructor.parts, List.forall_mem_flatMap]
    intro p hp
    obtain ⟨a, ha, h⟩ := bind_eq_ok.mp (of_mapM_eq_self hm p hp)
    obtain ⟨b, hb, h⟩ := bind_eq_ok.mp h
    cases h
    simp [ha, hb]
  | tuple cs =>
    obtain ⟨ys, hm, h⟩ := bind_eq_ok.mp h
    cases h
    rw [Constructor.parts, List.forall_mem_map]
    exact of_mapM_eq_self hm
  | tDisjoint c1 c2 body =>
    obtain ⟨a, ha, h⟩ := bind_eq_ok.mp h
    obtain ⟨b, hb, h⟩ := bind_eq_ok.mp h
    obtain ⟨d, hd, h⟩ := bind_eq_ok.mp h
    cases h
    simp [Constructor.parts, ha, hb, hd]
  | tFun _ _ | app _ _ | concat _ _ =>
    obtain ⟨a, ha, h⟩ := bind_eq_ok.mp h
    obtain ⟨b, hb, h⟩ := bind_eq_ok.mp h
    cases h
    simp [Constructor.parts, ha, hb]
  | tCFun _ _ _ _ | tRecord _ | abs _ _ _ | kAbs _ _ | kApp _ _ | tKFun _ _ | proj _ _ =>
    obtain ⟨a, ha, h⟩ := bind_eq_ok.mp h
    cases h
    simp [Constructor.parts, ha]
  | _ => simp [Constructor.parts]

-- ---------------------------------------------------------------------------
-- Size
-- ---------------------------------------------------------------------------

mutual
/-- The number of nodes, those of the solutions of cells included. -/
def Constructor.size : Constructor → Nat
  | .tFun c1 c2 | .app c1 c2 | .concat c1 c2 => c1.size + c2.size + 1
  | .tCFun _ _ _ c | .tRecord c | .abs _ _ c | .kAbs _ c | .kApp c _ | .tKFun _ c
  | .proj c _ => c.size + 1
  | .tDisjoint c1 c2 c3 => c1.size + c2.size + c3.size + 1
  | .record _ fields => Constructor.fieldsSize fields + 1
  | .tuple cs => Constructor.listSize cs + 1
  | .unif _ _ _ cell => cell.size + 1
  | .enum arms => Constructor.armsSize arms + 1
  | .rel _ | .named _ | .modProj _ _ _ | .name _ | .map _ _ | .unit | .error => 1
def CUnif.size : CUnif → Nat
  | .unknown => 0
  | .known c => c.size
def Constructor.listSize : List Constructor → Nat
  | [] => 0
  | c :: cs => c.size + Constructor.listSize cs
def Constructor.fieldsSize : List (Constructor × Constructor) → Nat
  | [] => 0
  | (c1, c2) :: fields => c1.size + c2.size + Constructor.fieldsSize fields
def Constructor.armsSize : List (String × List Constructor) → Nat
  | [] => 0
  | (_, args) :: arms => Constructor.listSize args + Constructor.armsSize arms
end

theorem Constructor.size_pos (c : Constructor) : 0 < c.size := by
  cases c <;> simp [Constructor.size]

theorem Constructor.listSize_eq (cs : List Constructor) :
    Constructor.listSize cs = (cs.map Constructor.size).sum := by
  induction cs with
  | nil => rfl
  | cons c cs ih => rw [Constructor.listSize, ih, List.map_cons, List.sum_cons]

/-- The sum of the sizes of some parts. -/
def Constructor.sizes (parts : List (Nat × Nat × Constructor)) : Nat :=
  (parts.map fun p => p.2.2.size).sum

theorem Constructor.fieldsSize_eq (fields : List (Constructor × Constructor)) :
    Constructor.fieldsSize fields =
      Constructor.sizes (fields.flatMap fun f => [(0, 0, f.1), (0, 0, f.2)]) := by
  induction fields with
  | nil => rfl
  | cons f fields ih =>
    rw [Constructor.fieldsSize, ih, List.flatMap_cons]
    simp [Constructor.sizes, Nat.add_assoc]

theorem Constructor.armsSize_eq (arms : List (String × List Constructor)) :
    Constructor.armsSize arms =
      Constructor.sizes (arms.flatMap fun a => a.2.map (0, 0, ·)) := by
  induction arms with
  | nil => rfl
  | cons a arms ih =>
    rw [Constructor.armsSize, ih, List.flatMap_cons, Constructor.listSize_eq]
    simp [Constructor.sizes, Function.comp_def]

theorem Constructor.size_eq {c : Constructor} (hc : ∀ d k x cell, c ≠ .unif d k x cell) :
    c.size = Constructor.sizes (c.parts true) + 1 := by
  cases c with
  | record k fields => rw [Constructor.size, Constructor.fieldsSize_eq, Constructor.parts]
  | tuple cs =>
    rw [Constructor.size, Constructor.listSize_eq]
    simp [Constructor.parts, Constructor.sizes, Function.comp_def]
  | enum arms => rw [Constructor.size, Constructor.armsSize_eq, Constructor.parts, if_pos rfl]
  | unif d k x cell => exact absurd rfl (hc d k x cell)
  | tDisjoint c1 c2 body =>
    simp [Constructor.parts, Constructor.sizes, Constructor.size, Nat.add_assoc]
  | _ => simp [Constructor.parts, Constructor.sizes, Constructor.size]

theorem Constructor.parts_subset (sums : Bool) (c : Constructor) :
    c.parts sums ⊆ c.parts true := by
  cases sums with
  | true => exact List.Subset.refl _
  | false => cases c <;> simp [Constructor.parts]

theorem Constructor.size_lt_of_part {sums : Bool} {c : Constructor} (h : p ∈ c.parts sums) :
    p.2.2.size < c.size := by
  have h := Constructor.parts_subset sums c h
  have hc : ∀ d k x cell, c ≠ .unif d k x cell := by
    rintro d k x cell rfl
    cases h
  rw [Constructor.size_eq hc]
  exact Nat.lt_succ_of_le (List.le_sum_of_mem (List.mem_map_of_mem h))

/-- Induction over a constructor by its parts. -/
theorem Constructor.induct_parts (sums : Bool) {P : Constructor → Prop}
    (h : ∀ c : Constructor, (∀ p ∈ c.parts sums, P p.2.2) → P c) (c : Constructor) : P c := by
  induction hn : c.size using Nat.strong_induction_on generalizing c with
  | _ n ih =>
    subst hn
    exact h c fun p hp => ih _ (Constructor.size_lt_of_part hp) _ rfl

/-- Induction with the variables and the unification cells as the two other cases. -/
theorem Constructor.induct_nodes (sums : Bool) {P : Constructor → Prop}
    (rel : ∀ n, P (.rel n)) (unif : ∀ d k x cell, P (.unif d k x cell))
    (node : ∀ c, (∀ n, c ≠ .rel n) → (∀ d k x cell, c ≠ .unif d k x cell) →
      (∀ p ∈ c.parts sums, P p.2.2) → P c) (c : Constructor) : P c := by
  refine Constructor.induct_parts sums (fun c ih => ?_) c
  by_cases hc : ∃ n, c = .rel n
  · obtain ⟨n, rfl⟩ := hc
    exact rel n
  · by_cases hu : ∃ d k x cell, c = .unif d k x cell
    · obtain ⟨d, k, x, cell, rfl⟩ := hu
      exact unif d k x cell
    · exact node c (fun n h => hc ⟨n, h⟩) (fun d k x cell h => hu ⟨d, k, x, cell, h⟩) ih

theorem Constructor.size_mapParts {g : Nat → Nat → Constructor → Constructor} {c : Constructor}
    (h : ∀ p ∈ c.parts true, (g p.1 p.2.1 p.2.2).size = p.2.2.size) :
    (c.mapParts true g).size = c.size := by
  by_cases hc : ∃ d k x cell, c = .unif d k x cell
  · obtain ⟨d, k, x, cell, rfl⟩ := hc
    rfl
  · have hc : ∀ d k x cell, c ≠ .unif d k x cell := fun d k x cell h => hc ⟨d, k, x, cell, h⟩
    rw [Constructor.size_eq hc, Constructor.size_eq (Constructor.mapParts_ne_unif g hc),
      Constructor.parts_mapParts, Constructor.sizes, List.map_map]
    exact congrArg (·.sum + 1) (List.map_congr_left h)

theorem Constructor.parts_of_ne_enum {c : Constructor} (hc : ∀ arms, c ≠ .enum arms) :
    c.parts true = c.parts false := by
  cases c with
  | enum arms => exact absurd rfl (hc arms)
  | _ => rfl

theorem Constructor.mapParts_of_ne_enum (g : Nat → Nat → Constructor → Constructor)
    {c : Constructor} (hc : ∀ arms, c ≠ .enum arms) : c.mapParts true g = c.mapParts false g := by
  cases c with
  | enum arms => exact absurd rfl (hc arms)
  | _ => rfl

theorem Constructor.size_mapParts_false {g : Nat → Nat → Constructor → Constructor}
    {c : Constructor} (h : ∀ p ∈ c.parts false, (g p.1 p.2.1 p.2.2).size = p.2.2.size) :
    (c.mapParts false g).size = c.size := by
  by_cases hc : ∃ arms, c = .enum arms
  · obtain ⟨arms, rfl⟩ := hc
    rfl
  · have hc : ∀ arms, c ≠ .enum arms := fun arms h => hc ⟨arms, h⟩
    rw [← Constructor.mapParts_of_ne_enum g hc]
    exact Constructor.size_mapParts (Constructor.parts_of_ne_enum hc ▸ h)

-- ---------------------------------------------------------------------------
-- Everything in a constructor
-- ---------------------------------------------------------------------------

/-- `x` stands in a constructor under `k` constructor binders and `j` kind binders. -/
inductive Constructor.Has (sums : Bool) : Constructor → Nat → Nat → Constructor → Prop
  | here : Constructor.Has sums c 0 0 c
  | part : (k, j, x) ∈ c.parts sums → Constructor.Has sums x k' j' y →
    Constructor.Has sums c (k + k') (j + j') y

/-- `Q` holds of everything in a constructor and the binders that it is under. -/
def Constructor.All (sums : Bool) (Q : Nat → Nat → Constructor → Prop) (c : Constructor) : Prop :=
  ∀ k j x, c.Has sums k j x → Q k j x

theorem Constructor.all_iff {sums : Bool} {Q : Nat → Nat → Constructor → Prop} {c : Constructor} :
    c.All sums Q ↔ Q 0 0 c ∧
      ∀ p ∈ c.parts sums, p.2.2.All sums fun k j => Q (p.1 + k) (p.2.1 + j) := by
  constructor
  · exact fun h => ⟨h 0 0 c .here, fun p hp k j x hx => h _ _ x (.part hp hx)⟩
  · rintro ⟨hhere, hparts⟩ k j x (_ | ⟨hp, hx⟩)
    · exact hhere
    · exact hparts _ hp _ _ x hx

theorem Constructor.all_of_no_parts {sums : Bool} {Q : Nat → Nat → Constructor → Prop}
    {c : Constructor} (hc : c.parts sums = []) : c.All sums Q ↔ Q 0 0 c := by
  rw [Constructor.all_iff, hc]
  simp

theorem Constructor.All.imp {sums : Bool} {Q Q' : Nat → Nat → Constructor → Prop}
    {c : Constructor} (h : c.All sums Q) (himp : ∀ k j x, Q k j x → Q' k j x) : c.All sums Q' :=
  fun k j x hx => himp k j x (h k j x hx)

theorem Constructor.All.of_part {sums : Bool} {Q : Nat → Nat → Constructor → Prop}
    {c : Constructor} (h : c.All sums Q) (hp : p ∈ c.parts sums) :
    p.2.2.All sums fun k j => Q (p.1 + k) (p.2.1 + j) :=
  (Constructor.all_iff.mp h).2 p hp

/-- No part is a unification cell. -/
def Constructor.CellFree (c : Constructor) : Prop :=
  c.All false fun _ _ x => ∀ d K y cell, x ≠ .unif d K y cell

theorem Constructor.CellFree.of_part {c : Constructor} (h : c.CellFree)
    (hp : p ∈ c.parts false) : p.2.2.CellFree := Constructor.All.of_part h hp

theorem Constructor.not_cellFree_unif : ¬(Constructor.unif d k x cell).CellFree :=
  fun h => h 0 0 _ .here d k x cell rfl

end UrWeb.Elaborated
