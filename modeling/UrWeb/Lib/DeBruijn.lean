import Mathlib.Logic.Function.Iterate
import Mathlib.Tactic.SplitIfs

/-!
# Languages with numbered variables

A language is given by its variables and by the parts of its nodes, each part
under a number of binders. Lifting and substitution are two functions that treat
a variable by its number and carry on into the parts of every other node; the
laws between them hold whatever the nodes are. A node may also carry a mark of
how far it has been lifted, which substitution leaves alone.
-/

namespace DeBruijn

/-- A language: `mapParts` rebuilds a node from what a function makes of its parts. -/
structure Binding (E : Type u) where
  var : Nat → E
  parts : E → List (Nat × E)
  mapParts : (Nat → E → E) → E → E
  induct : ∀ {P : E → Prop}, (∀ e, (∀ p ∈ parts e, P p.2) → P e) → ∀ e, P e
  var_injective : Function.Injective var
  parts_var : ∀ n, parts (var n) = []
  parts_mapParts : ∀ f e, parts (mapParts f e) = (parts e).map fun p => (p.1, f p.1 p.2)
  mapParts_ne_var : ∀ f {e}, (∀ n, e ≠ var n) → ∀ n, mapParts f e ≠ var n
  mapParts_id : ∀ e, mapParts (fun _ c => c) e = e
  mapParts_mapParts : ∀ f g e, mapParts g (mapParts f e) = mapParts (fun k c => g k (f k c)) e
  mapParts_eq_iff : ∀ f g e, mapParts f e = mapParts g e ↔ ∀ p ∈ parts e, f p.1 p.2 = g p.1 p.2

/-- Raising the variables from `bound` on by `a`; `mark` is what becomes of a node itself. -/
structure Lifting (B : Binding E) where
  lift : (a bound : Nat) → E → E
  mark : Nat → E → E
  mark_zero : ∀ e, mark 0 e = e
  mark_mark : ∀ a d e, mark a (mark d e) = mark (d + a) e
  mark_mapParts : ∀ a f e, mark a (B.mapParts f e) = B.mapParts f (mark a e)
  mark_var : ∀ a n, mark a (B.var n) = B.var n
  mark_ne_var : ∀ a {e}, (∀ n, e ≠ B.var n) → ∀ n, mark a e ≠ B.var n
  parts_mark : ∀ a e, B.parts (mark a e) = B.parts e
  lift_var : ∀ a b n, lift a b (B.var n) = B.var (if n < b then n else n + a)
  lift_node : ∀ a b {e}, (∀ n, e ≠ B.var n) →
    lift a b e = B.mapParts (fun k c => lift a (b + k) c) (mark a e)

/-- No node carries a mark. -/
inductive Lifting.Plain {B : Binding E} (L : Lifting B) : E → Prop
  | mk : L.mark 1 e = e → (∀ p ∈ B.parts e, L.Plain p.2) → L.Plain e

/-- Replacing the variable `x`, `a` binders below the place the replacement is from. -/
structure Substitution {B : Binding E} (L : Lifting B) where
  sub : (a x : Nat) → (r e : E) → E
  sub_var : ∀ a x r n, sub a x r (B.var n) =
    if n = x then L.lift a 0 r else B.var (if x < n then n - 1 else n)
  sub_node : ∀ a x r {e}, (∀ n, e ≠ B.var n) →
    sub a x r e = B.mapParts (fun k c => sub (a + k) (x + k) r c) e

/-- The variable `v` occurs free. -/
inductive Binding.Free (B : Binding E) : Nat → E → Prop
  | var : B.Free v (B.var v)
  | part : (k, c) ∈ B.parts e → B.Free (v + k) c → B.Free v e

section
variable {B : Binding E}

theorem Binding.mapParts_congr {f g : Nat → E → E} (h : ∀ p ∈ B.parts e, f p.1 p.2 = g p.1 p.2) :
    B.mapParts f e = B.mapParts g e := (B.mapParts_eq_iff f g e).mpr h

/-- Induction over variables and other nodes. -/
theorem Binding.cases_var {P : E → Prop} (var : ∀ n, P (B.var n))
    (node : ∀ e, (∀ n, e ≠ B.var n) → (∀ p ∈ B.parts e, P p.2) → P e) (e : E) : P e := by
  refine B.induct (fun e ih => ?_) e
  by_cases he : ∃ n, e = B.var n
  · obtain ⟨n, rfl⟩ := he
    exact var n
  · exact node e (fun n h => he ⟨n, h⟩) ih

theorem Binding.free_iff : B.Free v e ↔
    e = B.var v ∨ ∃ p ∈ B.parts e, B.Free (v + p.1) p.2 := by
  constructor
  · rintro (_ | ⟨hp, h⟩)
    · exact .inl rfl
    · exact .inr ⟨_, hp, h⟩
  · rintro (rfl | ⟨p, hp, h⟩)
    · exact .var
    · exact .part hp h

theorem Binding.free_node (he : ∀ n, e ≠ B.var n) :
    B.Free v e ↔ ∃ p ∈ B.parts e, B.Free (v + p.1) p.2 := by
  rw [B.free_iff]
  exact or_iff_right (he v)

end

-- ---------------------------------------------------------------------------
-- Lifting
-- ---------------------------------------------------------------------------

section
variable {B : Binding E} (L : Lifting B)

theorem Lifting.lift_var_lt (h : n < b) : L.lift a b (B.var n) = B.var n := by
  rw [L.lift_var, if_pos h]

theorem Lifting.lift_var_ge (h : b ≤ n) : L.lift a b (B.var n) = B.var (n + a) := by
  rw [L.lift_var, if_neg (by omega)]

@[simp] theorem Lifting.lift_zero (b : Nat) (e : E) : L.lift 0 b e = e := by
  induction e using B.cases_var generalizing b with
  | var n => simp [L.lift_var]
  | node e he ih =>
    rw [L.lift_node 0 b he, L.mark_zero]
    exact (B.mapParts_congr fun p hp => ih p hp (b + p.1)).trans (B.mapParts_id e)

theorem Lifting.lift_lift_node (he : ∀ n, e ≠ B.var n) :
    L.lift a b (L.lift d c e) =
      B.mapParts (fun k x => L.lift a (b + k) (L.lift d (c + k) x)) (L.mark (d + a) e) := by
  rw [L.lift_node d c he, L.lift_node a b (B.mapParts_ne_var _ (L.mark_ne_var d he)),
    L.mark_mapParts, L.mark_mark, B.mapParts_mapParts]

theorem Lifting.mapParts_mark_congr {f g : Nat → E → E} (a : Nat)
    (h : ∀ p ∈ B.parts e, f p.1 p.2 = g p.1 p.2) :
    B.mapParts f (L.mark a e) = B.mapParts g (L.mark a e) :=
  B.mapParts_congr fun p hp => h p (L.parts_mark a e ▸ hp)

/-- Raising once more, at a place among the variables that the first raising skips. -/
theorem Lifting.lift_lift (e : E) (h : c ≤ b) (h' : b ≤ c + d) :
    L.lift a b (L.lift d c e) = L.lift (d + a) c e := by
  induction e using B.cases_var generalizing b c with
  | var n =>
    rw [L.lift_var, L.lift_var, L.lift_var]
    congr 1
    split_ifs <;> omega
  | node e he ih =>
    rw [L.lift_lift_node he, L.lift_node _ c he]
    exact L.mapParts_mark_congr _ fun p hp => ih p hp (by omega) (by omega)

theorem Lifting.lift_comm (e : E) (h : b ≤ c) :
    L.lift a b (L.lift d c e) = L.lift d (c + a) (L.lift a b e) := by
  induction e using B.cases_var generalizing b c with
  | var n =>
    rw [L.lift_var, L.lift_var, L.lift_var, L.lift_var]
    congr 1
    split_ifs <;> omega
  | node e he ih =>
    rw [L.lift_lift_node he, L.lift_lift_node he, Nat.add_comm d a]
    refine L.mapParts_mark_congr _ fun p hp => ?_
    rw [Nat.add_right_comm c a p.1]
    exact ih p hp (by omega)

variable {L}

theorem Lifting.Plain.of_part (h : L.Plain e) : ∀ p ∈ B.parts e, L.Plain p.2 := by
  obtain ⟨-, h⟩ := h
  exact h

theorem Lifting.Plain.mark_eq (h : L.Plain e) (a : Nat) : L.mark a e = e := by
  obtain ⟨hm, -⟩ := h
  induction a with
  | zero => exact L.mark_zero e
  | succ a ih => rw [Nat.add_comm, ← L.mark_mark, hm, ih]

theorem Lifting.plain_var (n : Nat) : L.Plain (B.var n) := by
  refine .mk (L.mark_var 1 n) fun p hp => ?_
  rw [B.parts_var] at hp
  cases hp

theorem Lifting.Plain.lift (h : L.Plain e) (a b : Nat) : L.Plain (L.lift a b e) := by
  induction e using B.cases_var generalizing b with
  | var n =>
    rw [L.lift_var]
    exact L.plain_var _
  | node e he ih =>
    rw [L.lift_node a b he, h.mark_eq]
    refine .mk ?_ ?_
    · rw [L.mark_mapParts, h.mark_eq]
    · rw [B.parts_mapParts, List.forall_mem_map]
      exact fun p hp => ih p hp (h.of_part p hp) (b + p.1)

/-- Lifting leaves alone what has no variable to raise. -/
theorem Lifting.lift_eq_self_iff (hp : L.Plain e) (ha : 0 < a) :
    L.lift a b e = e ↔ ∀ v, B.Free v e → v < b := by
  induction e using B.cases_var generalizing b with
  | var n =>
    have hfree : ∀ v, B.Free v (B.var n) ↔ v = n := by
      intro v
      rw [B.free_iff, B.parts_var]
      simp [B.var_injective.eq_iff, eq_comm]
    simp only [hfree, forall_eq, L.lift_var, B.var_injective.eq_iff]
    split_ifs <;> omega
  | node e he ih =>
    have hid := B.mapParts_eq_iff (fun k c => L.lift a (b + k) c) (fun _ c => c) e
    rw [B.mapParts_id] at hid
    rw [L.lift_node a b he, hp.mark_eq, hid]
    simp only [B.free_node he]
    constructor
    · rintro h v ⟨p, hmem, hv⟩
      have := (ih p hmem (hp.of_part p hmem)).mp (h p hmem) _ hv
      omega
    · intro h p hmem
      refine (ih p hmem (hp.of_part p hmem)).mpr fun v hv => ?_
      rcases Nat.lt_or_ge v p.1 with hlt | hle
      · omega
      · have := h (v - p.1) ⟨p, hmem, (Nat.sub_add_cancel hle).symm ▸ hv⟩
        omega

end

-- ---------------------------------------------------------------------------
-- Substitution
-- ---------------------------------------------------------------------------

section
variable {B : Binding E} {L : Lifting B} (S : Substitution L)

theorem Substitution.sub_var_self : S.sub a x r (B.var x) = L.lift a 0 r := by
  rw [S.sub_var, if_pos rfl]

theorem Substitution.sub_var_lt (h : n < x) : S.sub a x r (B.var n) = B.var n := by
  rw [S.sub_var, if_neg (by omega), if_neg (by omega)]

theorem Substitution.sub_var_gt (h : x < n) : S.sub a x r (B.var n) = B.var (n - 1) := by
  rw [S.sub_var, if_neg (by omega), if_pos h]

/-- Substitution for a variable that lifting has skipped undoes one step of the lifting. -/
theorem Substitution.sub_lift (hp : L.Plain e) (h : b ≤ x) (h' : x ≤ b + c) :
    S.sub a x r (L.lift (c + 1) b e) = L.lift c b e := by
  induction e using B.cases_var generalizing a b x with
  | var n =>
    rw [L.lift_var, S.sub_var, L.lift_var, if_neg (by split_ifs <;> omega)]
    congr 1
    split_ifs <;> omega
  | node e he ih =>
    rw [L.lift_node _ b he, hp.mark_eq, S.sub_node a x r (B.mapParts_ne_var _ he),
      B.mapParts_mapParts, L.lift_node c b he, hp.mark_eq]
    exact B.mapParts_congr fun p hmem => ih p hmem (hp.of_part p hmem) (by omega) (by omega)

/-- The replacement can be lifted before the descent as well as at its end. -/
theorem Substitution.sub_add (e : E) :
    S.sub (a + a') x r e = S.sub a' x (L.lift a 0 r) e := by
  induction e using B.cases_var generalizing a' x with
  | var n =>
    rw [S.sub_var, S.sub_var, L.lift_lift r (Nat.zero_le 0) (Nat.zero_le _)]
  | node e he ih =>
    rw [S.sub_node _ x r he, S.sub_node a' x _ he]
    refine B.mapParts_congr fun p hp => ?_
    rw [Nat.add_assoc]
    exact ih p hp

theorem Substitution.sub_zero_node (he : ∀ n, e ≠ B.var n) :
    S.sub 0 x r e = B.mapParts (fun k c => S.sub 0 (x + k) (L.lift k 0 r) c) e := by
  rw [S.sub_node 0 x r he]
  refine B.mapParts_congr fun p _ => ?_
  rw [← S.sub_add, Nat.add_zero, Nat.zero_add]

theorem Substitution.lift_sub_node (he : ∀ n, e ≠ B.var n) :
    L.lift a b (S.sub 0 x r e) =
      B.mapParts (fun k c => L.lift a (b + k) (S.sub 0 (x + k) (L.lift k 0 r) c)) (L.mark a e) := by
  rw [S.sub_zero_node he, L.lift_node a b (B.mapParts_ne_var _ he), L.mark_mapParts,
    B.mapParts_mapParts]

theorem Substitution.sub_lift_node (he : ∀ n, e ≠ B.var n) :
    S.sub 0 x r (L.lift a b e) =
      B.mapParts (fun k c => S.sub 0 (x + k) (L.lift k 0 r) (L.lift a (b + k) c)) (L.mark a e) := by
  rw [L.lift_node a b he, S.sub_zero_node (B.mapParts_ne_var _ (L.mark_ne_var a he)),
    B.mapParts_mapParts]

theorem Substitution.lift_sub_of_le (e : E) (h : b ≤ x) :
    L.lift a b (S.sub 0 x r e) = S.sub 0 (x + a) (L.lift a b r) (L.lift a b e) := by
  induction e using B.cases_var generalizing b x r with
  | var n =>
    rcases Nat.lt_trichotomy n x with hn | rfl | hn
    · rw [S.sub_var_lt hn, L.lift_var]
      exact (S.sub_var_lt (by split_ifs <;> omega)).symm
    · rw [S.sub_var_self, L.lift_var_ge h, S.sub_var_self, L.lift_zero, L.lift_zero]
    · rw [S.sub_var_gt hn, L.lift_var_ge (by omega), L.lift_var_ge (by omega),
        S.sub_var_gt (by omega), Nat.sub_add_comm (by omega)]
  | node e he ih =>
    rw [S.lift_sub_node he, S.sub_lift_node he]
    refine L.mapParts_mark_congr a fun p hp => ?_
    rw [L.lift_comm r (Nat.zero_le b), Nat.add_right_comm x a p.1]
    exact ih p hp (by omega)

theorem Substitution.lift_sub_of_ge (e : E) (h : x ≤ b) :
    L.lift a b (S.sub 0 x r e) = S.sub 0 x (L.lift a b r) (L.lift a (b + 1) e) := by
  induction e using B.cases_var generalizing b x r with
  | var n =>
    rcases Nat.lt_trichotomy n x with hn | rfl | hn
    · rw [S.sub_var_lt hn, L.lift_var_lt (by omega), L.lift_var_lt (by omega), S.sub_var_lt hn]
    · rw [S.sub_var_self, L.lift_var_lt (by omega), S.sub_var_self, L.lift_zero, L.lift_zero]
    · rw [S.sub_var_gt hn, L.lift_var, L.lift_var, S.sub_var_gt (by split_ifs <;> omega)]
      congr 1
      split_ifs <;> omega
  | node e he ih =>
    rw [S.lift_sub_node he, S.sub_lift_node he]
    refine L.mapParts_mark_congr a fun p hp => ?_
    rw [L.lift_comm r (Nat.zero_le b), Nat.add_right_comm b 1 p.1]
    exact ih p hp (by omega)

/-- Two substitutions change places. -/
theorem Substitution.sub_sub (e : E) (hs : L.Plain s) (h : n ≤ m) :
    S.sub 0 m s (S.sub 0 n r e) = S.sub 0 n (S.sub 0 m s r) (S.sub 0 (m + 1) (L.lift 1 n s) e) := by
  induction e using B.cases_var generalizing m n r s with
  | var i =>
    rcases Nat.lt_trichotomy i n with hi | rfl | hi
    · rw [S.sub_var_lt hi, S.sub_var_lt (by omega), S.sub_var_lt (by omega), S.sub_var_lt hi]
    · rw [S.sub_var_self, S.sub_var_lt (by omega), S.sub_var_self, L.lift_zero, L.lift_zero]
    · rw [S.sub_var_gt hi]
      rcases Nat.lt_trichotomy i (m + 1) with hm | rfl | hm
      · rw [S.sub_var_lt (by omega), S.sub_var_lt hm, S.sub_var_gt hi]
      · rw [Nat.add_sub_cancel, S.sub_var_self, S.sub_var_self, L.lift_zero, L.lift_zero,
          S.sub_lift hs (Nat.le_refl n) (Nat.le_refl n), L.lift_zero]
      · rw [S.sub_var_gt (by omega), S.sub_var_gt hm, S.sub_var_gt (by omega)]
  | node e he ih =>
    rw [S.sub_zero_node he, S.sub_zero_node (B.mapParts_ne_var _ he), B.mapParts_mapParts,
      S.sub_zero_node he, S.sub_zero_node (B.mapParts_ne_var _ he), B.mapParts_mapParts]
    refine B.mapParts_congr fun p hp => ?_
    rw [S.lift_sub_of_le r (Nat.zero_le m), Nat.add_right_comm m 1 p.1,
      L.lift_comm s (Nat.zero_le n)]
    exact ih p hp (hs.lift p.1 0) (by omega)

/-- Only a free variable makes the replacement matter. -/
theorem Substitution.sub_congr_of_not_free (e : E) (h : ¬B.Free x e) :
    S.sub a x r e = S.sub a x r' e := by
  induction e using B.cases_var generalizing a x with
  | var n =>
    have hn : n ≠ x := by
      rintro rfl
      exact h .var
    rw [S.sub_var, S.sub_var, if_neg hn, if_neg hn]
  | node e he ih =>
    rw [S.sub_node a x r he, S.sub_node a x r' he]
    exact B.mapParts_congr fun p hp => ih p hp fun hf => h (.part hp hf)

/-- A free variable is one that the replacement matters for. -/
theorem Substitution.not_free_iff (e : E) :
    ¬B.Free x e ↔ ∀ r r', S.sub 0 x r e = S.sub 0 x r' e := by
  refine ⟨fun h r r' => S.sub_congr_of_not_free e h, ?_⟩
  intro h hfree
  have key : ∀ a, S.sub a x (B.var 0) e ≠ S.sub a x (B.var 1) e := by
    clear h
    induction hfree with
    | @var v =>
      intro a heq
      rw [S.sub_var_self, S.sub_var_self, L.lift_var_ge (Nat.zero_le 0),
        L.lift_var_ge (Nat.zero_le 1)] at heq
      have := B.var_injective heq
      omega
    | @part e k c v hp hfree ih =>
      intro a heq
      by_cases he : ∃ n, e = B.var n
      · obtain ⟨n, rfl⟩ := he
        rw [B.parts_var] at hp
        cases hp
      · have he : ∀ n, e ≠ B.var n := fun n h => he ⟨n, h⟩
        rw [S.sub_node a v _ he, S.sub_node a v _ he] at heq
        exact ih (a + k) ((B.mapParts_eq_iff _ _ e).mp heq _ hp)
  exact key 0 (h _ _)

end

end DeBruijn
