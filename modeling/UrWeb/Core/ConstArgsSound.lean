import UrWeb.Core.ConstArgs
import Mathlib.Data.Set.Finite.Basic
import Mathlib.Logic.Relation

/-!
# When the constant arguments are constant

`Calls` finds every recursive call of a group, with the variables it stands
under and all its arguments. The scan passes over the first argument of a call
that differs from its parameter, so a call inside that argument does not count;
and it compares places beyond the leading parameters with whatever variable
stands there. `constant_iff` says that nothing else goes wrong.
-/

namespace UrWeb.Core

-- ---------------------------------------------------------------------------
-- Recursive calls
-- ---------------------------------------------------------------------------

/-- The parts of an expression that is no application, each with the number of variables
bound above it. -/
def Expression.inner : Expression → List (Nat × Expression)
  | .prim _ | .rel _ | .named _ | .ffi _ _ | .app _ _ | .cApp _ _ | .kApp _ _ => []
  | .constructor _ _ _ payload => payload.toList.map (0, ·)
  | .ffiApp _ _ args => args.map fun a => (0, a.1)
  | .abs _ _ _ e => [(1, e)]
  | .cAbs _ _ e | .kAbs _ e | .field e _ _ | .cut e _ _ | .cutMulti e _ _ | .write e => [(0, e)]
  | .record fields => fields.map fun f => (0, f.2.1)
  | .concat e1 _ e2 _ => [(0, e1), (0, e2)]
  | .case disc arms _ =>
    (0, disc) :: arms.map fun a => (LocalReduction.patBindsN a.1, a.2)
  | .closure _ es | .serverCall _ es _ _ => es.map (0, ·)
  | .letIn _ _ e1 e2 => [(0, e1), (1, e2)]

structure Call where
  callee : Nat
  depth : Nat
  args : List Expression

section
variable (enclosing : List Nat)

/-- The recursive calls in an expression that is applied to `spine`. -/
inductive Calls : Nat → List Expression → Expression → Call → Prop
  | named : n ∈ enclosing → Calls depth spine (.named n) ⟨n, depth, spine⟩
  | head : Calls depth (a :: spine) f c → Calls depth spine (.app f a) c
  | arg : Calls depth [] a c → Calls depth spine (.app f a) c
  | cApp : Calls depth spine e c → Calls depth spine (.cApp e t) c
  | kApp : Calls depth spine e c → Calls depth spine (.kApp e k) c
  | inner : p ∈ Expression.inner e → Calls (depth + p.1) [] p.2 c → Calls depth spine e c

end

/-- The first `k` arguments are the first `k` of the function's `n` parameters. -/
def Call.HandsOn (n : Nat) (k : ℕ∞) (c : Call) : Prop :=
  ∀ i : Nat, i < k → i < n ∧ i < c.depth ∧ c.args[i]? = some (.rel (c.depth - 1 - i))

/-- Lambdas at the head of a function's body. -/
def Expression.params : Expression → Nat
  | .abs _ _ _ body => body.params + 1
  | .cAbs _ _ body | .kAbs _ body => body.params
  | _ => 0

-- ---------------------------------------------------------------------------
-- Copies
-- ---------------------------------------------------------------------------

section
variable {A : Type} (vis : List ValBinding) (denote : List A → Nat → Expression → A)

/-- A copy is a function with what its leading parameters stand for. Its body asks for the
copies that its recursive calls need. -/
inductive Asks : Nat × List A → Nat × List A → Prop
  | call : vi ∈ vis → Calls (vis.map ValBinding.id) 0 [] vi.body c →
      Asks (vi.id, vs) (c.callee, (c.args.take vs.length).map (denote vs c.depth))

/-- A parameter denotes what the copy fixes it to. -/
def DenotesParameters : Prop :=
  ∀ (vs : List A) (depth i : Nat) (v : A), vs[i]? = some v → i < depth →
    denote vs depth (.rel (depth - 1 - i)) = v

end

/-- What the number recorded for a group promises. -/
structure Constant (vis : List ValBinding) : Prop where
  arguments : ∀ vi ∈ vis, ∀ c, Calls (vis.map ValBinding.id) 0 [] vi.body c →
    c.HandsOn vi.body.params (constArgs vis)
  copies : ∀ (A : Type) (denote : List A → Nat → Expression → A), DenotesParameters denote →
    ∀ f (vs : List A), vs.length ≤ constArgs vis →
      {copy | Relation.ReflTransGen (Asks vis denote) (f, vs) copy}.Finite

theorem Calls.callee (h : Calls enclosing depth spine e c) : c.callee ∈ enclosing := by
  induction h with
  | named hn => exact hn
  | head _ ih | arg _ ih | cApp _ ih | kApp _ ih | inner _ _ ih => exact ih

theorem Call.HandsOn.denoted {A : Type} {denote : List A → Nat → Expression → A} {vs : List A}
    {c : Call} {k : ℕ∞} (h : c.HandsOn n k) (hd : DenotesParameters denote)
    (hvs : vs.length ≤ k) : (c.args.take vs.length).map (denote vs c.depth) = vs := by
  apply List.ext_getElem?
  intro i
  obtain hi | hi := Nat.lt_or_ge i vs.length
  · obtain ⟨-, hdepth, harg⟩ := h i (lt_of_lt_of_le (Nat.cast_lt.mpr hi) hvs)
    have hv : vs[i]? = some vs[i] := List.getElem?_eq_getElem hi
    rw [List.getElem?_map, List.getElem?_take_of_lt hi, harg, Option.map_some, hv,
      hd vs c.depth i _ hv hdepth]
  · have hshort : ((c.args.take vs.length).map (denote vs c.depth)).length ≤ i := by
      simp only [List.length_map, List.length_take]
      exact (Nat.min_le_left _ _).trans hi
    rw [List.getElem?_eq_none hi, List.getElem?_eq_none hshort]

/-- Calls that hand their leading arguments on ask for no other copy's arguments. -/
theorem copies_finite {A : Type} {denote : List A → Nat → Expression → A} {k : ℕ∞}
    (h : ∀ vi ∈ vis, ∀ c, Calls (vis.map ValBinding.id) 0 [] vi.body c →
      c.HandsOn vi.body.params k)
    (hd : DenotesParameters denote) {vs : List A} (hvs : vs.length ≤ k) :
    {copy | Relation.ReflTransGen (Asks vis denote) (f, vs) copy}.Finite := by
  refine ((f :: vis.map ValBinding.id).toFinset.finite_toSet.image fun g => (g, vs)).subset ?_
  intro copy hcopy
  have key : copy.2 = vs ∧ copy.1 ∈ f :: vis.map ValBinding.id := by
    induction hcopy with
    | refl => exact ⟨rfl, List.mem_cons_self⟩
    | tail _ hask ih =>
      obtain ⟨hvi, hc⟩ := hask
      obtain ⟨rfl, -⟩ := ih
      exact ⟨(h _ hvi _ hc).denoted hd hvs, List.mem_cons_of_mem _ hc.callee⟩
  exact ⟨copy.1, List.mem_toFinset.mpr key.2, Prod.ext rfl key.1.symm⟩

-- ---------------------------------------------------------------------------
-- What the scan sees
-- ---------------------------------------------------------------------------

/-- How many arguments from the place `count` on are the parameters of their places. -/
def handedOn (depth count : Nat) : List Expression → Nat
  | .rel n :: rest =>
    if depth > count ∧ n = depth - 1 - count then handedOn depth (count + 1) rest + 1 else 0
  | _ => 0

section
variable (enclosing : List Nat)

/-- The arguments of the recursive call that an expression is, if the scan takes it for one. -/
def site : Expression → Option (List Expression)
  | .named n => if n ∈ enclosing then some [] else none
  | .app e1 e2 =>
    match getApp (.app e1 e2) with
    | none => none
    | some app => if app.functionId ∈ enclosing then some app.valueArgs else none
  | _ => none

/-- Where the scan goes on from an expression. -/
def scanned (depth : Nat) (e : Expression) : List (Nat × Expression) :=
  match e, site enclosing e with
  | .app _ _, some args => (args.drop (handedOn depth 0 args + 1)).map (depth, ·)
  | .app e1 e2, none => [(depth, e1), (depth, e2)]
  | .cApp e1 _, _ | .kApp e1 _, _ => [(depth, e1)]
  | e, _ => e.inner.map fun p => (depth + p.1, p.2)

inductive Scanned : Nat → Expression → Nat → Expression → Prop
  | refl : Scanned depth e depth e
  | step : p ∈ scanned enclosing depth e → Scanned p.1 p.2 d' e' → Scanned depth e d' e'

end

theorem handedOn_cons_rel (h : depth > count ∧ n = depth - 1 - count) :
    handedOn depth count (.rel n :: rest) = handedOn depth (count + 1) rest + 1 := by
  rw [handedOn, if_pos h]

theorem le_handedOn (k : Nat) : k ≤ handedOn depth count args ↔
    ∀ i < k, count + i < depth ∧ args[i]? = some (.rel (depth - 1 - (count + i))) := by
  induction args generalizing count k with
  | nil =>
    simp only [handedOn, Nat.le_zero, List.getElem?_nil, reduceCtorEq, and_false, imp_false]
    exact ⟨fun hk i hi => Nat.not_lt_zero i (hk ▸ hi),
      fun h => Nat.eq_zero_of_not_pos fun hk => h 0 hk⟩
  | cons a rest ih =>
    cases k with
    | zero => simp
    | succ k =>
      by_cases ha : depth > count ∧ a = .rel (depth - 1 - count)
      · obtain ⟨hd, rfl⟩ := ha
        rw [handedOn_cons_rel ⟨hd, rfl⟩, Nat.succ_le_succ_iff, ih]
        constructor
        · rintro h (_ | i) hi
          · exact ⟨hd, rfl⟩
          · have hi' := h i (Nat.lt_of_succ_lt_succ hi)
            rw [Nat.succ_add_eq_add_succ] at hi'
            exact hi'
        · intro h i hi
          have hi' := h (i + 1) (Nat.succ_lt_succ hi)
          rw [Nat.succ_add_eq_add_succ]
          exact hi'
      · have hz : handedOn depth count (a :: rest) = 0 := by
          cases a with
          | rel n =>
            rw [handedOn, if_neg]
            rintro ⟨hd, rfl⟩
            exact ha ⟨hd, rfl⟩
          | _ => rfl
        rw [hz]
        refine ⟨fun h => absurd h (Nat.not_succ_le_zero k), fun h => ?_⟩
        obtain ⟨hd, harg⟩ := h 0 (Nat.succ_pos k)
        exact absurd ⟨hd, Option.some.inj harg⟩ ha

theorem handedOn_mono (h : args <+: args') :
    handedOn depth count args ≤ handedOn depth count args' := by
  rw [le_handedOn]
  intro i hi
  have hi' := (le_handedOn _).mp le_rfl i hi
  obtain ⟨more, rfl⟩ := h
  obtain ⟨hlt, -⟩ := List.getElem?_eq_some_iff.mp hi'.2
  exact ⟨hi'.1, (List.getElem?_append_left hlt).trans hi'.2⟩

theorem Call.handsOn_iff {c : Call} {k : ℕ∞} :
    c.HandsOn n k ↔ k ≤ n ∧ k ≤ handedOn c.depth 0 c.args := by
  have hle (m : Nat) : k ≤ m ↔ ∀ i : Nat, i < k → i < m :=
    ⟨fun h i hi => Nat.cast_lt.mp (lt_of_lt_of_le hi h),
      fun h => not_lt.mp fun hm => Nat.lt_irrefl m (h m hm)⟩
  have hlt (i : Nat) : i < handedOn c.depth 0 c.args ↔ ∀ j ≤ i, j < c.depth ∧
      c.args[j]? = some (.rel (c.depth - 1 - j)) := by
    rw [← Nat.succ_le_iff, le_handedOn]
    simp only [Nat.zero_add, Nat.lt_succ_iff]
  rw [hle, hle]
  constructor
  · intro h
    refine ⟨fun i hi => (h i hi).1, fun i hi => (hlt i).mpr fun j hj => ?_⟩
    exact (h j (lt_of_le_of_lt (Nat.cast_le.mpr hj) hi)).2
  · rintro ⟨hn, h⟩ i hi
    exact ⟨hn i hi, (hlt i).mp (h i hi) i le_rfl⟩

theorem le_caList {k : ℕ∞} : k ≤ caList enclosing depth d es ↔
    k ≤ d ∧ ∀ e ∈ es, k ≤ ca enclosing depth e := by
  induction es generalizing d with
  | nil => rw [caList]; simp
  | cons e es ih => rw [caList, ih, le_min_iff, List.forall_mem_cons, and_assoc]

theorem le_caArgs {k : ℕ∞} : k ≤ caArgs enclosing depth d args ↔
    k ≤ d ∧ ∀ a ∈ args, k ≤ ca enclosing depth a.1 := by
  induction args generalizing d with
  | nil => rw [caArgs]; simp
  | cons a args ih => rw [caArgs, ih, le_min_iff, List.forall_mem_cons, and_assoc]

theorem le_caFields {k : ℕ∞} : k ≤ caFields enclosing depth d fields ↔
    k ≤ d ∧ ∀ f ∈ fields, k ≤ ca enclosing depth f.2.1 := by
  induction fields generalizing d with
  | nil => rw [caFields]; simp
  | cons f fields ih => rw [caFields, ih, le_min_iff, List.forall_mem_cons, and_assoc]

theorem le_caArms {k : ℕ∞} : k ≤ caArms enclosing depth d arms ↔
    k ≤ d ∧ ∀ a ∈ arms, k ≤ ca enclosing (depth + LocalReduction.patBindsN a.1) a.2 := by
  induction arms generalizing d with
  | nil => rw [caArms]; simp
  | cons a arms ih => rw [caArms, ih, le_min_iff, List.forall_mem_cons, and_assoc]

theorem le_visitArgs {k : ℕ∞} : k ≤ visitArgs enclosing depth count args ↔
    k ≤ (count + handedOn depth count args : Nat) ∧
      ∀ e ∈ args.drop (handedOn depth count args + 1), k ≤ ca enclosing depth e := by
  induction args generalizing count with
  | nil => rw [visitArgs]; simp [handedOn]
  | cons a rest ih =>
    cases a with
    | rel n =>
      by_cases h : depth > count ∧ n = depth - 1 - count
      · rw [visitArgs, if_pos h, ih, handedOn_cons_rel h, List.drop_succ_cons,
          Nat.succ_add_eq_add_succ]
      · rw [visitArgs, if_neg h, le_caList, handedOn, if_neg h]
        rfl
    | _ => rw [visitArgs, le_caList]; rfl; rintro _ ⟨⟩

-- ---------------------------------------------------------------------------
-- One level of the scan
-- ---------------------------------------------------------------------------

theorem site_app (enclosing : List Nat) (depth : Nat) (e1 e2 : Expression) :
    (site enclosing (.app e1 e2) = none ∧ scanned enclosing depth (.app e1 e2) =
        [(depth, e1), (depth, e2)] ∧
      ca enclosing depth (.app e1 e2) = min (ca enclosing depth e1) (ca enclosing depth e2)) ∨
    ∃ app, getApp (.app e1 e2) = some app ∧ app.functionId ∈ enclosing ∧
      site enclosing (.app e1 e2) = some app.valueArgs ∧
      scanned enclosing depth (.app e1 e2) =
        (app.valueArgs.drop (handedOn depth 0 app.valueArgs + 1)).map (depth, ·) ∧
      ca enclosing depth (.app e1 e2) = visitArgs enclosing depth 0 app.valueArgs := by
  have hnone (hs : site enclosing (.app e1 e2) = none) : scanned enclosing depth (.app e1 e2) =
      [(depth, e1), (depth, e2)] := by
    simp only [scanned, hs]
  cases h : getApp (.app e1 e2) with
  | none =>
    have hs : site enclosing (.app e1 e2) = none := by simp only [site, h]
    refine Or.inl ⟨hs, hnone hs, ?_⟩
    rw [ca]
    split
    · rfl
    · rename_i app happ
      rw [h] at happ
      cases happ
  | some app =>
    by_cases hmem : app.functionId ∈ enclosing
    · have hs : site enclosing (.app e1 e2) = some app.valueArgs := by
        simp only [site, h, if_pos hmem]
      refine Or.inr ⟨app, rfl, hmem, hs, by simp only [scanned, hs], ?_⟩
      rw [ca]
      split
      · rename_i happ
        rw [h] at happ
        cases happ
      · rename_i app' happ
        obtain rfl := Option.some.inj (h.symm.trans happ)
        rw [if_neg (not_not.mpr hmem)]
    · have hs : site enclosing (.app e1 e2) = none := by
        simp only [site, h, if_neg hmem]
      refine Or.inl ⟨hs, hnone hs, ?_⟩
      rw [ca]
      split
      · rfl
      · rename_i app' happ
        obtain rfl := Option.some.inj (h.symm.trans happ)
        rw [if_pos hmem]

/-- Nothing below the number found is handed on by fewer arguments. -/
theorem ca_levels {k : ℕ∞} (h : k ≤ ca enclosing depth e) :
    (∀ args ∈ site enclosing e, k ≤ handedOn depth 0 args) ∧
      ∀ p ∈ scanned enclosing depth e, k ≤ ca enclosing p.1 p.2 := by
  cases e with
  | named n =>
    refine ⟨?_, by simp [scanned, Expression.inner]⟩
    intro args hargs
    rw [ca] at h
    by_cases hn : n ∈ enclosing
    · simp_all
    · simp [site, hn] at hargs
  | app e1 e2 =>
    obtain ⟨hs, hp, hca⟩ | ⟨app, -, -, hs, hp, hca⟩ := site_app enclosing depth e1 e2
    · rw [hs, hp]
      rw [hca, le_min_iff] at h
      exact ⟨by rintro _ ⟨⟩, by simpa using h⟩
    · rw [hs, hp]
      rw [hca, le_visitArgs, Nat.zero_add] at h
      exact ⟨by simpa using h.1, List.forall_mem_map.mpr h.2⟩
  | constructor dk pc args payload =>
    cases payload with
    | none => exact ⟨by simp [site], by simp [scanned, Expression.inner]⟩
    | some arg => exact ⟨by simp [site], by simpa [scanned, Expression.inner, ca] using h⟩
  | ffiApp m x args =>
    rw [ca, le_caArgs] at h
    exact ⟨by simp [site], by simpa only [scanned, Expression.inner, List.map_map, List.map_cons,
      List.forall_mem_cons, List.forall_mem_map, Function.comp, Nat.add_zero] using h.2⟩
  | record fields =>
    rw [ca, le_caFields] at h
    exact ⟨by simp [site], by simpa only [scanned, Expression.inner, List.map_map, List.map_cons,
      List.forall_mem_cons, List.forall_mem_map, Function.comp, Nat.add_zero] using h.2⟩
  | case disc arms info =>
    rw [ca, le_caArms] at h
    exact ⟨by simp [site], by simpa only [scanned, Expression.inner, List.map_map, List.map_cons,
      List.forall_mem_cons, List.forall_mem_map, Function.comp, Nat.add_zero] using h⟩
  | closure n es | serverCall n es _ _ =>
    rw [ca, le_caList] at h
    exact ⟨by simp [site], by simpa [scanned, Expression.inner] using h.2⟩
  | concat e1 c1 e2 c2 | letIn x t e1 e2 =>
    rw [ca, le_min_iff] at h
    exact ⟨by simp [site], by simpa [scanned, Expression.inner] using h⟩
  | prim | rel | ffi => exact ⟨by simp [site], by simp [scanned, Expression.inner]⟩
  | _ =>
    rw [ca] at h
    exact ⟨by simp [site], by simpa [scanned, Expression.inner] using h⟩

theorem levels_ca {k : ℕ∞}
    (hs : ∀ args ∈ site enclosing e, k ≤ handedOn depth 0 args)
    (hp : ∀ p ∈ scanned enclosing depth e, k ≤ ca enclosing p.1 p.2) :
    k ≤ ca enclosing depth e := by
  cases e with
  | named n =>
    rw [ca]
    by_cases hn : n ∈ enclosing
    · have hz := hs [] (by simp [site, hn])
      rwa [if_pos hn]
    · rw [if_neg hn]
      exact le_top
  | app e1 e2 =>
    obtain ⟨-, hp', hca⟩ | ⟨app, -, -, hs', hp', hca⟩ := site_app enclosing depth e1 e2
    · rw [hp'] at hp
      rw [hca, le_min_iff]
      simpa using hp
    · rw [hs'] at hs
      rw [hp'] at hp
      rw [hca, le_visitArgs, Nat.zero_add]
      exact ⟨hs _ rfl, fun e he => hp (depth, e) (List.mem_map_of_mem he)⟩
  | constructor dk pc args payload =>
    cases payload with
    | none =>
      rw [ca]
      exact le_top
    | some arg => simpa [scanned, Expression.inner, ca] using hp
  | ffiApp m x args =>
    rw [ca, le_caArgs]
    exact ⟨le_top, by simpa only [scanned, Expression.inner, List.map_map, List.map_cons,
      List.forall_mem_cons, List.forall_mem_map, Function.comp, Nat.add_zero] using hp⟩
  | record fields =>
    rw [ca, le_caFields]
    exact ⟨le_top, by simpa only [scanned, Expression.inner, List.map_map, List.map_cons,
      List.forall_mem_cons, List.forall_mem_map, Function.comp, Nat.add_zero] using hp⟩
  | case disc arms info =>
    rw [ca, le_caArms]
    simpa only [scanned, Expression.inner, List.map_map, List.map_cons,
      List.forall_mem_cons, List.forall_mem_map, Function.comp, Nat.add_zero] using hp
  | closure n es | serverCall n es _ _ =>
    rw [ca, le_caList]
    exact ⟨le_top, by simpa [scanned, Expression.inner] using hp⟩
  | concat e1 c1 e2 c2 | letIn x t e1 e2 =>
    rw [ca, le_min_iff]
    simpa [scanned, Expression.inner] using hp
  | prim | rel | ffi =>
    rw [ca]
    exact le_top
  | _ =>
    rw [ca]
    simpa [scanned, Expression.inner] using hp

-- ---------------------------------------------------------------------------
-- The whole scan
-- ---------------------------------------------------------------------------

theorem Expression.inner_size (h : p ∈ Expression.inner e) : sizeOf p.2 < sizeOf e := by
  cases e with
  | constructor dk pc args payload =>
    obtain ⟨e', he, rfl⟩ := List.mem_map.mp h
    obtain rfl := Option.mem_toList.mp he
    simp
    omega
  | ffiApp m x args =>
    obtain ⟨a, ha, rfl⟩ := List.mem_map.mp h
    have hlt := List.sizeOf_lt_of_mem ha
    have ha' : sizeOf a.1 < sizeOf a := by cases a; simp; omega
    simp
    omega
  | record fields =>
    obtain ⟨f, hf, rfl⟩ := List.mem_map.mp h
    have hlt := List.sizeOf_lt_of_mem hf
    have hf' : sizeOf f.2.1 < sizeOf f := by obtain ⟨_, _, _⟩ := f; simp; omega
    simp
    omega
  | case disc arms info =>
    obtain rfl | h := List.mem_cons.mp h
    · simp
      omega
    · obtain ⟨a, ha, rfl⟩ := List.mem_map.mp h
      have hlt := List.sizeOf_lt_of_mem ha
      have ha' : sizeOf a.2 < sizeOf a := by cases a; simp
      simp
      omega
  | closure n es | serverCall n es _ _ =>
    obtain ⟨e', he, rfl⟩ := List.mem_map.mp h
    have hlt := List.sizeOf_lt_of_mem he
    simp
    omega
  | concat e1 c1 e2 c2 | letIn x t e1 e2 =>
    simp only [Expression.inner, List.mem_cons, List.not_mem_nil, or_false] at h
    obtain rfl | rfl := h
    all_goals
      simp
      try omega
  | prim | rel | named | ffi | app | cApp | kApp => exact (List.not_mem_nil h).elim
  | _ =>
    obtain rfl := List.mem_singleton.mp h
    simp
    try omega

theorem scanned_size (h : p ∈ scanned enclosing depth e) : sizeOf p.2 < sizeOf e := by
  cases e with
  | app e1 e2 =>
    obtain ⟨-, hp, -⟩ | ⟨app, happ, -, -, hp, -⟩ := site_app enclosing depth e1 e2
    · rw [hp] at h
      simp only [List.mem_cons, List.not_mem_nil, or_false] at h
      obtain rfl | rfl := h
      · simp
        omega
      · simp
    · rw [hp] at h
      obtain ⟨e', he, rfl⟩ := List.mem_map.mp h
      exact Nat.lt_of_lt_of_le (List.sizeOf_lt_of_mem (List.mem_of_mem_drop he)) (getApp_size happ)
  | cApp e1 _ | kApp e1 _ =>
    obtain rfl := List.mem_singleton.mp h
    simp
    try omega
  | _ =>
    obtain ⟨p', hp', rfl⟩ := List.mem_map.mp h
    exact Expression.inner_size (p := p') hp'

/-- The number found is within what every call seen hands on. -/
theorem ca_le_site {k : ℕ∞} (hs : Scanned enclosing depth e d' e') (h : k ≤ ca enclosing depth e) :
    ∀ args ∈ site enclosing e', k ≤ handedOn d' 0 args := by
  induction hs with
  | refl => exact (ca_levels h).1
  | step hp _ ih => exact ih ((ca_levels h).2 _ hp)

/-- And nothing else lowers it. -/
theorem sites_le_ca {k : ℕ∞} (e : Expression) (depth : Nat)
    (h : ∀ d' e' args, Scanned enclosing depth e d' e' → site enclosing e' = some args →
      k ≤ handedOn d' 0 args) : k ≤ ca enclosing depth e :=
  levels_ca (fun args hargs => h depth e args .refl hargs) fun p hp =>
    sites_le_ca p.2 p.1 fun d' e' args hs => h d' e' args (.step hp hs)
termination_by sizeOf e
decreasing_by exact scanned_size hp

-- ---------------------------------------------------------------------------
-- Calls seen and calls skipped
-- ---------------------------------------------------------------------------

/-- A call inside the first argument of a call seen that is not handed on. -/
def Skipped (enclosing : List Nat) (depth : Nat) (e : Expression) (c : Call) : Prop :=
  ∃ d' e' args a, Scanned enclosing depth e d' e' ∧ site enclosing e' = some args ∧
    args[handedOn d' 0 args]? = some a ∧ Calls enclosing d' [] a c

theorem calls_spine (h : getAppInner e = some s) : Calls enclosing depth spine e c ↔
    (s.functionId ∈ enclosing ∧ c = ⟨s.functionId, depth, s.valueArgs ++ spine⟩) ∨
      ∃ a ∈ s.valueArgs, Calls enclosing depth [] a c := by
  induction e generalizing s spine with
  | named n =>
    cases h
    constructor
    · rintro (hn | _)
      · exact Or.inl ⟨hn, rfl⟩
      · contradiction
    · rintro (⟨hn, rfl⟩ | ⟨a, ha, -⟩)
      · exact .named hn
      · exact (List.not_mem_nil ha).elim
  | app f a ihf _ =>
    obtain ⟨s', hs', rfl⟩ := Option.map_eq_some_iff.mp h
    have hf := @ihf s' (a :: spine) hs'
    constructor
    · rintro (_ | hc | hc | _ | _ | hin)
      · obtain ⟨hn, rfl⟩ | ⟨b, hb, hc⟩ := hf.mp hc
        · exact Or.inl ⟨hn, by simp⟩
        · exact Or.inr ⟨b, List.mem_append_left _ hb, hc⟩
      · exact Or.inr ⟨a, List.mem_append_right _ List.mem_cons_self, hc⟩
      · exact (List.not_mem_nil hin).elim
    · rintro (⟨hn, rfl⟩ | ⟨b, hb, hc⟩)
      · exact .head (hf.mpr (Or.inl ⟨hn, by simp⟩))
      · obtain hb | hb := List.mem_append.mp hb
        · exact .head (hf.mpr (Or.inr ⟨b, hb, hc⟩))
        · obtain rfl := List.mem_singleton.mp hb
          exact .arg hc
  | cApp f t ih =>
    obtain ⟨s', hs', rfl⟩ := Option.map_eq_some_iff.mp h
    have hf := @ih s' spine hs'
    constructor
    · rintro (_ | _ | _ | hc | _ | hin)
      · exact hf.mp hc
      · exact (List.not_mem_nil hin).elim
    · intro hc
      exact .cApp (hf.mpr hc)
  | _ => cases h

theorem getApp_calls (h : getApp e = some s) (ha : a ∈ s.valueArgs)
    (hc : Calls enclosing depth [] a c) : Calls enclosing depth spine e c :=
  (calls_spine (getApp_some h).1).mpr (Or.inr ⟨a, ha, hc⟩)

/-- A recursive call that the scan takes an expression for is one. -/
theorem calls_of_site (h : site enclosing e = some args) :
    ∃ g, Calls enclosing depth spine e ⟨g, depth, args ++ spine⟩ := by
  cases e with
  | named n =>
    simp only [site, Option.ite_none_right_eq_some, Option.some.injEq] at h
    obtain ⟨hn, rfl⟩ := h
    exact ⟨n, .named hn⟩
  | app e1 e2 =>
    obtain ⟨hs, -, -⟩ | ⟨app, happ, hmem, hs, -, -⟩ := site_app enclosing depth e1 e2
    · rw [hs] at h
      cases h
    · obtain rfl := Option.some.inj (hs.symm.trans h)
      exact ⟨_, (calls_spine (getApp_some happ).1).mpr (Or.inl ⟨hmem, rfl⟩)⟩
  | _ => cases h

theorem calls_of_scanned_level (hp : p ∈ scanned enclosing depth e) (spine : List Expression) :
    ∃ spine', ∀ c, Calls enclosing p.1 spine' p.2 c → Calls enclosing depth spine e c := by
  cases e with
  | app e1 e2 =>
    obtain ⟨-, hp', -⟩ | ⟨app, happ, -, -, hp', -⟩ := site_app enclosing depth e1 e2
    · rw [hp'] at hp
      simp only [List.mem_cons, List.not_mem_nil, or_false] at hp
      obtain rfl | rfl := hp
      · exact ⟨e2 :: spine, fun c hc => .head hc⟩
      · exact ⟨[], fun c hc => .arg hc⟩
    · rw [hp'] at hp
      obtain ⟨a, ha, rfl⟩ := List.mem_map.mp hp
      exact ⟨[], fun c hc => getApp_calls happ (List.mem_of_mem_drop ha) hc⟩
  | cApp e1 _ =>
    obtain rfl := List.mem_singleton.mp hp
    exact ⟨spine, fun c hc => .cApp hc⟩
  | kApp e1 _ =>
    obtain rfl := List.mem_singleton.mp hp
    exact ⟨spine, fun c hc => .kApp hc⟩
  | _ =>
    obtain ⟨p', hp', rfl⟩ := List.mem_map.mp hp
    exact ⟨[], fun c hc => .inner (p := p') hp' hc⟩

theorem calls_of_scanned (hs : Scanned enclosing depth e d' e') (spine : List Expression) :
    ∃ spine', ∀ c, Calls enclosing d' spine' e' c → Calls enclosing depth spine e c := by
  induction hs generalizing spine with
  | refl => exact ⟨spine, fun c hc => hc⟩
  | step hp _ ih =>
    obtain ⟨spine1, h1⟩ := calls_of_scanned_level hp spine
    obtain ⟨spine2, h2⟩ := ih spine1
    exact ⟨spine2, fun c hc => h1 c (h2 c hc)⟩

/-- A call skipped is a call. -/
theorem Skipped.calls (h : Skipped enclosing depth e c) (spine : List Expression) :
    Calls enclosing depth spine e c := by
  obtain ⟨d', e', args, a, hs, hsite, ha, hc⟩ := h
  obtain ⟨spine', hlift⟩ := calls_of_scanned hs spine
  apply hlift
  cases e' with
  | named n =>
    simp only [site, Option.ite_none_right_eq_some, Option.some.injEq] at hsite
    obtain ⟨-, rfl⟩ := hsite
    cases ha
  | app e1 e2 =>
    obtain ⟨hno, -, -⟩ | ⟨app, happ, -, hyes, -, -⟩ := site_app enclosing d' e1 e2
    · rw [hno] at hsite
      cases hsite
    · obtain rfl := Option.some.inj (hyes.symm.trans hsite)
      exact getApp_calls happ (List.mem_of_getElem? ha) hc
  | _ => cases hsite

theorem Skipped.step (hp : p ∈ scanned enclosing depth e) (h : Skipped enclosing p.1 p.2 c) :
    Skipped enclosing depth e c := by
  obtain ⟨d', e', args, a, hs, rest⟩ := h
  exact ⟨d', e', args, a, .step hp hs, rest⟩

/-- A call that the scan sees, with the arguments it sees. -/
def Seen (enclosing : List Nat) (depth : Nat) (e : Expression) (c : Call) : Prop :=
  ∃ e' args, Scanned enclosing depth e c.depth e' ∧ site enclosing e' = some args ∧ args <+: c.args

theorem Seen.step (hp : p ∈ scanned enclosing depth e) (h : Seen enclosing p.1 p.2 c) :
    Seen enclosing depth e c := by
  obtain ⟨e', args, hs, rest⟩ := h
  exact ⟨e', args, .step hp hs, rest⟩

theorem handedOn_rel (hi : i < handedOn depth 0 args) (ha : args[i]? = some a) :
    ∃ n, a = .rel n := by
  have h := ((le_handedOn (handedOn depth 0 args)).mp (Nat.le_refl _) i hi).2
  exact ⟨_, Option.some.inj (ha.symm.trans h)⟩

/-- Every call is seen or skipped. -/
theorem seen_or_skipped (e : Expression) (depth : Nat) (spine : List Expression)
    (h : Calls enclosing depth spine e c) :
    Seen enclosing depth e c ∨ Skipped enclosing depth e c := by
  have deeper {p : Nat × Expression} {spine' : List Expression}
      (hp : p ∈ scanned enclosing depth e) (hc : Calls enclosing p.1 spine' p.2 c) :
      Seen enclosing depth e c ∨ Skipped enclosing depth e c :=
    (seen_or_skipped p.2 p.1 spine' hc).imp (.step hp) (.step hp)
  cases e with
  | named n =>
    obtain hn | _ := h
    · exact Or.inl ⟨.named n, [], .refl, by simp [site, hn], List.nil_prefix⟩
    · contradiction
  | app e1 e2 =>
    obtain ⟨-, hp, -⟩ | ⟨app, happ, -, hsite, hp, -⟩ := site_app enclosing depth e1 e2
    · obtain _ | hc | hc | _ | _ | hin := h
      · exact deeper (p := (depth, e1)) (by simp [hp]) hc
      · exact deeper (p := (depth, e2)) (by simp [hp]) hc
      · exact (List.not_mem_nil hin).elim
    · obtain ⟨-, rfl⟩ | ⟨a, ha, hc⟩ := (calls_spine (getApp_some happ).1).mp h
      · exact Or.inl ⟨.app e1 e2, app.valueArgs, .refl, hsite, List.prefix_append _ _⟩
      · obtain ⟨i, hi⟩ := List.getElem?_of_mem ha
        obtain hlt | heq | hgt := Nat.lt_trichotomy i (handedOn depth 0 app.valueArgs)
        · obtain ⟨n, rfl⟩ := handedOn_rel hlt hi
          cases hc
          contradiction
        · exact Or.inr ⟨depth, .app e1 e2, app.valueArgs, a, .refl, hsite, heq ▸ hi, hc⟩
        · refine deeper (p := (depth, a)) ?_ hc
          rw [hp]
          refine List.mem_map_of_mem
            (List.mem_of_getElem? (i := i - (handedOn depth 0 app.valueArgs + 1)) ?_)
          rw [List.getElem?_drop, Nat.add_sub_cancel' hgt, hi]
  | cApp e1 _ =>
    obtain _ | _ | _ | hc | _ | hin := h
    · exact deeper (p := (depth, e1)) List.mem_cons_self hc
    · exact (List.not_mem_nil hin).elim
  | kApp e1 _ =>
    obtain _ | _ | _ | _ | hc | hin := h
    · exact deeper (p := (depth, e1)) List.mem_cons_self hc
    · exact (List.not_mem_nil hin).elim
  | _ =>
    cases h with
    | inner hin hc => exact deeper (List.mem_map.mpr ⟨_, hin, rfl⟩) hc
termination_by sizeOf e
decreasing_by exact scanned_size hp

-- ---------------------------------------------------------------------------
-- Groups
-- ---------------------------------------------------------------------------

theorem enterAbs_eq (e : Expression) : enterAbs enclosing depth e = ca enclosing depth e := by
  induction e generalizing depth with
  | abs x dom ran body ih => rw [enterAbs, ih, ca]
  | _ => rfl

theorem le_constArgs {k : ℕ∞} (hvi : vi ∈ vis) :
    k ≤ constArgs vis ↔ ∀ vi ∈ vis, k ≤ ca (vis.map ValBinding.id) 0 vi.body := by
  have hne : (vis.map fun vi => calcConstArgs (vis.map ValBinding.id) vi.body) ≠ [] :=
    List.ne_nil_of_mem (List.mem_map_of_mem hvi)
  rw [constArgs, List.min?_eq_some_min hne, Option.getD_some, List.le_min_iff]
  simp [calcConstArgs, enterAbs_eq]

/-- The arguments of a call that the scan of a group sees. -/
def SeenIn (vis : List ValBinding) (depth : Nat) (args : List Expression) : Prop :=
  ∃ vi ∈ vis, ∃ e, Scanned (vis.map ValBinding.id) 0 vi.body depth e ∧
    site (vis.map ValBinding.id) e = some args

/-- Where no call was passed over that hands on fewer arguments than every call seen, and
where the calls seen do not all go beyond the parameters of a function that calls. -/
structure NothingHidden (vis : List ValBinding) : Prop where
  parameters : ∀ vi ∈ vis, ∀ c, Calls (vis.map ValBinding.id) 0 [] vi.body c →
    ∃ depth args, SeenIn vis depth args ∧ handedOn depth 0 args ≤ vi.body.params
  skipped : ∀ vi ∈ vis, ∀ c, Skipped (vis.map ValBinding.id) 0 vi.body c →
    ∃ depth args, SeenIn vis depth args ∧ handedOn depth 0 args ≤ handedOn c.depth 0 c.args

theorem constArgs_le_seen (h : SeenIn vis depth args) :
    constArgs vis ≤ handedOn depth 0 args := by
  obtain ⟨vi, hvi, e, hs, hsite⟩ := h
  exact ca_le_site hs ((le_constArgs hvi).mp le_rfl vi hvi) args hsite

theorem constArgs_le_of_seen {m : Nat} (h : ∃ depth args, SeenIn vis depth args ∧
    handedOn depth 0 args ≤ m) : constArgs vis ≤ m := by
  obtain ⟨depth, args, hseen, hle⟩ := h
  exact (constArgs_le_seen hseen).trans (Nat.cast_le.mpr hle)

/-- The number is that of some call seen, unless it limits nothing. -/
theorem seen_of_constArgs_le {m : Nat} (hvi : vi ∈ vis) (h : constArgs vis ≤ m) :
    ∃ depth args, SeenIn vis depth args ∧ handedOn depth 0 args ≤ m := by
  by_contra hno
  have hlow : ((m + 1 : Nat) : ℕ∞) ≤ constArgs vis := by
    refine (le_constArgs hvi).mpr fun vj hvj => sites_le_ca vj.body 0 fun d e args hs hsite => ?_
    refine Nat.cast_le.mpr (Nat.succ_le_of_lt (Nat.lt_of_not_le fun hle => hno ?_))
    exact ⟨d, args, ⟨vj, hvj, e, hs, hsite⟩, hle⟩
  exact Nat.not_succ_le_self m (Nat.cast_le.mp (hlow.trans h))

/-- The number recorded for a group is what it promises exactly where nothing is hidden. -/
theorem constant_iff (vis : List ValBinding) : Constant vis ↔ NothingHidden vis := by
  constructor
  · intro h
    refine ⟨fun vi hvi c hc => ?_, fun vi hvi c hc => ?_⟩
    · exact seen_of_constArgs_le hvi (Call.handsOn_iff.mp (h.arguments vi hvi c hc)).1
    · have hcall := hc.calls []
      exact seen_of_constArgs_le hvi (Call.handsOn_iff.mp (h.arguments vi hvi c hcall)).2
  · intro h
    have hargs : ∀ vi ∈ vis, ∀ c, Calls (vis.map ValBinding.id) 0 [] vi.body c →
        c.HandsOn vi.body.params (constArgs vis) := by
      intro vi hvi c hc
      refine Call.handsOn_iff.mpr ⟨constArgs_le_of_seen (h.parameters vi hvi c hc), ?_⟩
      obtain ⟨e, args, hs, hsite, hpre⟩ | hskip := seen_or_skipped vi.body 0 [] hc
      · exact (constArgs_le_seen ⟨vi, hvi, e, hs, hsite⟩).trans
          (Nat.cast_le.mpr (handedOn_mono hpre))
      · exact constArgs_le_of_seen (h.skipped vi hvi c hskip)
    exact ⟨hargs, fun A denote hd f vs hvs => copies_finite hargs hd hvs⟩

-- ---------------------------------------------------------------------------
-- A call that the scan passes over
-- ---------------------------------------------------------------------------

/-- `fun rec f x y = f x (f 0 y)` -/
def callInArgument : ValBinding :=
  let int := Constructor.ffi "Basis" "int"
  let f := Expression.named 0
  { x := "f", id := 0, t := .tFun int (.tFun int int), s := "f",
    body := .abs "x" int (.tFun int int) (.abs "y" int int
      (.app (.app f (.rel 1)) (.app (.app f (.prim (.int 0))) (.rel 0)))) }

theorem callInArgument_constArgs : 1 ≤ constArgs [callInArgument] := by
  refine (le_constArgs List.mem_cons_self).mpr fun vi hvi => ?_
  obtain rfl := List.mem_singleton.mp hvi
  simp [callInArgument, ca, visitArgs, getApp, getAppInner, caList]

theorem not_constant_callInArgument : ¬ Constant [callInArgument] := by
  intro h
  have hcall : Calls [0] 0 [] callInArgument.body ⟨0, 2, [.prim (.int 0), .rel 0]⟩ := by
    refine .inner (p := (1, _)) List.mem_cons_self (.inner (p := (1, _)) List.mem_cons_self ?_)
    exact .arg (.head (.head (.named List.mem_cons_self)))
  have hpos : ((0 : Nat) : ℕ∞) < constArgs [callInArgument] :=
    lt_of_lt_of_le (by simp) callInArgument_constArgs
  have hfirst := h.arguments _ List.mem_cons_self _ hcall 0 hpos
  cases hfirst.2.2

end UrWeb.Core
