import Mathlib.Data.List.Basic

/-!
# Lists with elements inserted

`Inserted p s o`: the list `o` is `s` with some elements inserted that `p`
allows. The elements that may not be inserted stand in both lists in the same
order, so they cut the two lists into parts that correspond.
-/

namespace Insertion

inductive Inserted (p : α → Bool) : List α → List α → Prop
  | nil : Inserted p [] []
  | keep : Inserted p s o → Inserted p (a :: s) (a :: o)
  | insert : p a → Inserted p s o → Inserted p s (a :: o)

variable {p q : α → Bool}

theorem Inserted.refl (s : List α) : Inserted p s s := by
  induction s with
  | nil => exact .nil
  | cons a s ih => exact .keep ih

theorem Inserted.append (h : Inserted p s o) (h' : Inserted p s' o') :
    Inserted p (s ++ s') (o ++ o') := by
  induction h with
  | nil => exact h'
  | keep _ ih => exact .keep ih
  | insert ha _ ih => exact .insert ha ih

theorem Inserted.append_left (s : List α) (h : Inserted p t o) :
    Inserted p (s ++ t) (s ++ o) := (Inserted.refl s).append h

theorem Inserted.mono (hpq : ∀ a, p a → q a) (h : Inserted p s o) : Inserted q s o := by
  induction h with
  | nil => exact .nil
  | keep _ ih => exact .keep ih
  | insert ha _ ih => exact .insert (hpq _ ha) ih

theorem Inserted.length_le (h : Inserted p s o) : s.length ≤ o.length := by
  induction h with
  | nil => exact Nat.le_refl 0
  | keep _ ih => exact Nat.succ_le_succ ih
  | insert _ _ ih => exact Nat.le_succ_of_le ih

/-- What may not be inserted is counted the same. -/
theorem Inserted.countP (hq : ∀ a, p a → q a = false) (h : Inserted p s o) :
    o.countP q = s.countP q := by
  induction h with
  | nil => rfl
  | keep _ ih => rw [List.countP_cons, List.countP_cons, ih]
  | insert ha _ ih => rw [List.countP_cons_of_neg (by simp [hq _ ha]), ih]

/-- Two elements that were not inserted, with equally many such elements before them, are
one element. -/
theorem Inserted.split (h : Inserted p u v) (hu : u = s ++ a :: t) (hv : v = o ++ b :: w)
    (ha : p a = false) (hb : p b = false)
    (hn : s.countP (!p ·) = o.countP (!p ·)) :
    Inserted p s o ∧ a = b ∧ Inserted p t w := by
  induction h generalizing s o with
  | nil => simp at hu
  | @keep u v c h ih =>
    cases s with
    | nil =>
      obtain ⟨rfl, rfl⟩ := List.cons.inj hu
      cases o with
      | nil =>
        obtain ⟨rfl, rfl⟩ := List.cons.inj hv
        exact ⟨.nil, rfl, h⟩
      | cons d o =>
        obtain ⟨rfl, -⟩ := List.cons.inj hv
        simp [ha] at hn
    | cons e s =>
      obtain ⟨rfl, rfl⟩ := List.cons.inj hu
      cases o with
      | nil =>
        obtain ⟨rfl, -⟩ := List.cons.inj hv
        simp [hb] at hn
      | cons d o =>
        obtain ⟨rfl, rfl⟩ := List.cons.inj hv
        rw [List.countP_cons, List.countP_cons] at hn
        obtain ⟨h1, h2, h3⟩ := ih rfl rfl (Nat.add_right_cancel hn)
        exact ⟨.keep h1, h2, h3⟩
  | @insert c u v hc h ih =>
    cases o with
    | nil =>
      obtain ⟨rfl, -⟩ := List.cons.inj hv
      rw [hc] at hb
      cases hb
    | cons d o =>
      obtain ⟨rfl, rfl⟩ := List.cons.inj hv
      rw [List.countP_cons_of_neg (by simp [hc])] at hn
      obtain ⟨h1, h2, h3⟩ := ih hu rfl hn
      exact ⟨.insert hc h1, h2, h3⟩

/-- What stands between two such elements corresponds. -/
theorem Inserted.between (h : Inserted p (s ++ a :: (x ++ b :: t)) (o ++ a :: (y ++ b :: w)))
    (ha : p a = false) (hb : p b = false) (hn : s.countP (!p ·) = o.countP (!p ·))
    (hxy : x.countP (!p ·) = y.countP (!p ·)) : Inserted p x y := by
  obtain ⟨-, -, hrest⟩ := h.split rfl rfl ha ha hn
  exact (hrest.split rfl rfl hb hb hxy).1

-- ---------------------------------------------------------------------------
-- Counting over parts
-- ---------------------------------------------------------------------------

theorem countP_flatMap_le {l : List β} {f g : β → List α}
    (h : ∀ x ∈ l, (f x).countP q ≤ (g x).countP q) :
    (l.flatMap f).countP q ≤ (l.flatMap g).countP q := by
  induction l with
  | nil => exact Nat.le_refl _
  | cons x l ih =>
    obtain ⟨hx, hl⟩ := List.forall_mem_cons.mp h
    rw [List.flatMap_cons, List.flatMap_cons, List.countP_append, List.countP_append]
    exact Nat.add_le_add hx (ih hl)

/-- Where the parts cannot lose any and the whole gains none, no part gains any. -/
theorem countP_flatMap_eq {l : List β} {f g : β → List α}
    (h : ∀ x ∈ l, (f x).countP q ≤ (g x).countP q)
    (heq : (l.flatMap g).countP q ≤ (l.flatMap f).countP q) :
    ∀ x ∈ l, (f x).countP q = (g x).countP q := by
  induction l with
  | nil => nofun
  | cons x l ih =>
    obtain ⟨hx, hl⟩ := List.forall_mem_cons.mp h
    have hle := countP_flatMap_le hl
    rw [List.flatMap_cons, List.flatMap_cons, List.countP_append, List.countP_append] at heq
    exact List.forall_mem_cons.mpr ⟨by omega, ih hl (by omega)⟩

theorem countP_flatMap_congr {l : List β} {f g : β → List α}
    (h : ∀ x ∈ l, (f x).countP q = (g x).countP q) :
    (l.flatMap f).countP q = (l.flatMap g).countP q :=
  Nat.le_antisymm (countP_flatMap_le fun x hx => Nat.le_of_eq (h x hx))
    (countP_flatMap_le fun x hx => Nat.le_of_eq (h x hx).symm)

end Insertion
