import Mathlib.Data.Finset.Card
import Mathlib.Data.Finset.Lattice.Fold
import Mathlib.Logic.Function.Basic
import Mathlib.Order.Lattice.Nat
import UrWeb.Lib.Saturate

/-!
# References and mark sets

The vocabulary that the dead-code passes of both intermediate representations
share: ids of types and of values, and the two sets of ids marked so far.
-/

namespace UrWeb

open Saturation

/-- A type id or a value id. -/
inductive Ref
  | con (n : Nat)
  | exp (n : Nat)
  deriving DecidableEq, Repr

def refSet (l : List Ref) : Set Ref := {r | r ∈ l}

@[simp] theorem mem_refSet : r ∈ refSet l ↔ r ∈ l := Iff.rfl
@[simp] theorem refSet_nil : refSet [] = ∅ := by ext; simp
@[simp] theorem refSet_single : refSet [r] = {r} := by ext; simp
@[simp] theorem refSet_append : refSet (a ++ b) = refSet a ∪ refSet b := by ext; simp

theorem refSet_flatMap (f : β → List Ref) (l : List β) :
    refSet (l.flatMap f) = rootsOf (fun b => refSet (f b)) l := by
  ext; simp [rootsOf]

-- ---------------------------------------------------------------------------
-- Ordered sets of ids
-- ---------------------------------------------------------------------------

/-- The walk over an ordered set. -/
def ascending (s : Finset Nat) : List Nat := (List.range (s.sup id + 1)).filter (· ∈ s)

@[simp] theorem mem_ascending : n ∈ ascending s ↔ n ∈ s := by
  simp only [ascending, List.mem_filter, List.mem_range, decide_eq_true_eq,
    and_iff_right_iff_imp]
  exact fun h => Nat.lt_succ_of_le (Finset.le_sup (f := id) h)

theorem nodup_ascending (s : Finset Nat) : (ascending s).Nodup := List.nodup_range.filter _

@[simp] theorem toFinset_ascending (s : Finset Nat) : (ascending s).toFinset = s := by
  ext n; simp

@[simp] theorem length_ascending (s : Finset Nat) : (ascending s).length = s.card := by
  rw [← List.toFinset_card_of_nodup (nodup_ascending s), toFinset_ascending]

@[simp] theorem ascending_singleton (n : Nat) : ascending {n} = [n] :=
  List.perm_singleton.mp
    ((List.perm_ext_iff_of_nodup (nodup_ascending _) (List.nodup_singleton n)).mpr (by simp))

-- ---------------------------------------------------------------------------
-- Definition maps
-- ---------------------------------------------------------------------------

theorem foldl_update_none (key : β → Nat) (val : β → α) (l : List β) (m : Nat → Option α)
    (h : ∀ b ∈ l, key b ≠ n) :
    l.foldl (fun m b => Function.update m (key b) (some (val b))) m n = m n := by
  induction l generalizing m with
  | nil => rfl
  | cons b l ih =>
    rw [List.foldl_cons, ih _ fun c hc => h c (by simp [hc])]
    exact Function.update_of_ne (Ne.symm (h b (by simp))) _ _

theorem foldl_update_some (key : β → Nat) (val : β → α) (l : List β) (m : Nat → Option α)
    (hb : b ∈ l) (huniq : ∀ c ∈ l, key c = key b → c = b) :
    l.foldl (fun m b => Function.update m (key b) (some (val b))) m (key b) = some (val b) := by
  induction l generalizing m with
  | nil => simp at hb
  | cons c l ih =>
    rw [List.foldl_cons]
    by_cases hl : b ∈ l
    · exact ih _ hl fun d hd => huniq d (by simp [hd])
    · obtain rfl : b = c := by simpa [hl] using hb
      rw [foldl_update_none key val l _ fun d hd hk => hl (huniq d (by simp [hd]) hk ▸ hd)]
      simp

/-- An entry was there before or comes from the list. -/
theorem foldl_update_eq_some (key : β → Nat) (val : β → α) (l : List β) (m : Nat → Option α)
    (h : l.foldl (fun m b => Function.update m (key b) (some (val b))) m n = some a) :
    m n = some a ∨ ∃ b ∈ l, key b = n ∧ val b = a := by
  induction l generalizing m with
  | nil => exact .inl h
  | cons b l ih =>
    obtain h | ⟨c, hc, hrest⟩ := ih _ h
    · by_cases hb : n = key b
      · subst hb
        simp only [Function.update_self, Option.some.injEq] at h
        exact .inr ⟨b, List.mem_cons_self, rfl, h⟩
      · simp only [Function.update_of_ne hb] at h
        exact .inl h
    · exact .inr ⟨c, List.mem_cons_of_mem _ hc, hrest⟩

-- ---------------------------------------------------------------------------
-- Mark sets
-- ---------------------------------------------------------------------------

/-- The ids marked so far. -/
structure Marks where
  con : Finset Nat
  exp : Finset Nat

def Marks.empty : Marks := ⟨∅, ∅⟩

namespace Marks

def nodes (s : Marks) : Set Ref
  | .con n => n ∈ s.con
  | .exp n => n ∈ s.exp

@[simp] theorem con_mem_nodes {s : Marks} : .con n ∈ s.nodes ↔ n ∈ s.con := Iff.rfl
@[simp] theorem exp_mem_nodes {s : Marks} : .exp n ∈ s.nodes ↔ n ∈ s.exp := Iff.rfl

theorem nodes_empty : empty.nodes = ∅ := by
  ext r; cases r <;> simp [empty]

def markCon (n : Nat) (s : Marks) : Marks := { s with con := insert n s.con }

def markExp (n : Nat) (s : Marks) : Marks := { s with exp := insert n s.exp }

@[simp] theorem nodes_markCon (n : Nat) (s : Marks) :
    (s.markCon n).nodes = insert (.con n) s.nodes := by
  ext r; cases r <;> simp [markCon]

@[simp] theorem nodes_markExp (n : Nat) (s : Marks) :
    (s.markExp n).nodes = insert (.exp n) s.nodes := by
  ext r; cases r <;> simp [markExp]

/-- How many of the type ids in `U` are not marked yet. -/
def conLeft (U : Finset Nat) (s : Marks) : Nat := (U \ s.con).card

/-- How many of the value ids in `U` are not marked yet. -/
def expLeft (U : Finset Nat) (s : Marks) : Nat := (U \ s.exp).card

theorem conLeft_mono (U : Finset Nat) {s t : Marks} (h : s.nodes ⊆ t.nodes) : t.conLeft U ≤ s.conLeft U :=
  Finset.card_le_card
    (Finset.sdiff_subset_sdiff subset_rfl fun n hn => h (show Ref.con n ∈ s.nodes from hn))

theorem expLeft_mono (U : Finset Nat) {s t : Marks} (h : s.nodes ⊆ t.nodes) : t.expLeft U ≤ s.expLeft U :=
  Finset.card_le_card
    (Finset.sdiff_subset_sdiff subset_rfl fun n hn => h (show Ref.exp n ∈ s.nodes from hn))

theorem card_sdiff_insert_lt {U s : Finset Nat} (hU : n ∈ U) (hs : n ∉ s) :
    (U \ insert n s).card < (U \ s).card := by
  rw [Finset.sdiff_insert]
  exact Finset.card_erase_lt_of_mem (Finset.mem_sdiff.mpr ⟨hU, hs⟩)

theorem conLeft_markCon (hU : n ∈ U) (hs : .con n ∉ nodes s) :
    (s.markCon n).conLeft U < s.conLeft U := card_sdiff_insert_lt hU hs

theorem expLeft_markExp (hU : n ∈ U) (hs : .exp n ∉ nodes s) :
    (s.markExp n).expLeft U < s.expLeft U := card_sdiff_insert_lt hU hs

theorem conLeft_le (s : Marks) (l : List Nat) : s.conLeft l.toFinset ≤ l.length :=
  (Finset.card_le_card Finset.sdiff_subset).trans (List.toFinset_card_le l)

theorem expLeft_le (s : Marks) (l : List Nat) : s.expLeft l.toFinset ≤ l.length :=
  (Finset.card_le_card Finset.sdiff_subset).trans (List.toFinset_card_le l)

end Marks

end UrWeb
