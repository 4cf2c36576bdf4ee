import Mathlib.Data.Finset.Card
import Mathlib.Data.Finset.Insert
import Mathlib.Logic.Relation

/-!
# Worklists

A search that marks an item when it enters the queue and takes items from the
front. `mem_search` is what it has marked when the queue is empty, and any
allowance that covers the items in play empties it.
-/

namespace Worklist

variable {α : Type} [DecidableEq α]

structure State (α : Type) where
  seen : Finset α
  queue : List α

def enqueue (s : State α) (x : α) : State α :=
  if x ∈ s.seen then s else ⟨insert x s.seen, s.queue ++ [x]⟩

def enqueueAll (s : State α) (xs : List α) : State α := xs.foldl enqueue s

section
variable (succs : α → List α)

def loop : ℕ → State α → State α
  | 0, s => s
  | fuel + 1, s =>
    match s.queue with
    | [] => s
    | x :: rest => loop fuel (enqueueAll ⟨s.seen, rest⟩ (succs x))

/-- Everything that the search marks. -/
def search (fuel : ℕ) (roots : List α) : Finset α :=
  (loop succs fuel (enqueueAll ⟨∅, []⟩ roots)).seen

end

-- ---------------------------------------------------------------------------
-- Entering the queue
-- ---------------------------------------------------------------------------

theorem seen_enqueue (s : State α) (x : α) : (enqueue s x).seen = insert x s.seen := by
  rw [enqueue]
  split
  · rename_i h
    exact (Finset.insert_eq_of_mem h).symm
  · rfl

theorem mem_seen_enqueueAll {s : State α} {xs : List α} :
    y ∈ (enqueueAll s xs).seen ↔ y ∈ s.seen ∨ y ∈ xs := by
  induction xs generalizing s with
  | nil => simp [enqueueAll]
  | cons x xs ih =>
    rw [enqueueAll, List.foldl_cons, ← enqueueAll, ih, seen_enqueue, Finset.mem_insert, List.mem_cons]
    tauto

theorem mem_queue_enqueueAll {s : State α} {xs : List α} :
    y ∈ (enqueueAll s xs).queue ↔ y ∈ s.queue ∨ (y ∈ xs ∧ y ∉ s.seen) := by
  induction xs generalizing s with
  | nil => simp [enqueueAll]
  | cons x xs ih =>
    rw [enqueueAll, List.foldl_cons, ← enqueueAll, ih, seen_enqueue, Finset.mem_insert, List.mem_cons,
      enqueue]
    split
    · rename_i h
      by_cases hy : y = x
      · simp [hy, h]
      · simp [hy]
    · rename_i h
      by_cases hy : y = x
      · simp [hy, h]
      · simp [hy]

/-- Entering the queue takes an item from those that have not been seen. -/
theorem pending_enqueueAll {U : Finset α} {s : State α} {xs : List α} (h : ∀ x ∈ xs, x ∈ U) :
    (enqueueAll s xs).queue.length + (U \ (enqueueAll s xs).seen).card =
      s.queue.length + (U \ s.seen).card := by
  induction xs generalizing s with
  | nil => rfl
  | cons x xs ih =>
    rw [enqueueAll, List.foldl_cons, ← enqueueAll, ih fun y hy => h y (List.mem_cons_of_mem _ hy),
      enqueue]
    split
    · rfl
    · rename_i hx
      have hmem : x ∈ U \ s.seen := Finset.mem_sdiff.mpr ⟨h x List.mem_cons_self, hx⟩
      have hcard := Finset.card_pos.mpr ⟨x, hmem⟩
      rw [Finset.sdiff_insert, Finset.card_erase_of_mem hmem, List.length_append]
      simp only [List.length_singleton]
      omega

-- ---------------------------------------------------------------------------
-- The search
-- ---------------------------------------------------------------------------

variable {succs : α → List α}

/-- An item leads to another. -/
abbrev Leads (succs : α → List α) (x y : α) : Prop := y ∈ succs x

/-- What every turn of the loop keeps: the queue has been seen, and what has left
the queue has its successors seen. -/
structure Inv (succs : α → List α) (U : Finset α) (s : State α) : Prop where
  queued : ∀ x ∈ s.queue, x ∈ s.seen
  done : ∀ x ∈ s.seen, x ∉ s.queue → ∀ y ∈ succs x, y ∈ s.seen
  bounded : s.seen ⊆ U

theorem Inv.pop {U : Finset α} {rest : List α} (hU : ∀ x ∈ U, ∀ y ∈ succs x, y ∈ U)
    (h : Inv succs U s) (hq : s.queue = x :: rest) :
    Inv succs U (enqueueAll ⟨s.seen, rest⟩ (succs x)) where
  queued y hy := by
    rw [mem_seen_enqueueAll]
    obtain hy | ⟨hy, -⟩ := mem_queue_enqueueAll.mp hy
    · exact .inl (h.queued y (hq ▸ List.mem_cons_of_mem _ hy))
    · exact .inr hy
  done y hy hn z hz := by
    rw [mem_queue_enqueueAll, not_or, not_and_not_right] at hn
    rw [mem_seen_enqueueAll] at hy ⊢
    by_cases hyx : y = x
    · exact .inr (hyx ▸ hz)
    · have hseen : y ∈ s.seen := hy.elim id hn.2
      exact .inl (h.done y hseen (by simp [hq, hyx, hn.1]) z hz)
  bounded y hy := by
    obtain hy | hy := mem_seen_enqueueAll.mp hy
    · exact h.bounded hy
    · exact hU x (h.bounded (h.queued x (hq ▸ List.mem_cons_self))) y hy

theorem loop_spec {U : Finset α} (hU : ∀ x ∈ U, ∀ y ∈ succs x, y ∈ U) (fuel : ℕ) (s : State α)
    (h : Inv succs U s) (hfuel : s.queue.length + (U \ s.seen).card ≤ fuel) :
    s.seen ⊆ (loop succs fuel s).seen ∧
      (∀ x ∈ (loop succs fuel s).seen, ∀ y ∈ succs x, y ∈ (loop succs fuel s).seen) ∧
      ∀ y ∈ (loop succs fuel s).seen, ∃ x ∈ s.seen, Relation.ReflTransGen (Leads succs) x y := by
  have hstop (hq : s.queue = []) : s.seen ⊆ s.seen ∧ (∀ x ∈ s.seen, ∀ y ∈ succs x, y ∈ s.seen) ∧
      ∀ y ∈ s.seen, ∃ x ∈ s.seen, Relation.ReflTransGen (Leads succs) x y :=
    ⟨subset_rfl, fun x hx => h.done x hx (by simp [hq]), fun y hy => ⟨y, hy, .refl⟩⟩
  induction fuel generalizing s with
  | zero => exact hstop (List.length_eq_zero_iff.mp (by omega))
  | succ fuel ih =>
    rw [loop]
    split
    · rename_i hq
      exact hstop hq
    · rename_i x rest hq
      have hx : x ∈ s.seen := h.queued x (hq ▸ List.mem_cons_self)
      have hpend := pending_enqueueAll (s := ⟨s.seen, rest⟩) fun y hy => hU x (h.bounded hx) y hy
      have hnext := h.pop hU hq
      obtain ⟨hsub, hclosed, hreach⟩ := ih (enqueueAll ⟨s.seen, rest⟩ (succs x)) hnext
        (by simp only [hq, List.length_cons] at hfuel hpend; omega)
        fun hq' => ⟨subset_rfl, fun y hy => hnext.done y hy (by simp [hq']), fun y hy => ⟨y, hy, .refl⟩⟩
      refine ⟨fun y hy => hsub (mem_seen_enqueueAll.mpr (.inl hy)), hclosed, fun y hy => ?_⟩
      obtain ⟨z, hz, hzy⟩ := hreach y hy
      obtain hz | hz := mem_seen_enqueueAll.mp hz
      · exact ⟨z, hz, hzy⟩
      · exact ⟨x, hx, .head hz hzy⟩

/-- With enough fuel the search marks what the roots lead to. -/
theorem mem_search {U : Finset α} {roots : List α} (hroots : ∀ x ∈ roots, x ∈ U)
    (hU : ∀ x ∈ U, ∀ y ∈ succs x, y ∈ U) (hfuel : U.card ≤ fuel) :
    y ∈ search succs fuel roots ↔ ∃ x ∈ roots, Relation.ReflTransGen (Leads succs) x y := by
  have hinv : Inv succs U (enqueueAll ⟨∅, []⟩ roots) := {
    queued := fun x hx => by
      obtain hx | ⟨hx, -⟩ := mem_queue_enqueueAll.mp hx
      · cases hx
      · exact mem_seen_enqueueAll.mpr (.inr hx)
    done := fun x hx hn => by
      obtain hx | hx := mem_seen_enqueueAll.mp hx
      · simp at hx
      · exact absurd (mem_queue_enqueueAll.mpr (.inr ⟨hx, by simp⟩)) hn
    bounded := fun x hx => by
      obtain hx | hx := mem_seen_enqueueAll.mp hx
      · simp at hx
      · exact hroots x hx }
  have hpend := pending_enqueueAll (s := ⟨∅, []⟩) hroots
  obtain ⟨hsub, hclosed, hreach⟩ := loop_spec hU fuel _ hinv
    (by simp only [List.length_nil, Finset.sdiff_empty] at hpend; omega)
  constructor
  · intro hy
    obtain ⟨x, hx, hxy⟩ := hreach y hy
    exact ⟨x, by simpa [mem_seen_enqueueAll] using hx, hxy⟩
  · rintro ⟨x, hx, hxy⟩
    induction hxy with
    | refl => exact hsub (mem_seen_enqueueAll.mpr (.inr hx))
    | tail _ hstep ih => exact hclosed _ ih _ hstep

end Worklist
