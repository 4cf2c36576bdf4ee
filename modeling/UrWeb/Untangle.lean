import Mathlib.Algebra.GroupWithZero.Nat
import Mathlib.Data.List.Perm.Basic
import UrWeb.Lib.TarjanSound
import UrWeb.References

/-!
# Splitting a recursive group into its components

The part of the untangle passes that does not depend on the representation: a
binding has an id and a set of ids that its body refers to. `Untangled` says
what a group should be split into, and `untangled_iff` when the code's order of
components is that one.
-/

namespace UrWeb.Untangle

variable {β : Type}

/-- A declaration that a group is split into. -/
inductive Piece (β : Type)
  | val (b : β)
  | valRec (bs : List β)

instance : Inhabited (Piece β) := ⟨.valRec []⟩

def Piece.members : Piece β → List β
  | .val b => [b]
  | .valRec bs => bs

def Piece.isVal : Piece β → Bool
  | .val _ => true
  | .valRec _ => false

section
variable (id : β → Nat) (refs : β → Finset Nat)

def groupIds (vis : List β) : Finset Nat := (vis.map id).toFinset

def allRefsLocal (vis : List β) : Bool := vis.all fun b => refs b ⊆ groupIds id vis

/-- For each member, the members its body refers to. -/
def dependencyMap (vis : List β) : Nat → Option (Finset Nat) :=
  vis.foldl (fun m b => Function.update m (id b) (some (refs b ∩ groupIds id vis))) fun _ => none

/-- Of two bindings with one id the later one stays. -/
def bindingById (vis : List β) : Nat → Option β :=
  vis.foldl (fun m b => Function.update m (id b) (some b)) fun _ => none

def nonRecursiveSingleton (scc : Finset Nat) (deps : Nat → Option (Finset Nat)) : Option Nat :=
  if scc.card = 1 then
    match ascending scc with
    | [] => none
    | n :: _ => if n ∈ (deps n).getD ∅ then none else some n
  else none

/-- One component as a declaration; its index lookup never misses. -/
def piece (vis : List β) (scc : Finset Nat) : List (Piece β) :=
  match nonRecursiveSingleton scc (dependencyMap id refs vis) with
  | some n => ((bindingById id vis n).map Piece.val).toList
  | none =>
    [.valRec (((ascending (groupIds id vis)).filterMap (bindingById id vis)).filter
      fun b => id b ∈ scc)]

def assemble (vis : List β) (sccs : List (Finset Nat)) : List (Piece β) :=
  sccs.flatMap (piece id refs vis)

end

/-- Successors in the order in which they are popped, the largest first. -/
def successors (deps : Nat → Option (Finset Nat)) (n : Nat) : List Nat :=
  (ascending ((deps n).getD ∅)).reverse

def edgeCount (nodes : Finset Nat) (deps : Nat → Option (Finset Nat)) : Nat :=
  ((ascending nodes).map fun n => ((deps n).getD ∅).card).sum

def outerStepBudget (nodes : Finset Nat) (deps : Nat → Option (Finset Nat)) : Nat :=
  max (nodes.card + edgeCount nodes deps) 1 * 64 + 1024

/-- The components, completed last first, and whether every search stayed within
its budget. -/
def tarjanSccs (scanCap : Nat) (nodes : Finset Nat) (deps : Nat → Option (Finset Nat)) :
    List (Finset Nat) × Bool :=
  Tarjan.sccs (successors deps) scanCap (nodes.card + 1) (outerStepBudget nodes deps)
    (ascending nodes)

/-- The sets that become declarations: the components if every reference stays
in the group, and otherwise the group. -/
def groupSccs (id : β → Nat) (refs : β → Finset Nat) (scanCap : Nat) (vis : List β) :
    List (Finset Nat) × Bool :=
  if allRefsLocal id refs vis then
    tarjanSccs scanCap (groupIds id vis) (dependencyMap id refs vis)
  else ([groupIds id vis], true)

-- ---------------------------------------------------------------------------
-- What a group should be split into
-- ---------------------------------------------------------------------------

section
variable (id : β → Nat) (refs : β → Finset Nat)

/-- A member's body refers to a member. -/
def RefersTo (vis : List β) (m n : Nat) : Prop :=
  ∃ a ∈ vis, id a = m ∧ n ∈ refs a ∧ n ∈ groupIds id vis

abbrev Reach (vis : List β) : Nat → Nat → Prop := Relation.ReflTransGen (RefersTo id refs vis)

/-- The pieces are the group's bindings, one piece for each component, recursive
only where the component is, dependencies before dependents. -/
structure Untangled (vis : List β) (pieces : List (Piece β)) : Prop where
  perm : (pieces.flatMap Piece.members).Perm vis
  nonempty : ∀ p ∈ pieces, p.members ≠ []
  component : ∀ p ∈ pieces, ∀ a ∈ p.members, ∀ b ∈ vis,
    b ∈ p.members ↔ Reach id refs vis (id a) (id b) ∧ Reach id refs vis (id b) (id a)
  isVal : ∀ p ∈ pieces, p.isVal = true ↔ ∃ b, p.members = [b] ∧ id b ∉ refs b
  order : pieces.Pairwise fun p q => ∀ a ∈ p.members, ∀ b ∈ q.members, id b ∉ refs a

/-- What decides whether the code's pieces are these: no member refers to
another component, and where a reference leaves the group there is only one. -/
def Separable (vis : List β) : Prop :=
  (vis.map id).Nodup ∧
    if allRefsLocal id refs vis then
      ∀ a ∈ vis, ∀ b ∈ vis, id b ∈ refs a → Reach id refs vis (id b) (id a)
    else ∀ a ∈ vis, ∀ b ∈ vis, Reach id refs vis (id a) (id b)

end

-- ---------------------------------------------------------------------------
-- The maps of a group
-- ---------------------------------------------------------------------------

section
variable {id : β → Nat} {refs : β → Finset Nat} {vis : List β}

theorem mem_groupIds : n ∈ groupIds id vis ↔ ∃ b ∈ vis, id b = n := by
  simp [groupIds]

variable (refs) in
/-- The last binding of an id. -/
theorem bindingById_spec (h : n ∈ groupIds id vis) :
    ∃ b ∈ vis, id b = n ∧ bindingById id vis n = some b ∧
      dependencyMap id refs vis n = some (refs b ∩ groupIds id vis) := by
  have hfold (G : Finset Nat) (l : List β) (m : Nat → Option β) (m' : Nat → Option (Finset Nat))
      (hl : ∃ b ∈ l, id b = n) : ∃ b ∈ l, id b = n ∧
        l.foldl (fun m b => Function.update m (id b) (some b)) m n = some b ∧
        l.foldl (fun m b => Function.update m (id b) (some (refs b ∩ G))) m' n =
          some (refs b ∩ G) := by
    induction l generalizing m m' with
    | nil => simp at hl
    | cons c l ih =>
      by_cases hl' : ∃ b ∈ l, id b = n
      · obtain ⟨b, hb, hrest⟩ := ih (Function.update m (id c) (some c))
          (Function.update m' (id c) (some (refs c ∩ G))) hl'
        exact ⟨b, List.mem_cons_of_mem _ hb, hrest⟩
      · have hnone : ∀ b ∈ l, id b ≠ n := fun b hb he => hl' ⟨b, hb, he⟩
        obtain ⟨b, hb, hbn⟩ := hl
        have hbc : b = c := (List.mem_cons.mp hb).resolve_right fun hb => hnone b hb hbn
        subst hbc
        refine ⟨b, List.mem_cons_self, hbn, ?_, ?_⟩
        · rw [List.foldl_cons, foldl_update_none id (fun b => b) l _ hnone]
          simp [hbn]
        · rw [List.foldl_cons, foldl_update_none id (fun b => refs b ∩ G) l _ hnone]
          simp [hbn]
  exact hfold _ vis _ _ (mem_groupIds.mp h)

theorem bindingById_id (hb : bindingById id vis n = some b) (h : n ∈ groupIds id vis) :
    id b = n := by
  obtain ⟨b', -, hid, hb', -⟩ := bindingById_spec (fun _ => ∅) h
  rw [hb] at hb'
  exact Option.some.inj hb' ▸ hid

theorem bindingById_nodup (hnd : (vis.map id).Nodup) (hb : b ∈ vis) :
    bindingById id vis (id b) = some b := by
  obtain ⟨b', hb', hid, hlook, -⟩ := bindingById_spec (fun _ => ∅)
    (mem_groupIds.mpr ⟨b, hb, rfl⟩)
  rw [hlook, List.inj_on_of_nodup_map hnd hb' hb hid]

variable (refs) in
theorem successors_subset : y ∈ successors (dependencyMap id refs vis) x →
    x ∈ groupIds id vis → y ∈ groupIds id vis := by
  intro hy hx
  obtain ⟨b, -, -, -, hdep⟩ := bindingById_spec refs hx
  simp only [successors, hdep, Option.getD_some, List.mem_reverse, mem_ascending,
    Finset.mem_inter] at hy
  exact hy.2

/-- The graph that is searched is the group's reference graph. -/
theorem edge_iff (hnd : (vis.map id).Nodup) (hm : m ∈ groupIds id vis) :
    Tarjan.Edge (successors (dependencyMap id refs vis)) m n ↔ RefersTo id refs vis m n := by
  obtain ⟨b, hb, hid, -, hdep⟩ := bindingById_spec refs hm
  simp only [Tarjan.Edge, successors, hdep, Option.getD_some, List.mem_reverse, mem_ascending,
    Finset.mem_inter, RefersTo]
  constructor
  · rintro ⟨hr, hn⟩
    exact ⟨b, hb, hid, hr, hn⟩
  · rintro ⟨a, ha, hida, hr, hn⟩
    obtain rfl : a = b := List.inj_on_of_nodup_map hnd ha hb (hida.trans hid.symm)
    exact ⟨hr, hn⟩

theorem reach_iff (hnd : (vis.map id).Nodup) (hm : m ∈ groupIds id vis) :
    Tarjan.Reach (successors (dependencyMap id refs vis)) m n ↔ Reach id refs vis m n := by
  have hstay : ∀ {x}, Reach id refs vis m x → x ∈ groupIds id vis := by
    intro x hx
    cases hx with
    | refl => exact hm
    | tail _ hedge =>
      obtain ⟨-, -, -, -, hn⟩ := hedge
      exact hn
  constructor
  · intro h
    induction h with
    | refl => exact .refl
    | tail _ hedge ih => exact ih.tail ((edge_iff hnd (hstay ih)).mp hedge)
  · intro h
    induction h with
    | refl => exact .refl
    | tail hx hedge ih => exact ih.tail ((edge_iff hnd (hstay hx)).mpr hedge)

/-- Both budgets of the passes are enough. -/
theorem tarjanSccs_spec {deps : Nat → Option (Finset Nat)} {nodes : Finset Nat} {scanCap : Nat}
    (hclosed : ∀ x ∈ nodes, ∀ y ∈ successors deps x, y ∈ nodes) (hcap : nodes.card ≤ scanCap) :
    let r := tarjanSccs scanCap nodes deps
    r.2 = true ∧ Tarjan.SccOrder (successors deps) r.1 ∧ ∀ x, x ∈ nodes ↔ ∃ c ∈ r.1, x ∈ c := by
  have hcaps : Tarjan.Caps (successors deps) (ascending nodes) scanCap (nodes.card + 1) := by
    refine ⟨?_, ?_, ?_⟩
    · simpa using hclosed
    · intro x hx
      refine le_trans ?_ hcap
      rw [successors, List.length_reverse, length_ascending]
      refine Finset.card_le_card fun y hy => ?_
      exact hclosed x (mem_ascending.mp hx) y (by simpa [successors] using hy)
    · rw [toFinset_ascending]
      exact Nat.le_succ _
  have hb : 2 * (ascending nodes).toFinset.card + 1 ≤ outerStepBudget nodes deps := by
    rw [toFinset_ascending, outerStepBudget]
    omega
  simpa [tarjanSccs] using Tarjan.sccs_spec hcaps hb

-- ---------------------------------------------------------------------------
-- One piece
-- ---------------------------------------------------------------------------

/-- The bindings with these ids, recursive only if it has to be. -/
structure IsPiece (id : β → Nat) (refs : β → Finset Nat) (vis : List β) (scc : Finset Nat)
    (p : Piece β) : Prop where
  mem : ∀ b, b ∈ p.members ↔ id b ∈ scc ∧ bindingById id vis (id b) = some b
  nodup : (p.members.map id).Nodup
  isVal : p.isVal = true ↔ ∃ b, p.members = [b] ∧ id b ∉ refs b

theorem mem_byId (hsub : scc ⊆ groupIds id vis) :
    b ∈ ((ascending (groupIds id vis)).filterMap (bindingById id vis)).filter
        (fun b => id b ∈ scc) ↔
      id b ∈ scc ∧ bindingById id vis (id b) = some b := by
  simp only [List.mem_filter, List.mem_filterMap, mem_ascending, decide_eq_true_eq]
  constructor
  · rintro ⟨⟨n, hn, hb⟩, hscc⟩
    exact ⟨hscc, by rw [bindingById_id hb hn, hb]⟩
  · rintro ⟨hscc, hb⟩
    exact ⟨⟨id b, hsub hscc, hb⟩, hscc⟩

theorem nodup_byId (s : Finset Nat) :
    (((ascending (groupIds id vis)).filterMap (bindingById id vis)).filter
      (fun b => id b ∈ s)).map id |>.Nodup := by
  have hnd : (((ascending (groupIds id vis)).filterMap (bindingById id vis)).map id).Nodup := by
    rw [List.map_filterMap, List.filterMap_congr, List.filterMap_some]
    · exact nodup_ascending _
    · intro n hn
      obtain ⟨b, -, hid, hb, -⟩ := bindingById_spec (fun _ => ∅) (mem_ascending.mp hn)
      simp [hb, hid]
  exact hnd.sublist (List.filter_sublist.map id)

theorem nonRecursiveSingleton_some {deps : Nat → Option (Finset Nat)}
    (h : nonRecursiveSingleton scc deps = some n) : scc = {n} ∧ n ∉ (deps n).getD ∅ := by
  unfold nonRecursiveSingleton at h
  split at h
  · rename_i hcard
    obtain ⟨m, rfl⟩ := Finset.card_eq_one.mp hcard
    simp only [ascending_singleton, Option.ite_none_left_eq_some, Option.some.injEq] at h
    obtain ⟨hdep, rfl⟩ := h
    exact ⟨rfl, hdep⟩
  · simp at h

theorem nonRecursiveSingleton_none {deps : Nat → Option (Finset Nat)}
    (h : nonRecursiveSingleton {n} deps = none) : n ∈ (deps n).getD ∅ := by
  by_contra hn
  simp [nonRecursiveSingleton, hn] at h

variable (refs) in
theorem piece_spec (hsub : scc ⊆ groupIds id vis) :
    ∃ p, piece id refs vis scc = [p] ∧ IsPiece id refs vis scc p := by
  unfold piece
  cases hlone : nonRecursiveSingleton scc (dependencyMap id refs vis) with
  | some n =>
    obtain ⟨rfl, hself⟩ := nonRecursiveSingleton_some hlone
    obtain ⟨b, -, rfl, hb, hdep⟩ := bindingById_spec refs
      (hsub (Finset.mem_singleton_self n))
    have hb' : id b ∉ refs b := fun hr =>
      hself (by simp [hdep, hr, hsub (Finset.mem_singleton_self (id b))])
    refine ⟨.val b, by simp [hb], ⟨fun c => ?_, by simp [Piece.members], ?_⟩⟩
    · simp only [Piece.members, List.mem_singleton, Finset.mem_singleton]
      constructor
      · rintro rfl
        exact ⟨rfl, hb⟩
      · rintro ⟨hc, hlook⟩
        rw [hc, hb] at hlook
        exact (Option.some.inj hlook).symm
    · simpa [Piece.isVal, Piece.members] using hb'
  | none =>
    refine ⟨_, rfl, ⟨fun c => mem_byId hsub, nodup_byId scc, ?_⟩⟩
    simp only [Piece.isVal, Bool.false_eq_true, false_iff]
    rintro ⟨b, hmem, hself⟩
    have hiff (c : β) : c = b ↔ id c ∈ scc ∧ bindingById id vis (id c) = some c := by
      rw [← mem_byId hsub, ← List.mem_singleton, ← hmem]
      rfl
    -- the component has no other id, so the body would have had to refer to itself
    have hscc : scc = {id b} := by
      refine Finset.eq_singleton_iff_unique_mem.mpr ⟨((hiff b).mp rfl).1, fun m hm => ?_⟩
      obtain ⟨c, -, rfl, hc, -⟩ := bindingById_spec refs (hsub hm)
      rw [(hiff c).mpr ⟨hm, hc⟩]
    obtain ⟨c, -, -, hc, hdep⟩ := bindingById_spec refs
      (hsub ((hiff b).mp rfl).1)
    obtain rfl : b = c := by simpa [((hiff b).mp rfl).2] using hc
    have := nonRecursiveSingleton_none (hscc ▸ hlone)
    simp only [hdep, Option.getD_some, Finset.mem_inter] at this
    exact hself this.1

end

-- ---------------------------------------------------------------------------
-- The pieces of a partition
-- ---------------------------------------------------------------------------

/-- Nonempty disjoint sets that cover the group. -/
structure Partition (id : β → Nat) (vis : List β) (sccs : List (Finset Nat)) : Prop where
  nonempty : ∀ c ∈ sccs, c.Nonempty
  disjoint : sccs.Pairwise Disjoint
  cover : ∀ n, n ∈ groupIds id vis ↔ ∃ c ∈ sccs, n ∈ c

section
variable {id : β → Nat} {refs : β → Finset Nat} {vis : List β} {sccs : List (Finset Nat)}

variable (refs) in
theorem assemble_spec (hsub : ∀ c ∈ sccs, c ⊆ groupIds id vis) :
    ∃ f : Finset Nat → Piece β, assemble id refs vis sccs = sccs.map f ∧
      ∀ c ∈ sccs, IsPiece id refs vis c (f c) := by
  choose! f hf using fun c hc => piece_spec refs (hsub c hc)
  refine ⟨f, ?_, fun c hc => (hf c hc).2⟩
  rw [assemble, List.flatMap_congr fun c hc => (hf c hc).1, List.map_eq_flatMap]

theorem nodup_members {f : Finset Nat → Piece β} (hdisj : sccs.Pairwise Disjoint)
    (hf : ∀ c ∈ sccs, IsPiece id refs vis c (f c)) :
    (((sccs.map f).flatMap Piece.members).map id).Nodup := by
  induction sccs with
  | nil => simp
  | cons c sccs ih =>
    obtain ⟨hc, hdisj⟩ := List.pairwise_cons.mp hdisj
    have hf' (d) (hd : d ∈ sccs) := hf d (List.mem_cons_of_mem _ hd)
    rw [List.map_cons, List.flatMap_cons, List.map_append]
    refine List.Nodup.append (hf c List.mem_cons_self).nodup (ih hdisj hf') fun n hn hn' => ?_
    obtain ⟨a, ha, rfl⟩ := List.mem_map.mp hn
    obtain ⟨b, hb, hab⟩ := List.mem_map.mp hn'
    obtain ⟨q, hq, hb⟩ := List.mem_flatMap.mp hb
    obtain ⟨d, hd, rfl⟩ := List.mem_map.mp hq
    exact Finset.disjoint_left.mp (hc d hd) (((hf c List.mem_cons_self).mem a).mp ha).1
      (hab ▸ (((hf' d hd).mem b).mp hb).1)

/-- When a partition of the group gives the pieces wanted: its sets are the
components, and none refers to a later one. -/
theorem assemble_untangled_iff (hpart : Partition id vis sccs) :
    Untangled id refs vis (assemble id refs vis sccs) ↔
      (vis.map id).Nodup ∧
      (∀ c ∈ sccs, ∀ m ∈ c, ∀ n ∈ groupIds id vis,
        n ∈ c ↔ Reach id refs vis m n ∧ Reach id refs vis n m) ∧
      sccs.Pairwise fun c d => ∀ a ∈ vis, id a ∈ c → ∀ n ∈ d, n ∉ refs a := by
  have hsub (c) (hc : c ∈ sccs) : c ⊆ groupIds id vis := fun n hn => (hpart.cover n).mpr ⟨c, hc, hn⟩
  obtain ⟨f, hpieces, hf⟩ := assemble_spec refs hsub
  have hnodup := nodup_members hpart.disjoint hf
  rw [hpieces]
  by_cases hnd : (vis.map id).Nodup
  swap
  · refine iff_of_false (fun h => hnd ?_) fun h => hnd h.1
    exact (h.perm.map id).nodup_iff.mp hnodup
  have hmem (c) (hc : c ∈ sccs) (b) : b ∈ (f c).members ↔ b ∈ vis ∧ id b ∈ c := by
    rw [(hf c hc).mem, and_comm]
    refine and_congr_left fun hb => ⟨fun hlook => ?_, bindingById_nodup hnd⟩
    obtain ⟨b', hb', -, hlook', -⟩ := bindingById_spec refs (hsub c hc hb)
    rw [hlook] at hlook'
    exact Option.some.inj hlook' ▸ hb'
  have hvis (n) : n ∈ groupIds id vis → ∃ b ∈ vis, id b = n := mem_groupIds.mp
  constructor
  · intro h
    refine ⟨hnd, fun c hc m hm n hn => ?_, ?_⟩
    · obtain ⟨a, ha, rfl⟩ := hvis m (hsub c hc hm)
      obtain ⟨b, hb, rfl⟩ := hvis n hn
      rw [← h.component (f c) (List.mem_map_of_mem hc) a ((hmem c hc a).mpr ⟨ha, hm⟩) b hb,
        hmem c hc]
      simp [hb]
    · refine (List.pairwise_map.mp h.order).imp_of_mem fun hc hd hcd a ha hac n hn => ?_
      obtain ⟨b, hb, rfl⟩ := hvis n (hsub _ hd hn)
      exact hcd a ((hmem _ hc a).mpr ⟨ha, hac⟩) b ((hmem _ hd b).mpr ⟨hb, hn⟩)
  · rintro ⟨-, hcomp, hord⟩
    refine ⟨?_, ?_, ?_, ?_, ?_⟩
    · refine (List.perm_ext_iff_of_nodup hnodup.of_map hnd.of_map).mpr fun b => ?_
      simp only [List.mem_flatMap, List.mem_map, exists_exists_and_eq_and]
      constructor
      · rintro ⟨c, hc, hb⟩
        exact ((hmem c hc b).mp hb).1
      · intro hb
        obtain ⟨c, hc, hbc⟩ := (hpart.cover (id b)).mp (mem_groupIds.mpr ⟨b, hb, rfl⟩)
        exact ⟨c, hc, (hmem c hc b).mpr ⟨hb, hbc⟩⟩
    · intro p hp
      obtain ⟨c, hc, rfl⟩ := List.mem_map.mp hp
      obtain ⟨n, hn⟩ := hpart.nonempty c hc
      obtain ⟨b, hb, rfl⟩ := hvis n (hsub c hc hn)
      exact List.ne_nil_of_mem ((hmem c hc b).mpr ⟨hb, hn⟩)
    · intro p hp a ha b hb
      obtain ⟨c, hc, rfl⟩ := List.mem_map.mp hp
      rw [hmem c hc, ← hcomp c hc (id a) ((hmem c hc a).mp ha).2 (id b)
        (mem_groupIds.mpr ⟨b, hb, rfl⟩)]
      simp [hb]
    · intro p hp
      obtain ⟨c, hc, rfl⟩ := List.mem_map.mp hp
      exact (hf c hc).isVal
    · refine List.pairwise_map.mpr (hord.imp_of_mem fun hc hd hcd a ha b hb => ?_)
      obtain ⟨ha, hac⟩ := (hmem _ hc a).mp ha
      exact hcd a ha hac (id b) ((hmem _ hd b).mp hb).2

-- ---------------------------------------------------------------------------
-- The code's partition
-- ---------------------------------------------------------------------------

theorem SccOrder.partition (hord : Tarjan.SccOrder succs sccs)
    (hcover : ∀ n, n ∈ groupIds id vis ↔ ∃ c ∈ sccs, n ∈ c) : Partition id vis sccs := by
  refine ⟨?_, ?_, hcover⟩ <;> clear hcover
  · induction sccs with
    | nil => simp
    | cons c l ih =>
      obtain ⟨hne, -, -, -, hl⟩ := hord
      exact List.forall_mem_cons.mpr ⟨hne, ih hl⟩
  · induction sccs with
    | nil => exact .nil
    | cons c l ih =>
      obtain ⟨-, -, -, hdisj, hl⟩ := hord
      exact .cons hdisj (ih hl)

theorem SccOrder.strong (hord : Tarjan.SccOrder succs sccs) (hc : c ∈ sccs) (hm : m ∈ c)
    (hn : n ∈ c) : Tarjan.Reach succs m n := by
  induction sccs with
  | nil => simp at hc
  | cons d l ih =>
    obtain ⟨-, hstrong, -, -, hl⟩ := hord
    rcases List.mem_cons.mp hc with rfl | hc
    · exact hstrong m hm n hn
    · exact ih hl hc

/-- Components come with their dependents first, so an order with dependencies
first is one with no reference between components. -/
theorem SccOrder.pairwise_iff (hord : Tarjan.SccOrder succs sccs) :
    (sccs.Pairwise fun c d => ∀ m ∈ c, ∀ n ∈ d, n ∉ succs m) ↔
      ∀ c ∈ sccs, ∀ m ∈ c, ∀ n ∈ succs m, n ∈ c := by
  induction sccs with
  | nil => simp
  | cons c l ih =>
    obtain ⟨-, -, hout, hdisj, hl⟩ := hord
    rw [List.pairwise_cons, List.forall_mem_cons, ih hl]
    refine and_congr_left fun _ => ⟨fun h m hm n hn => ?_, fun h d hd m hm n hn hedge => ?_⟩
    · obtain hc | ⟨d, hd, hnd⟩ := hout m hm n hn
      · exact hc
      · exact absurd hn (h d hd m hm n hnd)
    · exact Finset.disjoint_left.mp (hdisj d hd) (h m hm n hedge) hn

variable (id refs vis) in
/-- The pieces that the code makes of a group are the ones wanted exactly when
the group is separable. -/
theorem untangled_iff (hcap : (groupIds id vis).card ≤ scanCap) :
    (groupSccs id refs scanCap vis).2 = true ∧
      (Untangled id refs vis (assemble id refs vis (groupSccs id refs scanCap vis).1) ↔
        Separable id refs vis) := by
  unfold groupSccs Separable
  split
  · obtain ⟨hflag, hord, hcover⟩ := tarjanSccs_spec
      (fun x hx y hy => successors_subset refs hy hx) hcap
    refine ⟨hflag, ?_⟩
    rw [assemble_untangled_iff (SccOrder.partition hord hcover)]
    refine and_congr_right fun hnd => ?_
    generalize (tarjanSccs scanCap (groupIds id vis) (dependencyMap id refs vis)).1 = sccs at *
    have hin {c m} (hc : c ∈ sccs) (hm : m ∈ c) : m ∈ groupIds id vis := (hcover m).mpr ⟨c, hc, hm⟩
    have hstrong {c m n} (hc : c ∈ sccs) (hm : m ∈ c) (hn : n ∈ c) : Reach id refs vis m n :=
      (reach_iff hnd (hin hc hm)).mp (SccOrder.strong hord hc hm hn)
    have hmutual {c m n} (hc : c ∈ sccs) (hm : m ∈ c) (hn : n ∈ groupIds id vis)
        (hmn : Reach id refs vis m n) (hnm : Reach id refs vis n m) : n ∈ c :=
      hord.mutual_mem hc hm ((reach_iff hnd (hin hc hm)).mpr hmn) ((reach_iff hnd hn).mpr hnm)
    have hpairwise : (sccs.Pairwise fun c d => ∀ a ∈ vis, id a ∈ c → ∀ n ∈ d, n ∉ refs a) ↔
        sccs.Pairwise fun c d =>
          ∀ m ∈ c, ∀ n ∈ d, n ∉ successors (dependencyMap id refs vis) m := by
      refine List.Pairwise.iff_of_mem fun {c d} hc hd => ⟨fun h m hm n hn hedge => ?_, ?_⟩
      · obtain ⟨a, ha, rfl, hr, -⟩ := (edge_iff hnd (hin hc hm)).mp hedge
        exact h a ha hm n hn hr
      · intro h a ha hac n hn hr
        exact h (id a) hac n hn ((edge_iff hnd (hin hc hac)).mpr ⟨a, ha, rfl, hr, hin hd hn⟩)
    rw [hpairwise, SccOrder.pairwise_iff hord]
    constructor
    · rintro ⟨-, hstay⟩ a ha b hb hr
      have haG : id a ∈ groupIds id vis := mem_groupIds.mpr ⟨a, ha, rfl⟩
      obtain ⟨c, hc, hac⟩ := (hcover (id a)).mp haG
      refine hstrong hc (hstay c hc (id a) hac (id b) ?_) hac
      exact (edge_iff hnd haG).mpr ⟨a, ha, rfl, hr, mem_groupIds.mpr ⟨b, hb, rfl⟩⟩
    · intro h
      refine ⟨fun c hc m hm n hn => ⟨fun hnc => ⟨hstrong hc hm hnc, hstrong hc hnc hm⟩,
        fun hr => hmutual hc hm hn hr.1 hr.2⟩, fun c hc m hm n hedge => ?_⟩
      have hrefers := (edge_iff hnd (hin hc hm)).mp hedge
      obtain ⟨a, ha, rfl, hr, hn⟩ := hrefers
      obtain ⟨b, hb, rfl⟩ := mem_groupIds.mp hn
      exact hmutual hc hm hn (.single ⟨a, ha, rfl, hr, hn⟩) (h a ha b hb hr)
  · rename_i hlocal
    refine ⟨rfl, ?_⟩
    have hne : (groupIds id vis).Nonempty := by
      cases vis with
      | nil => exact absurd rfl hlocal
      | cons b l => exact ⟨id b, mem_groupIds.mpr ⟨b, List.mem_cons_self, rfl⟩⟩
    rw [assemble_untangled_iff ⟨by simpa using hne, by simp, by simp⟩]
    refine and_congr_right fun _ => ?_
    simp only [List.mem_singleton, forall_eq, List.pairwise_singleton, and_true]
    constructor
    · intro h a ha b hb
      have hmem {b} (hb : b ∈ vis) : id b ∈ groupIds id vis := mem_groupIds.mpr ⟨b, hb, rfl⟩
      exact ((h (id a) (hmem ha) (id b) (hmem hb)).mp (hmem hb)).1
    · intro h m hm n hn
      obtain ⟨a, ha, rfl⟩ := mem_groupIds.mp hm
      obtain ⟨b, hb, rfl⟩ := mem_groupIds.mp hn
      exact ⟨fun _ => ⟨h a ha b hb, h b hb a ha⟩, fun _ => hn⟩

end

end UrWeb.Untangle
