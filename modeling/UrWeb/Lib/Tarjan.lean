import Mathlib.Data.Finset.Card
import Mathlib.Data.List.Sublists
import Mathlib.Logic.Function.Basic
import Mathlib.Logic.Relation
import Mathlib.Order.Disjoint

/-!
# Tarjan's algorithm with an explicit stack

The depth-first search keeps its frames in a list, each with the successors it
has not looked at yet, and every loop has a step budget.
-/

namespace Tarjan

variable {α : Type*}

-- ---------------------------------------------------------------------------
-- Components in order
-- ---------------------------------------------------------------------------

/-- Edges of a graph given by successor lists. -/
def Edge (succs : α → List α) (x y : α) : Prop := y ∈ succs x

abbrev Reach (succs : α → List α) : α → α → Prop := Relation.ReflTransGen (Edge succs)

/-- Disjoint, nonempty, strongly connected sets, each of which leads only into
itself and into the sets after it. -/
def SccOrder (succs : α → List α) : List (Finset α) → Prop
  | [] => True
  | c :: l =>
    c.Nonempty ∧ (∀ x ∈ c, ∀ y ∈ c, Reach succs x y) ∧
      (∀ x ∈ c, ∀ y ∈ succs x, y ∈ c ∨ ∃ c' ∈ l, y ∈ c') ∧
      (∀ c' ∈ l, Disjoint c c') ∧ SccOrder succs l

section
variable {succs : α → List α}

theorem SccOrder.reach_mem {l : List (Finset α)} (h : SccOrder succs l) (hc : c ∈ l) (hx : x ∈ c)
    (hxy : Reach succs x y) : ∃ c' ∈ l, y ∈ c' := by
  induction hxy with
  | refl => exact ⟨c, hc, hx⟩
  | tail _ hedge ih =>
    obtain ⟨c', hc', hy⟩ := ih
    clear hc hx
    induction l with
    | nil => simp at hc'
    | cons a l ihl =>
      obtain ⟨_, _, hout, _, hl⟩ := h
      rcases List.mem_cons.mp hc' with rfl | hc'
      · rcases hout _ hy _ hedge with hz | ⟨c'', hc'', hz⟩
        · exact ⟨_, List.mem_cons_self, hz⟩
        · exact ⟨c'', List.mem_cons_of_mem _ hc'', hz⟩
      · obtain ⟨c'', hc'', hz⟩ := ihl hl hc'
        exact ⟨c'', List.mem_cons_of_mem _ hc'', hz⟩

/-- Two nodes that reach each other are in one component. -/
theorem SccOrder.mutual_mem {l : List (Finset α)} (h : SccOrder succs l) (hc : c ∈ l)
    (hx : x ∈ c) (hxy : Reach succs x y) (hyx : Reach succs y x) : y ∈ c := by
  induction l with
  | nil => simp at hc
  | cons a l ih =>
    have hall := h
    obtain ⟨_, _, _, hdisj, hl⟩ := h
    rcases List.mem_cons.mp hc with rfl | hc
    · obtain ⟨c', hc', hy⟩ := hall.reach_mem List.mem_cons_self hx hxy
      rcases List.mem_cons.mp hc' with rfl | hc'
      · exact hy
      · obtain ⟨c'', hc'', hx'⟩ := hl.reach_mem hc' hy hyx
        exact absurd hx' (Finset.disjoint_left.mp (hdisj c'' hc'') hx)
    · exact ih hl hc

end

-- ---------------------------------------------------------------------------
-- The algorithm
-- ---------------------------------------------------------------------------

variable [DecidableEq α]

structure State (α : Type*) where
  disc : α → Option ℕ
  lowlink : α → ℕ
  onStack : Finset α
  stack : List α
  counter : ℕ
  sccs : List (Finset α)

def State.init : State α := ⟨fun _ => none, fun _ => 0, ∅, [], 0, []⟩

/-- Number a node and put it on the stack. -/
def State.discover (s : State α) (v : α) : State α where
  disc := Function.update s.disc v (some s.counter)
  lowlink := Function.update s.lowlink v s.counter
  onStack := insert v s.onStack
  stack := v :: s.stack
  counter := s.counter + 1
  sccs := s.sccs

def State.lower (s : State α) (v : α) (n : ℕ) : State α :=
  { s with lowlink := Function.update s.lowlink v (min (s.lowlink v) n) }

/-- Look at the successors of `v` in turn, up to one that is new. -/
def scan (v : α) : ℕ → List α → State α → State α × List α × Option α
  | 0, rem, s => (s, rem, none)
  | _ + 1, [], s => (s, [], none)
  | cap + 1, w :: rem, s =>
    match s.disc w with
    | none => (s.discover w, rem, some w)
    | some i => scan v cap rem (if w ∈ s.onStack then s.lower v i else s)

/-- Pop the stack down to `v`. -/
def popUntil (v : α) : ℕ → State α → Finset α → State α × Finset α × Bool
  | 0, s, c => (s, c, false)
  | cap + 1, s, c =>
    match s.stack with
    | [] => (s, c, false)
    | w :: stack =>
      let s := { s with stack := stack, onStack := s.onStack.erase w }
      if w = v then (s, insert w c, true) else popUntil v cap s (insert w c)

def close (popCap : ℕ) (v : α) (s : State α) : State α :=
  match popUntil v popCap s ∅ with
  | (s, c, hit) => { s with sccs := s.sccs ++ [if hit then c else insert v c] }

/-- One turn of the search loop for the frame on top. -/
def step (succs : α → List α) (scanCap popCap : ℕ) (s : State α) (f : α × List α)
    (dfs : List (α × List α)) : State α × List (α × List α) :=
  match scan f.1 scanCap f.2 s with
  | (s, rem, some w) => (s, (w, succs w) :: (f.1, rem) :: dfs)
  | (s, _, none) =>
    let s := if s.disc f.1 = some (s.lowlink f.1) then close popCap f.1 s else s
    match dfs with
    | [] => (s, [])
    | (parent, rem) :: dfs => (s.lower parent (s.lowlink f.1), (parent, rem) :: dfs)

def loop (succs : α → List α) (scanCap popCap : ℕ) :
    ℕ → State α → List (α × List α) → State α × List (α × List α)
  | 0, s, dfs => (s, dfs)
  | _ + 1, s, [] => (s, [])
  | budget + 1, s, f :: dfs =>
    let r := step succs scanCap popCap s f dfs
    loop succs scanCap popCap budget r.1 r.2

/-- Search from every node in turn. The flag says that every search ended
within its budget. -/
def search (succs : α → List α) (scanCap popCap budget : ℕ) (nodes : List α) : State α × Bool :=
  nodes.foldl (fun r start =>
    if (r.1.disc start).isSome then r
    else
      let r' := loop succs scanCap popCap budget (r.1.discover start) [(start, succs start)]
      (r'.1, r.2 && r'.2.isEmpty)) (.init, true)

/-- The components, last completed first. -/
def sccs (succs : α → List α) (scanCap popCap budget : ℕ) (nodes : List α) :
    List (Finset α) × Bool :=
  let r := search succs scanCap popCap budget nodes
  (r.1.sccs.reverse, r.2)

end Tarjan
