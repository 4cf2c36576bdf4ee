import UrWeb.Lib.Tarjan

/-!
# Tarjan's algorithm finds the strongly connected components

The invariant of the search loop, its preservation by one turn, and the result:
with enough budget the components are those of the graph, each completed after
every component it leads into.
-/

namespace Tarjan

variable {α : Type*}

-- ---------------------------------------------------------------------------
-- The invariant
-- ---------------------------------------------------------------------------

def State.num (s : State α) (v : α) : ℕ := (s.disc v).getD 0

def State.visited (s : State α) (v : α) : Prop := s.disc v ≠ none

/-- An edge that a frame has not looked at yet. -/
def Pending (dfs : List (α × List α)) (x y : α) : Prop := ∃ rem, (x, rem) ∈ dfs ∧ y ∈ rem

/-- What holds between two turns of the search loop. `low_owner` is the heart of
it: `c` owns the stack from its own place up to the next frame, and its lowlink
bounds every edge that leads from there to the stack. -/
structure Inv (succs : α → List α) (nodes : List α) (s : State α) (dfs : List (α × List α)) :
    Prop where
  stack_order : s.stack.Pairwise fun x y => s.num y < s.num x
  onStack : ∀ x, x ∈ s.onStack ↔ x ∈ s.stack
  visited_iff : ∀ x, s.visited x ↔ x ∈ s.stack ∨ ∃ c ∈ s.sccs, x ∈ c
  not_done : ∀ x ∈ s.stack, ∀ c ∈ s.sccs, x ∉ c
  lt_counter : ∀ x, s.visited x → s.num x < s.counter
  mem_nodes : ∀ x, s.visited x → x ∈ nodes
  frames : (dfs.map Prod.fst).Sublist s.stack
  chain : (dfs.map Prod.fst).Pairwise fun x y => Reach succs y x
  rem_suffix : ∀ f ∈ dfs, f.2 <:+ succs f.1
  seen : ∀ x, s.visited x → ∀ y ∈ succs x, Pending dfs x y ∨ s.visited y
  below : ∀ x ∈ s.stack, ∃ c ∈ dfs.map Prod.fst, s.num c ≤ s.num x ∧ Reach succs x c
  above : ∀ x ∈ s.stack, ∀ c ∈ dfs.map Prod.fst, s.num c ≤ s.num x → Reach succs c x
  low_le : ∀ c ∈ dfs.map Prod.fst, s.lowlink c ≤ s.num c
  low_attained : ∀ c ∈ dfs.map Prod.fst, ∃ y ∈ s.stack, s.num y = s.lowlink c ∧ Reach succs c y
  low_owner : ∀ x ∈ s.stack, ∀ y ∈ succs x, y ∈ s.stack → Pending dfs x y ∨
    ∀ pre c post, dfs.map Prod.fst = pre ++ c :: post → s.num c ≤ s.num x →
      (∀ c' ∈ pre, s.num x < s.num c') → s.lowlink c ≤ s.num y
  order : SccOrder succs s.sccs.reverse


variable {succs : α → List α} {nodes : List α} {s : State α} {dfs : List (α × List α)}

theorem Inv.stack_visited (h : Inv succs nodes s dfs) (hx : x ∈ s.stack) : s.visited x :=
  (h.visited_iff x).mpr (.inl hx)

theorem Inv.frame_mem (h : Inv succs nodes s dfs) (hc : c ∈ dfs.map Prod.fst) : c ∈ s.stack :=
  h.frames.subset hc

/-- A successor that has a number is looked at and dropped. -/
theorem Inv.consume (h : Inv succs nodes s ((v, w :: rem) :: dfs)) (hw : s.visited w)
    (hlow : w ∈ s.stack → s.lowlink v ≤ s.num w) : Inv succs nodes s ((v, rem) :: dfs) := by
  have hpend : ∀ x y, Pending ((v, w :: rem) :: dfs) x y →
      Pending ((v, rem) :: dfs) x y ∨ (x = v ∧ y = w) := by
    rintro x y ⟨r, hr, hy⟩
    rcases List.mem_cons.mp hr with heq | hr
    · obtain ⟨rfl, rfl⟩ := Prod.mk.inj heq
      rcases List.mem_cons.mp hy with rfl | hy
      · exact .inr ⟨rfl, rfl⟩
      · exact .inl ⟨rem, List.mem_cons_self, hy⟩
    · exact .inl ⟨r, List.mem_cons_of_mem _ hr, hy⟩
  refine { h with rem_suffix := ?_, seen := ?_, low_owner := ?_ }
  · intro f hf
    rcases List.mem_cons.mp hf with rfl | hf
    · exact (List.suffix_cons w rem).trans (h.rem_suffix _ List.mem_cons_self)
    · exact h.rem_suffix f (List.mem_cons_of_mem _ hf)
  · intro x hx y hy
    rcases h.seen x hx y hy with hp | hvy
    · rcases hpend x y hp with hp | ⟨rfl, rfl⟩
      · exact .inl hp
      · exact .inr hw
    · exact .inr hvy
  · intro x hx y hxy hy
    rcases h.low_owner x hx y hxy hy with hp | hown
    swap
    · exact .inr hown
    rcases hpend x y hp with hp | ⟨rfl, rfl⟩
    · exact .inl hp
    -- the frame on top owns itself
    refine .inr fun pre c post heq _ hpre => ?_
    cases pre with
    | nil =>
      obtain ⟨rfl, -⟩ := List.cons.inj heq
      exact hlow hy
    | cons a pre =>
      obtain ⟨rfl, -⟩ := List.cons.inj heq
      exact absurd (hpre _ List.mem_cons_self) (lt_irrefl _)

/-- The stack splits at the top frame, and its upper part is what the frame owns. -/
theorem Inv.split (h : Inv succs nodes s ((v, rem) :: dfs)) : ∃ above below,
    s.stack = above ++ v :: below ∧ v ∉ above ∧
      (∀ x ∈ above, s.num v < s.num x) ∧ ∀ x ∈ below, s.num x < s.num v := by
  obtain ⟨above, below, hst⟩ := List.append_of_mem (h.frame_mem (c := v) List.mem_cons_self)
  have hord := h.stack_order
  rw [hst, List.pairwise_append] at hord
  have habove : ∀ x ∈ above, s.num v < s.num x := fun x hx => hord.2.2 x hx v List.mem_cons_self
  refine ⟨above, below, hst, fun hv => lt_irrefl _ (habove v hv), habove, ?_⟩
  exact fun x hx => List.rel_of_pairwise_cons hord.2.1 hx

/-- A lower frame has a smaller number than the frame on top. -/
theorem Inv.frame_lt (h : Inv succs nodes s ((v, rem) :: dfs)) (hc : c ∈ dfs.map Prod.fst) :
    s.num c < s.num v :=
  List.rel_of_pairwise_cons (h.stack_order.sublist h.frames) hc

/-- What is not below the top frame is owned by it: no edge leads from there to a
number under its lowlink. -/
theorem Inv.owned_le (h : Inv succs nodes s ((v, []) :: dfs)) (hx : x ∈ s.stack)
    (hvx : s.num v ≤ s.num x) (hxy : y ∈ succs x) (hy : y ∈ s.stack) :
    s.lowlink v ≤ s.num y := by
  rcases h.low_owner x hx y hxy hy with ⟨r, hr, hyr⟩ | hown
  · rcases List.mem_cons.mp hr with heq | hr
    · obtain ⟨-, rfl⟩ := Prod.mk.inj heq
      simp at hyr
    · -- a lower frame has a smaller number
      have hlt : s.num x < s.num v := h.frame_lt (List.mem_map.mpr ⟨_, hr, rfl⟩)
      omega
  · exact hown [] v _ rfl hvx (by simp)

/-- A frame whose lowlink dropped has a parent. -/
theorem Inv.parent (h : Inv succs nodes s ((v, []) :: dfs)) (hlow : s.lowlink v < s.num v) :
    dfs ≠ [] := by
  rintro rfl
  obtain ⟨z, hz, hzn, -⟩ := h.low_attained v List.mem_cons_self
  obtain ⟨c, hc, hle, -⟩ := h.below z hz
  obtain rfl : c = v := by simpa using hc
  omega

variable [DecidableEq α]

-- ---------------------------------------------------------------------------
-- Looking at one successor
-- ---------------------------------------------------------------------------

theorem num_discover_self (s : State α) (w : α) : (s.discover w).num w = s.counter := by
  simp [State.num, State.discover]

theorem num_discover_of_ne (s : State α) (h : x ≠ w) : (s.discover w).num x = s.num x := by
  simp [State.num, State.discover, h]

theorem visited_discover (s : State α) (w x : α) :
    (s.discover w).visited x ↔ x = w ∨ s.visited x := by
  by_cases h : x = w <;> simp [State.visited, State.discover, h]

/-- A new node becomes the top frame, whatever frame it was found from. -/
theorem Inv.discover (dfs' : List (α × List α)) (h : Inv succs nodes s dfs)
    (hw : ¬ s.visited w) (hn : w ∈ nodes) (hmap : dfs'.map Prod.fst = dfs.map Prod.fst)
    (hrem : ∀ f ∈ dfs', f.2 <:+ succs f.1)
    (hpend : ∀ x y, Pending dfs x y → Pending dfs' x y ∨ y = w)
    (hreach : ∀ c ∈ dfs.map Prod.fst, Reach succs c w) :
    Inv succs nodes (s.discover w) ((w, succs w) :: dfs') := by
  have hne : ∀ x ∈ s.stack, x ≠ w := fun x hx he => hw (he ▸ h.stack_visited hx)
  have hnum : ∀ x ∈ s.stack, (s.discover w).num x = s.num x := fun x hx =>
    num_discover_of_ne s (hne x hx)
  have hlt : ∀ x ∈ s.stack, s.num x < s.counter := fun x hx =>
    h.lt_counter x (h.stack_visited hx)
  have hlow : ∀ x ∈ s.stack, (s.discover w).lowlink x = s.lowlink x := fun x hx =>
    Function.update_of_ne (hne x hx) _ _
  have hpend' : ∀ x y, Pending dfs x y → Pending ((w, succs w) :: dfs') x y ∨ y = w := by
    rintro x y hp
    rcases hpend x y hp with ⟨rem, hr, hy⟩ | hy
    · exact .inl ⟨rem, List.mem_cons_of_mem _ hr, hy⟩
    · exact .inr hy
  have hmap' : ((w, succs w) :: dfs').map Prod.fst = w :: dfs.map Prod.fst := by
    rw [List.map_cons, hmap]
  refine ⟨?_, ?_, ?_, ?_, ?_, ?_, ?_, ?_, ?_, ?_, ?_, ?_, ?_, ?_, ?_, h.order⟩
  · refine List.pairwise_cons.mpr ⟨fun x hx => ?_, ?_⟩
    · rw [hnum x hx, num_discover_self]
      exact hlt x hx
    · refine h.stack_order.imp_of_mem fun {x y} hx hy hxy => ?_
      rwa [hnum x hx, hnum y hy]
  · intro x
    simp only [State.discover, Finset.mem_insert, List.mem_cons, h.onStack]
  · intro x
    rw [visited_discover, h.visited_iff]
    simp only [State.discover, List.mem_cons]
    tauto
  · intro x hx c hc hxc
    rcases List.mem_cons.mp hx with rfl | hx
    · exact hw ((h.visited_iff x).mpr (.inr ⟨c, hc, hxc⟩))
    · exact h.not_done x hx c hc hxc
  · intro x hx
    by_cases he : x = w
    · rw [he, num_discover_self]
      exact Nat.lt_succ_self _
    · have hv := ((visited_discover s w x).mp hx).resolve_left he
      rw [num_discover_of_ne s he]
      exact Nat.lt_succ_of_lt (h.lt_counter x hv)
  · intro x hx
    rcases (visited_discover s w x).mp hx with rfl | hv
    · exact hn
    · exact h.mem_nodes x hv
  · rw [hmap']
    exact h.frames.cons_cons w
  · rw [hmap']
    exact List.pairwise_cons.mpr ⟨fun c hc => hreach c hc, h.chain⟩
  · intro f hf
    rcases List.mem_cons.mp hf with rfl | hf
    · exact List.suffix_refl _
    · exact hrem f hf
  · intro x hx y hy
    rcases (visited_discover s w x).mp hx with rfl | hv
    · exact .inl ⟨succs x, List.mem_cons_self, hy⟩
    · rcases h.seen x hv y hy with hp | hvy
      · exact (hpend' x y hp).imp_right fun he => (visited_discover s w y).mpr (.inl he)
      · exact .inr ((visited_discover s w y).mpr (.inr hvy))
  · intro x hx
    rw [hmap']
    rcases List.mem_cons.mp hx with rfl | hx
    · exact ⟨x, List.mem_cons_self, le_rfl, .refl⟩
    · obtain ⟨c, hc, hle, hr⟩ := h.below x hx
      refine ⟨c, List.mem_cons_of_mem _ hc, ?_, hr⟩
      rwa [hnum c (h.frame_mem hc), hnum x hx]
  · intro x hx c hc hle
    rw [hmap'] at hc
    rcases List.mem_cons.mp hx with rfl | hxs
    · rcases List.mem_cons.mp hc with rfl | hcs
      · exact .refl
      · exact hreach c hcs
    · rcases List.mem_cons.mp hc with rfl | hcs
      · rw [hnum x hxs, num_discover_self] at hle
        exact absurd (hlt x hxs) (by omega)
      · rw [hnum c (h.frame_mem hcs), hnum x hxs] at hle
        exact h.above x hxs c hcs hle
  · intro c hc
    rw [hmap'] at hc
    rcases List.mem_cons.mp hc with rfl | hc
    · rw [num_discover_self]
      simp [State.discover]
    · have hs := h.frame_mem hc
      rw [hlow c hs, hnum c hs]
      exact h.low_le c hc
  · intro c hc
    rw [hmap'] at hc
    rcases List.mem_cons.mp hc with rfl | hc
    · refine ⟨c, List.mem_cons_self, ?_, .refl⟩
      rw [num_discover_self]
      simp [State.discover]
    · obtain ⟨y, hy, hn, hr⟩ := h.low_attained c hc
      refine ⟨y, List.mem_cons_of_mem _ hy, ?_, hr⟩
      rw [hnum y hy, hlow c (h.frame_mem hc), hn]
  · intro x hx y hxy hy
    rw [hmap']
    rcases List.mem_cons.mp hx with rfl | hx
    · exact .inl ⟨succs x, List.mem_cons_self, hxy⟩
    -- an old node is never owned by the new frame
    have hold : ∀ pre c post, w :: dfs.map Prod.fst = pre ++ c :: post →
        (s.discover w).num c ≤ (s.discover w).num x →
        ∃ pre', pre = w :: pre' ∧ dfs.map Prod.fst = pre' ++ c :: post := by
      intro pre c post heq hle
      cases pre with
      | nil =>
        obtain ⟨rfl, rfl⟩ := List.cons.inj heq
        rw [hnum x hx, num_discover_self] at hle
        exact absurd (hlt x hx) (by omega)
      | cons a pre =>
        obtain ⟨rfl, htail⟩ := List.cons.inj heq
        exact ⟨pre, rfl, htail⟩
    have hframe : ∀ pre' c post, dfs.map Prod.fst = pre' ++ c :: post → c ∈ dfs.map Prod.fst := by
      intro pre' c post heq
      simp [heq]
    by_cases hyw : y = w
    · refine .inr fun pre c post heq hle _ => ?_
      obtain ⟨pre', -, htail⟩ := hold pre c post heq hle
      have hc := hframe pre' c post htail
      have hs := h.frame_mem hc
      rw [hyw, num_discover_self, hlow c hs]
      exact ((h.low_le c hc).trans_lt (hlt c hs)).le
    · have hys : y ∈ s.stack := (List.mem_cons.mp hy).resolve_left hyw
      rcases h.low_owner x hx y hxy hys with hp | hown
      · exact .inl ((hpend' x y hp).resolve_right hyw)
      · refine .inr fun pre c post heq hle hpre => ?_
        obtain ⟨pre', rfl, htail⟩ := hold pre c post heq hle
        have hs := h.frame_mem (hframe pre' c post htail)
        rw [hnum c hs, hnum x hx] at hle
        rw [hlow c hs, hnum y hys]
        refine hown pre' c post htail hle fun c' hc' => ?_
        have hs' : c' ∈ s.stack := h.frame_mem (by simp [htail, hc'])
        have := hpre c' (List.mem_cons_of_mem _ hc')
        rwa [hnum x hx, hnum c' hs'] at this

/-- A lowlink may drop to the number of any stack node that the frame reaches. -/
theorem Inv.lower (h : Inv succs nodes s dfs) (hy : y ∈ s.stack) (hr : Reach succs v y) :
    Inv succs nodes (s.lower v (s.num y)) dfs := by
  have hle : ∀ c, (s.lower v (s.num y)).lowlink c ≤ s.lowlink c := by
    intro c
    by_cases hc : c = v
    · simp [State.lower, hc]
    · simp [State.lower, hc]
  refine { h with low_le := fun c hc => (hle c).trans (h.low_le c hc), low_attained := ?_,
                  low_owner := ?_ }
  · intro c hc
    by_cases hcv : c = v
    · subst hcv
      simp only [State.lower, Function.update_self]
      rcases min_choice (s.lowlink c) (s.num y) with hm | hm <;> rw [hm]
      · exact h.low_attained c hc
      · exact ⟨y, hy, rfl, hr⟩
    · simp only [State.lower, Function.update_of_ne hcv]
      exact h.low_attained c hc
  · intro x hx z hz hzs
    refine (h.low_owner x hx z hz hzs).imp_right fun hown pre c post heq hcx hpre => ?_
    exact (hle c).trans (hown pre c post heq hcx hpre)

theorem lower_self_le (s : State α) (v : α) (n : ℕ) : (s.lower v n).lowlink v ≤ n := by
  simp [State.lower]

/-- What looking at the successors of the top frame ends with. -/
theorem scan_spec (cap : ℕ) (rem : List α) (s : State α) (hcap : rem.length ≤ cap)
    (hsub : ∀ x ∈ nodes, ∀ y ∈ succs x, y ∈ nodes)
    (h : Inv succs nodes s ((v, rem) :: dfs)) :
    match scan v cap rem s with
    | (s', rem', some w) => ¬ s.visited w ∧ w ∈ nodes ∧
        s'.disc = Function.update s.disc w (some s.counter) ∧
        Inv succs nodes s' ((w, succs w) :: (v, rem') :: dfs)
    | (s', _, none) => s'.disc = s.disc ∧ Inv succs nodes s' ((v, []) :: dfs) := by
  induction rem generalizing cap s with
  | nil => cases cap <;> exact ⟨rfl, h⟩
  | cons w rem ih =>
    cases cap with
    | zero => simp at hcap
    | succ cap =>
      have hvs : v ∈ s.stack := h.frame_mem List.mem_cons_self
      have hwv : w ∈ succs v := (h.rem_suffix _ List.mem_cons_self).subset List.mem_cons_self
      cases hd : s.disc w with
      | none =>
        simp only [scan, hd]
        have hw : ¬ s.visited w := fun hv => hv hd
        have hn : w ∈ nodes := hsub v (h.mem_nodes v (h.stack_visited hvs)) w hwv
        refine ⟨hw, hn, rfl, h.discover _ hw hn rfl ?_ ?_ ?_⟩
        · intro f hf
          rcases List.mem_cons.mp hf with rfl | hf
          · exact (List.suffix_cons w rem).trans (h.rem_suffix _ List.mem_cons_self)
          · exact h.rem_suffix f (List.mem_cons_of_mem _ hf)
        · rintro x y ⟨r, hr, hy⟩
          rcases List.mem_cons.mp hr with heq | hr
          · obtain ⟨rfl, rfl⟩ := Prod.mk.inj heq
            rcases List.mem_cons.mp hy with rfl | hy
            · exact .inr rfl
            · exact .inl ⟨rem, List.mem_cons_self, hy⟩
          · exact .inl ⟨r, List.mem_cons_of_mem _ hr, hy⟩
        · intro c hc
          rcases List.mem_cons.mp hc with rfl | hc
          · exact .single hwv
          · exact (List.rel_of_pairwise_cons h.chain hc).tail hwv
      | some i =>
        have hw : s.visited w := by simp [State.visited, hd]
        have hnum : s.num w = i := by simp [State.num, hd]
        simp only [scan, hd]
        by_cases hon : w ∈ s.onStack
        · rw [if_pos hon, ← hnum]
          have hws := (h.onStack w).mp hon
          refine ih cap _ (by simpa using hcap) ?_
          exact (h.lower hws (.single hwv)).consume hw fun _ => lower_self_le s v _
        · rw [if_neg hon]
          refine ih cap s (by simpa using hcap) (h.consume hw fun hws => ?_)
          exact absurd ((h.onStack w).mpr hws) hon

-- ---------------------------------------------------------------------------
-- Finishing a frame
-- ---------------------------------------------------------------------------

theorem popUntil_spec (v : α) (above below : List α) (cap : ℕ) (s : State α) (c : Finset α)
    (hst : s.stack = above ++ v :: below) (hv : v ∉ above) (hcap : above.length < cap) :
    popUntil v cap s c =
      ({ s with stack := below, onStack := s.onStack \ (above ++ [v]).toFinset },
        c ∪ (above ++ [v]).toFinset, true) := by
  induction above generalizing cap s c with
  | nil =>
    obtain ⟨cap, rfl⟩ := Nat.exists_eq_succ_of_ne_zero (Nat.ne_of_gt hcap)
    simp [popUntil, hst, Finset.sdiff_singleton_eq_erase]
  | cons w above ih =>
    obtain ⟨cap, rfl⟩ := Nat.exists_eq_succ_of_ne_zero (Nat.ne_of_gt (Nat.zero_lt_of_lt hcap))
    have hwv : w ≠ v := fun he => hv (he ▸ List.mem_cons_self)
    simp only [popUntil, hst, List.cons_append, if_neg hwv]
    rw [ih cap _ _ rfl (fun hm => hv (List.mem_cons_of_mem _ hm)) (by simpa using hcap)]
    simp only [Prod.mk.injEq, State.mk.injEq, true_and, and_true, List.toFinset_cons]
    constructor
    · ext x
      simp only [Finset.mem_sdiff, Finset.mem_erase, Finset.mem_insert]
      tauto
    · ext x
      simp only [Finset.mem_union, Finset.mem_insert]
      tauto

/-- The frame on top is no root of a component: it and what it owns pass to its parent. -/
theorem Inv.finish (h : Inv succs nodes s ((v, []) :: (p, rem) :: dfs))
    (hlow : s.lowlink v < s.num v) :
    Inv succs nodes (s.lower p (s.lowlink v)) ((p, rem) :: dfs) := by
  have hpv : s.num p < s.num v := h.frame_lt List.mem_cons_self
  obtain ⟨z, hz, hzn, hvz⟩ := h.low_attained v List.mem_cons_self
  have hpz : Reach succs p z :=
    (List.rel_of_pairwise_cons h.chain List.mem_cons_self).trans hvz
  have hlower := h.lower hz hpz
  rw [hzn] at hlower
  have hpend : ∀ x y, Pending ((v, []) :: (p, rem) :: dfs) x y → Pending ((p, rem) :: dfs) x y := by
    rintro x y ⟨r, hr, hy⟩
    rcases List.mem_cons.mp hr with heq | hr
    · obtain ⟨-, rfl⟩ := Prod.mk.inj heq
      simp at hy
    · exact ⟨r, hr, hy⟩
  -- a node that reached the finished frame goes on to the frame under the lowlink
  have hz' : ∃ c ∈ ((p, rem) :: dfs).map Prod.fst, s.num c ≤ s.num z ∧ Reach succs z c := by
    obtain ⟨c, hc, hle, hr⟩ := h.below z hz
    rcases List.mem_cons.mp hc with rfl | hc
    · omega
    · exact ⟨c, hc, hle, hr⟩
  refine { hlower with
    frames := (List.sublist_cons_self _ _).trans h.frames
    chain := h.chain.tail
    rem_suffix := fun f hf => h.rem_suffix f (List.mem_cons_of_mem _ hf)
    seen := fun x hx y hy => (h.seen x hx y hy).imp_left (hpend x y)
    below := ?_
    above := fun x hx c hc => h.above x hx c (List.mem_cons_of_mem _ hc)
    low_le := fun c hc => hlower.low_le c (List.mem_cons_of_mem _ hc)
    low_attained := fun c hc => hlower.low_attained c (List.mem_cons_of_mem _ hc)
    low_owner := ?_ }
  · intro x hx
    obtain ⟨c, hc, hle, hr⟩ := h.below x hx
    rcases List.mem_cons.mp hc with rfl | hc
    · obtain ⟨c', hc', hle', hr'⟩ := hz'
      refine ⟨c', hc', ?_, (hr.trans hvz).trans hr'⟩
      change s.num c' ≤ s.num x
      omega
    · exact ⟨c, hc, hle, hr⟩
  · intro x hx y hxy hy
    rcases hlower.low_owner x hx y hxy hy with hp | hown
    · exact .inl (hpend x y hp)
    refine .inr fun pre c post heq hcx hpre => ?_
    by_cases hvx : s.num x < s.num v
    · refine hown (v :: pre) c post (by rw [List.cons_append, ← heq]; rfl) hcx ?_
      intro c' hc'
      rcases List.mem_cons.mp hc' with rfl | hc'
      · exact hvx
      · exact hpre c' hc'
    · -- what the finished frame owned is now owned by its parent
      have hcp : c = p := by
        cases pre with
        | nil => exact (List.cons.inj heq).1.symm
        | cons a pre =>
          obtain ⟨rfl, -⟩ := List.cons.inj heq
          have : s.num x < s.num p := hpre p List.mem_cons_self
          omega
      subst hcp
      exact (lower_self_le s c _).trans (h.owned_le hx (Nat.le_of_not_lt hvx) hxy hy)

/-- The frame on top is the root of a component: what it owns is that component. -/
theorem Inv.close_root (h : Inv succs nodes s ((v, []) :: dfs)) (hroot : s.lowlink v = s.num v)
    (hcap : s.stack.length ≤ popCap) :
    (close popCap v s).disc = s.disc ∧ (close popCap v s).lowlink = s.lowlink ∧
      Inv succs nodes (close popCap v s) dfs := by
  obtain ⟨above, below, hst, hva, habove, hbelow⟩ := h.split
  have hlen : above.length < popCap := by
    rw [hst, List.length_append, List.length_cons] at hcap
    omega
  have hpop := popUntil_spec v above below popCap s ∅ hst hva hlen
  set scc : Finset α := (above ++ [v]).toFinset with hscc
  have hclose : close popCap v s =
      { s with stack := below, onStack := s.onStack \ scc, sccs := s.sccs ++ [scc] } := by
    simp [close, hpop]
  have hmem : ∀ x, x ∈ scc ↔ x ∈ s.stack ∧ s.num v ≤ s.num x := by
    intro x
    simp only [hscc, hst, List.mem_toFinset, List.mem_append, List.mem_cons, List.not_mem_nil,
      or_false]
    constructor
    · rintro (hx | rfl)
      · exact ⟨.inl hx, (habove x hx).le⟩
      · exact ⟨.inr (.inl rfl), le_rfl⟩
    · rintro ⟨hx | rfl | hx, hle⟩
      · exact .inl hx
      · exact .inr rfl
      · exact absurd (hbelow x hx) (by omega)
  have hsub : ∀ x ∈ below, x ∈ s.stack := fun x hx => by simp [hst, hx]
  have hframes : ∀ c ∈ dfs.map Prod.fst, c ∈ below := by
    intro c hc
    have hlt := h.frame_lt hc
    have hs := h.frame_mem (List.mem_cons_of_mem _ hc)
    rw [hst, List.mem_append, List.mem_cons] at hs
    rcases hs with hs | rfl | hs
    · exact absurd (habove c hs) (by omega)
    · omega
    · exact hs
  have hv : v ∈ s.stack := h.frame_mem List.mem_cons_self
  -- every stack node reaches the frame on top, and the top reaches what it owns
  have hto : ∀ x ∈ s.stack, Reach succs x v := by
    intro x hx
    obtain ⟨c, hc, -, hr⟩ := h.below x hx
    rcases List.mem_cons.mp hc with rfl | hc
    · exact hr
    · exact hr.trans (List.rel_of_pairwise_cons h.chain hc)
  have hfrom : ∀ x ∈ scc, Reach succs v x := fun x hx =>
    h.above x ((hmem x).mp hx).1 v List.mem_cons_self ((hmem x).mp hx).2
  have hpend : ∀ x y, Pending ((v, []) :: dfs) x y → Pending dfs x y := by
    rintro x y ⟨r, hr, hy⟩
    rcases List.mem_cons.mp hr with heq | hr
    · obtain ⟨-, rfl⟩ := Prod.mk.inj heq
      simp at hy
    · exact ⟨r, hr, hy⟩
  have hout : ∀ x ∈ scc, ∀ y ∈ succs x, y ∈ scc ∨ ∃ c ∈ s.sccs.reverse, y ∈ c := by
    intro x hx y hy
    obtain ⟨hxs, hvx⟩ := (hmem x).mp hx
    have hvy : s.visited y := by
      rcases h.seen x (h.stack_visited hxs) y hy with hp | hvy
      · obtain ⟨r, hr, -⟩ := hpend x y hp
        have hlt : s.num x < s.num v := h.frame_lt (List.mem_map.mpr ⟨_, hr, rfl⟩)
        omega
      · exact hvy
    rcases (h.visited_iff y).mp hvy with hys | ⟨c, hc, hyc⟩
    · exact .inl ((hmem y).mpr ⟨hys, hroot ▸ h.owned_le hxs hvx hy hys⟩)
    · exact .inr ⟨c, List.mem_reverse.mpr hc, hyc⟩
  refine ⟨by rw [hclose], by rw [hclose], ?_⟩
  rw [hclose]
  have hord := h.stack_order
  rw [hst, List.pairwise_append] at hord
  refine {
    stack_order := hord.2.1.tail
    onStack := ?_
    visited_iff := ?_
    not_done := ?_
    lt_counter := h.lt_counter
    mem_nodes := h.mem_nodes
    frames := ?_
    chain := h.chain.tail
    rem_suffix := fun f hf => h.rem_suffix f (List.mem_cons_of_mem _ hf)
    seen := fun x hx y hy => (h.seen x hx y hy).imp_left (hpend x y)
    below := ?_
    above := fun x hx c hc => h.above x (hsub x hx) c (List.mem_cons_of_mem _ hc)
    low_le := fun c hc => h.low_le c (List.mem_cons_of_mem _ hc)
    low_attained := ?_
    low_owner := ?_
    order := ?_ }
  · intro x
    simp only [Finset.mem_sdiff, h.onStack, hmem]
    constructor
    · rintro ⟨hx, hn⟩
      have hxs := hx
      rw [hst, List.mem_append, List.mem_cons] at hx
      rcases hx with hx | rfl | hx
      · exact absurd ⟨hxs, (habove x hx).le⟩ hn
      · exact absurd ⟨hxs, le_rfl⟩ hn
      · exact hx
    · exact fun hx => ⟨hsub x hx, fun hn => absurd (hbelow x hx) (by omega)⟩
  · intro x
    change s.visited x ↔ _
    rw [h.visited_iff]
    simp only [List.mem_append, List.mem_singleton]
    constructor
    · rintro (hx | ⟨c, hc, hx⟩)
      · by_cases hvx : s.num v ≤ s.num x
        · exact .inr ⟨scc, .inr rfl, (hmem x).mpr ⟨hx, hvx⟩⟩
        · rw [hst, List.mem_append, List.mem_cons] at hx
          rcases hx with hx | rfl | hx
          · exact absurd (habove x hx).le hvx
          · exact absurd le_rfl hvx
          · exact .inl hx
      · exact .inr ⟨c, .inl hc, hx⟩
    · rintro (hx | ⟨c, hc | rfl, hx⟩)
      · exact .inl (hsub x hx)
      · exact .inr ⟨c, hc, hx⟩
      · exact .inl ((hmem x).mp hx).1
  · intro x hx c hc hxc
    rcases List.mem_append.mp hc with hc | hc
    · exact h.not_done x (hsub x hx) c hc hxc
    · obtain rfl := List.mem_singleton.mp hc
      exact absurd (hbelow x hx) (by have := ((hmem x).mp hxc).2; omega)
  · -- the lower frames are the stack nodes under the closed one
    have hf := h.frames.filter fun x => decide (s.num x < s.num v)
    have h1 : (((v, []) :: dfs).map Prod.fst).filter (fun x => decide (s.num x < s.num v)) =
        dfs.map Prod.fst := by
      rw [List.map_cons, List.filter_cons_of_neg (by simp)]
      exact List.filter_eq_self.mpr fun c hc => by simpa using h.frame_lt hc
    have h2 : s.stack.filter (fun x => decide (s.num x < s.num v)) = below := by
      rw [hst, List.filter_append, List.filter_cons_of_neg (by simp)]
      have ha : above.filter (fun x => decide (s.num x < s.num v)) = [] :=
        List.filter_eq_nil_iff.mpr fun x hx => by simpa using (habove x hx).le
      rw [ha, List.nil_append]
      exact List.filter_eq_self.mpr fun x hx => by simpa using hbelow x hx
    rwa [h1, h2] at hf
  · intro x hx
    obtain ⟨c, hc, hle, hr⟩ := h.below x (hsub x hx)
    rcases List.mem_cons.mp hc with rfl | hc
    · exact absurd (hbelow x hx) (by omega)
    · exact ⟨c, hc, hle, hr⟩
  · intro c hc
    obtain ⟨y, hy, hn, hr⟩ := h.low_attained c (List.mem_cons_of_mem _ hc)
    refine ⟨y, ?_, hn, hr⟩
    have hlt := h.frame_lt hc
    have hle := h.low_le c (List.mem_cons_of_mem _ hc)
    rw [hst, List.mem_append, List.mem_cons] at hy
    rcases hy with hy | rfl | hy
    · exact absurd (habove y hy) (by omega)
    · omega
    · exact hy
  · intro x hx y hxy hy
    rcases h.low_owner x (hsub x hx) y hxy (hsub y hy) with hp | hown
    · exact .inl (hpend x y hp)
    · refine .inr fun pre c post heq hcx hpre => ?_
      refine hown (v :: pre) c post (by rw [List.cons_append, ← heq]; rfl) hcx ?_
      intro c' hc'
      rcases List.mem_cons.mp hc' with rfl | hc'
      · exact hbelow x hx
      · exact hpre c' hc'
  · rw [List.reverse_append, List.reverse_singleton, List.singleton_append]
    refine ⟨⟨v, (hmem v).mpr ⟨hv, le_rfl⟩⟩, ?_, hout, ?_, h.order⟩
    · exact fun x hx y hy => (hto x ((hmem x).mp hx).1).trans (hfrom y hy)
    · intro c hc
      refine Finset.disjoint_left.mpr fun x hx hxc => ?_
      exact h.not_done x ((hmem x).mp hx).1 c (List.mem_reverse.mp hc) hxc

-- ---------------------------------------------------------------------------
-- The search
-- ---------------------------------------------------------------------------

/-- How many nodes have no number yet. -/
def unvisited (nodes : List α) (s : State α) : ℕ :=
  (nodes.toFinset.filter fun x => s.disc x = none).card

theorem unvisited_discover (hn : w ∈ nodes) (hw : ¬ s.visited w)
    {s' : State α} (hd : s'.disc = Function.update s.disc w (some n)) :
    unvisited nodes s' < unvisited nodes s := by
  refine Finset.card_lt_card (Finset.ssubset_iff_of_subset ?_ |>.mpr ⟨w, ?_, ?_⟩)
  · intro x hx
    rw [Finset.mem_filter, hd] at hx
    by_cases hxw : x = w
    · simp [hxw] at hx
    · simpa [hxw] using hx
  · simpa [State.visited, hn] using hw
  · simp [hd]

variable {scanCap popCap budget : ℕ}

/-- The caps of the two inner loops are no limit. -/
structure Caps (succs : α → List α) (nodes : List α) (scanCap popCap : ℕ) : Prop where
  closed : ∀ x ∈ nodes, ∀ y ∈ succs x, y ∈ nodes
  scan : ∀ x ∈ nodes, (succs x).length ≤ scanCap
  pop : nodes.toFinset.card ≤ popCap

theorem Inv.stack_length (h : Inv succs nodes s dfs) : s.stack.length ≤ nodes.toFinset.card := by
  have hnodup : s.stack.Nodup := h.stack_order.imp fun hlt he => by simp [he] at hlt
  rw [← List.toFinset_card_of_nodup hnodup]
  refine Finset.card_le_card fun x hx => ?_
  exact List.mem_toFinset.mpr (h.mem_nodes x (h.stack_visited (List.mem_toFinset.mp hx)))

theorem lower_of_le (s : State α) (h : s.lowlink v ≤ n) : s.lower v n = s := by
  simp [State.lower, h]

/-- One turn keeps the invariant, forgets no number, and gets closer to the end. -/
theorem step_spec (hcaps : Caps succs nodes scanCap popCap) {f : α × List α}
    (h : Inv succs nodes s (f :: dfs)) :
    let r := step succs scanCap popCap s f dfs
    Inv succs nodes r.1 r.2 ∧ (∀ x, s.visited x → r.1.visited x) ∧
      2 * unvisited nodes r.1 + r.2.length < 2 * unvisited nodes s + (f :: dfs).length := by
  obtain ⟨v, rem⟩ := f
  have hv : v ∈ nodes := h.mem_nodes v (h.stack_visited (h.frame_mem List.mem_cons_self))
  have hlen : rem.length ≤ scanCap :=
    (h.rem_suffix _ List.mem_cons_self).length_le.trans (hcaps.scan v hv)
  have hscan := scan_spec scanCap rem s hlen hcaps.closed h
  rcases hres : scan v scanCap rem s with ⟨s', rem', next⟩
  rw [hres] at hscan
  cases next with
  | some w =>
    obtain ⟨hw, hn, hd, hinv⟩ := hscan
    simp only [step, hres]
    refine ⟨hinv, fun x hx => ?_, ?_⟩
    · by_cases hxw : x = w
      · simp [State.visited, hd, hxw]
      · simpa [State.visited, hd, hxw] using hx
    · have := unvisited_discover hn hw hd
      simp only [List.length_cons]
      omega
  | none =>
    obtain ⟨hd, hinv⟩ := hscan
    simp only [step, hres]
    have hvis (s'' : State α) : s''.disc = s.disc → (∀ x, s.visited x → s''.visited x) ∧
        unvisited nodes s'' = unvisited nodes s := fun hd => by
      simp [State.visited, unvisited, hd]
    have hvs' : s'.visited v := hinv.stack_visited (hinv.frame_mem List.mem_cons_self)
    have hroot : s'.disc v = some (s'.lowlink v) ↔ s'.lowlink v = s'.num v := by
      obtain ⟨i, hi⟩ := Option.ne_none_iff_exists'.mp hvs'
      simp [State.num, hi, eq_comm]
    simp only [hroot]
    by_cases hr : s'.lowlink v = s'.num v
    · obtain ⟨hdc, hlc, hclosed⟩ := hinv.close_root hr (hinv.stack_length.trans hcaps.pop)
      simp only [if_pos hr]
      cases dfs with
      | nil =>
        obtain ⟨h1, h2⟩ := hvis _ (hdc.trans hd)
        exact ⟨hclosed, h1, by simp [h2]⟩
      | cons g dfs =>
        -- the parent's lowlink is lower already
        have hle : (close popCap v s').lowlink g.1 ≤ (close popCap v s').lowlink v := by
          have h1 := hinv.low_le g.1 (by simp)
          have h2 := hinv.frame_lt (c := g.1) (by simp)
          rw [hlc]
          omega
        obtain ⟨h1, h2⟩ := hvis _ (hdc.trans hd)
        simp only [lower_of_le _ hle]
        exact ⟨hclosed, h1, by simp [h2]⟩
    · have hlt : s'.lowlink v < s'.num v :=
        lt_of_le_of_ne (hinv.low_le v List.mem_cons_self) hr
      simp only [if_neg hr]
      cases dfs with
      | nil => exact absurd rfl (hinv.parent hlt)
      | cons g dfs =>
        obtain ⟨h1, h2⟩ := hvis (s'.lower g.1 (s'.lowlink v)) hd
        exact ⟨hinv.finish hlt, h1, by simp [h2]⟩

theorem loop_spec (hcaps : Caps succs nodes scanCap popCap) (budget : ℕ) (s : State α)
    (dfs : List (α × List α)) (h : Inv succs nodes s dfs)
    (hb : 2 * unvisited nodes s + dfs.length ≤ budget) :
    let r := loop succs scanCap popCap budget s dfs
    r.2 = [] ∧ Inv succs nodes r.1 [] ∧ ∀ x, s.visited x → r.1.visited x := by
  induction budget generalizing s dfs with
  | zero =>
    obtain rfl : dfs = [] := List.eq_nil_of_length_eq_zero (by omega)
    exact ⟨rfl, h, fun _ hx => hx⟩
  | succ budget ih =>
    cases dfs with
    | nil => exact ⟨rfl, h, fun _ hx => hx⟩
    | cons f dfs =>
      obtain ⟨hinv, hvis, hlt⟩ := step_spec hcaps h
      obtain ⟨h1, h2, h3⟩ := ih _ _ hinv (by omega)
      exact ⟨h1, h2, fun x hx => h3 x (hvis x hx)⟩

omit [DecidableEq α] in
theorem Inv.init (succs : α → List α) (nodes : List α) : Inv succs nodes .init [] := by
  constructor <;> simp [State.init, State.visited, SccOrder]

/-- Enough budget for one search: every node is entered and left once. -/
theorem search_spec (hcaps : Caps succs nodes scanCap popCap)
    (hb : 2 * nodes.toFinset.card + 1 ≤ budget) :
    let r := search succs scanCap popCap budget nodes
    r.2 = true ∧ Inv succs nodes r.1 [] ∧ ∀ x ∈ nodes, r.1.visited x := by
  have hfold (l : List α) (hl : ∀ x ∈ l, x ∈ nodes) (r : State α × Bool)
      (hr : r.2 = true ∧ Inv succs nodes r.1 []) :
      let r' := l.foldl (fun r start =>
        if (r.1.disc start).isSome then r
        else
          let r' := loop succs scanCap popCap budget (r.1.discover start) [(start, succs start)]
          (r'.1, r.2 && r'.2.isEmpty)) r
      (r'.2 = true ∧ Inv succs nodes r'.1 []) ∧ (∀ x, r.1.visited x → r'.1.visited x) ∧
        ∀ x ∈ l, r'.1.visited x := by
    induction l generalizing r with
    | nil => exact ⟨hr, fun _ hx => hx, by simp⟩
    | cons start l ih =>
      obtain ⟨hflag, hinv⟩ := hr
      have hstart : start ∈ nodes := hl start List.mem_cons_self
      have hl' : ∀ x ∈ l, x ∈ nodes := fun x hx => hl x (List.mem_cons_of_mem _ hx)
      simp only [List.foldl_cons]
      by_cases hsome : (r.1.disc start).isSome
      · rw [if_pos hsome]
        obtain ⟨h1, h2, h3⟩ := ih hl' r ⟨hflag, hinv⟩
        refine ⟨h1, h2, fun x hx => ?_⟩
        rcases List.mem_cons.mp hx with rfl | hx
        · exact h2 x (Option.isSome_iff_ne_none.mp hsome)
        · exact h3 x hx
      · rw [if_neg hsome]
        have hnew : ¬ r.1.visited start := fun hv => hsome (Option.isSome_iff_ne_none.mpr hv)
        have hdisc := hinv.discover [] hnew hstart rfl (by simp)
          (fun _ _ hp => .inl hp) (by simp)
        have hle : unvisited nodes (r.1.discover start) < nodes.toFinset.card :=
          (unvisited_discover hstart hnew rfl).trans_le (Finset.card_filter_le _ _)
        have hb' : 2 * unvisited nodes (r.1.discover start) + [(start, succs start)].length ≤
            budget := by
          rw [List.length_singleton]
          omega
        obtain ⟨h1, h2, h3⟩ := loop_spec hcaps budget _ _ hdisc hb'
        have hflag' : (r.2 && (loop succs scanCap popCap budget (r.1.discover start)
            [(start, succs start)]).2.isEmpty) = true := by
          rw [hflag, h1]
          rfl
        obtain ⟨h4, h5, h6⟩ := ih hl' (_, _) ⟨hflag', h2⟩
        have hmono : ∀ x, x = start ∨ r.1.visited x → _ := fun x hx =>
          h5 x (h3 x ((visited_discover r.1 start x).mpr hx))
        refine ⟨h4, fun x hx => hmono x (.inr hx), fun x hx => ?_⟩
        rcases List.mem_cons.mp hx with rfl | hx
        · exact hmono x (.inl rfl)
        · exact h6 x hx
  obtain ⟨⟨h1, h2⟩, -, h3⟩ := hfold nodes (fun _ h => h) (.init, true) ⟨rfl, .init succs nodes⟩
  exact ⟨h1, h2, h3⟩

/-- The components of the graph: they partition the nodes, and none leads into one
that stands before it in the list. -/
theorem sccs_spec (hcaps : Caps succs nodes scanCap popCap)
    (hb : 2 * nodes.toFinset.card + 1 ≤ budget) :
    let r := sccs succs scanCap popCap budget nodes
    r.2 = true ∧ SccOrder succs r.1 ∧ ∀ x, x ∈ nodes ↔ ∃ c ∈ r.1, x ∈ c := by
  obtain ⟨hflag, hinv, hall⟩ := search_spec hcaps hb
  refine ⟨hflag, hinv.order, fun x => ?_⟩
  have hempty : (search succs scanCap popCap budget nodes).1.stack = [] :=
    List.eq_nil_iff_forall_not_mem.mpr fun y hy => by
      obtain ⟨c, hc, -⟩ := hinv.below y hy
      simp at hc
  have hiff := hinv.visited_iff x
  rw [hempty] at hiff
  simp only [sccs, List.mem_reverse]
  constructor
  · exact fun hx => (hiff.mp (hall x hx)).resolve_left (by simp)
  · exact fun hx => hinv.mem_nodes x (hiff.mpr (.inr hx))

end Tarjan
