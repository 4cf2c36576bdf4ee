import UrWeb.Iflow.FactsModel

/-!
# The fact base believes only what follows

In a run of calls on the empty database, as long as no step marks a record as
known because one of its fields is, every answer holds in every model of what has
been asserted.
-/

namespace UrWeb.Iflow

open Failing Relation

-- ---------------------------------------------------------------------------
-- What marking reaches
-- ---------------------------------------------------------------------------

namespace CcDb

/-- `b` is `a` or above it among the parents. -/
def Above (db : CcDb) : Atom → Atom → Prop := ReflTransGen fun a b => db.parent a = some b

/-- `r` represents `a`. -/
def Root (db : CcDb) (a r : Atom) : Prop := db.Above a r ∧ db.parent r = none

theorem Above.eq_of_none {db : CcDb} (h : db.Above a b) (ha : db.parent a = none) : a = b := by
  obtain hab | ⟨c, hc, -⟩ := h.cases_head
  · exact hab
  · rw [ha] at hc
    cases hc

theorem Root.unique {db : CcDb} (h : db.Root a r) (h' : db.Root a r') : r = r' := by
  have hright : Relator.RightUnique fun a b => db.parent a = some b :=
    fun _ _ _ hb hc => Option.some.inj (hb.symm.trans hc)
  obtain hr | hr := h.1.total_of_right_unique hright h'.1
  · exact Above.eq_of_none hr h.2
  · exact (Above.eq_of_none hr h'.2).symm

/-- What `mark_known` goes on to from a representative. -/
inductive Child : Atom → Atom → Prop
  | arg : a ∈ args → Child (.func (.dtCon1 f) args) a
  | field : (x, a) ∈ fields → Child (.recd fields) a
  | inner : Child (.proj e x) e

/-- The representatives that marking `a` marks. It stops at those already known. -/
inductive Marks (db : CcDb) (a : Atom) : Atom → Prop
  | root : db.Root a r → db.known r = false → Marks db a r
  | child : Marks db a r → Child r b → db.Root b r' → db.known r' = false → Marks db a r'

/-- `b` is known if `a` is: it is marked already or follows by the rules for
constructors, records and fields. All atoms on the way have literals in `ps`. -/
inductive Follows (ps : Prim → Prop) (db : CcDb) (a : Atom) : Atom → Prop
  | self : Follows ps db a a
  | known : b.Over ps → db.known b = true → Follows ps db a b
  | const : ps p → Follows ps db a (.const p)
  | dtCon0 : OverArgs ps args → Follows ps db a (.func (.dtCon0 f) args)
  | dtCon1 : (∀ b ∈ args, Follows ps db a b) → Follows ps db a (.func (.dtCon1 f) args)
  | arg : Follows ps db a (.func (.dtCon1 f) args) → b ∈ args → Follows ps db a b
  | recd : (∀ f ∈ fields, Follows ps db a f.2) → Follows ps db a (.recd fields)
  | field : Follows ps db a (.recd fields) → fields.lookup x = some b → Follows ps db a b
  | proj : Follows ps db a e → Follows ps db a (.proj e x)
  | up : Follows ps db a b → db.Above b c → Follows ps db a c
  | down : Follows ps db a c → b.Over ps → db.Above b c → Follows ps db a b

/-- Marking `a` marks nothing without a reason: where it goes from a field to its
record, or to a field that another of the same name hides, that follows anyway. -/
structure Quiet (ps : Prim → Prop) (db : CcDb) (a : Atom) : Prop where
  inner : db.Marks a (.proj e x) → db.Follows ps a e
  hidden : db.Marks a (.recd fields) → (x, b) ∈ fields → fields.lookup x ≠ some b →
    db.Follows ps a b

-- ---------------------------------------------------------------------------
-- Databases that believe only what holds
-- ---------------------------------------------------------------------------

/-- What the database holds of atoms over `ps` is so in the model, and a key is
looked up by any atom of its value. -/
structure Sound (ps : Prim → Prop) (M : Model) (db : CcDb) : Prop where
  parent : a.Over ps → db.parent a = some b → b.Over ps ∧ M.eval a = M.eval b
  key : a.Over ps → b.Over ps → a.value = b.value → db.parent a = db.parent b
  known : a.Over ps → db.known a = true → M.Known (M.eval a)
  ge : a.Over ps → db.ge a = some n → M.Ge (M.eval a) (M.const (.int n))

section
variable {ps : Prim → Prop} {M : Model} {db db0 : CcDb} (hps : FloatsApart ps)

theorem sound_empty : Sound ps M empty :=
  ⟨fun _ h => (nomatch h), fun _ _ _ => rfl, fun _ h => (nomatch h), fun _ h => (nomatch h)⟩

theorem Sound.above (hs : Sound ps M db) (ha : a.Over ps) (h : db.Above a b) :
    b.Over ps ∧ M.eval a = M.eval b := by
  induction h with
  | refl => exact ⟨ha, rfl⟩
  | tail _ hb ih =>
    obtain ⟨hc, he⟩ := hs.parent ih.1 hb
    exact ⟨hc, ih.2.trans he⟩

theorem Sound.root (hs : Sound ps M db) (ha : a.Over ps) (h : db.Root a r) :
    r.Over ps ∧ M.eval a = M.eval r :=
  hs.above ha h.1

include hps

theorem Sound.insertParent (hs : Sound ps M db) (ha : a.Over ps) (hr : r.Over ps)
    (he : M.eval a = M.eval r) : Sound ps M (db.insertParent a r) := by
  refine ⟨?_, ?_, hs.known, hs.ge⟩
  · intro x y hx hy
    simp only [CcDb.insertParent] at hy
    split at hy
    · next hk =>
      cases hy
      exact ⟨hr, (Model.eval_eq_of_value ((sameKey_iff hps hx ha).mp hk)).trans he⟩
    · exact hs.parent hx hy
  · intro x y hx hy hv
    have hk : x.sameKey a = y.sameKey a := by
      rw [Bool.eq_iff_iff, sameKey_iff hps hx ha, sameKey_iff hps hy ha, hv]
    simp only [CcDb.insertParent, hk, hs.key hx hy hv]

theorem Sound.insertKnown (hs : Sound ps M db) (ha : a.Over ps) (hk : M.Known (M.eval a)) :
    Sound ps M (db.insertKnown a) := by
  refine ⟨hs.parent, hs.key, ?_, hs.ge⟩
  intro x hx h
  simp only [CcDb.insertKnown, Bool.or_eq_true] at h
  obtain h | h := h
  · rwa [Model.eval_eq_of_value ((sameKey_iff hps hx ha).mp h)]
  · exact hs.known hx h

theorem Sound.insertGe (hs : Sound ps M db) (ha : a.Over ps)
    (hg : M.Ge (M.eval a) (M.const (.int n))) : Sound ps M (db.insertGe a n) := by
  refine ⟨hs.parent, hs.key, hs.known, ?_⟩
  intro x m hx h
  simp only [CcDb.insertGe] at h
  split at h
  · next hk =>
    cases h
    rwa [Model.eval_eq_of_value ((sameKey_iff hps hx ha).mp hk)]
  · exact hs.ge hx h

omit hps

-- ---------------------------------------------------------------------------
-- Marking
-- ---------------------------------------------------------------------------

theorem Sound.follows (hs : Sound ps M db) (ha : a.Over ps) (hk : M.Known (M.eval a))
    (h : db.Follows ps a b) : b.Over ps ∧ M.Known (M.eval b) := by
  induction h with
  | self => exact ⟨ha, hk⟩
  | known hb h => exact ⟨hb, hs.known hb h⟩
  | const hp => exact ⟨hp, M.known_const⟩
  | dtCon0 hargs => exact ⟨hargs, M.known_dtCon0⟩
  | dtCon1 _ ih =>
    refine ⟨overArgs_iff.mpr fun b hb => (ih b hb).1, M.known_dtCon1.mpr ?_⟩
    rw [Model.evalArgs_eq]
    exact List.forall_mem_map.mpr fun b hb => (ih b hb).2
  | arg _ hb ih =>
    refine ⟨overArgs_iff.mp ih.1 _ hb, M.known_dtCon1.mp ih.2 _ ?_⟩
    rw [Model.evalArgs_eq]
    exact List.mem_map_of_mem hb
  | recd _ ih =>
    refine ⟨overFields_iff.mpr fun f hf => (ih f hf).1, M.known_record ?_⟩
    rw [Model.evalFields_eq]
    exact List.forall_mem_map.mpr fun f hf => (ih f hf).2
  | @field fields x b _ hl ih =>
    obtain ⟨xs, ys, rfl, -⟩ := List.lookup_eq_some_iff.mp hl
    exact ⟨overFields_iff.mp ih.1 (x, b) (by simp), Model.known_field hl ih.2⟩
  | proj _ ih => exact ⟨ih.1, M.known_proj ih.2⟩
  | up _ hab ih =>
    obtain ⟨hc, he⟩ := hs.above ih.1 hab
    exact ⟨hc, he ▸ ih.2⟩
  | down _ hb hab ih => exact ⟨hb, (hs.above hb hab).2 ▸ ih.2⟩

theorem Child.over (hr : r.Over ps) (h : Child r b) : b.Over ps := by
  cases h with
  | arg hb => exact overArgs_iff.mp hr b hb
  | field hb => exact overFields_iff.mp hr _ hb
  | inner => exact hr

theorem Sound.child (hs : Sound ps M db) (ha : a.Over ps) (hk : M.Known (M.eval a))
    (hq : db.Quiet ps a) (hm : db.Marks a r) (hr : M.Known (M.eval r)) (h : Child r b) :
    M.Known (M.eval b) := by
  cases h with
  | arg hb =>
    refine M.known_dtCon1.mp hr _ ?_
    rw [Model.evalArgs_eq]
    exact List.mem_map_of_mem hb
  | @field fields x _ hb =>
    by_cases hl : fields.lookup x = some b
    · exact Model.known_field hl hr
    · exact (hs.follows ha hk (hq.hidden hm hb hl)).2
  | inner => exact (hs.follows ha hk (hq.inner hm)).2

theorem not_marks_of_known (h : ∀ r, db.Root a r → db.known r = true) : ¬ db.Marks a r := by
  intro hm
  induction hm with
  | root hr hk => simp [h _ hr] at hk
  | child _ _ _ _ ih => exact ih

/-- What a quiet marking marks is known. -/
theorem Sound.marks (hs : Sound ps M db) (ha : a.Over ps) (hk : M.Known (M.eval a))
    (hq : db.Quiet ps a) (h : db.Marks a r) : r.Over ps ∧ M.Known (M.eval r) := by
  induction h with
  | root hr _ =>
    obtain ⟨hro, he⟩ := hs.root ha hr
    exact ⟨hro, he ▸ hk⟩
  | child hm hc hr _ ih =>
    obtain ⟨hro, he⟩ := hs.root (hc.over ih.1) hr
    exact ⟨hro, he ▸ hs.child ha hk hq hm ih.2 hc⟩

-- ---------------------------------------------------------------------------
-- The operations
-- ---------------------------------------------------------------------------

/-- A sound database that came from `db0` by compressing paths and marking. -/
structure Within (ps : Prim → Prop) (M : Model) (db0 db : CcDb) : Prop extends Sound ps M db where
  base : Sound ps M db0
  above : a.Over ps → db.parent a = some b → db0.Above a b
  root : db.parent a = none → db0.parent a = none
  marked : db0.known a = true → db.known a = true

theorem Within.refl (hs : Sound ps M db) : Within ps M db db :=
  ⟨hs, hs, fun _ h => .single h, fun h => h, fun h => h⟩

/-- The run ends in `Q` unless it runs out of fuel. -/
abbrev Ends (m : Failing CcDb α) (s : CcDb) (Q : α → CcDb → Prop) : Prop :=
  Triple m s Q fun _ => True

theorem Ends.imp {q : Prop} {m : Failing CcDb α} {Q : α → CcDb → Prop} (h : q → Ends m s Q) :
    Ends m s fun a s' => q → Q a s' := by
  by_cases hq : q
  · exact (h hq).conseq (fun _ _ ha _ => ha) fun _ ht => ht
  · exact (Triple.trivial m s).conseq (fun _ _ _ h => absurd h hq) fun _ ht => ht

include hps

theorem Within.insertParent (hw : Within ps M db0 s) (ha : a.Over ps) (hr : db0.Root a r)
    (hv : ∀ x : Atom, x.Over ps → x.value = a.value → db0.Above x r) :
    Within ps M db0 (s.insertParent a r) := by
  obtain ⟨hro, he⟩ := hw.base.root ha hr
  refine ⟨hw.toSound.insertParent hps ha hro he, hw.base, ?_, ?_, hw.marked⟩
  · intro x y hx hy
    simp only [CcDb.insertParent] at hy
    split at hy
    · next hk =>
      cases hy
      exact hv x hx ((sameKey_iff hps hx ha).mp hk)
    · exact hw.above hx hy
  · intro x hx
    simp only [CcDb.insertParent] at hx
    split at hx
    · cases hx
    · exact hw.root hx

theorem find_spec (n : Nat) (hw : Within ps M db0 s) (ha : a.Over ps) :
    Ends (find n a) s fun r s' =>
      Within ps M db0 s' ∧ db0.Root a r ∧ s'.known = s.known ∧ s'.ge = s.ge := by
  induction n generalizing a with
  | zero => exact True.intro
  | succ n ih =>
    rw [find]
    refine Triple.get_bind ?_
    cases hp : s.parent a with
    | none => exact Triple.pure ⟨hw, ⟨.refl, hw.root hp⟩, rfl, rfl⟩
    | some p =>
      have hpo : p.Over ps := (hw.parent ha hp).1
      refine (ih hpo).bind ?_
      rintro r s1 ⟨hw1, hr, hk, hg⟩
      have har : db0.Root a r := ⟨(hw.above ha hp).trans hr.1, hr.2⟩
      refine Triple.modify_bind (Triple.pure ⟨?_, har, hk, hg⟩)
      refine hw1.insertParent hps ha har fun x hx hv => ?_
      exact (hw.above hx ((hw.key hx ha hv).trans hp)).trans hr.1

theorem Within.insertKnown (hw : Within ps M db0 s) (ha : a.Over ps) (hk : M.Known (M.eval a)) :
    Within ps M db0 (s.insertKnown a) := by
  refine ⟨hw.toSound.insertKnown hps ha hk, hw.base, hw.above, hw.root, ?_⟩
  intro x hx
  simp [CcDb.insertKnown, hw.marked hx]

/-- Marking keeps to what `a` marks, as long as it starts there. -/
theorem markKnown_spec (n : Nat) (hm : ∀ r, db0.Marks a r → M.Known (M.eval r))
    (hw : Within ps M db0 s) (hb : b.Over ps)
    (hr : ∀ r, db0.Root b r → db0.known r = false → db0.Marks a r) :
    Ends (markKnown n b) s fun _ s' => Within ps M db0 s' := by
  induction n generalizing b s with
  | zero => exact True.intro
  | succ n ih =>
    rw [markKnown]
    refine (find_spec hps n hw hb).bind ?_
    rintro r s1 ⟨hw1, hroot, -, -⟩
    refine Triple.get_bind ?_
    cases hk : s1.known r with
    | true => exact Triple.pure hw1
    | false =>
      have hro : r.Over ps := (hw.base.root hb hroot).1
      have hk0 : db0.known r = false := Bool.eq_false_iff.mpr fun h => by simp [hw1.marked h] at hk
      have hmr : db0.Marks a r := hr r hroot hk0
      have hw2 : Within ps M db0 (s1.insertKnown r) := hw1.insertKnown hps hro (hm r hmr)
      have hchild {c : Atom} (hc : Child r c) {s2 : CcDb} (hw2 : Within ps M db0 s2) :
          Ends (markKnown n c) s2 fun _ s' => Within ps M db0 s' :=
        ih hw2 (hc.over hro) fun _ hr' hk' => .child hmr hc hr' hk'
      refine Triple.modify_bind ?_
      split
      · exact Triple.forM (fun c hc s2 h => hchild (.arg hc) h) hw2
      · exact Triple.forM (fun f hf s2 h => hchild (.field hf) h) hw2
      · exact hchild .inner hw2
      · exact Triple.pure hw2

theorem markKnown_quiet (n : Nat) (hw : Within ps M db0 s) (ha : a.Over ps)
    (hk : M.Known (M.eval a)) (hq : db0.Quiet ps a) :
    Ends (markKnown n a) s fun _ s' => Within ps M db0 s' :=
  markKnown_spec hps n (fun _ hr => (hw.base.marks ha hk hq hr).2) hw ha fun _ => .root

theorem markKnown_marked (n : Nat) (hw : Within ps M db0 s) (ha : a.Over ps)
    (h : ∀ r, db0.Root a r → db0.known r = true) :
    Ends (markKnown n a) s fun _ s' => Within ps M db0 s' :=
  markKnown_spec hps n (fun _ hm => absurd hm (not_marks_of_known h)) hw ha fun _ => .root

/-- What the database answers to be known is known. -/
theorem isKnown_spec (n : Nat) (hw : Within ps M db0 s) (ha : a.Over ps) :
    Ends (isKnown n a) s fun b s' => Within ps M db0 s' ∧ (b = true → M.Known (M.eval a)) := by
  induction n generalizing a s with
  | zero => exact True.intro
  | succ n ih =>
    rw [isKnown]
    refine (find_spec hps n hw ha).bind ?_
    rintro r s1 ⟨hw1, hroot, -, -⟩
    obtain ⟨hro, he⟩ := hw.base.root ha hroot
    rw [he]
    refine Triple.get_bind ?_
    cases hk : s1.known r with
    | true => exact Triple.pure ⟨hw1, fun _ => hw1.known hro hk⟩
    | false =>
      simp only [Bool.false_eq_true, if_false]
      split
      · next args =>
        refine (Triple.allM (fun b hb s2 h => ih h (overArgs_iff.mp hro b hb)) hw1).conseq ?_
          fun _ h => h
        rintro b s2 ⟨hw2, hb⟩
        refine ⟨hw2, fun h => M.known_dtCon1.mpr ?_⟩
        rw [Model.evalArgs_eq]
        exact List.forall_mem_map.mpr (hb h)
      · next fields =>
        refine (Triple.allM (fun f hf s2 h => ih h (overFields_iff.mp hro f hf)) hw1).conseq ?_
          fun _ h => h
        rintro b s2 ⟨hw2, hb⟩
        refine ⟨hw2, fun h => M.known_record ?_⟩
        rw [Model.evalFields_eq]
        exact List.forall_mem_map.mpr (hb h)
      · exact Triple.pure ⟨hw1, fun _ => M.known_const⟩
      · exact Triple.pure ⟨hw1, fun h => by cases h⟩

end

-- ---------------------------------------------------------------------------
-- Merging
-- ---------------------------------------------------------------------------

/-- Merging the classes of `a` and `b` marks nothing without a reason: where the
class of `a` is known, that marks the representative of `b`. -/
def QuietUnion (ps : Prim → Prop) (db : CcDb) (a b : Atom) : Prop :=
  ∀ ra rb, db.Root a ra → db.Root b rb → ra.eq rb = false → contradicts ra rb = false →
    db.known ra = true → (db.insertParent ra rb).Quiet ps rb

theorem variety_shape {M : Model} (h : variety a = some n) :
    ∃ sh, M.shape (M.eval a) = some sh ∧ sh.variety = n := by
  unfold variety at h
  split at h <;> cases h
  · exact ⟨.const, M.shape_const, rfl⟩
  · exact ⟨.dtCon0 _, M.shape_dtCon0, rfl⟩
  · exact ⟨.dtCon1 _, M.shape_dtCon1, rfl⟩
  · exact ⟨.record, M.shape_record, rfl⟩

theorem eval_ne_of_contradicts {M : Model} (h : contradicts a b = true) :
    M.eval a ≠ M.eval b := by
  intro he
  unfold contradicts at h
  split at h
  · next va vb ha hb =>
    obtain ⟨sa, hsa, rfl⟩ := variety_shape (M := M) ha
    obtain ⟨sb, hsb, rfl⟩ := variety_shape (M := M) hb
    rw [he, hsb] at hsa
    cases hsa
    simp at h
  · cases h

theorem max_eq_or (m n : Int64) : max m n = m ∨ max m n = n := by
  show (if m ≤ n then n else m) = m ∨ (if m ≤ n then n else m) = n
  split
  · exact .inr rfl
  · exact .inl rfl

section
variable {ps : Prim → Prop} {M : Model} {db db0 s : CcDb} (hps : FloatsApart ps)

include hps

/-- Nothing but the second representative is above the first after the merge. -/
theorem root_of_merged (ha : ra.Over ps) (hrb : db.parent rb = none)
    (h : (db.insertParent ra rb).Root ra r) : r = rb := by
  have hself : (db.insertParent ra rb).parent ra = some rb := by
    simp [CcDb.insertParent, (sameKey_iff hps ha ha).mpr rfl]
  have hnext (c : Atom) (hc : (db.insertParent ra rb).parent rb = some c) : c = rb := by
    simp only [CcDb.insertParent, hrb] at hc
    split at hc <;> cases hc
    rfl
  obtain hr | ⟨b, hb, hbr⟩ := h.1.cases_head
  · have hnone := h.2
    rw [← hr, hself] at hnone
    cases hnone
  · rw [hself] at hb
    cases hb
    clear h
    induction hbr with
    | refl => rfl
    | tail _ hc ih =>
      rw [ih] at hc
      exact hnext _ hc

theorem Sound.mergeGe (hs : Sound ps M db) (ha : ra.Over ps) (hb : rb.Over ps)
    (he : M.eval ra = M.eval rb) : Sound ps M (mergeGe ra rb db) := by
  unfold CcDb.mergeGe
  split
  · next n1 n2 h1 h2 =>
    refine hs.insertGe hps hb ?_
    obtain h | h := max_eq_or n1 n2
    · rw [h, ← he]
      exact hs.ge ha h1
    · rw [h]
      exact hs.ge hb h2
  · next n1 h1 h2 => exact hs.insertGe hps hb (he ▸ hs.ge ha h1)
  · exact hs

theorem Sound.above_merged (hs : Sound ps M db) (ha : ra.Over ps) (hra : db.parent ra = none)
    (hx : x.Over ps) (h : db.Above x y) : (db.insertParent ra rb).Above x y := by
  induction h with
  | refl => exact .refl
  | @tail b c hb hc ih =>
    refine ih.tail ?_
    have hk : ¬ b.sameKey ra = true := by
      intro hk
      have hbo := (hs.above hx hb).1
      rw [hs.key hbo ha ((sameKey_iff hps hbo ha).mp hk), hra] at hc
      cases hc
    simpa [CcDb.insertParent, hk] using hc

theorem Within.merge (hw : Within ps M db s) (ha : ra.Over ps) (hb : rb.Over ps)
    (hra : db.parent ra = none) (he : M.eval ra = M.eval rb) :
    Within ps M (db.insertParent ra rb) (s.insertParent ra rb) := by
  refine ⟨hw.toSound.insertParent hps ha hb he, hw.base.insertParent hps ha hb he, ?_, ?_,
    hw.marked⟩
  · intro x y hx hy
    simp only [CcDb.insertParent] at hy
    split at hy
    · next hk =>
      refine .single ?_
      simp [CcDb.insertParent, hk, ← hy]
    · exact hw.base.above_merged hps ha hra hx (hw.above hx hy)
  · intro x hx
    simp only [CcDb.insertParent] at hx ⊢
    split at hx
    · cases hx
    · next hk =>
      rw [if_neg hk]
      exact hw.root hx

/-- Merging equal atoms succeeds. -/
theorem union_spec (n : Nat) (hw : Within ps M db s) (hk : s.known = db.known) (ha : a.Over ps)
    (hb : b.Over ps) (he : M.eval a = M.eval b) :
    Ends (union n a b) s fun ok s' => ok = true ∧ (db.QuietUnion ps a b → Sound ps M s') := by
  unfold union
  refine (find_spec hps n hw ha).bind ?_
  rintro ra s1 ⟨hw1, hra, hk1, -⟩
  refine (find_spec hps n hw1 hb).bind ?_
  rintro rb s2 ⟨hw2, hrb, hk2, -⟩
  have hk2 : s2.known = db.known := hk2.trans (hk1.trans hk)
  obtain ⟨hrao, hea⟩ := hw.base.root ha hra
  obtain ⟨hrbo, heb⟩ := hw.base.root hb hrb
  have he' : M.eval ra = M.eval rb := hea.symm.trans (he.trans heb)
  split
  · exact Triple.pure ⟨rfl, fun _ => hw2.toSound⟩
  · split
    · next hc => exact absurd he' (eval_ne_of_contradicts hc)
    · next hne hc =>
      refine Triple.get_bind ?_
      refine Triple.modify_bind ?_
      have hend {s3 : CcDb}
          (h3 : db.QuietUnion ps a b → Within ps M (db.insertParent ra rb) s3) :
          Ends (do
            modify (mergeGe ra rb)
            return true) s3 fun ok s' => ok = true ∧ (db.QuietUnion ps a b → Sound ps M s') :=
        Triple.modify_bind <| Triple.pure
          ⟨rfl, fun hq => (h3 hq).toSound.mergeGe hps hrao hrbo he'⟩
      have hw3 : Within ps M (db.insertParent ra rb) (s2.insertParent ra rb) :=
        hw2.merge hps hrao hrbo hra.2 he'
      have hrest {s3 : CcDb}
          (h3 : db.QuietUnion ps a b → Within ps M (db.insertParent ra rb) s3) :
          Ends (do
            if s2.known rb then markKnown n ra
            modify (mergeGe ra rb)
            return true) s3 fun ok s' => ok = true ∧ (db.QuietUnion ps a b → Sound ps M s') := by
        dsimp only
        split
        · next hk =>
          have hk : db.known rb = true := hk2 ▸ hk
          refine (Ends.imp fun hq => markKnown_marked hps n (h3 hq) hrao ?_).bind fun _ _ => hend
          rintro r hr
          rw [root_of_merged hps hrao hrb.2 hr]
          exact hk
        · exact hend h3
      dsimp only
      split
      · next hk =>
        have hk : db.known ra = true := hk2 ▸ hk
        refine (Ends.imp fun hq => ?_).bind fun _ _ => hrest
        refine markKnown_quiet hps n hw3 hrbo (he' ▸ hw.base.known hrao hk) ?_
        exact hq ra rb hra hrb (Bool.eq_false_iff.mpr hne) (Bool.eq_false_iff.mpr hc) hk
      · exact hrest fun _ => hw3

end

-- ---------------------------------------------------------------------------
-- Asserting and asking
-- ---------------------------------------------------------------------------

/-- Asserting the fact marks nothing without a reason. -/
def QuietAssert (ps : Prim → Prop) (db : CcDb) : Reln → List Atom → Prop
  | .known, [e] => db.Quiet ps e
  | .eq, [e1, e2] => db.QuietUnion ps e1 e2
  | .pCon0 f, [e] => (∀ f2 args, ¬ db.Root e (.func (.dtCon0 f2) args)) →
    db.QuietUnion ps e (.func (.dtCon0 f) [])
  | _, _ => True

section
variable {ps : Prim → Prop} {M : Model} {db db0 s : CcDb} (hps : FloatsApart ps)
include hps

theorem assertReln_spec (n : Nat) (hs : Sound ps M db) (hargs : ∀ e ∈ args, e.Over ps)
    (hh : M.Holds r args) :
    Ends (assertReln n r args) db fun ok s' =>
      ok = true ∧ (db.QuietAssert ps r args → Sound ps M s') := by
  unfold assertReln
  split
  · next e =>
    have he : e.Over ps := hargs e (by simp)
    exact (Ends.imp fun hq => markKnown_quiet hps n (.refl hs) he hh hq).bind fun _ _ h =>
      Triple.pure ⟨rfl, fun hq => (h hq).toSound⟩
  · next e1 e2 =>
    exact union_spec hps n (.refl hs) rfl (hargs e1 (by simp)) (hargs e2 (by simp)) hh
  · next f e =>
    have he : e.Over ps := hargs e (by simp)
    refine (find_spec hps n (.refl hs) he).bind ?_
    rintro r s1 ⟨hw1, hr, hk1, -⟩
    obtain ⟨hro, her⟩ := hs.root he hr
    split
    · next f2 args =>
      have hsh : M.shape (M.eval e) = some (.dtCon0 f2) := by
        rw [her]
        exact M.shape_dtCon0
      rw [hh, M.shape_dtCon0] at hsh
      cases hsh
      exact Triple.pure ⟨by simp, fun _ => hw1.toSound⟩
    · next hne =>
      have hcon : (Atom.func (.dtCon0 f) []).Over ps := by simp [Atom.Over, OverArgs]
      refine (union_spec hps n hw1 hk1 he hcon hh).conseq ?_ fun _ h => h
      rintro ok s2 ⟨hok, hq⟩
      exact ⟨hok, fun h => hq (h fun f2 args hr' => hne f2 args (hr.unique hr'))⟩
  · next f e =>
    have he : e.Over ps := hargs e (by simp)
    refine (find_spec hps n (.refl hs) he).bind ?_
    rintro r s1 ⟨hw1, hr, -, -⟩
    split
    · next f2 args =>
      obtain ⟨vs, hh⟩ := hh
      have hsh : M.shape (M.eval e) = some (.dtCon1 f2) := by
        rw [(hs.root he hr).2]
        exact M.shape_dtCon1
      rw [hh, M.shape_dtCon1] at hsh
      cases hsh
      exact Triple.pure ⟨by simp, fun _ => hw1.toSound⟩
    · exact Triple.pure ⟨rfl, fun _ => hw1.toSound⟩
  · next e1 e2 =>
    have he1 : e1.Over ps := hargs e1 (by simp)
    have he2 : e2.Over ps := hargs e2 (by simp)
    refine (find_spec hps n (.refl hs) he2).bind ?_
    rintro r2 s1 ⟨hw1, hr2, -, -⟩
    split
    · next k =>
      refine (find_spec hps n hw1 he1).bind ?_
      rintro r1 s2 ⟨hw2, hr1, -, -⟩
      obtain ⟨hro, her⟩ := hs.root he1 hr1
      have hk : M.Ge (M.eval r1) (M.const (.int k)) := by
        have h2 : M.eval e2 = M.const (.int k) := (hs.root he2 hr2).2
        rw [← her, ← h2]
        exact hh
      refine Triple.modify_bind (Triple.pure ⟨rfl, fun _ => hw2.toSound.insertGe hps hro ?_⟩)
      split
      · next c hc =>
        obtain h | h := max_eq_or c k
        · rw [h]
          exact hw2.ge hro hc
        · rwa [h]
      · exact hk
    · exact Triple.pure ⟨rfl, fun _ => hw1.toSound⟩
  · exact Triple.pure ⟨rfl, fun _ => hs⟩

/-- What the database answers to hold holds. -/
theorem checkReln_spec (n : Nat) (hs : Sound ps M db) (hargs : ∀ e ∈ args, e.Over ps) :
    Ends (checkReln n r args) db fun b s' => Sound ps M s' ∧ (b = true → M.Holds r args) := by
  unfold checkReln
  split
  · next e =>
    refine (isKnown_spec hps n (.refl hs) (hargs e (by simp))).conseq ?_ fun _ h => h
    exact fun _ _ h => ⟨h.1.toSound, h.2⟩
  · next e1 e2 =>
    have he1 : e1.Over ps := hargs e1 (by simp)
    have he2 : e2.Over ps := hargs e2 (by simp)
    refine (find_spec hps n (.refl hs) he1).bind ?_
    rintro r1 s1 ⟨hw1, hr1, -, -⟩
    refine (find_spec hps n hw1 he2).bind ?_
    rintro r2 s2 ⟨hw2, hr2, -, -⟩
    obtain ⟨hro1, her1⟩ := hs.root he1 hr1
    obtain ⟨hro2, her2⟩ := hs.root he2 hr2
    refine Triple.pure ⟨hw2.toSound, fun h => ?_⟩
    exact her1.trans ((Model.eval_eq_of_value (value_eq_of_eq hps hro1 hro2 h)).trans her2.symm)
  · next f e =>
    have he : e.Over ps := hargs e (by simp)
    refine (find_spec hps n (.refl hs) he).bind ?_
    rintro r s1 ⟨hw1, hr, -, -⟩
    have her : M.eval e = M.eval r := (hs.root he hr).2
    split
    · next f2 args =>
      refine Triple.pure ⟨hw1.toSound, fun h => ?_⟩
      obtain rfl : f2 = f := eq_of_beq h
      exact her.trans M.dtCon0_args
    · exact Triple.pure ⟨hw1.toSound, fun h => by cases h⟩
  · next f e =>
    have he : e.Over ps := hargs e (by simp)
    refine (find_spec hps n (.refl hs) he).bind ?_
    rintro r s1 ⟨hw1, hr, -, -⟩
    have her : M.eval e = M.eval r := (hs.root he hr).2
    split
    · next f2 args =>
      refine Triple.pure ⟨hw1.toSound, fun h => ?_⟩
      obtain rfl : f2 = f := eq_of_beq h
      exact ⟨_, her⟩
    · exact Triple.pure ⟨hw1.toSound, fun h => by cases h⟩
  · next e1 e2 =>
    have he1 : e1.Over ps := hargs e1 (by simp)
    have he2 : e2.Over ps := hargs e2 (by simp)
    refine (find_spec hps n (.refl hs) he1).bind ?_
    rintro r1 s1 ⟨hw1, hr1, -, -⟩
    refine (find_spec hps n hw1 he2).bind ?_
    rintro r2 s2 ⟨hw2, hr2, -, -⟩
    obtain ⟨hro1, her1⟩ := hs.root he1 hr1
    have her2 : M.eval e2 = M.eval r2 := (hs.root he2 hr2).2
    refine Triple.get_bind ?_
    split
    · next n1 n2 hg =>
      refine Triple.pure ⟨hw2.toSound, fun h => ?_⟩
      show M.Ge (M.eval e1) (M.eval e2)
      rw [her1, her2]
      exact M.ge_trans (hw2.ge hro1 hg) (M.ge_int.mpr (of_decide_eq_true h))
    · exact Triple.pure ⟨hw2.toSound, fun h => by cases h⟩
  · exact Triple.pure ⟨hs, fun h => by cases h⟩

theorem builtFrom_spec (n : Nat) (hw : Within ps M db0 s) (hb : ∀ b ∈ bases, b.Over ps)
    (ha : a.Over ps) :
    Ends (builtFrom n bases a) s fun b s' =>
      Within ps M db0 s' ∧ (b = true → M.Built bases (M.eval a)) := by
  induction n generalizing a s with
  | zero => exact True.intro
  | succ n ih =>
    rw [builtFrom]
    refine (find_spec hps n hw ha).bind ?_
    rintro r s1 ⟨hw1, hroot, -, -⟩
    obtain ⟨hro, he⟩ := hw.base.root ha hroot
    rw [he]
    refine (isKnown_spec hps n hw1 hro).bind ?_
    rintro k s2 ⟨hw2, hk⟩
    cases k with
    | true => exact Triple.pure ⟨hw2, fun _ => .known (hk rfl)⟩
    | false =>
      simp only [Bool.false_eq_true, if_false]
      refine Triple.bind (Q := fun b s3 => Within ps M db0 s3 ∧ (b = true →
        ∃ b ∈ bases, M.eval b = M.eval r)) ?_ ?_
      · refine Triple.anyM (fun b hbb s3 h => ?_) hw2
        refine (find_spec hps n h (hb b hbb)).bind ?_
        rintro rb s4 ⟨hw4, hrb, -, -⟩
        obtain ⟨hrbo, heb⟩ := hw.base.root (hb b hbb) hrb
        refine Triple.pure ⟨hw4, fun heq => ?_⟩
        exact heb.trans (Model.eval_eq_of_value (value_eq_of_eq hps hrbo hro heq))
      rintro found s3 ⟨hw3, hbase⟩
      cases found with
      | true =>
        obtain ⟨b, hbb, heb⟩ := hbase rfl
        exact Triple.pure ⟨hw3, fun _ => heb ▸ .base hbb⟩
      | false =>
        have hargs {args : List Atom} (ho : OverArgs ps args) :
            Ends (args.allM fun a => builtFrom n bases a) s3 fun b s' => Within ps M db0 s' ∧
              (b = true → ∀ v ∈ M.evalArgs args, M.Built bases v) := by
          refine (Triple.allM (fun b hbb s2 h => ih h (overArgs_iff.mp ho b hbb)) hw3).conseq ?_
            fun _ h => h
          rintro b s4 ⟨hw4, hall⟩
          rw [Model.evalArgs_eq]
          exact ⟨hw4, fun h => List.forall_mem_map.mpr (hall h)⟩
        simp only [Bool.false_eq_true, if_false]
        split
        · exact Triple.pure ⟨hw3, fun _ => .known M.known_dtCon0⟩
        · exact Triple.pure ⟨hw3, fun _ => .known M.known_const⟩
        · exact (hargs hro).conseq (fun _ _ h => ⟨h.1, fun hb => .dtCon1 (h.2 hb)⟩) fun _ h => h
        · next fields =>
          refine (Triple.allM (fun f hf s2 h => ih h (overFields_iff.mp hro f hf)) hw3).conseq ?_
            fun _ h => h
          rintro b s4 ⟨hw4, hall⟩
          refine ⟨hw4, fun h => .record ?_⟩
          rw [Model.evalFields_eq]
          exact List.forall_mem_map.mpr (hall h)
        · exact (hargs hro).conseq (fun _ _ h => ⟨h.1, fun hb => .other (h.2 hb)⟩) fun _ h => h
        · exact Triple.pure ⟨hw3, fun h => by cases h⟩

end

end CcDb

end UrWeb.Iflow
