import Mathlib.Logic.Relation
import UrWeb.Parse.NestingSteps

/-!
# Reading trees of brackets

The lexer reads a tree whose lexemes fit step by step, and its count and flag change as
the run of the tree does. Where the run fails, some construct has not given the context
back, and its two ends are reached.
-/

namespace UrWeb.Parse

variable {F : Type} [F64 F]

-- ---------------------------------------------------------------------------
-- What is reached
-- ---------------------------------------------------------------------------

/-- A step that takes a byte at least. -/
def Onward (F : Type) [F64 F] (s s' : XmlAwareLexer) : Prop :=
  (∃ item, s.step F = some (item, s')) ∧ s.pos < s'.pos

/-- A state in which the lexer stands on its way through a source. -/
def Reached (F : Type) [F64 F] (src : List UInt8) (s : XmlAwareLexer) : Prop :=
  Relation.ReflTransGen (Onward F) (XmlAwareLexer.withXmlMarkupPolicy src true) s

theorem Reached.step {s s' : XmlAwareLexer} (h : Reached F src s)
    (hs : ∃ item, s.step F = some (item, s')) (hpos : s.pos < s'.pos) : Reached F src s' :=
  .tail h ⟨hs, hpos⟩

theorem onward_le {s s' : XmlAwareLexer} (h : Relation.ReflTransGen (Onward F) s s') :
    s.pos ≤ s'.pos := by
  induction h with
  | refl => exact Nat.le_refl _
  | tail _ h ih => exact Nat.le_trans ih (Nat.le_of_lt h.2)

theorem walk_onward {s a : XmlAwareLexer} (h : Relation.ReflTransGen (Onward F) s a) (n : Nat)
    (hn : a.pos < s.pos + n) : s.walk F n a.pos = some a := by
  induction h using Relation.ReflTransGen.head_induction_on generalizing n with
  | refl =>
    obtain ⟨n, rfl⟩ : ∃ k, n = k + 1 := ⟨n - 1, by omega⟩
    rw [XmlAwareLexer.walk, if_pos rfl]
  | head hst hta ih =>
    obtain ⟨⟨item, hstep⟩, hlt⟩ := hst
    have hle := onward_le hta
    obtain ⟨n, rfl⟩ : ∃ k, n = k + 1 := ⟨n - 1, by omega⟩
    rw [XmlAwareLexer.walk, if_neg (by omega), if_neg (by omega), hstep]
    exact ih n (by omega)

theorem standsAt_reached (h : Reached F src s) : standsAt F src s.pos = some s :=
  walk_onward h _ (by simp [XmlAwareLexer.withXmlMarkupPolicy])

/-- The ends of a span are reached, in one context or in two. -/
def Ends (F : Type) [F64 F] (src : List UInt8) (span : Nat × Nat)
    (p : XmlAwareLexer → XmlAwareLexer → Prop) : Prop :=
  ∃ a b, Reached F src a ∧ Reached F src b ∧ (a.pos, b.pos) = span ∧ p a b

/-- The lexer comes to a state past spans that give the context back, or, if there is
none, one of the spans does not. -/
def Reads (F : Type) [F64 F] (src : List UInt8) (spans : List (Nat × Nat)) :
    Option XmlAwareLexer → Prop
  | some s => Reached F src s ∧ ∀ span ∈ spans, Ends F src span SameContext
  | none => ∃ span ∈ spans, Ends F src span fun a b => ¬ SameContext a b

theorem Reads.nil (h : Reached F src s) : Reads F src [] (some s) :=
  ⟨h, fun _ hm => nomatch hm⟩

/-- One text after another. -/
theorem Reads.bind {o : Option α} {f : α → XmlAwareLexer} {g : α → Option XmlAwareLexer}
    (h : Reads F src sp (o.map f))
    (hg : ∀ r, o = some r → Reached F src (f r) → Reads F src sp' (g r)) :
    Reads F src (sp ++ sp') (o.bind g) := by
  cases o with
  | none =>
    obtain ⟨span, hm, hends⟩ := h
    exact ⟨span, List.mem_append_left _ hm, hends⟩
  | some r =>
    have h2 := hg r rfl h.1
    rw [Option.bind_some]
    cases hr : g r with
    | none =>
      rw [hr] at h2
      obtain ⟨span, hm, hends⟩ := h2
      exact ⟨span, List.mem_append_right _ hm, hends⟩
    | some s =>
      rw [hr] at h2
      refine ⟨h2.1, fun span hm => ?_⟩
      obtain hm | hm := List.mem_append.1 hm
      · exact h.2 span hm
      · exact h2.2 span hm

/-- A construct that gives the context back, before what follows. -/
theorem Reads.kept {a b : XmlAwareLexer} (ha : Reached F src a) (hb : Reached F src b)
    (hab : SameContext a b) (h : Reads F src sp out) : Reads F src ((a.pos, b.pos) :: sp) out := by
  cases out with
  | none =>
    obtain ⟨span, hm, hends⟩ := h
    exact ⟨span, List.mem_cons_of_mem _ hm, hends⟩
  | some s =>
    refine ⟨h.1, fun span hm => ?_⟩
    obtain rfl | hm := List.mem_cons.1 hm
    · exact ⟨a, b, ha, hb, rfl, hab⟩
    · exact h.2 span hm

/-- A construct that does not. -/
theorem Reads.broken {a b : XmlAwareLexer} (ha : Reached F src a) (hb : Reached F src b)
    (hab : ¬ SameContext a b) : Reads F src ((a.pos, b.pos) :: sp) none :=
  ⟨_, List.mem_cons_self, a, b, ha, hb, rfl, hab⟩

-- ---------------------------------------------------------------------------
-- States before and after a text
-- ---------------------------------------------------------------------------

/-- The lexer in a mode, with its count and flag, outside strings. -/
structure Ready (m : LexMode) (n : Nat) (p : Bool) (s : XmlAwareLexer) : Prop where
  mode : s.mode = m
  allow : s.allowXmlMarkup = true
  ret : s.stringReturn = none
  nesting : s.xmlNesting = n
  pending : s.pendingXmlOpen = p
  depth : ∀ top ∈ s.braceStack.head?, top.2 ≠ 0

/-- After `k` bytes, with another count and flag. -/
def XmlAwareLexer.moved (s : XmlAwareLexer) (k n : Nat) (p : Bool) : XmlAwareLexer :=
  { s.advance k with xmlNesting := n, pendingXmlOpen := p }

/-- In code, past a bracket that is put on the stack. -/
def XmlAwareLexer.entered (s : XmlAwareLexer) : XmlAwareLexer :=
  { s.advance 1 with braceStack := (s.mode, 1) :: s.braceStack, mode := .regular }

/-- In a tag, past `k` bytes. -/
def XmlAwareLexer.inTag (s : XmlAwareLexer) (k : Nat) (p : Bool) : XmlAwareLexer :=
  { s.advance k with mode := .xmlTag, pendingXmlOpen := p }

@[simp] theorem moved_pos (s : XmlAwareLexer) (k n : Nat) (p : Bool) :
    (s.moved k n p).pos = s.pos + k := rfl

theorem moved_moved (s : XmlAwareLexer) (j k n n' : Nat) (p p' : Bool) :
    (s.moved j n p).moved k n' p' = s.moved (j + k) n' p' := by
  simp only [XmlAwareLexer.moved, XmlAwareLexer.advance, Nat.add_assoc]

theorem Ready.moved_zero (h : Ready m n p s) : s.moved 0 n p = s := by
  rw [XmlAwareLexer.moved, ← h.nesting, ← h.pending]
  rfl

theorem Ready.advance_eq (h : Ready m n p s) (k : Nat) : s.advance k = s.moved k n p := by
  rw [XmlAwareLexer.moved, ← h.nesting, ← h.pending]
  rfl

theorem Ready.moved (h : Ready m n p s) (k n' : Nat) (p' : Bool) :
    Ready m n' p' (s.moved k n' p') :=
  ⟨h.mode, h.allow, h.ret, rfl, rfl, h.depth⟩

theorem Ready.entered (h : Ready m n p s) : Ready .regular n p s.entered :=
  ⟨rfl, h.allow, h.ret, h.nesting, h.pending, by rintro top ⟨⟩; exact Nat.one_ne_zero⟩

theorem Ready.inTag (h : Ready m n p s) (k : Nat) (p' : Bool) :
    Ready .xmlTag n p' (s.inTag k p') := ⟨rfl, h.allow, h.ret, h.nesting, rfl, h.depth⟩

theorem Ready.deeper (h : Ready m n p s) (k : Nat) : Ready m n p (s.advance k).deeper := by
  rw [XmlAwareLexer.deeper]
  cases hb : s.braceStack with
  | nil =>
    have hb' : (s.advance k).braceStack = [] := hb
    rw [hb']
    exact ⟨h.mode, h.allow, h.ret, h.nesting, h.pending, h.depth⟩
  | cons top stack =>
    have hb' : (s.advance k).braceStack = top :: stack := hb
    rw [hb']
    exact ⟨h.mode, h.allow, h.ret, h.nesting, h.pending,
      by rintro top ⟨⟩; exact Nat.succ_ne_zero _⟩

theorem rest_moved (s : XmlAwareLexer) (k n : Nat) (p : Bool) :
    (s.moved k n p).rest = s.rest.drop k := s.rest_advance k

theorem rest_deeper (s : XmlAwareLexer) : s.deeper.rest = s.rest := by
  rw [XmlAwareLexer.rest, (deeper_src s).1, (deeper_src s).2]
  rfl

/-- A lexer past an opening bracket; the bracket that closes it gives the context back. -/
structure Inner (n : Nat) (p : Bool) (s s1 : XmlAwareLexer) : Prop where
  ready : Ready .regular n p s1
  pos : s1.pos = s.pos + 1
  rest : s1.rest = s.rest.drop 1
  close : ∀ k n' p', ((s1.moved k n' p').advance 1).shallower = s.moved (1 + k + 1) n' p'

/-- In code a bracket only counts. -/
theorem Ready.inner_deeper (h : Ready .regular n p s) : Inner n p s (s.advance 1).deeper := by
  refine ⟨h.deeper 1, (deeper_src _).2, (rest_deeper _).trans (s.rest_advance 1), ?_⟩
  intro k n' p'
  cases hb : s.braceStack with
  | nil =>
    have hd : (s.advance 1).deeper = s.advance 1 := by
      rw [XmlAwareLexer.deeper, show (s.advance 1).braceStack = [] from hb]
    rw [hd, XmlAwareLexer.shallower, show (((s.advance 1).moved k n' p').advance 1).braceStack = []
      from hb]
    simp only [XmlAwareLexer.moved, XmlAwareLexer.advance, Nat.add_assoc]
  | cons top stack =>
    obtain ⟨ret, depth⟩ := top
    have hdepth : depth ≠ 0 := h.depth (ret, depth) (by rw [hb]; rfl)
    have hd : (s.advance 1).deeper =
        { s.advance 1 with braceStack := (ret, depth + 1) :: stack } := by
      rw [XmlAwareLexer.deeper, show (s.advance 1).braceStack = (ret, depth) :: stack from hb]
    rw [hd, XmlAwareLexer.shallower]
    simp only [XmlAwareLexer.moved, XmlAwareLexer.advance, Nat.add_assoc, hb]
    rw [if_neg (by omega), Nat.add_sub_cancel]

/-- In markup and in a tag it is put on the stack. -/
theorem Ready.inner_entered (h : Ready m n p s) : Inner n p s s.entered := by
  refine ⟨h.entered, rfl, s.rest_advance 1, ?_⟩
  intro k n' p'
  simp only [XmlAwareLexer.shallower, XmlAwareLexer.moved, XmlAwareLexer.advance,
    XmlAwareLexer.entered, Nat.add_assoc, if_true]

theorem sameContext_moved (h : Ready m n p s) (k : Nat) (p' : Bool) :
    SameContext s (s.moved k n p') := ⟨rfl, rfl, h.nesting⟩

/-- What is left after `t`. -/
theorem rest_after {s s' : XmlAwareLexer} (hr : s.rest = t ++ v) (hs : s'.rest = s.rest.drop k)
    (hk : t.length = k) : s'.rest = v := by
  subst hk
  rw [hs, hr, List.drop_left]

/-- The states after a text and after one more. -/
theorem Reads.after {s : XmlAwareLexer} {o : Option (Nat × Bool)} {j k l : Nat} (hl : j + k = l)
    (h : Reads F src sp (o.map fun r => (s.moved j n p).moved k r.1 r.2)) :
    Reads F src sp (o.map fun r => s.moved l r.1 r.2) := by
  subst hl
  simpa only [moved_moved] using h

theorem step_skip {s : XmlAwareLexer} (hb : Blank s.mode t) (hr : s.rest = t ++ u) :
    s.step F = some (none, s.advance t.length) := by
  obtain ⟨b, bs, rfl⟩ := List.exists_cons_of_ne_nil hb.ne_nil
  rw [XmlAwareLexer.step, hr]
  simp only [List.cons_append]
  rw [← List.cons_append, hb.skip u]

/-- A step over a blank or a comment. -/
def Skips (F : Type) [F64 F] (s s' : XmlAwareLexer) : Prop :=
  s.step F = some (none, s') ∧ s.pos < s'.pos

theorem skipped_steps (hgap : Skipped m gap) {s : XmlAwareLexer} (hm : s.mode = m)
    (hr : s.rest = gap ++ u) : Relation.ReflTransGen (Skips F) s (s.advance gap.length) := by
  induction hgap generalizing s with
  | nil => exact .refl
  | cons hb _ ih =>
    rw [List.append_assoc] at hr
    subst hm
    have hpos := List.length_pos_of_ne_nil hb.ne_nil
    rw [List.length_append, ← XmlAwareLexer.advance_advance]
    exact .head ⟨step_skip hb hr, Nat.lt_add_of_pos_right hpos⟩
      (ih rfl (rest_after hr (s.rest_advance _) rfl))

/-- Over blanks and comments. -/
theorem Reached.skipped (hgap : Skipped m gap) {s : XmlAwareLexer} (h : Reached F src s)
    (hm : s.mode = m) (hr : s.rest = gap ++ u) : Reached F src (s.advance gap.length) :=
  h.trans ((skipped_steps hgap hm hr).lift id fun _ _ hs => ⟨⟨none, hs.1⟩, hs.2⟩)

/-- An item of the iterator is one step, after steps over blanks and comments. -/
theorem next_steps {s s' : XmlAwareLexer} {r : LexResult F} (h : s.next = some (r, s')) :
    ∃ t, Relation.ReflTransGen (Skips F) s t ∧ t.step F = some (some r, s') := by
  obtain ⟨e, he⟩ := next_eq (F := F) s
  rw [he] at h
  obtain ⟨gap, b, bs, hr, hgap, hskip, hout⟩ := strides_some (rest_length_lt s) h
  refine ⟨s.advance gap.length, skipped_steps hgap rfl hr, ?_⟩
  have hrest : (s.advance gap.length).rest = b :: bs := rest_after hr (s.rest_advance _) rfl
  rw [XmlAwareLexer.step, hrest]
  have hskip' : (s.advance gap.length).mode.skip (b :: bs) = none := hskip
  simp only [hskip']
  exact congrArg (fun out : LexResult F × XmlAwareLexer => some (some out.1, out.2)) hout.symm

-- ---------------------------------------------------------------------------
-- Reading
-- ---------------------------------------------------------------------------

/-- The bracket that closes code. -/
theorem step_close {s : XmlAwareLexer} (hs : Ready .regular n p s) (n' : Nat) (p' : Bool)
    (hr : s.rest = t ++ b :: u) (hb : b = rbrace ∨ b = rparen) :
    ∃ item, (s.moved t.length n' p').step F =
      some (item, ((s.moved t.length n' p').advance 1).shallower) := by
  have hrest : (s.moved t.length n' p').rest = b :: u := rest_after hr (rest_moved s _ n' p') rfl
  obtain rfl | rfl := hb
  · exact step_bracket (hs.moved _ n' p').mode hrest (.inr (.inl rfl)) fun h =>
      absurd h (by decide)
  · exact step_bracket (hs.moved _ n' p').mode hrest (.inr (.inr (.inr rfl))) fun h =>
      absurd h (by decide)

/-- A bracket, code up to the bracket that closes it, and what follows. -/
theorem Reads.bracket {s s1 : XmlAwareLexer} {sp sp' : Nat → List (Nat × Nat)} {j l n : Nat}
    {o : Option (Nat × Bool)} {g : Nat × Bool → Option (Nat × Bool)} {b b' : UInt8}
    (hr : Reached F src s) (hs : Ready m n p s) (hrest : s.rest = b :: (t ++ b' :: v))
    (hopen : ∃ item, s.step F = some (item, s1)) (hin : Inner n p s s1)
    (hb : b' = rbrace ∨ b' = rparen)
    (hbody : Reached F src s1 → s1.rest = t ++ b' :: v →
      Reads F src (sp s1.pos) (o.map fun r => s1.moved t.length r.1 r.2))
    (hcount : ∀ r, o = some r → r.1 = n)
    (hmore : ∀ r, Reached F src (s.moved (1 + t.length + 1) r.1 r.2) →
      (s.moved (1 + t.length + 1) r.1 r.2).rest = v →
      Reads F src (sp' (s.moved (1 + t.length + 1) r.1 r.2).pos)
        ((g r).map fun r' => (s.moved (1 + t.length + 1) r.1 r.2).moved j r'.1 r'.2))
    (hl : 1 + t.length + 1 + j = l) :
    Reads F src (sp (s.pos + 1) ++ (s.pos, s.pos + 1 + t.length + 1) ::
        sp' (s.pos + 1 + t.length + 1))
      ((o.bind g).map fun r => s.moved l r.1 r.2) := by
  have hr1 : Reached F src s1 := hr.step hopen (by rw [hin.pos]; omega)
  have hrest1 : s1.rest = t ++ b' :: v := by
    rw [hin.rest, hrest]
    rfl
  rw [Option.map_bind, ← hin.pos]
  refine (hbody hr1 hrest1).bind fun r hrun hr2 => ?_
  have hr3 : Reached F src (s.moved (1 + t.length + 1) r.1 r.2) := by
    have hstep := step_close (F := F) hin.ready r.1 r.2 hrest1 hb
    rw [hin.close] at hstep
    refine hr2.step hstep ?_
    rw [moved_pos, moved_pos, hin.pos]
    omega
  have hrest3 : (s.moved (1 + t.length + 1) r.1 r.2).rest = v := by
    have hassoc : s.rest = (b :: (t ++ [b'])) ++ v := by simp [hrest]
    have hlen : (b :: (t ++ [b'])).length = 1 + t.length + 1 := by
      rw [List.length_cons, List.length_append, List.length_singleton]
      omega
    exact rest_after hassoc (rest_moved s _ _ _) hlen
  have hend : (s.moved (1 + t.length + 1) r.1 r.2).pos = s1.pos + t.length + 1 := by
    rw [moved_pos, hin.pos]
    omega
  have hcontext : SameContext s (s.moved (1 + t.length + 1) r.1 r.2) := by
    rw [hcount r hrun]
    exact sameContext_moved hs _ _
  rw [← hend]
  exact Reads.kept hr hr3 hcontext (Reads.after hl (hmore r hr3 hrest3))

theorem isTagName_before {b : UInt8} (h : IsTagName name (t ++ [b])) (v : List UInt8) :
    IsTagName name (t ++ b :: v) := by
  refine ⟨h.1, ?_⟩
  cases t with
  | nil => exact h.2
  | cons a t => exact h.2

theorem opensParens_before {b : UInt8} (h : OpensParens (t ++ [b])) (v : List UInt8) :
    OpensParens (t ++ b :: v) := by
  cases t with
  | nil => exact h
  | cons a t => exact h

/-- The brackets that enter code from a tag. -/
theorem step_inner {s : XmlAwareLexer} (hs : Ready .xmlTag n p s) (hr : s.rest = b :: v)
    (hb : b = lbrace ∨ b = lparen ∧ OpensParens v) :
    ∃ item, s.step F = some (item, s.entered) := by
  have hstep := step_value (F := F) hs.mode hr (hb.imp id fun h => ⟨h.1, h.2.1⟩)
  rw [if_neg] at hstep
  · rw [XmlAwareLexer.entered, hs.mode]
    exact hstep
  · rintro ⟨rfl, hunit⟩
    obtain hb | hb := hb
    · exact absurd hb (by decide)
    · exact hb.2.2 hunit

theorem read_openTag {s : XmlAwareLexer} (hr : Reached F src s) (hs : Ready .xml n p s)
    (hn : IsTagName name v) (hrest : s.rest = openTag name ++ v) :
    Reached F src (s.inTag (openTag name).length (name = xmlName || p)) := by
  have hstep := step_openTag (F := F) hs.mode hn hrest
  rw [hs.pending] at hstep
  exact hr.step hstep (Nat.lt_add_of_pos_right (Nat.succ_pos _))

/-- The end of a tag counts an element if the flag is set. -/
theorem read_gt {s : XmlAwareLexer} (hm : s.mode = .xml) (hr : Reached F src ((s.inTag k q).moved j n p))
    (hrest : ((s.inTag k q).moved j n p).rest = '>'.toUInt8 :: v) :
    Reached F src (s.moved (k + j + 1) (if p then n + 1 else n) false) ∧
      (s.moved (k + j + 1) (if p then n + 1 else n) false).rest = v := by
  have hstep := step_gt (F := F) (s := (s.inTag k q).moved j n p) rfl hrest
  have hs' : { ((s.inTag k q).moved j n p).advance 1 with
      mode := .xml
      xmlNesting := if p then (n : Int) + 1 else n
      pendingXmlOpen := false } = s.moved (k + j + 1) (if p then n + 1 else n) false := by
    cases p with
    | false => simp [XmlAwareLexer.moved, XmlAwareLexer.inTag, XmlAwareLexer.advance, Nat.add_assoc, hm]
    | true => simp [XmlAwareLexer.moved, XmlAwareLexer.inTag, XmlAwareLexer.advance, Nat.add_assoc, hm]
  rw [← hs']
  exact ⟨hr.step hstep (Nat.lt_succ_self _), rest_after (t := ['>'.toUInt8]) hrest
    (((s.inTag k q).moved j n p).rest_advance 1) rfl⟩

/-- The end of a tag in `/>` counts none. -/
theorem read_slash {s : XmlAwareLexer} (hm : s.mode = .xml) (hr : Reached F src ((s.inTag k q).moved j n p))
    (hgap : Skipped .xmlTag gap)
    (hrest : ((s.inTag k q).moved j n p).rest = '/'.toUInt8 :: (gap ++ '>'.toUInt8 :: v)) :
    Reached F src (s.moved (k + j + 1 + gap.length + 1) n false) ∧
      (s.moved (k + j + 1 + gap.length + 1) n false).rest = v := by
  have hstep := step_slash (F := F) (s := (s.inTag k q).moved j n p) rfl hrest
  have hr1 : Reached F src ((s.inTag k q).moved (j + 1) n false) :=
    hr.step hstep (Nat.lt_succ_self _)
  have hrest1 : ((s.inTag k q).moved (j + 1) n false).rest = gap ++ '>'.toUInt8 :: v := by
    exact rest_after (t := ['/'.toUInt8]) hrest (((s.inTag k q).moved j n p).rest_advance 1) rfl
  have hr2 := hr1.skipped hgap rfl hrest1
  have hs2 : ((s.inTag k q).moved (j + 1) n false).advance gap.length =
      (s.inTag k q).moved (j + 1 + gap.length) n false := by
    simp only [XmlAwareLexer.moved, XmlAwareLexer.advance, Nat.add_assoc]
  have hrest2 := rest_after hrest1
    (((s.inTag k q).moved (j + 1) n false).rest_advance gap.length) rfl
  rw [hs2] at hr2 hrest2
  have hend := read_gt hm hr2 hrest2
  rwa [if_neg Bool.false_ne_true, ← Nat.add_assoc, ← Nat.add_assoc] at hend

/-- The end of a nested element takes one from the count, or ends a fragment. -/
theorem read_closeXml {s : XmlAwareLexer} (hs : Ready .xml n p s)
    (hr : Reached F src (s.moved k c q)) (hrest : (s.moved k c q).rest = closeTag xmlName ++ v) :
    c = n + 1 ∧ Reached F src (s.moved (k + (closeTag xmlName).length) n q) ∨
    c ≠ n + 1 ∧ ∃ s', Reached F src s' ∧ s'.pos = s.pos + (k + (closeTag xmlName).length) ∧
      ¬ SameContext s s' := by
  have hstep := step_closeTag (F := F) (hs.moved k c q).mode (xmlName_isTagName (gt_not_id [])) hrest
  rw [if_pos rfl] at hstep
  have hpos : s.pos + k < s.pos + k + (closeTag xmlName).length :=
    Nat.lt_add_of_pos_right (Nat.succ_pos _)
  by_cases hc : c = n + 1
  · have hs' : { (s.moved k c q).advance (closeTag xmlName).length with
        xmlNesting := (c : Int) - 1 } = s.moved (k + (closeTag xmlName).length) n q := by
      have hone : ((n + 1 : Nat) : Int) - 1 = n := by omega
      simp only [hc, hone, XmlAwareLexer.moved, XmlAwareLexer.advance, Nat.add_assoc]
    have hcount : (s.moved k c q).xmlNesting > 0 := by
      rw [(hs.moved k c q).nesting]
      omega
    rw [if_pos hcount] at hstep
    exact .inl ⟨hc, hs' ▸ hr.step hstep hpos⟩
  · refine .inr ⟨hc, ?_⟩
    by_cases hcount : (s.moved k c q).xmlNesting > 0
    · rw [if_pos hcount] at hstep
      refine ⟨_, hr.step hstep hpos, Nat.add_assoc _ _ _, fun h => hc ?_⟩
      have hn : (n : Int) = c - 1 := hs.nesting.symm.trans h.2.2
      omega
    · rw [if_neg hcount] at hstep
      refine ⟨_, hr.step hstep hpos, Nat.add_assoc _ _ _, fun h => ?_⟩
      cases hs.mode.symm.trans h.1

mutual
/-- Code is read as its run goes. -/
theorem Code.reads (c : Code) (hf : c.Fits F u) {s : XmlAwareLexer} (hr : Reached F src s)
    (hs : Ready .regular n p s) (hrest : s.rest = c.text ++ u) :
    Reads F src (c.spans s.pos) ((c.run n p).map fun r => s.moved c.text.length r.1 r.2) := by
  cases c with
  | nil =>
    rw [Code.run, Option.map_some, Code.text, List.length_nil, hs.moved_zero]
    exact Reads.nil hr
  | lexeme t rest =>
    simp only [Code.text, List.append_assoc] at hrest
    have hstep := lexeme_step hs.ret hs.allow (hs.mode ▸ hf.1) hrest
    rw [hs.advance_eq] at hstep
    have hpos := List.length_pos_of_ne_nil hf.1.1
    have hread := rest.reads hf.2 (hr.step hstep (Nat.lt_add_of_pos_right hpos))
      (hs.moved t.length n p) (rest_after hrest (rest_moved s _ _ _) rfl)
    exact Reads.after (by simp only [Code.text, List.length_append]) hread
  | braces body rest =>
    have hrest1 : s.rest = lbrace :: (body.text ++ rbrace :: (rest.text ++ u)) := by
      simp [hrest, Code.text]
    exact Reads.bracket hr hs hrest1
      (step_bracket hs.mode hrest1 (.inl rfl) fun h => absurd h (by decide))
      hs.inner_deeper (.inl rfl) (fun hr1 h1 => body.reads hf.1 hr1 (hs.deeper 1) h1)
      (fun r hrun => by rw [(body.run_some hrun).1])
      (fun r hr3 h3 => rest.reads hf.2 hr3 (hs.moved _ _ _) h3)
      (by simp only [Code.text, List.length_cons, List.length_append]; omega)
  | parens body rest =>
    have hrest1 : s.rest = lparen :: (body.text ++ rparen :: (rest.text ++ u)) := by
      simp [hrest, Code.text]
    exact Reads.bracket hr hs hrest1
      (step_bracket hs.mode hrest1 (.inr (.inr (.inl rfl))) fun _ => opensParens_before hf.1 _)
      hs.inner_deeper (.inr rfl) (fun hr1 h1 => body.reads hf.2.1 hr1 (hs.deeper 1) h1)
      (fun r hrun => by rw [(body.run_some hrun).1])
      (fun r hr3 h3 => rest.reads hf.2.2 hr3 (hs.moved _ _ _) h3)
      (by simp only [Code.text, List.length_cons, List.length_append]; omega)
  | fragment body rest =>
    let s1 : XmlAwareLexer := { s.advance 5 with mode := .xml, xmlNesting := 0 }
    have hrest1 : s.rest = openTag xmlName ++ '>'.toUInt8 ::
        (body.text ++ (closeTag xmlName ++ (rest.text ++ u))) := by
      simp [hrest, Code.text]
    have hs1 : Ready .xml 0 p s1 := ⟨rfl, hs.allow, hs.ret, rfl, hs.pending, hs.depth⟩
    have hr1 : Reached F src s1 :=
      hr.step (step_fragment hs.mode hs.allow hrest1) (Nat.lt_add_of_pos_right (by decide))
    have hbody1 : s1.rest = body.text ++ (closeTag xmlName ++ (rest.text ++ u)) := by
      have hassoc := hrest1
      rw [← List.singleton_append, ← List.append_assoc] at hassoc
      exact rest_after hassoc (s.rest_advance 5) rfl
    rw [Code.run, Option.map_bind]
    refine (body.reads hf.1 hr1 hs1 hbody1).bind fun r hrun hr2 => ?_
    have hrest2 : (s1.moved body.text.length r.1 r.2).rest =
        closeTag xmlName ++ (rest.text ++ u) := rest_after hbody1 (rest_moved _ _ _ _) rfl
    have hstep := step_closeTag (F := F) (s := s1.moved body.text.length r.1 r.2) rfl
      (xmlName_isTagName (gt_not_id [])) hrest2
    rw [if_pos rfl] at hstep
    have hlen : (closeTag xmlName).length = 6 := by decide
    rw [hlen] at hstep
    by_cases hzero : r.1 = 0
    · -- The fragment ends, with a count of 0: that is the count before it only if it was 0.
      have hs3 : { (s1.moved body.text.length r.1 r.2).advance 6 with mode := .regular } =
          s.moved (5 + body.text.length + 6) 0 r.2 := by
        simp only [s1, hzero, XmlAwareLexer.moved, XmlAwareLexer.advance, Nat.add_assoc, hs.mode]
      rw [if_neg (by simp [XmlAwareLexer.moved, hzero]), hs3] at hstep
      have hr3 := hr2.step hstep (by simp only [moved_pos, s1, XmlAwareLexer.advance_pos]; omega)
      have hend : s.pos + 5 + body.text.length + 6 =
          (s.moved (5 + body.text.length + 6) 0 r.2).pos := by
        rw [moved_pos]
        omega
      by_cases hn : n = 0
      · subst hn
        rw [Function.comp_apply, if_pos ⟨rfl, hzero⟩, hend]
        refine Reads.kept hr hr3 (sameContext_moved hs _ _) ?_
        refine Reads.after ?_ (rest.reads hf.2 hr3 (hs.moved _ _ _) ?_)
        · have hopen : (openTag xmlName).length = 4 := by decide
          simp only [Code.text, List.length_cons, List.length_append, hlen, hopen]
          omega
        · rw [← hs3]
          exact rest_after hrest2 ((s1.moved body.text.length r.1 r.2).rest_advance 6) hlen
      · rw [Function.comp_apply, if_neg fun h => hn h.1, hend]
        refine Reads.broken hr hr3 fun h => hn ?_
        exact Int.ofNat_eq_zero.1 (hs.nesting.symm.trans h.2.2)
    · -- An element in the body has not been counted down: the lexer stays in markup.
      have hpos : (s1.moved body.text.length r.1 r.2).xmlNesting > 0 := by
        simp only [XmlAwareLexer.moved]
        omega
      rw [if_pos hpos] at hstep
      have hr3 := hr2.step hstep (Nat.lt_add_of_pos_right (by decide))
      rw [Function.comp_apply, if_neg fun h => hzero h.2]
      exact Reads.broken hr hr3 fun h => nomatch hs.mode.symm.trans h.1
theorem Markup.reads (c : Markup) (hf : c.Fits F u) {s : XmlAwareLexer} (hr : Reached F src s)
    (hs : Ready .xml n p s) (hrest : s.rest = c.text ++ u) :
    Reads F src (c.spans s.pos) ((c.run n p).map fun r => s.moved c.text.length r.1 r.2) := by
  cases c with
  | nil =>
    rw [Markup.run, Option.map_some, Markup.text, List.length_nil, hs.moved_zero]
    exact Reads.nil hr
  | lexeme t rest =>
    simp only [Markup.text, List.append_assoc] at hrest
    have hstep := lexeme_step hs.ret hs.allow (hs.mode ▸ hf.1) hrest
    rw [hs.advance_eq] at hstep
    have hpos := List.length_pos_of_ne_nil hf.1.1
    have hread := rest.reads hf.2 (hr.step hstep (Nat.lt_add_of_pos_right hpos))
      (hs.moved t.length n p) (rest_after hrest (rest_moved s _ _ _) rfl)
    exact Reads.after (by simp only [Markup.text, List.length_append]) hread
  | splice body rest =>
    have hrest1 : s.rest = lbrace :: (body.text ++ rbrace :: (rest.text ++ u)) := by
      simp [hrest, Markup.text]
    have hopen : ∃ item, s.step F = some (item, s.entered) := by
      have hstep := step_splice (F := F) hs.mode hrest1
      rw [XmlAwareLexer.entered, hs.mode]
      exact hstep
    exact Reads.bracket hr hs hrest1 hopen
      hs.inner_entered (.inl rfl) (fun hr1 h1 => body.reads hf.1 hr1 hs.entered h1)
      (fun r hrun => by rw [(body.run_some hrun).1])
      (fun r hr3 h3 => rest.reads hf.2 hr3 (hs.moved _ _ _) h3)
      (by simp only [Markup.text, List.length_cons, List.length_append]; omega)
  | element name attrs body rest =>
    have hrest1 : s.rest = openTag name ++ (attrs.text ++ '>'.toUInt8 ::
        (body.text ++ (closeTag name ++ (rest.text ++ u)))) := by
      simp [hrest, Markup.text]
    obtain ⟨hname, hfa, hfb, hfr⟩ := hf
    have hr1 := read_openTag hr hs (isTagName_before hname _) hrest1
    have hrest2 := rest_after hrest1 (s.rest_advance _) rfl
    rw [Markup.run, Option.map_bind]
    refine (attrs.reads hfa hr1 (hs.inTag _ _) hrest2).bind fun a hrun hr2 => ?_
    have hrest3 := rest_after hrest2 (rest_moved _ _ a.1 a.2) rfl
    obtain ⟨hr3, hrest4⟩ := read_gt hs.mode hr2 hrest3
    have hpos3 : s.pos + (openTag name).length + attrs.text.length + 1 =
        (s.moved ((openTag name).length + attrs.text.length + 1)
          (if a.2 then a.1 + 1 else a.1) false).pos := by
      rw [moved_pos]
      omega
    rw [Function.comp_apply, Option.map_bind, hpos3]
    refine (body.reads hfb hr3 (hs.moved _ _ _) hrest4).bind fun r hrun1 hr4 => ?_
    rw [moved_moved] at hr4
    have hrest5 := rest_after hrest4 (rest_moved _ _ r.1 r.2) rfl
    rw [moved_moved] at hrest5
    have hclose : ∀ n', (s.moved ((openTag name).length + attrs.text.length + 1 +
        body.text.length + (closeTag name).length) n' r.2).rest = rest.text ++ u := fun n' => by
      rw [← moved_moved _ _ _ r.1 n' r.2 r.2]
      exact rest_after hrest5 (rest_moved _ _ _ _) rfl
    have hlen : (openTag name).length + attrs.text.length + 1 + body.text.length +
        (closeTag name).length + rest.text.length =
        (Markup.element name attrs body rest).text.length := by
      simp only [Markup.text, List.length_append, List.length_cons]
      omega
    have hend : (s.moved ((openTag name).length + attrs.text.length + 1)
          (if a.2 then a.1 + 1 else a.1) false).pos + body.text.length + (closeTag name).length =
        s.pos + ((openTag name).length + attrs.text.length + 1 + body.text.length +
          (closeTag name).length) := by
      rw [moved_pos]
      omega
    have honward : ∀ k, s.pos + k < s.pos + (k + (closeTag name).length) := fun k =>
      Nat.add_lt_add_left (Nat.lt_add_of_pos_right (Nat.succ_pos _)) _
    rw [Function.comp_apply, hend]
    by_cases hx : name = xmlName
    · rw [if_pos hx, if_pos hx]
      subst hx
      obtain ⟨hcount, hr5⟩ | ⟨hcount, s5, hr5, hpos5, hne⟩ := read_closeXml hs hr4 hrest5
      · rw [if_pos hcount]
        exact Reads.kept hr hr5 (sameContext_moved hs _ _)
          (Reads.after hlen (rest.reads hfr hr5 (hs.moved _ _ _) (hclose n)))
      · rw [if_neg hcount, ← hpos5]
        exact Reads.broken hr hr5 hne
    · have hstep := step_closeTag (F := F) (hs.moved _ r.1 r.2).mode (hname.close []) hrest5
      rw [if_neg hx, (hs.moved _ r.1 r.2).advance_eq, moved_moved] at hstep
      have hr5 := hr4.step hstep (honward _)
      rw [if_neg hx, if_neg hx, List.nil_append]
      exact Reads.after hlen (rest.reads hfr hr5 (hs.moved _ _ _) (hclose r.1))
  | empty name attrs gap rest =>
    obtain ⟨hname, hfa, hgap, hfr⟩ := hf
    have hrest1 : s.rest = openTag name ++ (attrs.text ++ '/'.toUInt8 ::
        (gap ++ '>'.toUInt8 :: (rest.text ++ u))) := by
      simp [hrest, Markup.text]
    have hr1 := read_openTag hr hs (isTagName_before hname _) hrest1
    have hrest2 := rest_after hrest1 (s.rest_advance _) rfl
    rw [Markup.run, Option.map_bind]
    refine (attrs.reads hfa hr1 (hs.inTag _ _) hrest2).bind fun a hrun hr2 => ?_
    have hrest3 := rest_after hrest2 (rest_moved _ _ a.1 a.2) rfl
    obtain ⟨hr3, hrest4⟩ := read_slash hs.mode hr2 hgap hrest3
    have hpos : s.pos + (openTag name).length + attrs.text.length + 1 + gap.length + 1 =
        (s.moved ((openTag name).length + attrs.text.length + 1 + gap.length + 1) a.1 false).pos := by
      rw [moved_pos]
      omega
    rw [Function.comp_apply, hpos]
    refine Reads.after ?_ (rest.reads hfr hr3 (hs.moved _ _ _) hrest4)
    simp only [Markup.text, List.length_append, List.length_cons]
    omega
theorem Attrs.reads (c : Attrs) (hf : c.Fits F u) {s : XmlAwareLexer} (hr : Reached F src s)
    (hs : Ready .xmlTag n p s) (hrest : s.rest = c.text ++ u) :
    Reads F src (c.spans s.pos) ((c.run n p).map fun r => s.moved c.text.length r.1 r.2) := by
  cases c with
  | nil =>
    rw [Attrs.run, Option.map_some, Attrs.text, List.length_nil, hs.moved_zero]
    exact Reads.nil hr
  | lexeme t rest =>
    simp only [Attrs.text, List.append_assoc] at hrest
    have hstep := lexeme_step hs.ret hs.allow (hs.mode ▸ hf.1) hrest
    rw [hs.advance_eq] at hstep
    have hpos := List.length_pos_of_ne_nil hf.1.1
    have hread := rest.reads hf.2 (hr.step hstep (Nat.lt_add_of_pos_right hpos))
      (hs.moved t.length n p) (rest_after hrest (rest_moved s _ _ _) rfl)
    exact Reads.after (by simp only [Attrs.text, List.length_append]) hread
  | braces body rest =>
    have hrest1 : s.rest = lbrace :: (body.text ++ rbrace :: (rest.text ++ u)) := by
      simp [hrest, Attrs.text]
    exact Reads.bracket hr hs hrest1 (step_inner hs hrest1 (.inl rfl))
      hs.inner_entered (.inl rfl) (fun hr1 h1 => body.reads hf.1 hr1 hs.entered h1)
      (fun r hrun => by rw [(body.run_some hrun).1])
      (fun r hr3 h3 => rest.reads hf.2 hr3 (hs.moved _ _ _) h3)
      (by simp only [Attrs.text, List.length_cons, List.length_append]; omega)
  | parens body rest =>
    have hrest1 : s.rest = lparen :: (body.text ++ rparen :: (rest.text ++ u)) := by
      simp [hrest, Attrs.text]
    exact Reads.bracket hr hs hrest1
      (step_inner hs hrest1 (.inr ⟨rfl, opensParens_before hf.1 _⟩))
      hs.inner_entered (.inr rfl) (fun hr1 h1 => body.reads hf.2.1 hr1 hs.entered h1)
      (fun r hrun => by rw [(body.run_some hrun).1])
      (fun r hr3 h3 => rest.reads hf.2.2 hr3 (hs.moved _ _ _) h3)
      (by simp only [Attrs.text, List.length_cons, List.length_append]; omega)
  | unit rest =>
    have hrest1 : s.rest = lparen :: (rparen :: (rest.text ++ u)) := hrest
    have hstep := step_value (F := F) hs.mode hrest1 (.inr ⟨rfl, show some rparen ≠ some '*'.toUInt8 by decide⟩)
    rw [if_pos ⟨rfl, rfl⟩] at hstep
    exact Reads.broken hr (hr.step hstep (Nat.lt_add_of_pos_right (by decide))) fun h =>
      nomatch hs.mode.symm.trans h.1
end

-- ---------------------------------------------------------------------------
-- Whole expressions
-- ---------------------------------------------------------------------------

/-- A whole expression is read from the state in which the lexer starts. -/
theorem Expression.reads (e : Expression F) :
    Reads F e.code.text (e.code.spans 0) ((e.code.run 0 false).map fun r =>
      (XmlAwareLexer.withXmlMarkupPolicy e.code.text true).moved e.code.text.length r.1 r.2) :=
  e.code.reads e.fits .refl ⟨rfl, rfl, rfl, rfl, rfl, nofun⟩
    ((start_rest e.code.text true).trans (List.append_nil _).symm)

theorem Expression.not_restored (e : Expression F) (h : e.code.run 0 false = none) :
    ¬ e.Restored := by
  have hread := e.reads
  rw [h] at hread
  obtain ⟨span, hm, a, b, ha, hb, rfl, hne⟩ := hread
  exact fun hr => hne (hr _ hm a b (standsAt_reached ha) (standsAt_reached hb))

theorem Expression.restored (e : Expression F) (h : e.code.run 0 false ≠ none) : e.Restored := by
  obtain ⟨r, hrun⟩ := Option.ne_none_iff_exists'.1 h
  have hread := e.reads
  rw [hrun] at hread
  intro span hm a b ha hb
  obtain ⟨a', b', ha', hb', rfl, hab⟩ := hread.2 span hm
  rw [standsAt_reached ha'] at ha
  rw [standsAt_reached hb'] at hb
  cases ha
  cases hb
  exact hab

/-- The context is given back in every expression that is kept, and in no other. -/
theorem restored_iff (e : Expression F) : e.Restored ↔ e.code.Kept false := by
  rw [← run_ne_none_iff]
  exact ⟨fun hr hnone => e.not_restored hnone hr, e.restored⟩

/-- A fragment in a splice of a nested element: the count is forgotten. -/
def spliced : Expression (List Char) where
  code := .fragment (.element xmlName .nil (.splice (.fragment .nil .nil) .nil) .nil) .nil
  fits := ⟨⟨xmlName_isTagName (gt_not_id []), trivial, ⟨⟨trivial, trivial⟩, trivial⟩, trivial⟩,
    trivial⟩

example : spliced.code.text = bytes "<xml><xml>\x7b<xml></xml>\x7d</xml></xml>" := by decide

theorem not_restored_spliced : ¬ spliced.Restored := spliced.not_restored (by decide)

end UrWeb.Parse
