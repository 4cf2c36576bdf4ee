import UrWeb.Parse.Nesting

/-!
# The count and the flag

What reading a tree does to the count of nested elements and to the flag of an open
`<xml` tag, the rest of the lexer's state being as it should be. The run fails where a
construct does not give the context back, and it fails on no kept tree and on every other.
-/

namespace UrWeb.Parse

mutual
/-- From a count and a flag to the count and the flag after the text. -/
def Code.run : Code → Nat → Bool → Option (Nat × Bool)
  | .nil, n, p => some (n, p)
  | .lexeme _ rest, n, p => rest.run n p
  | .braces body rest, n, p => (body.run n p).bind fun r => rest.run r.1 r.2
  | .parens body rest, n, p => (body.run n p).bind fun r => rest.run r.1 r.2
  | .fragment body rest, n, p =>
    (body.run 0 p).bind fun r => if n = 0 ∧ r.1 = 0 then rest.run 0 r.2 else none
def Markup.run : Markup → Nat → Bool → Option (Nat × Bool)
  | .nil, n, p => some (n, p)
  | .lexeme _ rest, n, p => rest.run n p
  | .splice body rest, n, p => (body.run n p).bind fun r => rest.run r.1 r.2
  | .element name attrs body rest, n, p =>
    (attrs.run n (name = xmlName || p)).bind fun a =>
      (body.run (if a.2 then a.1 + 1 else a.1) false).bind fun r =>
        if name = xmlName then (if r.1 = n + 1 then rest.run n r.2 else none)
        else rest.run r.1 r.2
  | .empty name attrs _ rest, n, p =>
    (attrs.run n (name = xmlName || p)).bind fun a => rest.run a.1 false
def Attrs.run : Attrs → Nat → Bool → Option (Nat × Bool)
  | .nil, n, p => some (n, p)
  | .lexeme _ rest, n, p => rest.run n p
  | .braces body rest, n, p => (body.run n p).bind fun r => rest.run r.1 r.2
  | .parens body rest, n, p => (body.run n p).bind fun r => rest.run r.1 r.2
  | .unit _, _, _ => none
end

/-- The flag is still set where no tag has ended. -/
def flag (p : Bool) (ends : List TagEnd) : Bool := p && ends.isEmpty

/-- The flag is set and the first tag to end takes it for its own. -/
def Miscounts (p : Bool) (ends : List TagEnd) : Prop := p = true ∧ ends.head? = some .opens

@[simp] theorem flag_nil (p : Bool) : flag p [] = p := by simp [flag]

@[simp] theorem flag_cons (p : Bool) (e : TagEnd) (es : List TagEnd) : flag p (e :: es) = false := by
  simp [flag]

theorem flag_append (p : Bool) (as bs : List TagEnd) : flag p (as ++ bs) = flag (flag p as) bs := by
  cases as <;> simp [flag]

@[simp] theorem flag_false (es : List TagEnd) : flag false es = false := rfl

@[simp] theorem not_miscounts_nil : ¬ Miscounts p [] := fun h => nomatch h.2

@[simp] theorem not_miscounts_false : ¬ Miscounts false es := fun h => nomatch h.1

@[simp] theorem miscounts_cons : Miscounts p (e :: es) ↔ p = true ∧ e = .opens := by
  simp [Miscounts]

theorem miscounts_append :
    Miscounts p (as ++ bs) ↔ Miscounts p as ∨ Miscounts (flag p as) bs := by
  cases as <;> simp [Miscounts]

theorem tagEnd_opens : tagEnd name = .opens ↔ name ≠ xmlName := by
  rw [tagEnd]
  split_ifs with h <;> simp [h]

mutual
/-- A run that succeeds keeps the count, on a kept tree. -/
theorem Code.run_some (c : Code) (h : c.run n p = some r) :
    r = (n, flag p c.tagEnds) ∧ ¬ Miscounts p c.tagEnds ∧ c.Kept (n != 0) := by
  cases c with
  | nil =>
    cases h
    simp [Code.tagEnds, Code.Kept]
  | lexeme t rest => exact rest.run_some h
  | braces body rest | parens body rest =>
    obtain ⟨r1, hb, hr⟩ := Option.bind_eq_some_iff.1 h
    obtain ⟨rfl, hmb, hkb⟩ := body.run_some hb
    obtain ⟨rfl, hmr, hkr⟩ := rest.run_some hr
    simp only [Code.tagEnds, flag_append, miscounts_append, not_or, Code.Kept]
    exact ⟨trivial, ⟨hmb, hmr⟩, hkb, hkr⟩
  | fragment body rest =>
    obtain ⟨r1, hb, hr⟩ := Option.bind_eq_some_iff.1 h
    split_ifs at hr with hn
    obtain ⟨rfl, hzero⟩ := hn
    obtain ⟨hflag, hm⟩ := body.run_some hb
    -- A body that miscounts ends with a count of one.
    obtain ⟨-, hcount⟩ | ⟨hnm, -, hkb⟩ := hm
    · exact absurd (hcount.symm.trans hzero) (by decide)
    · rw [hflag] at hr
      obtain ⟨rfl, hmr, hkr⟩ := rest.run_some hr
      simp only [Code.tagEnds, flag_append, miscounts_append, not_or, Code.Kept]
      exact ⟨trivial, ⟨hnm, hmr⟩, rfl, hkb, hkr⟩
theorem Markup.run_some (m : Markup) (h : m.run n p = some r) :
    r.2 = flag p m.tagEnds ∧
    (Miscounts p m.tagEnds ∧ r.1 = n + 1 ∨
      ¬ Miscounts p m.tagEnds ∧ r.1 = n ∧ m.Kept (n != 0)) := by
  cases m with
  | nil =>
    cases h
    simp [Markup.tagEnds, Markup.Kept]
  | lexeme t rest => exact rest.run_some h
  | splice body rest =>
    obtain ⟨r1, hb, hr⟩ := Option.bind_eq_some_iff.1 h
    obtain ⟨rfl, hmb, hkb⟩ := body.run_some hb
    have hrest := rest.run_some hr
    simp only [Markup.tagEnds, flag_append, miscounts_append, Markup.Kept]
    tauto
  | element name attrs body rest =>
    obtain ⟨a, ha, h1⟩ := Option.bind_eq_some_iff.1 h
    obtain ⟨r1, hb, h2⟩ := Option.bind_eq_some_iff.1 h1
    obtain ⟨rfl, hma, hka⟩ := attrs.run_some ha
    obtain ⟨hfb, hcb⟩ := body.run_some hb
    simp only [not_miscounts_false, false_and, not_false_eq_true, true_and, false_or,
      flag_false] at hfb hcb
    simp only [Markup.tagEnds, flag_append, flag_cons, miscounts_append, miscounts_cons,
      tagEnd_opens, Markup.Kept]
    by_cases hx : name = xmlName
    · subst hx
      simp only [decide_true, Bool.true_or, if_true] at h2 hma hcb
      -- A tag that ended among the attributes has taken the flag, and the count fails.
      split_ifs at h2 with hcount
      obtain ⟨hcb1, hkb⟩ := hcb
      have hends : attrs.tagEnds = [] := by
        cases he : attrs.tagEnds with
        | nil => rfl
        | cons e es =>
          rw [he, flag_cons, if_neg Bool.false_ne_true] at hcb1
          omega
      rw [hends, flag_nil, if_pos rfl] at hkb
      rw [hfb] at h2
      have hrest := rest.run_some h2
      simp only [not_miscounts_false, false_and, not_false_eq_true, true_and, false_or,
        flag_false] at hrest
      refine ⟨hrest.1, .inr ⟨?_, hrest.2.1, hka, fun _ => hends, ?_, hrest.2.2⟩⟩
      · simp [hends]
      · simpa using hkb
    · simp only [hx, decide_false, Bool.false_or, if_false] at h2 hma hcb
      rw [hfb, hcb.1] at h2
      have hrest := rest.run_some h2
      simp only [not_miscounts_false, false_and, not_false_eq_true, true_and, false_or,
        flag_false] at hrest
      refine ⟨hrest.1, ?_⟩
      cases hf : flag p attrs.tagEnds with
      | true =>
        rw [hf, if_pos rfl] at hrest
        exact .inl ⟨.inr ⟨rfl, hx⟩, hrest.2.1⟩
      | false =>
        rw [hf, if_neg Bool.false_ne_true] at hrest hcb
        simp only [hx, decide_false, Bool.or_false]
        refine .inr ⟨?_, hrest.2.1, hka, fun hn => hn.elim, hcb.2, hrest.2.2⟩
        rintro (h | h)
        · exact hma h
        · exact Bool.false_ne_true h.1
  | empty name attrs gap rest =>
    obtain ⟨a, ha, hr⟩ := Option.bind_eq_some_iff.1 h
    obtain ⟨rfl, hma, hka⟩ := attrs.run_some ha
    have hrest := rest.run_some hr
    simp only [not_miscounts_false, false_and, not_false_eq_true, true_and, false_or,
      flag_false] at hrest
    simp only [Markup.tagEnds, flag_append, flag_cons, miscounts_append, miscounts_cons,
      reduceCtorEq, and_false, or_false, Markup.Kept]
    refine ⟨hrest.1, .inr ⟨?_, hrest.2.1, hka, ?_, hrest.2.2⟩⟩
    · rintro ⟨rfl, hhead⟩
      exact hma ⟨Bool.or_true _, hhead⟩
    · rintro hx hhead
      exact hma ⟨by simp [hx], hhead⟩
theorem Attrs.run_some (t : Attrs) (h : t.run n p = some r) :
    r = (n, flag p t.tagEnds) ∧ ¬ Miscounts p t.tagEnds ∧ t.Kept (n != 0) := by
  cases t with
  | nil =>
    cases h
    simp [Attrs.tagEnds, Attrs.Kept]
  | lexeme t rest => exact rest.run_some h
  | braces body rest | parens body rest =>
    obtain ⟨r1, hb, hr⟩ := Option.bind_eq_some_iff.1 h
    obtain ⟨rfl, hmb, hkb⟩ := body.run_some hb
    obtain ⟨rfl, hmr, hkr⟩ := rest.run_some hr
    simp only [Attrs.tagEnds, flag_append, miscounts_append, not_or, Attrs.Kept]
    exact ⟨trivial, ⟨hmb, hmr⟩, hkb, hkr⟩
  | unit rest => cases h
end

mutual
/-- On a kept tree the run succeeds. -/
theorem Code.run_kept (c : Code) (hk : c.Kept (n != 0)) (hm : ¬ Miscounts p c.tagEnds) :
    c.run n p = some (n, flag p c.tagEnds) := by
  cases c with
  | nil => simp [Code.run, Code.tagEnds]
  | lexeme t rest => exact rest.run_kept hk hm
  | braces body rest | parens body rest =>
    simp only [Code.tagEnds, miscounts_append, not_or] at hm
    rw [Code.run, body.run_kept hk.1 hm.1, Option.bind_some, rest.run_kept hk.2 hm.2,
      Code.tagEnds, flag_append]
  | fragment body rest =>
    simp only [Code.tagEnds, miscounts_append, not_or] at hm
    obtain ⟨hn, hkb, hkr⟩ := hk
    have hzero : n = 0 := by simpa using hn
    subst hzero
    rw [Code.run, body.run_kept (n := 0) hkb hm.1, Option.bind_some, if_pos ⟨rfl, rfl⟩,
      rest.run_kept hkr hm.2, Code.tagEnds, flag_append]
theorem Markup.run_kept (m : Markup) (hk : m.Kept (n != 0)) (hm : ¬ Miscounts p m.tagEnds) :
    m.run n p = some (n, flag p m.tagEnds) := by
  cases m with
  | nil => simp [Markup.run, Markup.tagEnds]
  | lexeme t rest => exact rest.run_kept hk hm
  | splice body rest =>
    simp only [Markup.tagEnds, miscounts_append, not_or] at hm
    rw [Markup.run, body.run_kept hk.1 hm.1, Option.bind_some, rest.run_kept hk.2 hm.2,
      Markup.tagEnds, flag_append]
  | element name attrs body rest =>
    obtain ⟨hka, hends, hkb, hkr⟩ := hk
    simp only [Markup.tagEnds, miscounts_append, miscounts_cons, not_or] at hm
    rw [Markup.run, Markup.tagEnds, flag_append, flag_cons]
    by_cases hx : name = xmlName
    · rw [hends hx] at hm
      have hma : ¬ Miscounts (decide (name = xmlName) || p) attrs.tagEnds := by simp [hends hx]
      rw [attrs.run_kept hka hma, Option.bind_some, hends hx]
      simp only [hx, decide_true, Bool.true_or, flag_nil, if_true]
      simp only [hx, decide_true, Bool.or_true] at hkb
      rw [body.run_kept (n := n + 1) hkb not_miscounts_false, Option.bind_some, if_pos rfl,
        flag_false, rest.run_kept hkr not_miscounts_false, flag_false]
    · simp only [hx, decide_false, Bool.false_or, if_false]
      simp only [tagEnd_opens, ne_eq, hx, not_false_eq_true, and_true, Bool.not_eq_true] at hm
      simp only [hx, decide_false, Bool.or_false] at hkb
      rw [attrs.run_kept hka hm.1, Option.bind_some, hm.2, if_neg Bool.false_ne_true,
        body.run_kept hkb not_miscounts_false, Option.bind_some, flag_false,
        rest.run_kept hkr not_miscounts_false, flag_false]
  | empty name attrs gap rest =>
    obtain ⟨hka, hends, hkr⟩ := hk
    simp only [Markup.tagEnds, miscounts_append, not_or] at hm
    have hma : ¬ Miscounts (decide (name = xmlName) || p) attrs.tagEnds := by
      rintro ⟨hp, hhead⟩
      by_cases hx : name = xmlName
      · exact hends hx hhead
      · simp only [hx, decide_false, Bool.false_or] at hp
        exact hm.1 ⟨hp, hhead⟩
    rw [Markup.run, attrs.run_kept hka hma, Option.bind_some,
      rest.run_kept hkr not_miscounts_false, Markup.tagEnds, flag_append, flag_cons, flag_false]
theorem Attrs.run_kept (t : Attrs) (hk : t.Kept (n != 0)) (hm : ¬ Miscounts p t.tagEnds) :
    t.run n p = some (n, flag p t.tagEnds) := by
  cases t with
  | nil => simp [Attrs.run, Attrs.tagEnds]
  | lexeme t rest => exact rest.run_kept hk hm
  | braces body rest | parens body rest =>
    simp only [Attrs.tagEnds, miscounts_append, not_or] at hm
    rw [Attrs.run, body.run_kept hk.1 hm.1, Option.bind_some, rest.run_kept hk.2 hm.2,
      Attrs.tagEnds, flag_append]
  | unit rest => exact hk.elim
end

/-- The run of an expression fails just on the trees that are not kept. -/
theorem run_ne_none_iff (c : Code) : c.run 0 false ≠ none ↔ c.Kept false := by
  constructor
  · intro h
    obtain ⟨r, hr⟩ := Option.ne_none_iff_exists'.1 h
    exact (c.run_some hr).2.2
  · intro hk
    rw [c.run_kept (n := 0) hk not_miscounts_false]
    exact Option.some_ne_none _

end UrWeb.Parse
