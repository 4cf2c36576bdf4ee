import Mathlib.Logic.Basic

/-!
# Applications and projections

The grammar reads a chain of atoms and postfixes from the left and builds its tree
on the way: a postfix gets the tree of everything before it and pushes a projection
into the last argument of an application. Spans are left out, and shapes the
actions do not look into are `other`. The test for an upper-case character is a
parameter.
-/

namespace UrWeb.Parse

inductive Inference
  | infer
  | dontInfer
  | typesOnly
  deriving DecidableEq

inductive Con where
  | var (ms : List String) (x : String)
  | name (s : String)
  | other (shape : Nat)
  deriving DecidableEq

inductive Exp where
  | var (ms : List String) (x : String) (inf : Inference)
  | app (e1 e2 : Exp)
  | cApp (e : Exp) (c : Con)
  | field (e : Exp) (c : Con)
  | other (shape : Nat)
  deriving DecidableEq

inductive PostfixOp
  | cApp (c : Con)
  | dotIdent (name : String)
  | dotHash (name : String)
  | dotUident (name : String)
  | dotInt (n : Int64)
  | dotCon (c : Con)
  | dotCons (c : Con)

inductive FieldSelector
  | constructorVariable (name : String)
  | name (name : String)
  | constructor (c : Con)

def FieldSelector.constructorOf : FieldSelector → Con
  | .constructorVariable x => .var [] x
  | .name x => .name x
  | .constructor c => c

section
variable (isUppercase : Char → Bool)

def startsUpper (x : String) : Bool := x.toList.head?.any isUppercase

def applyFieldPostfixToNonAppExpression (base : Exp) (selector : FieldSelector) : Exp :=
  .field base selector.constructorOf

def applyFieldPostfixToExpression (base : Exp) (selector : FieldSelector) : Exp :=
  match base with
  | .app f x => .app f (applyFieldPostfixToNonAppExpression x selector)
  | base => applyFieldPostfixToNonAppExpression base selector

/-- The arms of `.x` and `.X`, which differ in the selector only. -/
def applyDotName (base : Exp) (name : String) (selector : FieldSelector) : Exp :=
  match base with
  | .var quals last inf =>
    if startsUpper isUppercase last then .var (quals ++ [last]) name inf
    else applyFieldPostfixToExpression (.var quals last inf) selector
  | .app f2 x =>
    match x with
    | .var q last inf =>
      if q.isEmpty ∧ startsUpper isUppercase last then .app f2 (.var (q ++ [last]) name inf)
      else .app f2 (applyFieldPostfixToNonAppExpression (.var q last inf) selector)
    | x => .app f2 (applyFieldPostfixToNonAppExpression x selector)
  | base => applyFieldPostfixToExpression base selector

def applyPostfix (base : Exp) : PostfixOp → Exp
  | .cApp c => .cApp base c
  | .dotIdent name => applyDotName isUppercase base name (.constructorVariable name)
  | .dotHash name => applyFieldPostfixToExpression base (.name name)
  | .dotInt n => applyFieldPostfixToExpression base (.name (toString n.toInt))
  | .dotCon c => applyFieldPostfixToExpression base (.constructor c)
  | .dotCons c => .cApp base c
  | .dotUident name => applyDotName isUppercase base name (.name name)

def foldPostfixes (base : Exp) (ops : List PostfixOp) : Exp :=
  ops.foldl (applyPostfix isUppercase) base

-- ---------------------------------------------------------------------------
-- The grammar
-- ---------------------------------------------------------------------------

mutual
/-- An atom of the grammar: an identifier, an expression in parentheses, or any other atom with
the tree its action builds. -/
inductive Atom where
  | ident (name : String)
  | paren (e : Spine)
  | other (tree : Exp)
/-- What `ArithExp` derives with its first three rules. -/
inductive Spine where
  | atom (a : Atom)
  | app (e : Spine) (a : Atom)
  | post (e : Spine) (op : PostfixOp)
end

mutual
def Atom.build : Atom → Exp
  | .ident name => .var [] name .infer
  | .paren e => e.build
  | .other tree => tree
def Spine.build : Spine → Exp
  | .atom a => a.build
  | .app e a => .app e.build a.build
  | .post e op => foldPostfixes isUppercase e.build [op]
end

-- ---------------------------------------------------------------------------
-- What projections apply to
-- ---------------------------------------------------------------------------

/-- A chain that has been read: the function it is applied by, the operand directly before the
next postfix, and whether that is an identifier or a path that stands there bare. -/
structure Reading where
  function : Option Exp
  operand : Exp
  bare : Bool

def Reading.whole (r : Reading) : Exp :=
  match r.function with
  | none => r.operand
  | some f => .app f r.operand

/-- The name a bare module path goes on with, and the constructor a projection selects. -/
inductive Postfix
  | typeArgument (c : Con)
  | projection (name : Option String) (c : Con)

def PostfixOp.kind : PostfixOp → Postfix
  | .cApp c => .typeArgument c
  | .dotIdent name => .projection (some name) (.var [] name)
  | .dotHash name => .projection none (.name name)
  | .dotUident name => .projection (some name) (.name name)
  | .dotInt n => .projection none (.name (toString n.toInt))
  | .dotCon c => .projection none c
  | .dotCons c => .typeArgument c

/-- The bare path an operand goes on as, when it is one and its last name is a module's. -/
def Reading.path (r : Reading) (name : String) : Option Exp :=
  match r.operand with
  | .var ms x inf =>
    if r.bare ∧ startsUpper isUppercase x then some (.var (ms ++ [x]) name inf) else none
  | _ => none

def Reading.step (r : Reading) : Postfix → Reading
  | .typeArgument c => ⟨none, .cApp r.whole c, false⟩
  | .projection name c =>
    match name.bind (r.path isUppercase) with
    | some p => ⟨r.function, p, true⟩
    | none => ⟨r.function, .field r.operand c, false⟩

mutual
/-- The tree of an atom, and whether it is a bare identifier. -/
def Atom.tree : Atom → Exp
  | .ident name => .var [] name .infer
  | .paren e => e.read.whole
  | .other tree => tree
def Spine.read : Spine → Reading
  | .atom a => ⟨none, a.tree, a matches .ident _⟩
  | .app e a => ⟨some e.read.whole, a.tree, a matches .ident _⟩
  | .post e op => e.read.step isUppercase op.kind
end

/-- The tree in which every projection applies to what is directly before it. -/
def Spine.grouped (e : Spine) : Exp := (e.read isUppercase).whole

-- ---------------------------------------------------------------------------
-- When the two agree
-- ---------------------------------------------------------------------------

/-- A projection finds what is directly before it. An operand that nothing is applied to is not an
application, nor, when a name follows, a module's name that does not stand there bare; an argument
that a name follows is a bare module's name exactly if it is a module's name of one part. -/
def Reading.keeps (r : Reading) : Postfix → Bool
  | .typeArgument _ => true
  | .projection name _ =>
    match r.function, r.operand with
    | none, .app _ _ => false
    | none, .var _ x _ => name.isNone || !startsUpper isUppercase x || r.bare
    | some _, .var ms x _ => name.isNone || !startsUpper isUppercase x || r.bare == ms.isEmpty
    | _, _ => true

mutual
def Atom.keeps : Atom → Bool
  | .ident _ => true
  | .paren e => e.keeps
  | .other _ => true
/-- Every projection of an expression, those in parentheses included, finds what is directly
before it. -/
def Spine.keeps : Spine → Bool
  | .atom a => a.keeps
  | .app e a => e.keeps && a.keeps
  | .post e op => e.keeps && (e.read isUppercase).keeps isUppercase op.kind
end

variable {isUppercase}

/-- What the actions make of a postfix, arm by arm. -/
theorem applyPostfix_typeArgument (h : op.kind = .typeArgument c) (t : Exp) :
    applyPostfix isUppercase t op = .cApp t c := by
  cases op <;> cases h <;> rfl

/-- A name follows, and the tree `t` is a module's name under the modules `ms`. -/
def Qualifies (isUppercase : Char → Bool) (ms : List String) (t : Exp) (name : Option String) :
    Prop :=
  name.isSome ∧ ∃ x inf, t = .var ms x inf ∧ startsUpper isUppercase x = true

theorem applyPostfix_app_path (h : op.kind = .projection (some y) c)
    (hx : startsUpper isUppercase x = true) :
    applyPostfix isUppercase (.app f (.var [] x inf)) op = .app f (.var [x] y inf) := by
  cases op <;> cases h <;> simp [applyPostfix, applyDotName, hx]

theorem applyPostfix_app_field (h : op.kind = .projection name c)
    (ht : ¬Qualifies isUppercase [] t name) :
    applyPostfix isUppercase (.app f t) op = .app f (.field t c) := by
  cases op <;> cases h
  case dotHash | dotInt | dotCon => rfl
  all_goals
    rcases t with ⟨_ | ⟨m, ms⟩, x, inf⟩ | _ | _ | _ | _ <;> try rfl
    have hx : ¬startsUpper isUppercase x = true := fun hx => ht ⟨rfl, x, inf, rfl, hx⟩
    simp only [applyPostfix, applyDotName, List.isEmpty_nil, hx]
    rfl

theorem applyPostfix_app (isUppercase : Char → Bool) (h : op.kind = .projection name c) (f t : Exp) :
    ∃ x, applyPostfix isUppercase (.app f t) op = .app f x := by
  by_cases ht : Qualifies isUppercase [] t name
  · obtain ⟨y, rfl⟩ := Option.isSome_iff_exists.1 ht.1
    obtain ⟨-, x, inf, rfl, hx⟩ := ht
    exact ⟨_, applyPostfix_app_path h hx⟩
  · exact ⟨_, applyPostfix_app_field h ht⟩

theorem applyPostfix_path (h : op.kind = .projection (some y) c)
    (hx : startsUpper isUppercase x = true) :
    applyPostfix isUppercase (.var ms x inf) op = .var (ms ++ [x]) y inf := by
  cases op <;> cases h <;> simp [applyPostfix, applyDotName, hx]

theorem applyPostfix_field (h : op.kind = .projection name c) (happ : ∀ f x, t ≠ .app f x)
    (ht : ∀ ms, ¬Qualifies isUppercase ms t name) :
    applyPostfix isUppercase t op = .field t c := by
  cases op <;> cases h
  case dotHash | dotInt | dotCon =>
    rcases t with _ | ⟨f, x⟩ | _ | _ | _
    case app => exact absurd rfl (happ f x)
    all_goals rfl
  all_goals
    rcases t with ⟨ms, x, inf⟩ | ⟨f, x⟩ | _ | _ | _
    case app => exact absurd rfl (happ f x)
    case var =>
      have hx : ¬startsUpper isUppercase x = true := fun hx => ht ms ⟨rfl, x, inf, rfl, hx⟩
      simp only [applyPostfix, applyDotName, hx]
      rfl
    all_goals rfl

/-- What the tree `t` built for a chain has to do with the reading `r` of it: they agree exactly
if `k` is true, the tree of a chain with a function is an application, and a bare path is read
right. -/
structure Reading.Tracks (r : Reading) (t : Exp) (k : Bool) : Prop where
  whole : t = r.whole ↔ k = true
  applied : r.function = some f → ∃ g x, t = .app g x
  bare : r.function = none → r.bare = true → k = true
  path : r.bare = true → ∃ ms x inf, r.operand = .var ms x inf

theorem Reading.step_path {r : Reading} (h : r.operand = .var ms x inf) (hb : r.bare = true)
    (hx : startsUpper isUppercase x = true) (c : Con) :
    r.step isUppercase (.projection (some y) c) = ⟨r.function, .var (ms ++ [x]) y inf, true⟩ := by
  simp [Reading.step, Reading.path, h, hb, hx]

theorem Reading.step_field {r : Reading} {name : Option String}
    (h : name.bind (r.path isUppercase) = none) (c : Con) :
    r.step isUppercase (.projection name c) = ⟨r.function, .field r.operand c, false⟩ := by
  simp [Reading.step, h]

/-- Either a name follows a bare path that ends in a module's name, or the projection selects a
field. -/
theorem Reading.path_cases (isUppercase : Char → Bool) (r : Reading) (name : Option String) :
    (∃ y ms x inf, name = some y ∧ r.operand = .var ms x inf ∧ r.bare = true ∧
      startsUpper isUppercase x = true) ∨
    name.bind (r.path isUppercase) = none ∧
      ∀ ms, Qualifies isUppercase ms r.operand name → r.bare = false := by
  rcases name with _ | y
  · exact .inr ⟨rfl, fun ms h => nomatch h.1⟩
  rcases ho : r.operand with ⟨ms, x, inf⟩ | _ | _ | _ | _
  case var =>
    by_cases h : r.bare = true ∧ startsUpper isUppercase x = true
    · exact .inl ⟨y, ms, x, inf, rfl, rfl, h.1, h.2⟩
    · refine .inr ⟨by simp only [Option.bind_some, Reading.path, ho, if_neg h], ?_⟩
      rintro _ ⟨-, _, _, heq, hx⟩
      cases heq
      exact Bool.eq_false_iff.2 fun hb => h ⟨hb, hx⟩
  all_goals
    refine .inr ⟨by simp only [Option.bind_some, Reading.path, ho], ?_⟩
    rintro _ ⟨-, _, _, heq, -⟩
    cases heq

theorem Reading.keeps_argument {r : Reading} (hf : r.function = some f) {name : Option String} :
    r.keeps isUppercase (.projection name c) = true ↔
      ∀ ms, Qualifies isUppercase ms r.operand name → (r.bare = true ↔ ms = []) := by
  rcases ho : r.operand with ⟨ms, x, inf⟩ | _ | _ | _ | _
  case var =>
    rcases name with _ | y
    · simp [Reading.keeps, hf, ho, Qualifies]
    · cases hx : startsUpper isUppercase x
      · simp [Reading.keeps, hf, ho, hx, Qualifies]
      · cases ms <;> simp [Reading.keeps, hf, ho, hx, Qualifies]
  all_goals simp [Reading.keeps, hf, ho, Qualifies]

theorem Reading.keeps_head {r : Reading} (hf : r.function = none) {name : Option String} :
    r.keeps isUppercase (.projection name c) = true ↔
      (∀ f x, r.operand ≠ .app f x) ∧
      ∀ ms, Qualifies isUppercase ms r.operand name → r.bare = true := by
  rcases ho : r.operand with ⟨ms, x, inf⟩ | _ | _ | _ | _
  case var =>
    rcases name with _ | y
    · simp [Reading.keeps, hf, ho, Qualifies]
    · cases hx : startsUpper isUppercase x <;>
        simp [Reading.keeps, hf, ho, hx, Qualifies]
  all_goals simp [Reading.keeps, hf, ho, Qualifies]

/-- A projection from an argument. -/
theorem Reading.Tracks.argument {r : Reading} (h : r.Tracks (.app g t) k)
    (hf : r.function = some f) (hop : op.kind = .projection name c) :
    applyPostfix isUppercase (.app g t) op = (r.step isUppercase op.kind).whole ↔
      (k && r.keeps isUppercase op.kind) = true := by
  have hw : g = f ∧ t = r.operand ↔ k = true := by
    rw [← h.whole]
    simp [Reading.whole, hf]
  rw [Bool.and_eq_true, ← hw, hop, keeps_argument hf]
  obtain ⟨y, ms, x, inf, rfl, ho, hb, hx⟩ | ⟨hn, hfield⟩ :=
    r.path_cases isUppercase name
  · rw [Reading.step_path ho hb hx]
    by_cases ht : Qualifies isUppercase [] t (some y)
    · obtain ⟨-, x', inf', rfl, hx'⟩ := ht
      rw [applyPostfix_app_path hop hx']
      cases ms with
      | nil => simp [Reading.whole, hf, ho, hb, Qualifies]
      | cons m ms => simp [Reading.whole, hf, ho]
    · -- The action misses a path of several parts.
      rw [applyPostfix_app_field hop ht]
      simp only [Reading.whole, hf, Exp.app.injEq, reduceCtorEq, and_false, false_iff]
      rintro ⟨⟨-, rfl⟩, hk⟩
      have hms : ms = [] := (hk ms ⟨rfl, x, inf, ho, hx⟩).1 hb
      exact ht ⟨rfl, x, inf, hms ▸ ho, hx⟩
  · rw [Reading.step_field hn]
    by_cases ht : Qualifies isUppercase [] t name
    · -- The action takes a parenthesised name for a path.
      obtain ⟨y, rfl⟩ := Option.isSome_iff_exists.1 ht.1
      have ⟨_, x, inf, heq, hx⟩ := ht
      subst heq
      rw [applyPostfix_app_path hop hx]
      simp only [Reading.whole, hf, Exp.app.injEq, reduceCtorEq, and_false, false_iff]
      rintro ⟨⟨-, heq⟩, hk⟩
      rw [heq] at ht
      exact Bool.eq_false_iff.1 (hfield [] ht) ((hk [] ht).2 rfl)
    · rw [applyPostfix_app_field hop ht]
      simp only [Reading.whole, hf, Exp.app.injEq, Exp.field.injEq, and_true]
      refine ⟨fun hgt => ⟨hgt, fun ms hq => ?_⟩, And.left⟩
      rw [hfield ms hq]
      refine ⟨nofun, fun hms => absurd (hms ▸ hgt.2 ▸ hq) ht⟩

theorem Reading.Tracks.head {r : Reading} (h : r.Tracks t k)
    (hf : r.function = none) (hop : op.kind = .projection name c) :
    applyPostfix isUppercase t op = (r.step isUppercase op.kind).whole ↔
      (k && r.keeps isUppercase op.kind) = true := by
  have hw : t = r.operand ↔ k = true := by
    rw [← h.whole]
    simp [Reading.whole, hf]
  rw [Bool.and_eq_true, hop, keeps_head hf]
  obtain ⟨y, ms, x, inf, rfl, ho, hb, hx⟩ | ⟨hn, hfield⟩ :=
    r.path_cases isUppercase name
  · have hk := h.bare hf hb
    rw [hw.2 hk, ho, applyPostfix_path hop hx, Reading.step_path ho hb hx]
    simp [Reading.whole, hf, hb, hk]
  · rw [Reading.step_field hn, ← hw]
    by_cases ht : ∃ ms, Qualifies isUppercase ms t name
    · -- The action takes for a path what does not stand there bare.
      obtain ⟨ms, hq⟩ := ht
      obtain ⟨y, rfl⟩ := Option.isSome_iff_exists.1 hq.1
      have ⟨_, x, inf, heq, hx⟩ := hq
      subst heq
      rw [applyPostfix_path hop hx]
      simp only [Reading.whole, hf, reduceCtorEq, false_iff]
      rintro ⟨heq, -, hk⟩
      rw [heq] at hq
      exact Bool.eq_false_iff.1 (hfield ms hq) (hk ms hq)
    by_cases happ : ∃ f x, t = .app f x
    · -- The action goes into an application in parentheses.
      obtain ⟨f, x, rfl⟩ := happ
      obtain ⟨z, hz⟩ := applyPostfix_app isUppercase hop f x
      rw [hz]
      simp only [Reading.whole, hf, reduceCtorEq, false_iff]
      exact fun h => h.2.1 f x h.1.symm
    · rw [applyPostfix_field hop (fun f x h => happ ⟨f, x, h⟩) (fun ms h => ht ⟨ms, h⟩)]
      simp only [Reading.whole, hf, Exp.field.injEq, and_true]
      refine ⟨fun heq => ⟨heq, ?_, ?_⟩, And.left⟩
      · exact fun f x h => happ ⟨f, x, heq.trans h⟩
      · exact fun ms h => absurd ⟨ms, heq ▸ h⟩ ht

theorem Reading.Tracks.applied_step {r : Reading} (h : r.Tracks t k)
    (hop : op.kind = .projection name c) (hf : r.function = some f) :
    ∃ g x, applyPostfix isUppercase t op = .app g x := by
  obtain ⟨g, x, rfl⟩ := h.applied hf
  exact ⟨g, applyPostfix_app isUppercase hop g x⟩

theorem Reading.Tracks.step {r : Reading} (h : r.Tracks t k) (op : PostfixOp) :
    (r.step isUppercase op.kind).Tracks (applyPostfix isUppercase t op)
      (k && r.keeps isUppercase op.kind) := by
  cases hop : op.kind with
  | typeArgument c =>
    rw [applyPostfix_typeArgument hop]
    refine ⟨?_, nofun, nofun, nofun⟩
    simpa [Reading.step, Reading.whole, Reading.keeps] using h.whole
  | projection name c =>
    have hwhole : applyPostfix isUppercase t op = (r.step isUppercase op.kind).whole ↔
        (k && r.keeps isUppercase op.kind) = true := by
      cases hf : r.function with
      | none => exact h.head hf hop
      | some f =>
        obtain ⟨g, x, rfl⟩ := h.applied hf
        exact h.argument hf hop
    rw [hop] at hwhole
    obtain ⟨y, ms, x, inf, rfl, ho, hb, hx⟩ | ⟨hn, -⟩ :=
      r.path_cases isUppercase name
    · rw [Reading.step_path ho hb hx] at hwhole ⊢
      refine ⟨hwhole, h.applied_step hop, fun hf _ => ?_, fun _ => ⟨_, _, _, rfl⟩⟩
      have hr : r.keeps isUppercase (.projection (some y) c) = true :=
        (keeps_head (r := r) hf).2 ⟨fun f z hz => (nomatch ho.symm.trans hz), fun _ _ => hb⟩
      rw [Bool.and_eq_true]
      exact ⟨h.bare hf hb, hr⟩
    · rw [Reading.step_field hn] at hwhole ⊢
      exact ⟨hwhole, h.applied_step hop, nofun, nofun⟩

theorem Atom.bare_tree (a : Atom) (h : (a matches .ident _) = true) :
    ∃ ms x inf, a.tree isUppercase = .var ms x inf := by
  cases a with
  | ident name => exact ⟨_, _, _, rfl⟩
  | paren | other => cases h

mutual
theorem Atom.build_eq_tree_iff (isUppercase : Char → Bool) (a : Atom) :
    a.build isUppercase = a.tree isUppercase ↔ a.keeps isUppercase = true := by
  cases a with
  | ident name => simp [Atom.build, Atom.tree, Atom.keeps]
  | paren e => simpa [Atom.build, Atom.tree, Atom.keeps] using (Spine.tracks isUppercase e).whole
  | other tree => simp [Atom.build, Atom.tree, Atom.keeps]
theorem Spine.tracks (isUppercase : Char → Bool) (e : Spine) :
    (e.read isUppercase).Tracks (e.build isUppercase) (e.keeps isUppercase) := by
  cases e with
  | atom a =>
    have ha := Atom.build_eq_tree_iff isUppercase a
    refine ⟨by simpa [Spine.build, Spine.read, Spine.keeps, Reading.whole] using ha, nofun, ?_, ?_⟩
    · intro _ hb
      cases a <;> simp_all [Spine.read, Spine.keeps, Atom.keeps]
    · exact a.bare_tree
  | app e a =>
    have he := (Spine.tracks isUppercase e).whole
    have ha := Atom.build_eq_tree_iff isUppercase a
    refine ⟨?_, fun _ => ⟨_, _, rfl⟩, nofun, ?_⟩
    · rw [Spine.keeps, Bool.and_eq_true, ← he, ← ha]
      exact Exp.app.injEq .. ▸ Iff.rfl
    · exact a.bare_tree
  | post e op => exact (Spine.tracks isUppercase e).step op
end

/-- The actions build the tree in which projections apply to what is directly before them exactly
for the expressions whose projections all find it. -/
theorem build_eq_grouped_iff (isUppercase : Char → Bool) (e : Spine) :
    e.build isUppercase = e.grouped isUppercase ↔ e.keeps isUppercase = true :=
  (e.tracks isUppercase).whole

/-- `(f x).A` is read as `f` applied to `x.A`. -/
theorem build_ne_grouped_paren : ¬∀ (isUppercase : Char → Bool) (e : Spine),
    e.build isUppercase = e.grouped isUppercase := by
  intro h
  have hk := h Char.isUpper
    (.post (.atom (.paren (.app (.atom (.ident "f")) (.ident "x")))) (.dotUident "A"))
  cases hk

end

end UrWeb.Parse
