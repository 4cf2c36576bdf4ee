import UrWeb.Mono.SqlLiterals

/-!
# Literals in rewritten SQL text

The scanners alternate between two readings of a text, outside and inside
literals. What each reading makes of a doubled or an escaped literal decides
which pieces are misread.
-/

namespace UrWeb.Mono.SqlLiterals

open Text

-- ---------------------------------------------------------------------------
-- Budgets
-- ---------------------------------------------------------------------------

theorem length_copy_le (n : Nat) (s : List Char) :
    (copySqlSingleQuotedLiteral n s).2.length ≤ s.length := by
  induction n generalizing s with
  | zero => exact Nat.le_refl _
  | succ n ih =>
    cases s with
    | nil => exact Nat.le_refl _
    | cons c s =>
      have ht := ih s.tail
      have hs := ih s
      rw [List.length_tail] at ht
      rw [copySqlSingleQuotedLiteral]
      split_ifs <;> simp only [List.length_cons] <;> omega

theorem copy_budget (hn : s.length ≤ n) (hm : s.length ≤ m) :
    copySqlSingleQuotedLiteral n s = copySqlSingleQuotedLiteral m s := by
  induction n generalizing m s with
  | zero =>
    obtain rfl := List.length_eq_zero_iff.1 (Nat.le_zero.1 hn)
    cases m <;> rfl
  | succ n ih =>
    cases s with
    | nil => cases m <;> rfl
    | cons c s =>
      cases m with
      | zero => simp at hm
      | succ m =>
        simp only [List.length_cons, Nat.add_le_add_iff_right] at hn hm
        have ht : copySqlSingleQuotedLiteral n s.tail = copySqlSingleQuotedLiteral m s.tail :=
          ih (by rw [List.length_tail]; omega) (by rw [List.length_tail]; omega)
        simp only [copySqlSingleQuotedLiteral, ht, ih hn hm]

variable {rules : List (List Char × List Char)}

/-- Rules whose patterns and replacements have no quotes. -/
def Plain (rules : List (List Char × List Char)) : Prop :=
  ∀ r ∈ rules, r.1 ≠ [] ∧ quote ∉ r.1 ∧ quote ∉ r.2

theorem Plain.ne_nil (h : Plain rules) : ∀ r ∈ rules, r.1 ≠ [] := fun r hr => (h r hr).1

theorem scan_budget (hr : Plain rules) (hl : s.length ≤ l) (hl' : s.length ≤ l')
    (hn : s.length ≤ n) (hm : s.length ≤ m) : scan rules l n s = scan rules l' m s := by
  induction n generalizing m s with
  | zero =>
    obtain rfl := List.length_eq_zero_iff.1 (Nat.le_zero.1 hn)
    cases m <;> rfl
  | succ n ih =>
    cases s with
    | nil => cases m <;> rfl
    | cons c s =>
      cases m with
      | zero => simp at hm
      | succ m =>
        simp only [List.length_cons] at hl hl' hn hm
        simp only [scan]
        split
        next r hm' =>
          have hpos := List.length_pos_iff.2 (hr.ne_nil r (firstMatch_some hm').1)
          rw [ih] <;> rw [List.length_drop, List.length_cons] <;> omega
        next =>
          split_ifs
          · have hc := length_copy_le l' s
            rw [copy_budget (Nat.le_of_succ_le hl) (Nat.le_of_succ_le hl'), ih] <;> omega
          · rw [ih] <;> omega

-- ---------------------------------------------------------------------------
-- The two readings
-- ---------------------------------------------------------------------------

/-- A text read from outside a literal. -/
def outside (rules : List (List Char × List Char)) (s : List Char) : List Char :=
  scan rules s.length s.length s

/-- A text read from inside a literal. -/
def inside (rules : List (List Char × List Char)) (s : List Char) : List Char :=
  let r := copySqlSingleQuotedLiteral s.length s
  r.1 ++ outside rules r.2

@[simp] theorem outside_nil : outside rules [] = [] := rfl

theorem outside_some (hr : Plain rules) (h : firstMatch rules (r.1 ++ s) = some r) :
    outside rules (r.1 ++ s) = r.2 ++ outside rules s := by
  have hne := hr.ne_nil r (firstMatch_some h).1
  obtain ⟨pat, rep⟩ := r
  obtain ⟨c, a, rfl⟩ := List.exists_cons_of_ne_nil hne
  simp only [List.cons_append] at h
  simp only [outside, List.cons_append, List.length_cons, scan, h, List.drop_succ_cons,
    List.drop_left]
  rw [scan_budget hr] <;> simp <;> omega

theorem outside_none (hr : Plain rules) (h : firstMatch rules (c :: s) = none) (hc : c ≠ quote) :
    outside rules (c :: s) = c :: outside rules s := by
  simp only [outside, List.length_cons, scan, h, if_neg hc]
  rw [scan_budget hr] <;> simp

theorem firstMatch_quote (hr : Plain rules) (s : List Char) :
    firstMatch rules (quote :: s) = none := by
  refine firstMatch_eq_none.2 fun r hmem hp => ?_
  obtain ⟨c, a, ha⟩ := List.exists_cons_of_ne_nil (hr.ne_nil r hmem)
  rw [ha, List.cons_prefix_cons] at hp
  exact (hr r hmem).2.1 (by simp [ha, hp.1])

theorem outside_quote (hr : Plain rules) (s : List Char) :
    outside rules (quote :: s) = quote :: inside rules s := by
  have hlen := length_copy_le s.length s
  simp only [outside, inside, List.length_cons, scan, firstMatch_quote hr, if_true]
  rw [copy_budget (Nat.le_succ s.length) (Nat.le_refl _), scan_budget hr] <;> omega

@[simp] theorem inside_nil : inside rules [] = [] := rfl

theorem inside_quote (s : List Char) : inside rules (quote :: s) = quote :: outside rules s := by
  have hne : quote ≠ backslash := by decide
  simp [inside, copySqlSingleQuotedLiteral, hne]

theorem inside_backslash (rules : List (List Char × List Char))
    (hc : c = backslash ∨ c = quote) (s : List Char) :
    inside rules (backslash :: c :: s) = backslash :: c :: inside rules s := by
  have hcopy := copy_budget (s := s) (n := s.length + 1) (Nat.le_succ _) (Nat.le_refl _)
  have hne : quote ≠ backslash := by decide
  rcases hc with rfl | rfl <;> simp [inside, copySqlSingleQuotedLiteral, hcopy, hne]

theorem inside_other (hq : c ≠ quote)
    (hc : c = backslash → s.head? ≠ some backslash ∧ s.head? ≠ some quote) :
    inside rules (c :: s) = c :: inside rules s := by
  have h1 : ¬(c = backslash ∧ s.head? = some backslash) := fun h => (hc h.1).1 h.2
  have h2 : ¬(c = backslash ∧ s.head? = some quote) := fun h => (hc h.1).2 h.2
  simp [inside, copySqlSingleQuotedLiteral, h1, h2, hq]

/-- The end of the text, or a literal. -/
def Begins (t : List Char) : Prop := t = [] ∨ ∃ s, t = quote :: s

-- ---------------------------------------------------------------------------
-- Doubled literals
-- ---------------------------------------------------------------------------

@[simp] theorem doubled_nil : doubled [] = [] := rfl

@[simp] theorem doubled_quote (s : List Char) :
    doubled (quote :: s) = quote :: quote :: doubled s := rfl

theorem doubled_cons (h : c ≠ quote) (s : List Char) : doubled (c :: s) = c :: doubled s := by
  simp [doubled, h]

theorem doubled_append (s t : List Char) : doubled (s ++ t) = doubled s ++ doubled t :=
  List.flatMap_append

theorem doubled_of_not_mem (h : quote ∉ s) : doubled s = s := by
  induction s with
  | nil => rfl
  | cons c s ih =>
    rw [List.mem_cons, not_or] at h
    rw [doubled_cons (Ne.symm h.1), ih h.2]

theorem prefix_doubled (hp : quote ∉ pat) (ht : Begins t) :
    pat <+: doubled s ++ t ↔ pat <+: s := by
  induction pat generalizing s with
  | nil => simp
  | cons p pat ih =>
    rw [List.mem_cons, not_or] at hp
    cases s with
    | nil =>
      obtain rfl | ⟨t, rfl⟩ := ht
      · simp
      · simp [List.cons_prefix_cons, Ne.symm hp.1]
    | cons c s =>
      by_cases hc : c = quote
      · subst hc
        simp [List.cons_prefix_cons, Ne.symm hp.1]
      · rw [doubled_cons hc, List.cons_append, List.cons_prefix_cons, List.cons_prefix_cons,
          ih hp.2]

theorem firstMatch_doubled (hr : Plain rules) (ht : Begins t) (s : List Char) :
    firstMatch rules (doubled s ++ t) = firstMatch rules s :=
  firstMatch_congr fun r hmem => prefix_doubled (hr r hmem).2.1 ht

/-- What a reading that replaces patterns and keeps pairs of quotes makes of a doubled text. -/
theorem read_doubled (hr : Plain rules) (ht : Begins t) {f : List Char → List Char}
    (some : ∀ r s, firstMatch rules (r.1 ++ s) = some r → f (r.1 ++ s) = r.2 ++ f s)
    (none : ∀ c s, c ≠ quote → firstMatch rules (c :: s) = none → f (c :: s) = c :: f s)
    (quotes : ∀ s, f (quote :: quote :: s) = quote :: quote :: f s) (s : List Char) :
    f (doubled s ++ t) = doubled (rewrite rules s) ++ f t := by
  induction s using rewrite_induct hr.ne_nil with
  | nil => rfl
  | some r s hmem hm ih =>
    have hd := hm
    rw [← firstMatch_doubled hr ht, doubled_append, doubled_of_not_mem (hr r hmem).2.1,
      List.append_assoc] at hd
    rw [rewrite_some hm (hr.ne_nil r hmem), doubled_append, doubled_append,
      doubled_of_not_mem (hr r hmem).2.1, doubled_of_not_mem (hr r hmem).2.2, List.append_assoc,
      List.append_assoc, some r _ hd, ih]
  | none c s hm ih =>
    rw [rewrite_none hm]
    by_cases hc : c = quote
    · subst hc
      rw [doubled_quote, doubled_quote, List.cons_append, List.cons_append, quotes, ih]
      rfl
    · have hd := hm
      rw [← firstMatch_doubled hr ht, doubled_cons hc, List.cons_append] at hd
      rw [doubled_cons hc, doubled_cons hc, List.cons_append, none c _ hc hd, ih]
      rfl

/-- Read from outside, a doubled text is rewritten. -/
theorem outside_doubled (hr : Plain rules) (ht : Begins t) (s : List Char) :
    outside rules (doubled s ++ t) = doubled (rewrite rules s) ++ outside rules t := by
  refine read_doubled hr ht (fun r s hm => outside_some hr hm)
    (fun c s hc hm => outside_none hr hm hc) (fun s => ?_) s
  rw [outside_quote hr, inside_quote]

/-- A fragment that is read from outside. -/
theorem outside_fragment (hr : Plain rules) (ht : Begins t) (hs : quote ∉ s) :
    outside rules (s ++ t) = rewrite rules s ++ outside rules t := by
  have hc : quote ∉ rewrite rules s := by
    rw [← List.count_eq_zero, count_rewrite hr.ne_nil (fun r h => (hr r h).2),
      List.count_eq_zero]
    exact hs
  have h := outside_doubled hr ht s
  rwa [doubled_of_not_mem hs, doubled_of_not_mem hc] at h

/-- A backslash that has been read, if any, in front of a text. -/
def pending (odd : Bool) : List Char := if odd then [backslash] else []

/-- Reading on by one character that is no quote. -/
theorem inside_step (rules : List (List Char × List Char)) (hc : c ≠ quote) (odd : Bool)
    (s : List Char) :
    ∃ u, pending odd ++ [c] = u ++ pending (c = backslash && !odd) ∧
      inside rules (pending odd ++ c :: s) =
        u ++ inside rules (pending (c = backslash && !odd) ++ s) := by
  cases odd with
  | false =>
    by_cases hb : c = backslash
    · exact ⟨[], by simp [pending, hb], by simp [pending, hb]⟩
    · refine ⟨[c], by simp [pending, hb], ?_⟩
      simpa [pending, hb] using inside_other hc (fun h => absurd h hb)
  | true =>
    by_cases hb : c = backslash
    · subst hb
      exact ⟨[backslash, backslash], rfl, inside_backslash _ (.inl rfl) s⟩
    · refine ⟨[backslash, c], by simp [pending, hb], ?_⟩
      have hbs : inside rules (backslash :: c :: s) = backslash :: inside rules (c :: s) :=
        inside_other (by decide) (fun _ => by simp [hb, hc])
      simp only [pending, hb, List.cons_append, List.nil_append, decide_false, Bool.false_and,
        if_true, Bool.false_eq_true, if_false]
      rw [hbs, inside_other hc (fun h => absurd h hb)]

/-- A fragment that is read from inside. -/
theorem inside_fragment (hs : quote ∉ s) (odd : Bool) (t : List Char) :
    inside rules (pending odd ++ (s ++ quote :: t)) =
      pending odd ++ s ++ quote ::
        (if endsOdd odd s then inside rules t else outside rules t) := by
  induction s generalizing odd with
  | nil =>
    cases odd with
    | false => exact inside_quote t
    | true => exact inside_backslash _ (.inr rfl) t
  | cons c s ih =>
    rw [List.mem_cons, not_or] at hs
    obtain ⟨u, hu, hi⟩ := inside_step rules (Ne.symm hs.1) odd (s ++ quote :: t)
    rw [List.cons_append, hi, ih hs.2, endsOdd, ← List.append_assoc, ← List.append_assoc, ← hu]
    simp

/-- The last fragment, read from inside. -/
theorem inside_last (hs : quote ∉ s) (odd : Bool) :
    inside rules (pending odd ++ s) = pending odd ++ s := by
  induction s generalizing odd with
  | nil => cases odd <;> rfl
  | cons c s ih =>
    rw [List.mem_cons, not_or] at hs
    obtain ⟨u, hu, hi⟩ := inside_step rules (Ne.symm hs.1) odd s
    rw [hi, ih hs.2, ← List.append_assoc, ← hu]
    simp

theorem slip_other (hc : c ≠ quote) (odd : Bool) (s : List Char) :
    slip odd (c :: s) = slip (c = backslash && !odd) s := by
  rw [slip, if_neg hc]

/-- A doubled text in which no quote is taken for an escaped one. -/
theorem inside_of_not_slip (hr : Plain rules) (h : slip odd s = none) (t : List Char) :
    inside rules (pending odd ++ (doubled s ++ quote :: t)) =
      pending odd ++ doubled s ++ quote :: outside rules t := by
  induction s generalizing odd with
  | nil =>
    cases odd with
    | false => exact inside_quote t
    | true => cases h
  | cons c s ih =>
    by_cases hc : c = quote
    · subst hc
      cases odd with
      | true => cases h
      | false =>
        have hslip : slip false s = none := by simpa [slip] using h
        have hi := ih hslip
        simp only [pending, Bool.false_eq_true, if_false, List.nil_append, doubled_quote,
          List.cons_append] at hi ⊢
        rw [inside_quote, outside_quote hr, hi]
    · rw [slip_other hc] at h
      obtain ⟨u, hu, hs⟩ := inside_step rules hc odd (doubled s ++ quote :: t)
      rw [doubled_cons hc, List.cons_append, hs, ih h, ← List.append_assoc, ← List.append_assoc,
        ← hu]
      simp

/-- A doubled text is read from outside behind the first quote taken for an escaped one. -/
theorem inside_of_slip (hr : Plain rules) (h : slip odd s = some b) (t : List Char) :
    ∃ a, pending odd ++ doubled s = a ++ doubled b ∧
      inside rules (pending odd ++ (doubled s ++ quote :: t)) =
        a ++ (doubled (rewrite rules b) ++ quote :: inside rules t) := by
  induction s generalizing odd with
  | nil =>
    cases odd with
    | false => cases h
    | true =>
      cases h
      exact ⟨[backslash], rfl, inside_backslash _ (.inr rfl) t⟩
  | cons c s ih =>
    by_cases hc : c = quote
    · subst hc
      cases odd with
      | true =>
        cases h
        refine ⟨[backslash, quote, quote], rfl, ?_⟩
        have hb := outside_doubled hr (.inr ⟨t, rfl⟩) b
        rw [outside_quote hr] at hb
        calc inside rules (backslash :: quote :: quote :: (doubled b ++ quote :: t))
          _ = backslash :: quote :: quote :: outside rules (doubled b ++ quote :: t) := by
            rw [inside_backslash _ (.inr rfl), inside_quote]
          _ = _ := by
            rw [hb]
            rfl
      | false =>
        have hslip : slip false s = some b := by simpa [slip] using h
        obtain ⟨a, ha, hi⟩ := ih hslip
        refine ⟨quote :: quote :: a, ?_, ?_⟩
        · simpa [pending] using ha
        · simp only [pending, Bool.false_eq_true, if_false, List.nil_append, doubled_quote,
            List.cons_append] at hi ⊢
          rw [inside_quote, outside_quote hr, hi]
    · rw [slip_other hc] at h
      obtain ⟨a, ha, hi⟩ := ih h
      obtain ⟨u, hu, hs⟩ := inside_step rules hc odd (doubled s ++ quote :: t)
      refine ⟨u ++ a, ?_, ?_⟩
      · rw [doubled_cons hc, List.append_assoc u, ← ha, ← List.append_assoc u, ← hu]
        simp
      · rw [doubled_cons hc, List.cons_append, hs, hi, List.append_assoc]

-- ---------------------------------------------------------------------------
-- Escaped literals
-- ---------------------------------------------------------------------------

theorem inside_escaped (s t : List Char) :
    inside rules (escaped s ++ quote :: t) = escaped s ++ quote :: outside rules t := by
  induction s with
  | nil => exact inside_quote t
  | cons c s ih =>
    have hcons : escaped (c :: s) = (if c = quote then [backslash, quote]
      else if c = backslash then [backslash, backslash] else [c]) ++ escaped s := rfl
    rw [hcons]
    by_cases hq : c = quote
    · rw [if_pos hq, List.append_assoc, List.append_assoc]
      simpa [ih] using inside_backslash rules (.inr rfl) (escaped s ++ quote :: t)
    by_cases hb : c = backslash
    · rw [if_neg hq, if_pos hb, List.append_assoc, List.append_assoc]
      simpa [ih] using inside_backslash rules (.inl rfl) (escaped s ++ quote :: t)
    · rw [if_neg hq, if_neg hb, List.append_assoc, List.append_assoc, List.singleton_append,
        List.singleton_append, inside_other hq (fun h => absurd h hb), ih]

-- ---------------------------------------------------------------------------
-- Pieces
-- ---------------------------------------------------------------------------

/-- Texts with equally many quotes that a quote follows. -/
theorem append_quote_inj (h : a.count quote = b.count quote) :
    a ++ quote :: s = b ++ quote :: t ↔ a = b ∧ s = t := by
  constructor
  · intro heq
    induction a generalizing b with
    | nil =>
      cases b with
      | nil => exact ⟨rfl, (List.cons.inj heq).2⟩
      | cons c b =>
        obtain ⟨rfl, -⟩ := List.cons.inj heq
        simp at h
    | cons c a ih =>
      cases b with
      | nil =>
        obtain ⟨rfl, -⟩ := List.cons.inj heq
        simp at h
      | cons d b =>
        obtain ⟨rfl, htail⟩ := List.cons.inj heq
        simp only [List.count_cons, Nat.add_right_cancel_iff] at h
        obtain ⟨rfl, rfl⟩ := ih h htail
        exact ⟨rfl, rfl⟩
  · rintro ⟨rfl, rfl⟩
    rfl

theorem count_doubled (s : List Char) : (doubled s).count quote = 2 * s.count quote := by
  induction s with
  | nil => rfl
  | cons c s ih =>
    by_cases hc : c = quote
    · subst hc
      rw [doubled_quote, List.count_cons_self, List.count_cons_self, List.count_cons_self, ih]
      omega
    · rw [doubled_cons hc, List.count_cons_of_ne hc, List.count_cons_of_ne hc, ih]

theorem doubled_inj (h : doubled a = doubled b) : a = b := by
  induction a generalizing b with
  | nil =>
    cases b with
    | nil => rfl
    | cons c b => by_cases hc : c = quote <;> simp [doubled, hc] at h
  | cons c a ih =>
    cases b with
    | nil => by_cases hc : c = quote <;> simp [doubled, hc] at h
    | cons d b =>
      by_cases hc : c = quote <;> by_cases hd : d = quote
      · subst hc hd
        rw [ih (by simpa using h)]
      · subst hc
        rw [doubled_quote, doubled_cons hd] at h
        exact absurd (List.cons.inj h).1.symm hd
      · subst hd
        rw [doubled_quote, doubled_cons hc] at h
        exact absurd (List.cons.inj h).1 hc
      · rw [doubled_cons hc, doubled_cons hd] at h
        obtain ⟨rfl, htail⟩ := List.cons.inj h
        rw [ih htail]

theorem count_rewrite_quote (hr : Plain rules) (s : List Char) :
    (rewrite rules s).count quote = s.count quote :=
  count_rewrite hr.ne_nil (fun r h => (hr r h).2) s

/-- A doubled text, rewritten or not, and a quote behind it. -/
theorem doubled_rewrite_inj (hr : Plain rules) :
    doubled (rewrite rules b) ++ quote :: s = doubled b ++ quote :: t ↔
      rewrite rules b = b ∧ s = t := by
  rw [append_quote_inj (by rw [count_doubled, count_doubled, count_rewrite_quote hr])]
  exact and_congr_left' ⟨doubled_inj, congrArg doubled⟩

variable {db : ProjectDb}

/-- The text of literals and fragments, without the quote at its beginning. -/
def body (db : ProjectDb) (f : List Char → List Char) (x : List Char) (g : Fragment)
    (ps : List (List Char × Fragment)) : List Char :=
  doubled x ++ quote :: (f g.1 ++ literals db f ps)

theorem literals_cons (h : db.isMysql = false) (f : List Char → List Char) :
    literals db f ((x, g) :: ps) = quote :: body db f x g ps := by
  simp [literals, body, sqlifyString, h]

/-- How a scanner reads on behind the first quote. -/
def reading (rules : List (List Char × List Char)) (inStep : Bool) (s : List Char) : List Char :=
  if inStep then inside rules s else outside rules s

/-- What is read behind the first quote of `ps` comes out as it should exactly if the pieces that
are misread stay as they are. -/
def Settles (rules : List (List Char × List Char)) (db : ProjectDb)
    (ps : List (List Char × Fragment)) : Prop :=
  ∀ x g ps', ps = (x, g) :: ps' → ∀ inStep,
    (reading rules inStep (body db id x g ps') = body db (rewrite rules) x g ps' ↔
      ∀ s ∈ misread inStep ps, rewrite rules s = s)

theorem Settles.outside_iff (h : Settles rules db ps) (hr : Plain rules)
    (hdb : db.isMysql = false) :
    outside rules (literals db id ps) = literals db (rewrite rules) ps ↔
      ∀ s ∈ misread true ps, rewrite rules s = s := by
  cases ps with
  | nil => simp [literals, misread]
  | cons p ps =>
    obtain ⟨x, g⟩ := p
    rw [literals_cons hdb, literals_cons hdb, outside_quote hr, ← h x g ps rfl true]
    exact ⟨fun heq => (List.cons.inj heq).2, congrArg _⟩

theorem Settles.inside_iff (h : Settles rules db ps) (hr : Plain rules) (hdb : db.isMysql = false)
    (f : Fragment) :
    inside rules (f.1 ++ literals db id ps) = rewrite rules f.1 ++ literals db (rewrite rules) ps ↔
      rewrite rules f.1 = f.1 ∧ ∀ s ∈ misread (endsOdd false f.1) ps, rewrite rules s = s := by
  cases ps with
  | nil =>
    have hl : inside rules f.1 = f.1 := inside_last f.2 false
    simp [literals, misread, hl, eq_comm]
  | cons p ps =>
    obtain ⟨x, g⟩ := p
    have hf : inside rules (f.1 ++ quote :: body db id x g ps) =
        f.1 ++ quote :: reading rules (endsOdd false f.1) (body db id x g ps) :=
      inside_fragment f.2 false _
    rw [literals_cons hdb, literals_cons hdb, hf, ← h x g ps rfl,
      append_quote_inj (count_rewrite_quote hr _).symm]
    exact and_congr_left' eq_comm

theorem begins_literals (db : ProjectDb) (f : List Char → List Char)
    (ps : List (List Char × Fragment)) : Begins (literals db f ps) := by
  cases ps with
  | nil => exact .inl rfl
  | cons p ps =>
    refine .inr ?_
    cases hdb : db.isMysql <;> simp [literals, sqlifyString, hdb]

/-- One literal and the fragment behind it, in the three ways they can be read. -/
theorem Settles.cons (h : Settles rules db ps) (hr : Plain rules) (hdb : db.isMysql = false) :
    Settles rules db (p :: ps) := by
  rintro x g ps' hp inStep
  obtain ⟨rfl, rfl⟩ := List.cons.inj hp
  cases inStep with
  | false =>
    have hx : outside rules (body db id x g ps) =
        doubled (rewrite rules x) ++ quote :: inside rules (g.1 ++ literals db id ps) := by
      rw [← outside_quote hr]
      exact outside_doubled hr (.inr ⟨_, rfl⟩) x
    have hm : misread false ((x, g) :: ps) = x :: g.1 :: misread (endsOdd false g.1) ps := rfl
    rw [reading, if_neg Bool.false_ne_true, hx, hm, body, doubled_rewrite_inj hr,
      h.inside_iff hr hdb, List.forall_mem_cons, List.forall_mem_cons]
  | true =>
    rw [reading, if_pos rfl]
    cases hs : slip false x with
    | none =>
      have hm : misread true ((x, g) :: ps) = misread true ps := by simp [misread, hs]
      have hx : inside rules (body db id x g ps) =
          doubled x ++ quote :: outside rules (g.1 ++ literals db id ps) :=
        inside_of_not_slip hr hs _
      rw [hm, hx, outside_fragment hr (begins_literals db id ps) g.2, ← h.outside_iff hr hdb, body,
        append_quote_inj rfl]
      simp
    | some b =>
      have hm : misread true ((x, g) :: ps) = b :: g.1 :: misread (endsOdd false g.1) ps := by
        simp [misread, hs]
      obtain ⟨a, ha, hx⟩ := inside_of_slip hr hs (g.1 ++ literals db id ps)
      have ha' : doubled x = a ++ doubled b := ha
      have hx' : inside rules (body db id x g ps) = a ++ (doubled (rewrite rules b) ++
          quote :: inside rules (g.1 ++ literals db id ps)) := hx
      rw [hm, hx', body, ha', List.append_assoc, List.append_right_inj, doubled_rewrite_inj hr,
        h.inside_iff hr hdb, List.forall_mem_cons, List.forall_mem_cons]

theorem settles (hr : Plain rules) (hdb : db.isMysql = false) (ps : List (List Char × Fragment)) :
    Settles rules db ps := by
  induction ps with
  | nil => exact nofun
  | cons p ps ih => exact ih.cons hr hdb

-- ---------------------------------------------------------------------------
-- The passes
-- ---------------------------------------------------------------------------

/-- The scanner finds the end of every escaped literal. -/
theorem outside_escaped_literals (hr : Plain rules) (hdb : db.isMysql = true)
    (ps : List (List Char × Fragment)) :
    outside rules (literals db id ps) = literals db (rewrite rules) ps := by
  induction ps with
  | nil => rfl
  | cons p ps ih =>
    have hcons (f : List Char → List Char) : literals db f (p :: ps) =
        quote :: (escaped p.1 ++ quote :: (f p.2.1 ++ literals db f ps)) := by
      simp [literals, sqlifyString, hdb]
    rw [hcons, hcons, outside_quote hr, inside_escaped, id,
      outside_fragment hr (begins_literals db id ps) p.2.2, ih]

/-- The text with its fragments rewritten, and a scan of the text. -/
theorem scan_iff (hr : Plain rules) (p : SqlString) (db : ProjectDb) :
    outside rules (p.text db) = p.rewritten db (rewrite rules) ↔
      (db.isMysql = false → ∀ s ∈ misread true p.rest, rewrite rules s = s) := by
  rw [SqlString.text, SqlString.rewritten, SqlString.rewritten, id]
  cases hdb : db.isMysql with
  | true =>
    rw [outside_fragment hr (begins_literals db id _) p.first.2,
      outside_escaped_literals hr hdb]
    simp
  | false =>
    rw [outside_fragment hr (begins_literals db id _) p.first.2, List.append_right_inj,
      (settles hr hdb p.rest).outside_iff hr hdb]
    simp

theorem plain_aliases : Plain aliases := by
  simp [Plain, aliases, quote]

theorem plain_identifiers : Plain identifiers := by
  simp [Plain, identifiers, quote]

theorem plain_columns : Plain columns := by
  simp [Plain, columns, quote]

theorem unAs_iff (p : SqlString) (db : ProjectDb) :
    unAs (p.text db) = p.rewritten db (replace ['T', '_', 'T', '.'] []) ↔
      (db.isMysql = false → ∀ s ∈ misread true p.rest, Unmatched aliases s) := by
  have h (s : List Char) : rewrite aliases s = s ↔ Unmatched aliases s :=
    rewrite_eq_self_iff plain_aliases.ne_nil (.inl (by simp [aliases]))
  have hscan := scan_iff plain_aliases p db
  simp only [h] at hscan
  exact hscan

/-- A part with its text stripped. -/
def SqlExp.stripped : SqlExp → SqlExp
  | .string s => .string (unAs s)
  | e => e

theorem parts_eq (h : ∀ l ∈ e.leaves, parts l = some [l.stripped]) :
    parts e = some (e.leaves.map SqlExp.stripped) := by
  induction e with
  | strcat s1 s2 ih1 ih2 =>
    rw [SqlExp.leaves] at h
    have h1 := ih1 fun l hl => h l (List.mem_append_left _ hl)
    have h2 := ih2 fun l hl => h l (List.mem_append_right _ hl)
    simp only [parts, h1, h2, SqlExp.leaves, List.map_append]
  | string s => exact h _ (List.mem_singleton_self _)
  | ffiApp m f value => exact h _ (List.mem_singleton_self _)
  | other => exact h _ (List.mem_singleton_self _)

/-- The concatenation that is put together again. -/
theorem value_foldl (first : SqlExp) (ps : List SqlExp) :
    (ps.foldl (fun acc p => SqlExp.strcat p acc) first).value =
      (ps.reverse.flatMap SqlExp.value) ++ first.value := by
  induction ps generalizing first with
  | nil => rfl
  | cons p ps ih => simp [ih, SqlExp.value]

theorem unAs_fragment (f : Fragment) : unAs f.1 = replace ['T', '_', 'T', '.'] [] f.1 := by
  have h := outside_fragment plain_aliases (.inl rfl) f.2
  simp only [List.append_nil, outside_nil] at h
  exact h

theorem value_unAsExp (h : ∀ l ∈ e.leaves, parts l = some [l.stripped]) (hne : e.leaves ≠ []) :
    (unAsExp e).map SqlExp.value = some (e.leaves.flatMap fun l => l.stripped.value) := by
  rw [unAsExp, parts_eq h]
  simp only
  cases hr : (e.leaves.map SqlExp.stripped).reverse with
  | nil => simp_all
  | cons first ps =>
    have hl : e.leaves.map SqlExp.stripped = ps.reverse ++ [first] := by
      rw [← List.reverse_reverse (e.leaves.map SqlExp.stripped), hr, List.reverse_cons]
    have hf : (e.leaves.map SqlExp.stripped).flatMap SqlExp.value =
        e.leaves.flatMap fun l => l.stripped.value := List.flatMap_map ..
    rw [← hf, hl, List.flatMap_append, List.flatMap_singleton, Option.map_some, value_foldl]

/-- A concatenation whose literals are encoded at run time. -/
theorem unAsExp_eq (p : SqlString) (db : ProjectDb) (h : e.leaves = p.leaves db) :
    (unAsExp e).map SqlExp.value = some (p.rewritten db (replace ['T', '_', 'T', '.'] [])) := by
  have hparts : ∀ l ∈ e.leaves, parts l = some [l.stripped] := by
    rw [h, SqlString.leaves, List.forall_mem_cons]
    refine ⟨rfl, fun l hl => ?_⟩
    obtain ⟨q, -, hq⟩ := List.mem_flatMap.1 hl
    simp only [List.mem_cons, List.not_mem_nil, or_false] at hq
    rcases hq with rfl | rfl <;> rfl
  rw [value_unAsExp hparts (by simp [h, SqlString.leaves]), h, SqlString.leaves, List.flatMap_cons,
    List.flatMap_assoc]
  simp [SqlExp.stripped, SqlExp.value, SqlString.rewritten, literals, unAs_fragment]

theorem uwifyViewify_iff (p : SqlString) (db : ProjectDb) :
    uwifyViewify (p.text db) = p.rewritten db (rewrite columns) ↔
      (db.isMysql = false → ∀ s ∈ misread true p.rest, Unmatched columns s) := by
  have h (s : List Char) : rewrite columns s = s ↔ Unmatched columns s :=
    rewrite_eq_self_iff plain_columns.ne_nil (.inr (by simp [columns]))
  have hscan := scan_iff plain_columns p db
  simp only [h] at hscan
  exact hscan

theorem uwifyCheckString_iff (p : SqlString) (db : ProjectDb) :
    uwifyCheckString (p.text db) = p.renamed db ↔
      (db.isMysql = false → ∀ s ∈ misread true p.rest, Unmatched identifiers s) := by
  have h (s : List Char) : rewrite identifiers s = s ↔ Unmatched identifiers s :=
    rewrite_eq_self_iff plain_identifiers.ne_nil (.inr (by simp [identifiers]))
  obtain ⟨⟨first, hfirst⟩, rest⟩ := p
  by_cases hu : ∃ s, first = '_' :: s
  · obtain ⟨s, rfl⟩ := hu
    have hs : quote ∉ s := fun hm => hfirst (List.mem_cons_of_mem _ hm)
    have hscan := scan_iff plain_identifiers ⟨⟨s, hs⟩, rest⟩ db
    simp only [h] at hscan
    rw [← hscan]
    exact List.append_right_inj ['u', 'w', '_']
  · have hscan := scan_iff plain_identifiers ⟨⟨first, hfirst⟩, rest⟩ db
    simp only [h] at hscan
    have hr : SqlString.renamed ⟨⟨first, hfirst⟩, rest⟩ db =
        SqlString.rewritten ⟨⟨first, hfirst⟩, rest⟩ db (rewrite identifiers) := by
      unfold SqlString.renamed
      split
      next s heq => exact absurd ⟨s, heq⟩ hu
      next => rfl
    have hne (s : List Char) : first ++ literals db id rest ≠ '_' :: s := by
      intro heq
      cases first with
      | nil =>
        obtain hn | ⟨t, ht⟩ := begins_literals db id rest
        · simp [hn] at heq
        · simp [ht, quote] at heq
      | cons c first => exact hu ⟨first, by rw [(List.cons.inj heq).1]⟩
    have ht : uwifyCheckString (first ++ literals db id rest) =
        outside identifiers (first ++ literals db id rest) := by
      unfold uwifyCheckString
      split
      next s heq => exact absurd heq (hne s)
      next => rfl
    rw [hr, ← hscan]
    exact ht ▸ Iff.rfl

-- ---------------------------------------------------------------------------
-- Removing casts
-- ---------------------------------------------------------------------------

/-- A text without any of the patterns, removed one after the other. -/
def removeAll (pats : List (List Char)) (s : List Char) : List Char :=
  pats.foldl (fun s pat => replace pat [] s) s

/-- Patterns to remove that have no quotes. -/
def Bare (pats : List (List Char)) : Prop := ∀ pat ∈ pats, pat ≠ [] ∧ quote ∉ pat

theorem Bare.plain (h : Bare (pat :: pats)) : Plain [(pat, [])] := by
  simpa [Plain] using h pat (by simp)

theorem Bare.tail (h : Bare (pat :: pats)) : Bare pats :=
  fun q hq => h q (List.mem_cons_of_mem _ hq)

theorem rewrite_quote (hr : Plain rules) (s : List Char) :
    rewrite rules (quote :: s) = quote :: rewrite rules s :=
  rewrite_none (firstMatch_quote hr s)

theorem rewrite_doubled (hr : Plain rules) (ht : Begins t) (s : List Char) :
    rewrite rules (doubled s ++ t) = doubled (rewrite rules s) ++ rewrite rules t := by
  refine read_doubled hr ht (fun r s hm => ?_) (fun c s _ hm => rewrite_none hm) (fun s => ?_) s
  · exact rewrite_some hm (hr.ne_nil r (firstMatch_some hm).1)
  · rw [rewrite_quote hr, rewrite_quote hr]

theorem removeAll_quote (h : Bare pats) (t : List Char) :
    removeAll pats (quote :: t) = quote :: removeAll pats t := by
  induction pats generalizing t with
  | nil => rfl
  | cons pat pats ih =>
    have hq : replace pat [] (quote :: t) = quote :: replace pat [] t := rewrite_quote h.plain t
    rw [removeAll, List.foldl_cons, hq]
    exact ih h.tail _

theorem removeAll_doubled (h : Bare pats) (ht : Begins t) (s : List Char) :
    removeAll pats (doubled s ++ t) = doubled (removeAll pats s) ++ removeAll pats t := by
  induction pats generalizing s t with
  | nil => rfl
  | cons pat pats ih =>
    have hd : replace pat [] (doubled s ++ t) = doubled (replace pat [] s) ++ replace pat [] t :=
      rewrite_doubled h.plain ht s
    have ht' : Begins (replace pat [] t) := by
      obtain rfl | ⟨t, rfl⟩ := ht
      · exact .inl rfl
      · exact .inr ⟨_, rewrite_quote h.plain t⟩
    rw [removeAll, List.foldl_cons, hd]
    exact ih h.tail ht' _

theorem count_removeAll (h : Bare pats) (s : List Char) :
    (removeAll pats s).count quote = s.count quote := by
  induction pats generalizing s with
  | nil => rfl
  | cons pat pats ih =>
    rw [removeAll, List.foldl_cons]
    exact (ih h.tail _).trans (count_rewrite_quote h.plain s)

theorem length_replace_le (h : Bare (pat :: pats)) (s : List Char) :
    (replace pat [] s).length ≤ s.length := by
  refine length_rewrite_le h.plain.ne_nil ?_ s
  simpa using List.length_pos_iff.2 (h pat (by simp)).1

theorem length_removeAll_le (h : Bare pats) (s : List Char) :
    (removeAll pats s).length ≤ s.length := by
  induction pats generalizing s with
  | nil => exact Nat.le_refl _
  | cons pat pats ih => exact (ih h.tail _).trans (length_replace_le h s)

/-- A text stays as it is exactly if no pattern occurs in it. -/
theorem removeAll_eq_self_iff (h : Bare pats) :
    removeAll pats s = s ↔ ∀ pat ∈ pats, ¬pat <:+: s := by
  induction pats with
  | nil => simp [removeAll]
  | cons pat pats ih =>
    have hpat : replace pat [] s = s ↔ ¬pat <:+: s := by
      refine (rewrite_eq_self_iff h.plain.ne_nil (.inl ?_)).trans (by simp [Unmatched])
      simpa using List.length_pos_iff.2 (h pat (by simp)).1
    rw [List.forall_mem_cons, ← hpat, ← ih h.tail]
    constructor
    · intro heq
      have hs : replace pat [] s = s := by
        refine rewrite_eq_self_of_length h.plain.ne_nil ?_ ?_
        · simpa using List.length_pos_iff.2 (h pat (by simp)).1
        · exact (congrArg List.length heq).symm.le.trans (length_removeAll_le h.tail _)
      exact ⟨hs, by simpa [removeAll, hs] using heq⟩
    · rintro ⟨hs, heq⟩
      rw [removeAll, List.foldl_cons, hs]
      exact heq

theorem bare_casts : Bare casts := by
  simp [Bare, casts, quote]

/-- Removing patterns everywhere changes no literal exactly if none of them has a pattern in it. -/
theorem removeAll_literals_iff (h : Bare pats) (hdb : db.isMysql = false)
    (ps : List (List Char × Fragment)) :
    removeAll pats (literals db id ps) = literals db (removeAll pats) ps ↔
      ∀ q ∈ ps, removeAll pats q.1 = q.1 := by
  induction ps with
  | nil => simpa [literals] using (removeAll_eq_self_iff h).2 fun q hq hi =>
      (h q hq).1 (List.infix_nil.1 hi)
  | cons p ps ih =>
    obtain ⟨x, g⟩ := p
    have hx : removeAll pats (doubled x ++ quote :: (g.1 ++ literals db id ps)) =
        doubled (removeAll pats x) ++
          quote :: (removeAll pats g.1 ++ removeAll pats (literals db id ps)) := by
      have hg := removeAll_doubled h (begins_literals db id ps) g.1
      have hc : quote ∉ removeAll pats g.1 := by
        rw [← List.count_eq_zero, count_removeAll h, List.count_eq_zero]
        exact g.2
      rw [doubled_of_not_mem g.2, doubled_of_not_mem hc] at hg
      rw [removeAll_doubled h (.inr ⟨_, rfl⟩), removeAll_quote h, hg]
    rw [literals_cons hdb, literals_cons hdb, removeAll_quote h, body, body, id, hx,
      List.forall_mem_cons, ← ih, List.cons.injEq, and_iff_right rfl, append_quote_inj,
      List.append_right_inj]
    · exact and_congr_left' ⟨doubled_inj, congrArg doubled⟩
    · rw [count_doubled, count_doubled, count_removeAll h]

theorem normalizeDdlSql_iff (p : SqlString) (db : ProjectDb) :
    normalizeDdlSql db (p.text db) = p.rewritten db (normalizeDdlSql db) ↔
      (db.isSqlite = true → ∀ q ∈ p.rest, ∀ cast ∈ casts, ¬cast <:+: q.1) := by
  cases hdb : db.isSqlite with
  | false =>
    have hn : normalizeDdlSql db = id := by
      funext s
      simp [normalizeDdlSql, hdb]
    simp [hn, SqlString.text]
  | true =>
    have hn : normalizeDdlSql db = removeAll casts := by
      funext s
      simp [normalizeDdlSql, hdb, removeAll]
    have hmysql : db.isMysql = false := by
      simp only [ProjectDb.isSqlite, decide_eq_true_eq] at hdb
      rw [hdb]
      rfl
    have hf : quote ∉ removeAll casts p.first.1 := by
      rw [← List.count_eq_zero, count_removeAll bare_casts, List.count_eq_zero]
      exact p.first.2
    have hfirst := removeAll_doubled bare_casts (begins_literals db id p.rest) p.first.1
    rw [doubled_of_not_mem p.first.2, doubled_of_not_mem hf] at hfirst
    rw [hn, SqlString.text, SqlString.rewritten, SqlString.rewritten, id, hfirst,
      List.append_right_inj, removeAll_literals_iff bare_casts hmysql]
    simp only [removeAll_eq_self_iff bare_casts, true_implies]

-- ---------------------------------------------------------------------------
-- The result
-- ---------------------------------------------------------------------------

/-- The passes rewrite the fragments of a text and nothing else exactly if it is safe. -/
theorem respected_iff (p : SqlString) (db : ProjectDb) : p.Respected db ↔ p.Safe db := by
  have h1 := unAs_iff p db
  have h2 := uwifyCheckString_iff p db
  have h3 := uwifyViewify_iff p db
  have h4 := normalizeDdlSql_iff p db
  constructor
  · intro h
    refine ⟨fun hdb s hs => ⟨?_, ?_, ?_⟩, h4.1 h.normalizeDdlSql⟩
    · exact h1.1 h.unAs hdb s hs
    · exact h2.1 h.uwifyCheckString hdb s hs
    · exact h3.1 h.uwifyViewify hdb s hs
  · intro h
    refine ⟨h1.2 ?_, fun e he => unAsExp_eq p db he, h2.2 ?_, h3.2 ?_, h4.2 h.casts⟩
    · exact fun hdb s hs => (h.misread hdb s hs).1
    · exact fun hdb s hs => (h.misread hdb s hs).2.1
    · exact fun hdb s hs => (h.misread hdb s hs).2.2

/-- In `'\'T_T.a` the closing quote is taken for an escaped one, and the alias stays. -/
theorem not_respected_backslash : ¬∀ (p : SqlString) (db : ProjectDb), p.Respected db := by
  intro h
  have hs := (h ⟨⟨[], nofun⟩, [([backslash], ⟨['T', '_', 'T', '.', 'a'], by decide⟩)]⟩
    (.sql .postgresql)).unAs
  exact absurd hs (by decide)

end UrWeb.Mono.SqlLiterals
