import UrWeb.Lib.Insertion
import UrWeb.Parse.UrsQuantifiers

/-!
# The quantifier pass reads a text once

Whatever the pass reads, piece by piece up to its end or its early return, is
the text itself.
-/

namespace UrWeb.Parse.Urs

def IsColons (bs : Bytes) : Prop := bs = ascii "::" ∨ bs = ascii ":::"

def IsIdent (bs : Bytes) : Prop := bs ≠ [] ∧ ∀ b ∈ bs, idCont b

/-- A name, or anything between a brace or parenthesis and its counterpart. -/
def IsKindAtom (bs : Bytes) : Prop :=
  IsIdent bs ∨ ∃ inside, bs = 0x7b :: (inside ++ [0x7d]) ∨ bs = 0x28 :: (inside ++ [0x29])

/-- The parts of `ident :: kind`. -/
structure BareQuantifier (ident ws1 colons ws2 kind : Bytes) : Prop where
  ident : IsIdent ident
  ws1 : ∀ b ∈ ws1, isWs b
  colons : IsColons colons
  ws2 : ∀ b ∈ ws2, isWs b
  kind : IsKindAtom kind

def Piece.taken : Piece → Bytes
  | .raw bs | .slice bs => bs
  | .noKind ident ws1 colons ws2 => ident ++ ws1 ++ colons ++ ws2
  | .quantifier ident ws1 colons ws2 kind ws3 => ident ++ ws1 ++ colons ++ ws2 ++ kind ++ ws3

def Piece.Formed : Piece → Prop
  | .raw _ | .slice _ => True
  | .noKind _ _ colons _ => IsColons colons
  | .quantifier ident ws1 colons ws2 kind _ => BareQuantifier ident ws1 colons ws2 kind

def Stop.taken (s : Stop) : Bytes := s.pushed ++ s.pending ++ s.rest

def Ending.taken : Ending → Bytes
  | .complete rest => rest
  | .early s => s.taken

-- ---------------------------------------------------------------------------
-- Results and early returns
-- ---------------------------------------------------------------------------

/-- What holds of a result, and of an early return. -/
def Holds (P : α → Prop) (E : Stop → Prop) : Except Stop α → Prop
  | .ok a => P a
  | .error s => E s

theorem Holds.bind {x : Except Stop α} {f : α → Except Stop β} (hx : Holds Q E x)
    (hf : ∀ a, Q a → Holds P E (f a)) : Holds P E (x >>= f) := by
  cases x with
  | ok a => exact hf a hx
  | error s => exact hx

theorem Holds.imp {x : Except Stop α} (h : Holds P E x) (hP : ∀ a, P a → P' a)
    (hE : ∀ s, E s → E' s) : Holds P' E' x := by
  cases x with
  | ok a => exact hP a h
  | error s => exact hE s h

theorem Holds.map {x : Except Stop α} {f : α → β} (h : Holds (fun a => P (f a)) E x) :
    Holds P E (x.map f) := by
  cases x with
  | ok a => exact h
  | error s => exact h

theorem Holds.withPending {x : Except Stop α}
    (h : Holds P (fun s => E { s with pending := bs ++ s.pending }) x) :
    Holds P E (withPending bs x) := by
  cases x with
  | ok a => exact h
  | error s => exact h

/-- A reader has taken the source up to the rest it hands on. -/
def Took (bs : Bytes) (P : Bytes → Bytes → Prop) (a : Bytes × Nat × Bytes) : Prop :=
  bs = a.1 ++ a.2.2 ∧ P a.1 a.2.2

/-- Nothing was pushed since the reader was started, and nothing is lost from sight. -/
def Unpushed (bs : Bytes) (s : Stop) : Prop := s.pushed = [] ∧ bs = s.pending ++ s.rest

/-- Everything read was pushed. -/
def Pushed (bs : Bytes) (s : Stop) : Prop := s.pending = [] ∧ bs = s.pushed ++ s.rest

theorem Unpushed.withPending (h : Unpushed bs s) (hbs : whole = before ++ bs) :
    Unpushed whole { s with pending := before ++ s.pending } := by
  refine ⟨h.1, ?_⟩
  rw [hbs, h.2, List.append_assoc]

theorem push_holds {r : Reading} (h : Holds (Took bs fun _ _ => True) (Pushed bs) r) :
    Holds (Took (taken ++ bs) fun taken' _ => taken <+: taken') (Pushed (taken ++ bs))
      (r.push taken) := by
  cases r with
  | ok a => exact ⟨by rw [h.1, List.append_assoc], List.prefix_append _ _⟩
  | error s => exact ⟨h.1, by rw [h.2, List.append_assoc]⟩

theorem take_holds {r : Reading} (h : Holds (Took bs P) (Unpushed bs) r)
    (hP : ∀ taken' rest, P taken' rest → P' (taken ++ taken') rest) :
    Holds (Took (taken ++ bs) P') (Unpushed (taken ++ bs)) (r.take taken) := by
  cases r with
  | ok a => exact ⟨by rw [h.1, List.append_assoc], hP _ _ h.2⟩
  | error s => exact Unpushed.withPending h rfl

-- ---------------------------------------------------------------------------
-- Readers
-- ---------------------------------------------------------------------------

theorem comment_holds (fuel depth : Nat) (bs : Bytes) :
    Holds (Took bs fun _ _ => True) (Pushed bs) (comment fuel depth bs) := by
  fun_induction comment fuel depth bs with
  | case1 | case2 | case3 | case4 | case6 => exact ⟨rfl, by trivial⟩
  | case5 | case7 | case8 | case9 =>
    rename_i ih
    exact (push_holds ih).imp (fun a ha => ⟨ha.1, trivial⟩) fun s hs => hs

theorem stringBody_holds (fuel : Nat) (bs : Bytes) :
    Holds (Took bs fun _ _ => True) (Pushed bs) (stringBody fuel bs) := by
  fun_induction stringBody fuel bs with
  | case1 | case2 | case3 | case5 => exact ⟨rfl, by trivial⟩
  | case4 | case6 | case7 =>
    rename_i ih
    exact (push_holds ih).imp (fun a ha => ⟨ha.1, trivial⟩) fun s hs => hs

theorem span_holds (p : UInt8 → Bool) (fuel : Nat) (bs : Bytes) :
    Holds (Took bs fun taken rest => (∀ b ∈ taken, p b) ∧ ∀ b ∈ rest.head?, ¬ p b) (Unpushed bs)
      (span p fuel bs) := by
  fun_induction span p fuel bs with
  | case1 => exact ⟨rfl, rfl⟩
  | case2 => exact ⟨rfl, nofun, nofun⟩
  | case3 fuel fuel' _ b rest hb ih =>
    refine take_holds ih fun taken rest' h => ?_
    exact ⟨List.forall_mem_cons.mpr ⟨hb, h.1⟩, h.2⟩
  | case4 fuel fuel' _ b rest hb => exact ⟨rfl, nofun, by simpa using hb⟩

theorem idStart_idCont (h : idStart b) : idCont b := by
  simp only [idStart, idCont, Bool.or_eq_true, decide_eq_true_eq] at *
  tauto

/-- A name is read from where it starts. -/
theorem ident_holds (hb : idCont b) (fuel : Nat) (rest : Bytes) :
    Holds (Took (b :: rest) fun taken _ => IsIdent taken) (Unpushed (b :: rest))
      (span idCont fuel (b :: rest)) := by
  refine (span_holds idCont fuel (b :: rest)).imp ?_ fun s hs => hs
  rintro ⟨taken, fuel', rest'⟩ ⟨hbs, hall, hstop⟩
  refine ⟨hbs, ?_, hall⟩
  rintro rfl
  obtain rfl : b :: rest = rest' := hbs
  exact hstop b rfl hb

theorem balanced_holds (o c : UInt8) (fuel depth : Nat) (bs : Bytes) :
    Holds (Took bs fun taken _ => depth = 0 ∧ taken = [] ∨ ∃ inside, taken = inside ++ [c])
      (Unpushed bs) (scanKindAtomBalancedDelims o c fuel depth bs) := by
  fun_induction scanKindAtomBalancedDelims o c fuel depth bs with
  | case1 => exact ⟨rfl, rfl⟩
  | case3 => exact ⟨rfl, rfl⟩
  | case2 | case4 => exact ⟨rfl, Or.inl ⟨rfl, rfl⟩⟩
  | case5 _ _ _ _ b rest hd depth' ih =>
    refine take_holds ih fun taken rest' h => Or.inr ?_
    obtain ⟨hzero, rfl⟩ | ⟨inside, rfl⟩ := h
    · have hb : b = c := by
        by_contra hb
        by_cases ho : b = o
        · exact absurd hzero (by simp [depth', ho])
        · exact hd (by simpa [depth', ho, hb] using hzero)
      exact ⟨[], by rw [hb]; rfl⟩
    · exact ⟨b :: inside, rfl⟩

theorem parseColons_some (h : parseDoubleOrTripleColon bs = some (colons, rest)) :
    IsColons colons ∧ bs = colons ++ rest := by
  unfold parseDoubleOrTripleColon at h
  by_cases h3 : bs.take 3 = ascii ":::" ∧ bs[3]? ≠ some 0x3a
  · rw [if_pos h3] at h
    obtain ⟨rfl, rfl⟩ := Prod.mk.inj (Option.some.inj h)
    exact ⟨Or.inr rfl, by rw [← h3.1, List.take_append_drop]⟩
  · rw [if_neg h3] at h
    by_cases h2 : bs.take 2 = ascii "::" ∧ bs[2]? ≠ some 0x3a
    · rw [if_pos h2] at h
      obtain ⟨rfl, rfl⟩ := Prod.mk.inj (Option.some.inj h)
      exact ⟨Or.inl rfl, by rw [← h2.1, List.take_append_drop]⟩
    · rw [if_neg h2] at h
      cases h

/-- What `kindAtom` answers for a source. -/
def KindTook (bs : Bytes) : Option (Bytes × Nat × Bytes) → Prop
  | none => True
  | some a => Took bs (fun taken _ => IsKindAtom taken) a

theorem kindAtom_holds (fuel : Nat) (bs : Bytes) :
    Holds (KindTook bs) (Unpushed bs) (kindAtom fuel bs) := by
  have hdelims (o c : UInt8) (rest : Bytes) (hoc : ∀ inside, IsKindAtom (o :: (inside ++ [c]))) :
      Holds (KindTook (o :: rest)) (Unpushed (o :: rest))
        (((scanKindAtomBalancedDelims o c fuel 1 rest).take [o]).map some) := by
    refine Holds.map ?_
    change Holds (Took ([o] ++ rest) fun taken _ => IsKindAtom taken) (Unpushed ([o] ++ rest)) _
    refine take_holds (balanced_holds o c fuel 1 rest) fun taken rest' h => ?_
    obtain ⟨hz, -⟩ | ⟨inside, rfl⟩ := h
    · exact absurd hz Nat.one_ne_zero
    · exact hoc inside
  cases bs with
  | nil => exact trivial
  | cons b rest =>
    simp only [kindAtom]
    by_cases h1 : b = 0x7b
    · subst h1
      exact hdelims _ _ rest fun inside => Or.inr ⟨inside, Or.inl rfl⟩
    rw [if_neg h1]
    by_cases h2 : b = 0x28
    · subst h2
      exact hdelims _ _ rest fun inside => Or.inr ⟨inside, Or.inr rfl⟩
    rw [if_neg h2]
    by_cases h3 : idStart b
    · rw [if_pos h3]
      refine Holds.map ((ident_holds (idStart_idCont h3) fuel rest).imp ?_ fun s hs => hs)
      exact fun a ha => ⟨ha.1, Or.inl ha.2⟩
    · rw [if_neg h3]
      trivial

/-- What one round takes from a source. -/
def StepTook (bs : Bytes) (st : Step) : Prop :=
  bs = st.piece.taken ++ st.rest ∧ st.piece.taken ≠ [] ∧ st.piece.Formed

theorem colonsAndKind_holds (hident : IsIdent ident) (hws1 : ∀ b ∈ ws1, isWs b)
    (hcolons : IsColons colons) (fuel : Nat) (bs : Bytes) :
    Holds (StepTook (ident ++ ws1 ++ colons ++ bs)) (Unpushed (ident ++ ws1 ++ colons ++ bs))
      (colonsAndKind ident ws1 fuel colons bs) := by
  unfold colonsAndKind
  refine Holds.bind (Holds.withPending ((span_holds isWs fuel bs).imp (fun a ha => ha)
    fun s hs => hs.withPending rfl)) ?_
  rintro ⟨ws2, fuel2, bs2⟩ ⟨rfl, hws2, -⟩
  refine Holds.bind (Holds.withPending ((kindAtom_holds fuel2 bs2).imp (fun a ha => ha)
    fun s hs => hs.withPending (by simp))) ?_
  rintro (_ | ⟨kind, fuel3, bs3⟩) hkind
  · exact ⟨by simp [Piece.taken], by simp [Piece.taken, hident.1], hcolons⟩
  · obtain ⟨rfl, hkind⟩ := hkind
    refine Holds.bind (Holds.withPending ((span_holds isWs fuel3 bs3).imp (fun a ha => ha)
      fun s hs => hs.withPending (by simp))) ?_
    rintro ⟨ws3, fuel4, bs4⟩ ⟨rfl, -, -⟩
    dsimp only
    by_cases harrow : startsArrow bs4
    · rw [if_pos harrow]
      exact ⟨by simp [Piece.taken], by simp [Piece.taken, hident.1],
        ⟨hident, hws1, hcolons, hws2, hkind⟩⟩
    · rw [if_neg harrow]
      exact ⟨by simp [Piece.taken], by simp [Piece.taken, hident.1], trivial⟩

theorem word_holds (fuel : Nat) (last : Bytes) (hb : idCont b) (rest : Bytes) :
    Holds (StepTook (b :: rest)) (Unpushed (b :: rest)) (word fuel last (b :: rest)) := by
  unfold word
  refine Holds.bind (ident_holds hb fuel rest) ?_
  rintro ⟨ident, fuel1, bs1⟩ ⟨hbs, hident⟩
  dsimp only at hbs hident ⊢
  rw [hbs]
  split
  · exact ⟨rfl, hident.1, trivial⟩
  · refine Holds.bind (Holds.withPending ((span_holds isWs fuel1 bs1).imp (fun a ha => ha)
      fun s hs => hs.withPending rfl)) ?_
    rintro ⟨ws1, fuel2, bs2⟩ ⟨rfl, hws1, -⟩
    dsimp only
    split
    · exact ⟨by simp [Piece.taken], by simp [Piece.taken, hident.1], trivial⟩
    · rename_i colons bs3 hsome
      obtain ⟨hcolons, rfl⟩ := parseColons_some hsome
      simpa using colonsAndKind_holds hident hws1 hcolons fuel2 bs3

/-- One round takes a piece of the source, or stops with all of it in view. Only a word can be
read and not pushed. -/
theorem step_holds (fuel : Nat) (last : Bytes) (b : UInt8) (rest : Bytes) :
    Holds (StepTook (b :: rest))
      (fun s => Unpushed (b :: rest) s ∧ idStart b ∨ Pushed (b :: rest) s)
      (step fuel last b rest) := by
  have hone (f : Nat) (l : Bytes) : StepTook (b :: rest) ⟨.raw [b], f, l, rest⟩ :=
    ⟨rfl, List.cons_ne_nil _ _, trivial⟩
  unfold step
  by_cases h1 : b = 0x28 ∧ rest.head? = some 0x2a
  · rw [if_pos h1]
    obtain ⟨rfl, hrest⟩ := h1
    obtain ⟨rest, rfl⟩ := List.head?_eq_some_iff.mp hrest
    refine Holds.bind ((push_holds (comment_holds fuel 1 rest)).imp (fun a ha => ha)
      fun s hs => Or.inr hs) ?_
    rintro ⟨taken, fuel', rest'⟩ ⟨hbs, hpre⟩
    exact ⟨hbs, hpre.ne_nil (List.cons_ne_nil _ _), trivial⟩
  rw [if_neg h1]
  by_cases h2 : b = 0x22
  · rw [if_pos h2]
    refine Holds.bind ((push_holds (stringBody_holds fuel rest)).imp (fun a ha => ha)
      fun s hs => Or.inr hs) ?_
    rintro ⟨taken, fuel', rest'⟩ ⟨hbs, hpre⟩
    have hne : taken ≠ [] := hpre.ne_nil (List.cons_ne_nil _ _)
    refine ⟨?_, List.append_ne_nil_of_left_ne_nil hne _, trivial⟩
    change b :: rest = (taken ++ rest'.take 1) ++ rest'.drop 1
    rw [List.append_assoc, List.take_append_drop]
    exact hbs
  rw [if_neg h2]
  by_cases h3 : isWs b
  · rw [if_pos h3]
    exact hone _ _
  rw [if_neg h3]
  by_cases h4 : idStart b
  · rw [if_pos h4]
    exact (word_holds fuel last (idStart_idCont h4) rest).imp (fun a ha => ha)
      fun s hs => Or.inl ⟨hs, h4⟩
  · rw [if_neg h4]
    exact hone _ _

-- ---------------------------------------------------------------------------
-- The whole pass
-- ---------------------------------------------------------------------------

/-- What the pass has read and not pushed when it returns early begins a name. -/
def Ending.Formed : Ending → Prop
  | .complete rest => rest = []
  | .early s => s.pushed = [] ∧ (∀ b ∈ s.pending.head?, idCont b) ∨ s.pending = []

theorem scan_taken (rounds fuel : Nat) (last bs : Bytes) (h : bs.length < rounds) :
    bs = (scan rounds fuel last bs).1.flatMap Piece.taken ++ (scan rounds fuel last bs).2.taken ∧
      (∀ p ∈ (scan rounds fuel last bs).1, p.Formed) ∧ (scan rounds fuel last bs).2.Formed := by
  induction rounds generalizing fuel last bs with
  | zero => exact absurd h (Nat.not_lt_zero _)
  | succ rounds ih =>
    cases bs with
    | nil => exact ⟨rfl, nofun, rfl⟩
    | cons b rest =>
      unfold scan
      cases burn 1 fuel with
      | none => exact ⟨rfl, nofun, Or.inr rfl⟩
      | some fuel' =>
        have hstep := step_holds fuel' last b rest
        dsimp only
        cases hst : step fuel' last b rest with
        | error s =>
          rw [hst] at hstep
          obtain ⟨⟨hpushed, hbs⟩, hb⟩ | ⟨hpending, hbs⟩ := hstep
          · refine ⟨by simp [Ending.taken, Stop.taken, hpushed, hbs], nofun, Or.inl ⟨hpushed, ?_⟩⟩
            intro c hc
            cases hp : s.pending with
            | nil => simp [hp] at hc
            | cons d _ =>
              rw [hp] at hbs hc
              obtain rfl : d = c := by simpa using hc
              obtain ⟨rfl, -⟩ := List.cons.inj hbs
              exact idStart_idCont hb
          · exact ⟨by simp [Ending.taken, Stop.taken, hpending, hbs], nofun, Or.inr hpending⟩
        | ok st =>
          rw [hst] at hstep
          obtain ⟨hbs, hne, hformed⟩ := hstep
          have hlen : st.rest.length < rounds := by
            have hl := congrArg List.length hbs
            have hpos := List.length_pos_iff.mpr hne
            simp only [List.length_append, List.length_cons] at hl h
            omega
          obtain ⟨hrest, hall, hend⟩ := ih st.fuel st.last st.rest hlen
          refine ⟨?_, List.forall_mem_cons.mpr ⟨hformed, hall⟩, hend⟩
          rw [List.flatMap_cons, List.append_assoc, ← hrest]
          exact hbs

theorem pieces_taken (s : Bytes) :
    s = (pieces s).1.flatMap Piece.taken ++ (pieces s).2.taken ∧
      (∀ p ∈ (pieces s).1, p.Formed) ∧ (pieces s).2.Formed :=
  scan_taken _ _ _ s (Nat.lt_add_of_pos_right (Nat.succ_pos 1))

end UrWeb.Parse.Urs
