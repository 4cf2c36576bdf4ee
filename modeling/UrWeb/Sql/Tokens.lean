import UrWeb.Sql.Balanced

/-!
# Tokens

SQL text as a list of words, single characters and bracketed groups. Splitting
the text at a keyword is splitting the list at the keyword's own tokens, if
they do not touch another word. A comment that is never closed hides what
follows it.
-/

namespace UrWeb.Sql

inductive Tok where
  | word (w : Text)
  | ch (c : Char)
  | group (s : Text)
  | comment
  deriving DecidableEq

def Tok.text : Tok → Text
  | .word w => w
  | .ch c => [c]
  | .group s => s
  | .comment => ['(', '*', ')']

def flat (ts : List Tok) : Text := ts.flatMap Tok.text

@[simp] theorem flat_nil : flat [] = [] := rfl

@[simp] theorem flat_cons (t : Tok) (ts : List Tok) : flat (t :: ts) = t.text ++ flat ts := by
  simp [flat]

@[simp] theorem flat_append (ts ts' : List Tok) : flat (ts ++ ts') = flat ts ++ flat ts' := by
  simp [flat]

def Tok.isWord : Tok → Bool
  | .word _ => true
  | _ => false

/-- A pair of brackets with balanced text between them. -/
inductive Group : Text → Prop
  | paren {inner : Text} (hstar : inner.head? ≠ some '*') (hin : Balanced inner) :
      Group ('(' :: (inner ++ [')']))
  | brace {inner : Text} (hin : Balanced inner) : Group ('\x7b' :: (inner ++ ['\x7d']))

def Tok.Ok : Tok → Prop
  | .word w => w ≠ [] ∧ ∀ c ∈ w, isIdentifierByte c
  | .ch c => ¬ isIdentifierByte c ∧ Plain c
  | .group s => Group s
  | .comment => True

/-- Words do not touch, and nothing closes a comment. -/
def Tidy : List Tok → Prop
  | [] => True
  | t :: ts => t.Ok ∧ (t.isWord → ts.head?.any Tok.isWord = false) ∧
      (t = .comment → '*' ∉ flat ts) ∧ Tidy ts

-- ---------------------------------------------------------------------------
-- Characters
-- ---------------------------------------------------------------------------

theorem isIdentifierByte_plain (h : isIdentifierByte c) : Plain c := by
  refine ⟨?_, ?_, ?_, ?_, ?_⟩ <;> rintro rfl <;> revert h <;> decide

theorem Group.balanced (h : Group s) : Balanced s := by
  cases h with
  | paren hstar hin => exact .paren hstar hin .nil
  | brace hin => exact .brace hin .nil

theorem Group.head_not_ident (h : Group s) (rest : Text) :
    (s ++ rest).head?.any isIdentifierByte = false := by
  cases h <;> rfl

theorem Group.last_not_ident (h : Group s) (before : Text) :
    (s.reverse ++ before).head?.any isIdentifierByte = false := by
  cases h <;> simp <;> rfl

/-- Text starts with an identifier character exactly if it starts with a word. -/
theorem Tidy.head_ident (h : Tidy ts) :
    (flat ts).head?.any isIdentifierByte = ts.head?.any Tok.isWord := by
  cases ts with
  | nil => rfl
  | cons t ts =>
    cases t with
    | word w =>
      obtain ⟨⟨hne, hw⟩, -⟩ := h
      obtain ⟨c, cs, rfl⟩ := List.exists_cons_of_ne_nil hne
      simp [Tok.text, Tok.isWord, hw c List.mem_cons_self]
    | ch c => simpa [Tok.text, Tok.isWord] using h.1.1
    | group s => exact h.1.head_not_ident _
    | comment => rfl

-- ---------------------------------------------------------------------------
-- Keywords
-- ---------------------------------------------------------------------------

/-- The tokens of a keyword. -/
def Keyword (kw : List Tok) : Prop :=
  Tidy kw ∧ ∀ t ∈ kw, (∃ w, t = .word w) ∨ ∃ c, t = .ch c

theorem Keyword.tail (h : Keyword (t :: kw)) : Keyword kw :=
  ⟨h.1.2.2.2, fun t' ht' => h.2 t' (List.mem_cons_of_mem _ ht')⟩

/-- A word of the text, as far as the identifier goes, is a token. -/
theorem Tidy.of_word_prefix (h : Tidy ts) (hne : w ≠ []) (hw : ∀ c ∈ w, isIdentifierByte c)
    (hpre : w <+: flat ts) (hnext : ((flat ts).drop w.length).head?.any isIdentifierByte = false) :
    ∃ ts', ts = .word w :: ts' := by
  obtain ⟨c, cs, rfl⟩ := List.exists_cons_of_ne_nil hne
  have hc := hw c List.mem_cons_self
  have hhead : (flat ts).head?.any isIdentifierByte = true := by
    obtain ⟨rest, hrest⟩ := hpre
    rw [← hrest]
    simpa using hc
  rw [h.head_ident] at hhead
  cases ts with
  | nil => cases hhead
  | cons t ts =>
    cases t with
    | word w' =>
      obtain ⟨⟨-, hw'⟩, hsep, -, hts⟩ := h
      refine ⟨ts, ?_⟩
      congr 1
      have htail : (flat ts).head?.any isIdentifierByte = false := by
        rw [hts.head_ident]
        exact hsep rfl
      simp only [flat_cons, Tok.text] at hpre hnext ⊢
      rcases List.prefix_or_prefix_of_prefix hpre (List.prefix_append w' (flat ts)) with hle | hle
      · -- the keyword ends inside the word
        obtain ⟨tail, rfl⟩ := hle
        cases tail with
        | nil => simp
        | cons d tail =>
          have hd : isIdentifierByte d := hw' d (by simp)
          rw [List.append_assoc, List.drop_left] at hnext
          simp [hd] at hnext
      · -- the word ends inside the keyword
        obtain ⟨tail, htl⟩ := hle
        cases tail with
        | nil => simpa using htl
        | cons d tail =>
          have hd : isIdentifierByte d := hw d (by rw [← htl]; simp)
          rw [← htl, List.prefix_append_right_inj] at hpre
          obtain ⟨rest, hrest⟩ := hpre
          rw [← hrest] at htail
          simp [hd] at htail
    | _ => cases hhead

theorem prefix_flat_iff (hkw : Keyword kw) (h : Tidy ts) :
    flat kw <+: flat ts ∧
        ((flat ts).drop (flat kw).length).head?.any isIdentifierByte = false ↔
      ∃ rest, ts = kw ++ rest ∧ rest.head?.any Tok.isWord = false := by
  constructor
  · rintro ⟨hpre, hnext⟩
    induction kw generalizing ts with
    | nil => exact ⟨ts, rfl, by simpa [h.head_ident] using hnext⟩
    | cons k kw ih =>
      have hone : ∃ ts', ts = k :: ts' := by
        rcases hkw.2 k List.mem_cons_self with ⟨w, rfl⟩ | ⟨c, rfl⟩
        · obtain ⟨⟨hne, hw⟩, hsep, -, hkw'⟩ := hkw.1
          apply h.of_word_prefix hne hw
          · exact (List.prefix_append w (flat kw)).trans (by simpa [Tok.text] using hpre)
          · -- the next character is that of the next token, or the end of the keyword
            obtain ⟨rest, hrest⟩ := hpre
            rw [← hrest] at hnext ⊢
            simp only [flat_cons, Tok.text, List.append_assoc, List.drop_left] at hnext ⊢
            cases kw with
            | nil => simpa using hnext
            | cons k' kw =>
              have := hkw'.head_ident
              rw [hsep rfl] at this
              rcases hflat : flat (k' :: kw) with _ | ⟨d, ds⟩
              · rcases hkw.2 k' (by simp) with ⟨w', rfl⟩ | ⟨c', rfl⟩
                · simp [Tok.text, hkw'.1.1] at hflat
                · simp [Tok.text] at hflat
              · rw [hflat] at this
                simpa using this
        · obtain ⟨rest, hrest⟩ := hpre
          obtain ⟨hc, hplain⟩ := hkw.1.1
          cases ts with
          | nil => simp [Tok.text] at hrest
          | cons t ts =>
            cases t with
            | word w =>
              obtain ⟨⟨hne, hw⟩, -⟩ := h
              obtain ⟨d, ds, rfl⟩ := List.exists_cons_of_ne_nil hne
              simp only [flat_cons, Tok.text, List.cons_append, List.nil_append,
                List.cons.injEq] at hrest
              exact absurd (hw c (by simp [hrest.1])) hc
            | ch d =>
              simp only [flat_cons, Tok.text, List.cons_append, List.nil_append,
                List.cons.injEq] at hrest
              exact ⟨ts, by rw [hrest.1]⟩
            | group s =>
              obtain ⟨hgroup, -⟩ := h
              obtain ⟨h1, h2, h3, h4, h5⟩ := hplain
              cases hgroup <;> simp_all [Tok.text]
            | comment =>
              obtain ⟨h1, h2, h3, h4, h5⟩ := hplain
              simp_all [Tok.text]
      obtain ⟨ts', rfl⟩ := hone
      simp only [flat_cons, List.prefix_append_right_inj, List.length_append,
        List.drop_append] at hpre hnext
      obtain ⟨rest, rfl, hrest⟩ := ih hkw.tail h.2.2.2 hpre (by simpa using hnext)
      exact ⟨rest, rfl, hrest⟩
  · rintro ⟨rest, rfl, hrest⟩
    have hright : Tidy rest := by
      clear hkw hrest
      induction kw with
      | nil => exact h
      | cons k kw ih => exact ih h.2.2.2
    refine ⟨by simp, ?_⟩
    rw [flat_append, List.drop_left, hright.head_ident]
    exact hrest

-- ---------------------------------------------------------------------------
-- Splitting
-- ---------------------------------------------------------------------------

/-- The keyword starts here, neither behind a word nor in front of one. -/
def startsHere (kw : List Tok) (behindWord : Bool) (ts : List Tok) : Bool :=
  kw.isPrefixOf ts && !behindWord && !((ts.drop kw.length).head?.any Tok.isWord)

/-- The tokens before and from the first place where something starts. -/
def findToks (starts : Bool → List Tok → Bool) (behindWord : Bool) :
    List Tok → Option (List Tok × List Tok)
  | [] => none
  | .comment :: _ => none
  | t :: ts =>
    if starts behindWord (t :: ts) then some ([], t :: ts)
    else (findToks starts t.isWord ts).map fun (left, right) => (t :: left, right)

/-- The scanner's test agrees with a test of tokens, and fails inside words and at groups. -/
structure Agrees (hit : Text → Text → Bool) (starts : Bool → List Tok → Bool) : Prop where
  start : ∀ {ts before behindWord}, Tidy ts → before.head?.any isIdentifierByte = behindWord →
    hit before (flat ts) = starts behindWord ts
  inWord : ∀ {c before}, isIdentifierByte c → before.head?.any isIdentifierByte = true →
    ∀ cs, hit before (c :: cs) = false
  group : ∀ {behindWord s ts}, starts behindWord (.group s :: ts) = false

theorem startsWithKeyword_flat (hkw : Keyword kw) (h : Tidy ts)
    (hb : before.head?.any isIdentifierByte = behindWord) :
    startsWithKeyword (flat kw) before (flat ts) = startsHere kw behindWord ts := by
  have hiff := prefix_flat_iff hkw h
  rw [Bool.eq_iff_iff, startsWithKeyword, startsHere, hb]
  simp only [Bool.and_eq_true, Bool.not_eq_true', List.isPrefixOf_iff_prefix]
  constructor
  · rintro ⟨⟨hpre, hw⟩, hnext⟩
    obtain ⟨rest, rfl, hrest⟩ := hiff.mp ⟨hpre, hnext⟩
    exact ⟨⟨List.prefix_append kw rest, hw⟩, by simpa using hrest⟩
  · rintro ⟨⟨⟨rest, rfl⟩, hw⟩, hnext⟩
    obtain ⟨hpre, hnext'⟩ := hiff.mpr ⟨rest, rfl, by simpa using hnext⟩
    exact ⟨⟨hpre, hw⟩, hnext'⟩

theorem agrees_keyword (hkw : Keyword kw) (hne : kw ≠ []) :
    Agrees (startsWithKeyword (flat kw)) (startsHere kw) where
  start h hb := startsWithKeyword_flat hkw h hb
  inWord _ hb cs := by simp [startsWithKeyword, hb]
  group := by
    intro behindWord s ts
    by_contra hs
    simp only [startsHere, Bool.not_eq_false, Bool.and_eq_true, List.isPrefixOf_iff_prefix] at hs
    obtain ⟨⟨hpre, -⟩, -⟩ := hs
    cases kw with
    | nil => exact hne rfl
    | cons k kw =>
      obtain ⟨rfl, -⟩ := List.cons_prefix_cons.mp hpre
      rcases hkw.2 _ List.mem_cons_self with ⟨w, hw⟩ | ⟨c, hc⟩
      · cases hw
      · cases hc

theorem search_inWord (hagree : Agrees hit starts) (hw : ∀ c ∈ w, isIdentifierByte c)
    (hb : before.head?.any isIdentifierByte = true) (rest : Text) :
    search hit before (w ++ rest) 0 0 = search hit (w.reverse ++ before) rest 0 0 := by
  induction w generalizing before with
  | nil => rfl
  | cons c w ih =>
    have hc := hw c List.mem_cons_self
    rw [List.cons_append, search_cons, if_neg]
    · rw [advance_plain (isIdentifierByte_plain hc)]
      simp only [List.take_succ_cons, List.take_zero, List.reverse_cons, List.reverse_nil,
        List.nil_append, List.singleton_append, List.drop_succ_cons, List.drop_zero, add_zero]
      rw [ih (fun d hd => hw d (List.mem_cons_of_mem _ hd)) (by simpa using hc)]
      simp
    · simp [hagree.inWord hc hb]

theorem search_group (h : Group s) (before rest : Text) :
    search hit before (s ++ rest) 0 0 = search hit (s.reverse ++ before) rest 0 0 := by
  cases h with
  | @paren inner hstar hin =>
    rw [List.cons_append, List.append_assoc, List.singleton_append,
      search_open _ _ _ _ (head?_close hstar _),
      search_balanced hin _ _ (by decide) le_rfl (Or.inl (by decide))]
    simp [search_close]
  | brace hin =>
    rw [List.cons_append, List.append_assoc, List.singleton_append, search_openBrace,
      search_balanced hin _ _ le_rfl (by decide) (Or.inr (by decide))]
    simp [search_closeBrace]

theorem skipMlComment_open (h : '*' ∉ s) (depth : Nat) :
    skipMlComment (depth + 1) s = s.length := by
  induction s with
  | nil => rfl
  | cons c s ih =>
    rw [List.mem_cons, not_or] at h
    obtain ⟨hc, hs⟩ := h
    rw [skipMlComment, ih hs, List.length_cons]
    · rintro cs - rfl
      exact hs List.mem_cons_self
    · rintro cs rfl
      exact absurd rfl hc

/-- A comment that is never closed hides everything. -/
theorem search_comment_open (h : '*' ∉ rest) (before : Text) (p b : Int) :
    search hit before ('(' :: '*' :: rest) p b = none := by
  have hadv : advance ('(' :: '*' :: rest) = ⟨rest.length + 2, 0, 0, false⟩ := by
    rw [advance, skipMlComment_open h]
  rw [search_skip _ _ _ _ _ (by simp [hadv]), hadv]
  simp

theorem search_flat {behindWord : Bool} (hagree : Agrees hit starts) (h : Tidy ts)
    (hb : before.head?.any isIdentifierByte = behindWord)
    (hsep : behindWord → ts.head?.any Tok.isWord = false) :
    search hit before (flat ts) 0 0 =
      (findToks starts behindWord ts).map fun (left, right) =>
        (before.reverse ++ flat left, flat right) := by
  induction ts generalizing before behindWord with
  | nil => rfl
  | cons t ts ih =>
    have hstart := hagree.start h hb
    have hrec : ∀ {b : Bool}, ((t.text.reverse ++ before).head?.any isIdentifierByte = b) →
        (b → ts.head?.any Tok.isWord = false) →
        search hit (t.text.reverse ++ before) (flat ts) 0 0 =
          ((findToks starts b ts).map fun (left, right) => (t :: left, right)).map
            fun (left, right) => (before.reverse ++ flat left, flat right) := by
      intro b hb' hsep'
      rw [ih h.2.2.2 hb' hsep', Option.map_map]
      congr 1
      funext ⟨left, right⟩
      simp
    cases t with
    | word w =>
      obtain ⟨⟨hw, hident⟩, hnext, -, -⟩ := h
      obtain ⟨c, cs, rfl⟩ := List.exists_cons_of_ne_nil hw
      have hc := hident c List.mem_cons_self
      rw [findToks]
      · simp only [flat_cons, Tok.text, List.cons_append] at hstart hrec ⊢
        rw [search_cons, advance_plain (isIdentifierByte_plain hc), hstart]
        by_cases hs : starts behindWord (.word (c :: cs) :: ts)
        · simp [hs, Tok.text]
        · simp only [hs, decide_true, Bool.and_false, Bool.false_eq_true, if_false,
            List.take_succ_cons, List.take_zero, List.reverse_cons, List.reverse_nil,
            List.nil_append, List.singleton_append, List.drop_succ_cons, List.drop_zero, add_zero]
          rw [search_inWord hagree (fun d hd => hident d (List.mem_cons_of_mem _ hd))
            (by simpa using hc)]
          have hlast : ((cs.reverse ++ [c] ++ before).head?.any isIdentifierByte) = true := by
            rcases List.eq_nil_or_concat cs with rfl | ⟨cs', d, rfl⟩
            · simpa using hc
            · simpa using hident d (by simp)
          have := hrec (by simpa using hlast) fun _ => hnext rfl
          simpa [Tok.isWord] using this
      · simp
    | ch c =>
      obtain ⟨⟨hc, hplain⟩, -⟩ := h
      rw [findToks]
      · simp only [flat_cons, Tok.text, List.singleton_append] at hstart hrec ⊢
        rw [search_cons, advance_plain hplain, hstart]
        by_cases hs : starts behindWord (.ch c :: ts)
        · simp [hs, Tok.text]
        · have hnone : (([c] : Text).reverse ++ before).head?.any isIdentifierByte = false := by
            simpa using hc
          simpa [hs, Tok.isWord] using hrec hnone nofun
      · simp
    | group s =>
      rw [findToks, hagree.group]
      · rw [flat_cons, Tok.text, search_group h.1]
        exact hrec (h.1.last_not_ident before) nofun
      · simp
    | comment =>
      rw [flat_cons, findToks]
      have hstar : '*' ∉ ')' :: flat ts := by
        simp [h.2.2.1 rfl]
      exact search_comment_open hstar before 0 0

-- ---------------------------------------------------------------------------
-- Trimming
-- ---------------------------------------------------------------------------

/-- Text that trimming leaves alone. -/
def Tight (s : Text) : Prop :=
  s.head?.any isWhitespace = false ∧ s.getLast?.any isWhitespace = false

theorem dropWhile_of_head {s : Text} (h : s.head?.any isWhitespace = false) :
    s.dropWhile isWhitespace = s := by
  cases s with
  | nil => rfl
  | cons c s => exact List.dropWhile_cons_of_neg (by simpa using h)

theorem trim_blanks (hs : Tight s) (hw : ∀ c ∈ ws, isWhitespace c)
    (hw' : ∀ c ∈ ws', isWhitespace c) : trim (ws ++ s ++ ws') = s := by
  have hfront : ∀ {ws : Text} (s : Text), (∀ c ∈ ws, isWhitespace c) →
      (ws ++ s).dropWhile isWhitespace = s.dropWhile isWhitespace := by
    intro ws s hws
    induction ws with
    | nil => rfl
    | cons c ws ih =>
      obtain ⟨hc, hws⟩ := List.forall_mem_cons.mp hws
      rw [List.cons_append, List.dropWhile_cons_of_pos hc, ih hws]
  have hrev : (∀ c ∈ ws'.reverse, isWhitespace c) := by simpa using hw'
  unfold trim
  rw [List.append_assoc, hfront _ hw]
  cases s with
  | nil =>
    rw [List.nil_append, ← List.append_nil ws', hfront _ hw']
    rfl
  | cons c s =>
    have hhead : ((c :: s) ++ ws').head?.any isWhitespace = false := by simpa using hs.1
    have hlast : (c :: s).reverse.head?.any isWhitespace = false := by
      rw [List.head?_reverse]
      exact hs.2
    rw [dropWhile_of_head hhead, List.reverse_append, hfront _ hrev, dropWhile_of_head hlast,
      List.reverse_reverse]

theorem Tight.trim (h : Tight s) : trim s = s := by
  have h0 : ∀ c ∈ ([] : Text), isWhitespace c := by simp
  simpa using trim_blanks h h0 h0

theorem splitTopLevel_flat (hkw : Keyword kw) (hne : kw ≠ []) (h : Tidy ts)
    (hs : trim s = flat ts) :
    splitTopLevel s (flat kw) = (findToks (startsHere kw) false ts).map fun (left, right) =>
      (trim (flat left), trim (flat (right.drop kw.length))) := by
  have hdrop : ∀ {left right : List Tok} {ts behindWord},
      findToks (startsHere kw) behindWord ts = some (left, right) →
      (flat right).drop (flat kw).length = flat (right.drop kw.length) := by
    intro left right ts behindWord hfind
    have hpre : kw <+: right := by
      induction ts generalizing left behindWord with
      | nil => cases hfind
      | cons t ts ih =>
        unfold findToks at hfind
        split at hfind
        · cases hfind
        · cases hfind
        · next t' ts' heq =>
          cases heq
          split at hfind
          · next hs =>
            cases hfind
            simp only [startsHere, Bool.and_eq_true, List.isPrefixOf_iff_prefix] at hs
            exact hs.1.1
          · obtain ⟨⟨l, r⟩, hlr, heq⟩ := Option.map_eq_some_iff.mp hfind
            cases heq
            exact ih hlr
    obtain ⟨rest, rfl⟩ := hpre
    simp
  have hbudget : (flat ts).length ≤ scanBudget (flat ts) := by
    unfold scanBudget
    omega
  have hnone : ([] : Text).head?.any isIdentifierByte = false := rfl
  have hsearch := search_flat (agrees_keyword hkw hne) h hnone nofun
  simp only [splitTopLevel, hs, findTopLevel_budget hbudget, hsearch]
  cases hfind : findToks (startsHere kw) false ts with
  | none => rfl
  | some lr =>
    obtain ⟨left, right⟩ := lr
    simp [hdrop hfind]

end UrWeb.Sql
