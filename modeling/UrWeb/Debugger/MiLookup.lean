import Mathlib.Data.Bool.AllAny
import UrWeb.Debugger.MiParse

/-!
# Looking up the fields of a tuple

The slicer finds a name by its text alone, so it stops at the first name that ends
in the one it looks for, or at a value that ends in it and an equals sign.
-/

namespace UrWeb.Debugger

-- ---------------------------------------------------------------------------
-- Searching up to a quote
-- ---------------------------------------------------------------------------

theorem isPrefixOf_quoted (hp : q ∉ p) (ha : q ∉ a) (s : MiText) :
    (p ++ [q]).isPrefixOf (a ++ q :: s) = true ↔ p = a := by
  induction p generalizing a with
  | nil =>
    cases a with
    | nil => simp
    | cons c a =>
      have hc : q ≠ c := fun h => ha (h ▸ List.mem_cons_self ..)
      simp [hc]
  | cons d p ih =>
    have hd : d ≠ q := fun h => hp (h ▸ List.mem_cons_self ..)
    have hp' : q ∉ p := fun h => hp (List.mem_cons_of_mem _ h)
    cases a with
    | nil => simp [hd]
    | cons c a =>
      have ha' : q ∉ a := fun h => ha (List.mem_cons_of_mem _ h)
      have htail := ih hp' ha'
      simp only [List.cons_append, List.isPrefixOf_iff_prefix, List.cons_prefix_cons,
        List.cons.injEq] at htail ⊢
      exact and_congr_right fun _ => htail

/-- A pattern that ends in the only quote it has is found at the end of the first stretch before
a quote that ends in the rest of it. -/
theorem find_quoted (hp : q ∉ p) (hne : p ≠ []) (ha : q ∉ a) (s : MiText) :
    Text.find (p ++ [q]) (a ++ q :: s) =
      if p <:+ a then some (a.length - p.length)
      else (Text.find (p ++ [q]) s).map (· + (a.length + 1)) := by
  induction a with
  | nil =>
    obtain ⟨d, p, rfl⟩ := List.exists_cons_of_ne_nil hne
    have hd : d ≠ q := fun h => hp (h ▸ List.mem_cons_self ..)
    simp [Text.find, hd]
  | cons c a ih =>
    have ha' : q ∉ a := fun h => ha (List.mem_cons_of_mem _ h)
    have hpre := isPrefixOf_quoted hp ha s
    simp only [List.cons_append, Text.find] at hpre ⊢
    by_cases heq : p = c :: a
    · rw [if_pos (hpre.2 heq), if_pos (heq ▸ List.suffix_refl _), heq]
      simp
    · have hsuf : p <:+ c :: a ↔ p <:+ a := by
        rw [List.suffix_cons_iff]
        exact or_iff_right heq
      rw [if_neg (mt hpre.1 heq), ih ha']
      by_cases h : p <:+ a
      · rw [if_pos h, if_pos (hsuf.2 h), Option.map_some, List.length_cons,
          Nat.succ_sub h.length_le]
      · rw [if_neg h, if_neg (mt hsuf.1 h), Option.map_map]
        simp [Function.comp_def, Nat.add_assoc]

theorem suffix_after (hp : q ∉ p) (a b : MiText) : p <:+ a ++ q :: b ↔ p <:+ b := by
  constructor
  · intro h
    obtain hin | hout := List.suffix_or_suffix_of_suffix h (List.suffix_append a (q :: b))
    · obtain rfl | hb := List.suffix_cons_iff.1 hin
      · exact absurd (List.mem_cons_self ..) hp
      · exact hb
    · exact absurd (hout.subset (List.mem_cons_self ..)) hp
  · exact fun h => h.trans ⟨a ++ [q], by simp⟩

/-- The first quote of a text that has one. -/
theorem find_quote (h : q ∉ a) (s : MiText) : Text.find [q] (a ++ q :: s) = some a.length := by
  have hnone : Text.NoneIn [q] a (q :: s) := Text.noneIn_of_head h
  rw [Text.find_append hnone, Text.find_of_isPrefixOf (by simp)]
  simp

-- ---------------------------------------------------------------------------
-- Fields
-- ---------------------------------------------------------------------------

/-- What the slicer takes for the key it looks for: the key and an equals sign. -/
def Name.mark (x : Name) : MiText := x.text ++ ['=']

theorem Name.not_mem (x : Name) (h : plainChar c = false) : c ∉ x.text := fun hc => by
  rw [x.plain c hc] at h
  cases h

theorem Name.quote_not_mem_mark (x : Name) : '\x22' ∉ x.mark := by
  rw [Name.mark, List.mem_append, not_or]
  exact ⟨x.not_mem (by decide), by decide⟩

theorem Name.backslash_not_mem_mark (x : Name) : '\x5c' ∉ x.mark := by
  rw [Name.mark, List.mem_append, not_or]
  exact ⟨x.not_mem (by decide), by decide⟩

theorem Name.mark_ne_nil (x : Name) : x.mark ≠ [] := by simp [Name.mark]

/-- The pattern of the look-up. -/
def Name.needle (x : Name) : MiText := x.mark ++ ['\x22']

/-- A mark that ends a printed value is found at its closing quote, and no other in the value. -/
theorem find_value (key : Name) (a v s : MiText) (ha : '\x22' ∉ a) :
    Text.find key.needle (a ++ escape v ++ '\x22' :: s) =
      if key.mark <:+ a ++ escape v then some ((a ++ escape v).length - key.mark.length)
      else (Text.find key.needle s).map (· + ((a ++ escape v).length + 1)) := by
  induction v generalizing a with
  | nil =>
    simpa [escape, Name.needle] using find_quoted key.quote_not_mem_mark key.mark_ne_nil ha s
  | cons c v ih =>
    by_cases hquote : c = '\x22'
    · -- The quote is escaped, so the stretch before it ends in a backslash and not in a mark.
      have hback : ¬ key.mark <:+ a ++ ['\x5c'] := by
        rw [suffix_after key.backslash_not_mem_mark, List.suffix_nil]
        exact key.mark_ne_nil
      have hstretch : '\x22' ∉ a ++ ['\x5c'] := by simp [ha]
      have htext : a ++ escape (c :: v) = (a ++ ['\x5c']) ++ '\x22' :: escape v := by
        simp [escape, escapeChar, hquote]
      have hfind := find_quoted key.quote_not_mem_mark key.mark_ne_nil hstretch
        (escape v ++ '\x22' :: s)
      rw [if_neg hback] at hfind
      have hrest := ih [] (by simp)
      rw [List.nil_append] at hrest
      rw [htext, List.append_assoc, List.cons_append, Name.needle, hfind, ← Name.needle, hrest]
      have hsuf : key.mark <:+ a ++ ['\x5c'] ++ '\x22' :: escape v ↔ key.mark <:+ escape v :=
        suffix_after key.quote_not_mem_mark _ _
      by_cases h : key.mark <:+ escape v
      · have hle := h.length_le
        rw [if_pos h, if_pos (hsuf.2 h), Option.map_some]
        simp only [List.length_append, List.length_cons, List.length_nil, Option.some.injEq]
        omega
      · rw [if_neg h, if_neg (mt hsuf.1 h), Option.map_map]
        refine congrArg (fun g => Option.map g _) (funext fun n => ?_)
        simp only [Function.comp_apply, List.length_append, List.length_cons, List.length_nil]
        omega
    · have hchar : '\x22' ∉ a ++ escapeChar c := by
        by_cases hback : c = '\x5c' <;> simp [ha, escapeChar, hback, hquote, Ne.symm hquote]
      have htext : a ++ escape (c :: v) = (a ++ escapeChar c) ++ escape v := by
        simp [escape]
      rw [htext]
      exact ih _ hchar

/-- The text before the first quote. -/
def untilQuote (s : MiText) : MiText := s.takeWhile (· ≠ '\x22')

/-- What the slicer returns once it has gone past the needle. -/
def upToQuote (s : MiText) : Option MiText := (Text.find ['\x22'] s).map (s.take ·)

theorem miGetStr_eq (s : MiText) (key : Name) :
    miGetStr s key.text =
      (Text.find key.needle s).bind fun n => upToQuote (s.drop (n + key.needle.length)) := by
  have hneedle : key.text ++ ['=', '\x22'] = key.needle := by
    simp [Name.needle, Name.mark]
  rw [miGetStr, hneedle]
  cases Text.find key.needle s with
  | none => rfl
  | some n =>
    simp only [Option.bind_some, upToQuote]
    cases Text.find ['\x22'] (s.drop (n + key.needle.length)) <;> rfl

/-- What has no needle in it is passed over. -/
theorem miGetStr_skip {key : Name} (h : Text.find key.needle (a ++ s) =
    (Text.find key.needle s).map (· + a.length)) :
    miGetStr (a ++ s) key.text = miGetStr s key.text := by
  rw [miGetStr_eq, miGetStr_eq, h]
  cases Text.find key.needle s with
  | none => rfl
  | some n =>
    have hdrop : (a ++ s).drop (n + a.length + key.needle.length) =
        s.drop (n + key.needle.length) := by
      rw [Nat.add_right_comm, Nat.add_comm, ← List.drop_drop, List.drop_left]
    simp only [Option.map_some, Option.bind_some, hdrop]

/-- What follows the needle is read up to the next quote. -/
theorem miGetStr_hit {key : Name} (h : Text.find key.needle (a ++ '\x22' :: s) =
    some (a.length - key.mark.length)) (hle : key.mark.length ≤ a.length) :
    miGetStr (a ++ '\x22' :: s) key.text = upToQuote s := by
  have hneedle : a.length - key.mark.length + key.needle.length = (a ++ ['\x22']).length := by
    simp [Name.needle]
    omega
  have hdrop : (a ++ '\x22' :: s).drop (a ++ ['\x22']).length = s := by
    have hsplit : a ++ '\x22' :: s = (a ++ ['\x22']) ++ s := by simp
    rw [hsplit, List.drop_left]
  rw [miGetStr_eq, h, Option.bind_some, hneedle, hdrop]

theorem upToQuote_append (a s : MiText) : upToQuote (a ++ '\x22' :: s) = some (untilQuote a) := by
  by_cases h : '\x22' ∈ a
  · obtain ⟨l, r, rfl, hl⟩ := List.eq_append_cons_of_mem h
    have hall : ∀ c ∈ l, decide (c ≠ '\x22') = true := fun c hc =>
      decide_eq_true fun heq => hl (heq ▸ hc)
    rw [upToQuote, List.append_assoc, List.cons_append, find_quote hl, Option.map_some,
      List.take_left, untilQuote, List.takeWhile_append_of_pos hall]
    simp
  · have hall : ∀ c ∈ a, decide (c ≠ '\x22') = true := fun c hc =>
      decide_eq_true fun heq => h (heq ▸ hc)
    rw [upToQuote, find_quote h, Option.map_some, List.take_left, untilQuote,
      List.takeWhile_eq_self_iff.2 hall]

/-- A field with what separates it from the one before. -/
theorem miGetStr_field (key : Name) (f : Field) (s : MiText) (hc : plainChar c = false)
    (hquote : c ≠ '\x22') :
    miGetStr (c :: f.text ++ s) key.text =
      if key.text <:+ f.name.text then some (untilQuote (escape f.value))
      else if key.mark <:+ escape f.value then upToQuote s
      else miGetStr s key.text := by
  let name := c :: f.name.mark
  have hname : '\x22' ∉ name := by
    simp only [name, List.mem_cons, not_or]
    exact ⟨Ne.symm hquote, f.name.quote_not_mem_mark⟩
  have htext : c :: f.text ++ s = name ++ '\x22' :: (escape f.value ++ '\x22' :: s) := by
    simp [name, Name.mark, Field.text]
  have hsuf : key.mark <:+ name ↔ key.text <:+ f.name.text := by
    have hcons : key.text <:+ c :: f.name.text ↔ key.text <:+ f.name.text := by
      rw [List.suffix_cons_iff]
      refine or_iff_right fun heq => ?_
      exact key.not_mem hc (heq ▸ List.mem_cons_self ..)
    have hsplit : name = (c :: f.name.text) ++ ['='] := by simp [name, Name.mark]
    rw [← hcons, hsplit, Name.mark, List.suffix_concat_iff]
    simp
  have hfind := find_quoted key.quote_not_mem_mark key.mark_ne_nil hname
    (escape f.value ++ '\x22' :: s)
  rw [htext]
  by_cases h : key.text <:+ f.name.text
  · rw [if_pos h, miGetStr_hit (by rw [Name.needle, hfind, if_pos (hsuf.2 h)])
      (hsuf.2 h).length_le]
    exact upToQuote_append ..
  · rw [if_neg (mt hsuf.1 h)] at hfind
    have hskip : name ++ '\x22' :: (escape f.value ++ '\x22' :: s) =
        (name ++ ['\x22']) ++ (escape f.value ++ '\x22' :: s) := by simp
    have hvalue := find_value key [] f.value s (by simp)
    rw [List.nil_append] at hvalue
    rw [if_neg h, hskip, miGetStr_skip (by rw [← hskip, Name.needle, hfind]; simp)]
    by_cases hv : key.mark <:+ escape f.value
    · rw [if_pos hv] at hvalue ⊢
      exact miGetStr_hit hvalue hv.length_le
    · rw [if_neg hv] at hvalue ⊢
      have hend : escape f.value ++ '\x22' :: s = (escape f.value ++ ['\x22']) ++ s := by simp
      rw [hend, miGetStr_skip (by rw [← hend, hvalue]; simp)]

-- ---------------------------------------------------------------------------
-- Tuples
-- ---------------------------------------------------------------------------

/-- The fields after the first of a tuple, to its end. -/
def moreText (fs : List Field) : MiText := (fs.flatMap fun g => ',' :: g.text) ++ ['\x7d']

/-- What separates the value of a field from the value of the next. -/
def nextMark : List Field → Option MiText
  | [] => none
  | g :: _ => some (',' :: g.name.mark)

/-- The first field whose name ends in the key, or whose printed value ends in the key and an
equals sign, says what is expected of the key: its value up to the first quote in it in the one
case, and what separates it from the value of the next field in the other. Where there is no such
field, or no next field, nothing is expected. -/
def slicedAs (key : Name) (expected : Option MiText) : List Field → Bool
  | [] => expected = none
  | f :: fs =>
    if key.text <:+ f.name.text then expected = some (untilQuote (escape f.value))
    else if key.mark <:+ escape f.value then expected = nextMark fs
    else slicedAs key expected fs

theorem upToQuote_more (fs : List Field) : upToQuote (moreText fs) = nextMark fs := by
  cases fs with
  | nil => rfl
  | cons g fs =>
    have htext : moreText (g :: fs) =
        (',' :: g.name.mark) ++ '\x22' :: (escape g.value ++ '\x22' :: moreText fs) := by
      simp [moreText, Name.mark, Field.text]
    have hquote : '\x22' ∉ ',' :: g.name.mark := by
      rw [List.mem_cons, not_or]
      exact ⟨by decide, g.name.quote_not_mem_mark⟩
    rw [htext, upToQuote, find_quote hquote, Option.map_some, List.take_left]
    rfl

theorem find_absent (hp : c ∈ pat) (hs : c ∉ s) : Text.find pat s = none := by
  induction s with
  | nil =>
    have hpat : pat ≠ [] := List.ne_nil_of_mem hp
    simp [Text.find, hpat]
  | cons d s ih =>
    have hpre : pat.isPrefixOf (d :: s) = false := by
      refine Bool.eq_false_iff.2 fun h => hs ?_
      exact (List.isPrefixOf_iff_prefix.1 h).subset hp
    rw [Text.find, hpre, ih fun h => hs (List.mem_cons_of_mem _ h)]
    rfl

/-- Without a quote nothing is found. -/
theorem miGetStr_plain (key : Name) (h : '\x22' ∉ s) : miGetStr s key.text = none := by
  rw [miGetStr_eq, find_absent (by simp [Name.needle]) h]
  rfl

theorem miGetStr_cons (key : Name) (expected : Option MiText) (f : Field) (fs : List Field)
    (hc : plainChar c = false) (hquote : c ≠ '\x22')
    (ih : miGetStr (moreText fs) key.text = expected ↔ slicedAs key expected fs) :
    miGetStr (c :: f.text ++ moreText fs) key.text = expected ↔
      slicedAs key expected (f :: fs) := by
  rw [miGetStr_field key f _ hc hquote, slicedAs]
  by_cases hname : key.text <:+ f.name.text
  · simp [hname, eq_comm]
  by_cases hvalue : key.mark <:+ escape f.value
  · simp [hname, hvalue, upToQuote_more, eq_comm]
  · simpa [hname, hvalue] using ih

theorem miGetStr_more (key : Name) (expected : Option MiText) (fs : List Field) :
    miGetStr (moreText fs) key.text = expected ↔ slicedAs key expected fs := by
  induction fs with
  | nil =>
    have hend : miGetStr (moreText []) key.text = none := miGetStr_plain key (by decide)
    simp [slicedAs, hend, eq_comm]
  | cons f fs ih =>
    have htext : moreText (f :: fs) = ',' :: f.text ++ moreText fs := by simp [moreText]
    rw [htext]
    exact miGetStr_cons key expected f fs (by decide) (by decide) ih

/-- What the slicer finds in a tuple. -/
theorem miGetStr_tuple (key : Name) (expected : Option MiText) (t : List Field) :
    miGetStr (tupleText t) key.text = expected ↔ slicedAs key expected t := by
  cases t with
  | nil =>
    have hend : miGetStr (tupleText []) key.text = none := miGetStr_plain key (by decide)
    simp [slicedAs, hend, eq_comm]
  | cons f fs =>
    have htext : tupleText (f :: fs) = '\x7b' :: f.text ++ moreText fs := by
      simp [tupleText, moreText]
    rw [htext]
    exact miGetStr_cons key expected f fs (by decide) (by decide) (miGetStr_more key expected fs)

/-- The frames of a stack are cut out of its text, and a field of a tuple out of the tuple's. -/
structure SlicedExactly (frames : List (List Field)) (t : List Field) (key : Name) : Prop where
  frames_eq : miExtractFrames (stackText frames) = frames.map tupleText
  field_eq : miGetStr (tupleText t) key.text = lookup key t

theorem slicedExactly_iff (frames : List (List Field)) (t : List Field) (key : Name) :
    SlicedExactly frames t key ↔ (∀ f ∈ frames, closes f) ∧ slicedAs key (lookup key t) t := by
  rw [← miExtractFrames_stackText, ← miGetStr_tuple]
  exact ⟨fun h => ⟨h.frames_eq, h.field_eq⟩, fun h => ⟨h.1, h.2⟩⟩

/-- `name` is found where it ends `fullname`. -/
theorem not_slicedExactly_fullname :
    ¬ SlicedExactly []
      [⟨⟨"fullname".toList, by decide, List.all_iff_forall_prop.1 (by decide)⟩, ['/', 'a']⟩,
        ⟨⟨"name".toList, by decide, List.all_iff_forall_prop.1 (by decide)⟩, ['a']⟩]
      ⟨"name".toList, by decide, List.all_iff_forall_prop.1 (by decide)⟩ := by
  intro h
  exact absurd h.field_eq (by decide)

end UrWeb.Debugger
