import UrWeb.Jscomp.Injectors

/-!
# Decoders are defined once

Reading a value of any type succeeds, and leaves one definition in the script
for every decoder that the emitted code calls.
-/

namespace UrWeb.Jscomp

open Mono Failing

def Fragment.code : Fragment → Js
  | .decoder _ js | .urfunc _ js => js

def Fragment.defines (n : Nat) : Fragment → Bool
  | .decoder m _ => m == n
  | .urfunc _ _ => false

/-- How often the script defines the decoder `n`. -/
def definitions (script : List Fragment) (n : Nat) : Nat := script.countP (Fragment.defines n)

/-- The ids in emitted code belong to included functions and to registered decoders. -/
def Known (s : State) (js : Js) : Prop :=
  (∀ n, .func n ∈ js → n ∈ s.included) ∧ ∀ n, .decoder n ∈ js → ∃ k, (k, n) ∈ s.decoders

theorem known_append {s : State} : Known s (js ++ js') ↔ Known s js ∧ Known s js' := by
  simp only [Known, List.mem_append]
  constructor
  · rintro ⟨h1, h2⟩
    exact ⟨⟨fun n hn => h1 n (.inl hn), fun n hn => h2 n (.inl hn)⟩,
      fun n hn => h1 n (.inr hn), fun n hn => h2 n (.inr hn)⟩
  · rintro ⟨⟨h1, h2⟩, h3, h4⟩
    exact ⟨fun n hn => hn.elim (h1 n) (h3 n), fun n hn => hn.elim (h2 n) (h4 n)⟩

@[simp] theorem known_nil (s : State) : Known s [] := by simp [Known]

@[simp] theorem known_text {s : State} : Known s (.text t :: js) ↔ Known s js := by simp [Known]

@[simp] theorem known_server {s : State} : Known s (.server e :: js) ↔ Known s js := by
  simp [Known]

theorem Known.mono (h : Known s js) (hi : s.included ⊆ s'.included)
    (hd : s.decoders ⊆ s'.decoders) : Known s' js :=
  ⟨fun n hn => hi (h.1 n hn), fun n hn => (h.2 n hn).imp fun _ hk => hd hk⟩

/-- Everything in the script and in the declarations is known. -/
structure CodeInv (s : State) : Prop where
  script : ∀ f ∈ s.script, Known s f.code
  emitted : ∀ js ∈ s.emitted, Known s js

/-- Every decoder has one definition, or is under construction and has none. -/
structure DecInv (building : List Nat) (s : State) : Prop where
  once : ∀ k n, (k, n) ∈ s.decoders → n ∈ building ∨ definitions s.script n = 1
  pending : ∀ n ∈ building, definitions s.script n = 0
  bound : ∀ n, n ∈ building ∨ definitions s.script n ≠ 0 → n < s.maxName
  nodup : building.Nodup

/-- Reading adds to the decoders and to the script, and changes nothing else. -/
structure DecGrows (s s' : State) : Prop where
  decoders : s.decoders ⊆ s'.decoders
  keys : ∀ n, s'.decoders.lookup n = none → s.decoders.lookup n = none
  script : s.script ⊆ s'.script
  maxName : s.maxName ≤ s'.maxName
  decls : s'.decls = s.decls
  injectors : s'.injectors = s.injectors
  listInjectors : s'.listInjectors = s.listInjectors
  included : s'.included = s.included
  found : s'.foundJavascript = s.foundJavascript
  emitted : s'.emitted = s.emitted

theorem DecGrows.refl (s : State) : DecGrows s s :=
  ⟨fun _ h => h, fun _ h => h, fun _ h => h, le_rfl, rfl, rfl, rfl, rfl, rfl, rfl⟩

theorem DecGrows.trans (h : DecGrows s s') (h' : DecGrows s' s'') : DecGrows s s'' where
  decoders _ hd := h'.decoders (h.decoders hd)
  keys n hn := h.keys n (h'.keys n hn)
  script _ hf := h'.script (h.script hf)
  maxName := h.maxName.trans h'.maxName
  decls := h'.decls.trans h.decls
  injectors := h'.injectors.trans h.injectors
  listInjectors := h'.listInjectors.trans h.listInjectors
  included := h'.included.trans h.included
  found := h'.found.trans h.found
  emitted := h'.emitted.trans h.emitted

theorem DecGrows.known (h : DecGrows s s') (hk : Known s js) : Known s' js :=
  hk.mono (by rw [h.included]; exact List.Subset.refl _) h.decoders

theorem DecGrows.missing_le (env : Env) (h : DecGrows s s') :
    env.missing s'.decoders ≤ env.missing s.decoders := by
  apply List.countP_mono_left
  intro cell _ hcell
  simp only [Option.isNone_iff_eq_none] at hcell ⊢
  exact h.keys cell.1 hcell

/-- What holds after reading: the code calls registered decoders only. -/
def ReadOk (building : List Nat) (s : State) : Js → State → Prop := fun js s' =>
  DecInv building s' ∧ CodeInv s' ∧ DecGrows s s' ∧ Known s' js ∧ ∀ e, .server e ∉ js

def DecoderOk (env : Env) (fuel : Nat) (dec : Nat → JsM Nat) : Prop :=
  ∀ n building s, DecInv building s → CodeInv s → env.missing s.decoders < fuel →
    Triple (dec n) s
      (fun n' s' => DecInv building s' ∧ CodeInv s' ∧ DecGrows s s' ∧ ∃ k, (k, n') ∈ s'.decoders)
      fun _ => False

section
variable {env : Env} {fuel : Nat} {dec : Nat → JsM Nat}

theorem unurlifyFields_spec (hread : ∀ f ∈ fields, ∀ building s, DecInv building s → CodeInv s →
      env.missing s.decoders < fuel →
      Triple (unurlifyExp env dec f.2) s (ReadOk building s) fun _ => False)
    (hinv : DecInv building s) (hcode : CodeInv s) (hfuel : env.missing s.decoders < fuel) :
    Triple (unurlifyFields env dec fields) s (ReadOk building s) fun _ => False := by
  induction fields generalizing s with
  | nil => exact Triple.pure ⟨hinv, hcode, .refl s, by simp, by simp⟩
  | cons f fields ih =>
    obtain ⟨x, t⟩ := f
    rw [unurlifyFields]
    apply Triple.bind (hread (x, t) List.mem_cons_self building s hinv hcode hfuel)
    rintro js s' ⟨hinv', hcode', hg, hk, hs⟩
    apply Triple.bind (ih (fun f hf => hread f (List.mem_cons_of_mem _ hf)) hinv' hcode'
      ((hg.missing_le env).trans_lt hfuel))
    rintro rest s'' ⟨hinv'', hcode'', hg', hk', hs'⟩
    refine Triple.pure ⟨hinv'', hcode'', hg.trans hg', ?_, ?_⟩
    · simp [known_append, hk', hg'.known hk]
    · simp [hs, hs']

theorem unurlifyExp_spec (hdec : DecoderOk env fuel dec) (t : Typ) :
    ∀ building s, DecInv building s → CodeInv s → env.missing s.decoders < fuel →
      Triple (unurlifyExp env dec t) s (ReadOk building s) fun _ => False := by
  induction t with
  | func | signal | transaction | source =>
    intro building s hinv hcode hfuel
    exact Triple.pure ⟨hinv, hcode, .refl s, by simp, by simp⟩
  | ffi m f =>
    intro building s hinv hcode hfuel
    rw [unurlifyExp]
    split <;> exact Triple.pure ⟨hinv, hcode, .refl s, by simp, by simp⟩
  | record fields ih =>
    intro building s hinv hcode hfuel
    cases fields with
    | nil => exact Triple.pure ⟨hinv, hcode, .refl s, by simp, by simp⟩
    | cons f fields =>
      obtain ⟨x, t⟩ := f
      rw [unurlifyExp]
      apply Triple.bind (ih (x, t) List.mem_cons_self building s hinv hcode hfuel)
      rintro js s' ⟨hinv', hcode', hg, hk, hs⟩
      apply Triple.bind (unurlifyFields_spec (fun f hf => ih f (List.mem_cons_of_mem _ hf)) hinv'
        hcode' ((hg.missing_le env).trans_lt hfuel))
      rintro rest s'' ⟨hinv'', hcode'', hg', hk', hs'⟩
      refine Triple.pure ⟨hinv'', hcode'', hg.trans hg', ?_, ?_⟩
      · simp [known_append, hk', hg'.known hk]
      · simp [hs, hs']
  | option t ih =>
    intro building s hinv hcode hfuel
    rw [unurlifyExp]
    apply Triple.bind (ih building s hinv hcode hfuel)
    rintro js s' ⟨hinv', hcode', hg, hk, hs⟩
    refine Triple.pure ⟨hinv', hcode', hg, ?_, ?_⟩
    · split <;> simp [known_append, hk]
    · split <;> simp [hs]
  | list t ih =>
    intro building s hinv hcode hfuel
    rw [unurlifyExp]
    apply Triple.bind (ih building s hinv hcode hfuel)
    rintro js s' ⟨hinv', hcode', hg, hk, hs⟩
    refine Triple.pure ⟨hinv', hcode', hg, ?_, ?_⟩
    · simp [known_append, hk]
    · simp [hs]
  | datatype n =>
    intro building s hinv hcode hfuel
    rw [unurlifyExp]
    apply Triple.bind (hdec n building s hinv hcode hfuel)
    rintro n' s' ⟨hinv', hcode', hg, k, hk⟩
    refine Triple.pure ⟨hinv', hcode', hg, ?_, by simp⟩
    simpa [Known] using ⟨k, hk⟩

theorem decoderArms_spec (hdec : DecoderOk env fuel dec) (dk : DatatypeKind)
    (hinv : DecInv building s) (hcode : CodeInv s) (hfuel : env.missing s.decoders < fuel) :
    Triple (decoderArms env dec dk cs) s (ReadOk building s) fun _ => False := by
  induction cs generalizing s with
  | nil => exact Triple.pure ⟨hinv, hcode, .refl s, by simp, by simp⟩
  | cons xct cs ih =>
    obtain ⟨x, c, payload⟩ := xct
    cases payload with
    | none =>
      rw [decoderArms]
      apply Triple.bind (ih hinv hcode hfuel)
      rintro rest s' ⟨hinv', hcode', hg, hk, hs⟩
      exact Triple.pure ⟨hinv', hcode', hg, by simp [hk], by simp [hs]⟩
    | some t =>
      rw [decoderArms]
      apply Triple.bind (ih hinv hcode hfuel)
      rintro rest s' ⟨hinv', hcode', hg, hk, hs⟩
      apply Triple.bind (unurlifyExp_spec hdec t building s' hinv' hcode'
        ((hg.missing_le env).trans_lt hfuel))
      rintro js s'' ⟨hinv'', hcode'', hg', hk', hs'⟩
      refine Triple.pure ⟨hinv'', hcode'', hg.trans hg', ?_, ?_⟩
      · repeat' split
        all_goals simp [known_append, hk', hg'.known hk]
      · repeat' split
        all_goals simp [hs, hs']

end

-- ---------------------------------------------------------------------------
-- Fuel
-- ---------------------------------------------------------------------------

theorem DecInv.enter (h : DecInv building s) (n : Nat) :
    DecInv (s.maxName :: building)
      { s with maxName := s.maxName + 1, decoders := (n, s.maxName) :: s.decoders } where
  once := by
    rintro k m hm
    rcases List.mem_cons.mp hm with heq | hm
    · cases heq
      exact Or.inl List.mem_cons_self
    · exact (h.once k m hm).imp_left (List.mem_cons_of_mem _)
  pending := by
    intro m hm
    rcases List.mem_cons.mp hm with rfl | hm
    · by_contra hdef
      exact absurd (h.bound s.maxName (Or.inr hdef)) (lt_irrefl _)
    · exact h.pending m hm
  bound := by
    rintro m (hm | hm)
    · rcases List.mem_cons.mp hm with rfl | hm
      · exact Nat.lt_succ_self _
      · exact (h.bound m (Or.inl hm)).trans (Nat.lt_succ_self _)
    · exact (h.bound m (Or.inr hm)).trans (Nat.lt_succ_self _)
  nodup := List.nodup_cons.mpr
    ⟨fun hm => absurd (h.bound s.maxName (Or.inl hm)) (lt_irrefl _), h.nodup⟩

theorem definitions_append (script : List Fragment) (n m : Nat) (js : Js) :
    definitions (script ++ [.decoder n js]) m =
      definitions script m + if n = m then 1 else 0 := by
  by_cases h : n = m <;> simp [definitions, Fragment.defines, h]

theorem DecInv.define (h : DecInv (n :: building) s) (js : Js) :
    DecInv building { s with script := s.script ++ [.decoder n js] } where
  once := by
    intro k m hm
    rcases h.once k m hm with hb | hone
    · rcases List.mem_cons.mp hb with rfl | hb
      · right
        rw [definitions_append, h.pending m List.mem_cons_self, if_pos rfl]
      · exact Or.inl hb
    · right
      have hne : n ≠ m := by
        rintro rfl
        rw [h.pending n List.mem_cons_self] at hone
        cases hone
      rw [definitions_append, hone, if_neg hne]
  pending := by
    intro m hm
    have hne : n ≠ m := by
      rintro rfl
      exact (List.nodup_cons.mp h.nodup).1 hm
    rw [definitions_append, h.pending m (List.mem_cons_of_mem _ hm), if_neg hne]
  bound := by
    intro m hm
    by_cases hnm : n = m
    · exact h.bound m (Or.inl (hnm ▸ List.mem_cons_self))
    · rw [definitions_append, if_neg hnm] at hm
      exact h.bound m (hm.imp_left (List.mem_cons_of_mem _))
  nodup := (List.nodup_cons.mp h.nodup).2

theorem decoder_spec (env : Env) (fuel : Nat) : DecoderOk env fuel (decoder env fuel) := by
  induction fuel with
  | zero =>
    intro n building s hinv hcode hfuel
    exact absurd hfuel (Nat.not_lt_zero _)
  | succ fuel ih =>
    intro n building s hinv hcode hfuel
    rw [decoder]
    apply Triple.bind (Triple.get (Q := fun st s' => s = st ∧ s = s') ⟨rfl, rfl⟩)
    rintro _ _ ⟨rfl, rfl⟩
    cases hkey : s.decoders.lookup n with
    | some n' => exact Triple.pure ⟨hinv, hcode, .refl s, n, mem_of_lookup hkey⟩
    | none =>
      set s1 := { s with maxName := s.maxName + 1,
                         decoders := (n, s.maxName) :: s.decoders } with hs1
      have hg1 : DecGrows s s1 :=
        ⟨fun _ hk => List.mem_cons_of_mem _ hk, fun m hm => (lookup_cons_eq_none.mp hm).2,
          fun _ hf => hf, Nat.le_succ _, rfl, rfl, rfl, rfl, rfl, rfl⟩
      have hinv1 : DecInv (s.maxName :: building) s1 := hinv.enter n
      have hcode1 : CodeInv s1 :=
        ⟨fun f hf => hg1.known (hcode.script f hf), fun js hjs => hg1.known (hcode.emitted js hjs)⟩
      show Triple (decoderArms env (decoder env fuel) _ _ >>= _) s1 _ _
      refine Triple.bind (Q := ReadOk (s.maxName :: building) s1) ?_ ?_
      · cases hcell : env.cells.lookup n with
        | none =>
          simp only [Env.cell, hcell, Option.getD_none]
          exact Triple.pure ⟨hinv1, hcode1, .refl s1, by simp, by simp⟩
        | some dt =>
          have hlt : env.missing s1.decoders < env.missing s.decoders :=
            env.missing_cons_lt (mem_of_lookup hcell) hkey
          exact decoderArms_spec ih _ hinv1 hcode1 (by omega)
      · rintro js s2 ⟨hinv2, hcode2, hg2, hk2, -⟩
        have hreg2 : (n, s.maxName) ∈ s2.decoders := hg2.decoders List.mem_cons_self
        refine Triple.bind (Triple.modify (Q := fun _ s' => DecInv building s' ∧ CodeInv s' ∧
          DecGrows s s' ∧ (n, s.maxName) ∈ s'.decoders) ⟨hinv2.define js, ?_, ?_, hreg2⟩) ?_
        · refine ⟨?_, hcode2.emitted⟩
          intro f hf
          rcases List.mem_append.mp hf with hf | hf
          · exact hcode2.script f hf
          · cases List.mem_singleton.mp hf
            exact hk2
        · exact (hg1.trans hg2).trans ⟨fun _ h => h, fun _ h => h,
            fun _ hf => List.mem_append_left _ hf, le_rfl, rfl, rfl, rfl, rfl, rfl, rfl⟩
        · rintro _ s3 ⟨hinv3, hcode3, hg3, hreg3⟩
          exact Triple.pure ⟨hinv3, hcode3, hg3, n, hreg3⟩

/-- Reading never fails. -/
theorem unurlify_spec (env : Env) (t : Typ) (hinv : DecInv building s) (hcode : CodeInv s) :
    Triple (unurlify env t) s (ReadOk building s) fun _ => False := by
  unfold unurlify
  apply Triple.bind (Triple.get (Q := fun st s' => s = st ∧ s = s') ⟨rfl, rfl⟩)
  rintro _ _ ⟨rfl, rfl⟩
  exact unurlifyExp_spec (decoder_spec env _) t building s hinv hcode (Nat.lt_succ_self _)

end UrWeb.Jscomp
