import Mathlib.Data.Finset.Lattice.Lemmas
import UrWeb.Core.Denotation

/-!
# Laws of the meaning of Core

Meanings are continuous in the variables, so that applying an abstraction
substitutes its argument, and every operation is monotone.
-/

namespace UrWeb.Core.Denotation

open GraphModel

-- ---------------------------------------------------------------------------
-- Types
-- ---------------------------------------------------------------------------

section
variable (g : TypeGlobals)

theorem conFields_eq (fields : List (Constructor × Constructor)) (τ : Nat → TypeValue) :
    conFields g fields τ = fields.map fun f => (conValue g f.1 τ, conValue g f.2 τ) := by
  induction fields with
  | nil => rfl
  | cons f fields ih => simp [conFields, ih]

end

theorem denotes_part {F : (Nat → TypeValue) → TypeValue} (hF : Denotes F) :
    Denotes fun τ => part former (F τ) := fun w => by
  simp only [part, Set.mem_insert_iff, Set.mem_image]
  exact (Continuous.const _).or (.exists' fun v => (hF v).and (.const _))

theorem denotes_union {F G : (Nat → TypeValue) → TypeValue} (hF : Denotes F) (hG : Denotes G) :
    Denotes fun τ => F τ ∪ G τ := fun w => (hF w).or (hG w)

theorem denotes_rowOf {β : Type} {F G : β → (Nat → TypeValue) → TypeValue} {l : List β}
    (hF : ∀ b ∈ l, Denotes (F b)) (hG : ∀ b ∈ l, Denotes (G b)) :
    Denotes fun τ => rowOf (l.map fun b => (F b τ, G b τ)) := fun w => by
  simp only [rowOf, List.mem_map, exists_exists_and_eq_and, List.forall₂_map_right_iff,
    Set.mem_ofPred_eq]
  refine .or ?_ ?_
  · exact .exists' fun x => .exists' fun ws => (Continuous.const _).and <|
      .exists_mem fun b hb => (hF b hb _).and (.forall_mem fun v _ => hG b hb v)
  · exact .exists' fun xs => (Continuous.const _).and (.forall₂ fun x b hb => hF b hb _)

theorem denotes_concatRows {F G : (Nat → TypeValue) → TypeValue} (hF : Denotes F)
    (hG : Denotes G) : Denotes fun τ => concatRows (F τ) (G τ) := fun w => by
  simp only [concatRows, Set.mem_ofPred_eq]
  refine .or ((Continuous.const _).and ((hF w).or (hG w))) ?_
  exact .exists' fun _ => .exists' fun _ => (Continuous.const _).and ((hF _).and (hG _))

theorem denotes_mapRow {F G : (Nat → TypeValue) → TypeValue} (hF : Denotes F) (hG : Denotes G) :
    Denotes fun τ => mapRow (F τ) (G τ) := fun w => by
  simp only [mapRow, Set.mem_ofPred_eq]
  refine .or (.exists' fun x => .exists' fun ws => .exists' fun vs => ?_) ?_
  · exact (Continuous.const _).and <| (hG _).and <| .forall_mem fun v _ =>
      denotes_app hF (fun a => Continuous.const (a ∈ vs)) v
  · exact .exists' fun names => (Continuous.const _).and (hG _)

section
variable (g : TypeGlobals)

theorem denotes_lam_push {F : (Nat → TypeValue) → TypeValue} (hF : Denotes F) :
    Denotes fun τ => lam .arrow fun X => F (push X τ) :=
  denotes_lam fun as w => (hF w).comp (denotes_push (fun v => .const (v ∈ as)) Continuous.mem)

theorem denotes_conItems {cs : List Constructor} (h : ∀ c ∈ cs, Denotes (conValue g c)) (i : Nat) :
    Denotes (conItems g i cs) := by
  induction cs generalizing i with
  | nil => exact fun w => .const False
  | cons c cs ih =>
    simp only [List.forall_mem_cons] at h
    exact denotes_union (denotes_part h.1) (ih h.2 (i + 1))

theorem denotes_conValue (c : Constructor) : Denotes (conValue g c) := by
  induction c with
  | tFun dom ran ihd ihr => exact denotes_union (denotes_part ihd) (denotes_part ihr)
  | tCFun x k body ih => exact denotes_part (denotes_lam_push ih)
  | tRecord row ih => exact denotes_part ih
  | rel n => exact Continuous.mem n
  | named n => exact fun w => .const (w ∈ g.named n)
  | ffi m x => exact fun w => .const (w ∈ g.ffi m x)
  | app c1 c2 ih1 ih2 => exact denotes_app ih1 ih2
  | abs x k body ih => exact denotes_lam_push ih
  | kAbs x body ih => exact ih
  | kApp c k ih => exact ih
  | tKFun x body ih => exact denotes_part ih
  | name s => exact fun w => .const _
  | record k fields ih =>
    simp only [conValue, conFields_eq]
    exact denotes_rowOf (fun f hf => (ih f hf).1) fun f hf => (ih f hf).2
  | concat c1 c2 ih1 ih2 => exact denotes_concatRows ih1 ih2
  | map k1 k2 => exact fun w => .const _
  | unit => exact fun w => .const _
  | tuple cs ih => exact denotes_conItems g ih 0
  | proj c n ih => exact fun w => ih _

theorem part_mem_conItems {cs : List Constructor} : .part (.item j) (some w) ∈ conItems g i cs τ ↔
    i ≤ j ∧ ∃ c, cs[j - i]? = some c ∧ w ∈ conValue g c τ := by
  induction cs generalizing i with
  | nil => simp [conItems]
  | cons c cs ih =>
    simp only [conItems, part, Set.mem_union, Set.mem_insert_iff, TypeToken.part.injEq, reduceCtorEq,
      and_false, Set.mem_image, Former.item.injEq, Option.some.injEq, false_or, ih]
    constructor
    · rintro (⟨v, hv, rfl, rfl⟩ | ⟨hij, d, hd, hw⟩)
      · exact ⟨Nat.le_refl _, c, by simp, hv⟩
      · refine ⟨by omega, d, ?_, hw⟩
        rwa [show j - i = j - (i + 1) + 1 by omega, List.getElem?_cons_succ]
    · rintro ⟨hij, d, hd, hw⟩
      rcases Nat.eq_or_lt_of_le hij with rfl | hlt
      · simp only [Nat.sub_self, List.getElem?_cons_zero, Option.some.injEq] at hd
        exact .inl ⟨w, hd ▸ hw, rfl, rfl⟩
      · refine .inr ⟨hlt, d, ?_, hw⟩
        rwa [show j - i = j - (i + 1) + 1 by omega, List.getElem?_cons_succ] at hd

/-- A projection from a tuple; members count from one. -/
theorem conValue_proj_tuple (h : cs[n - 1]? = some c) (τ : Nat → TypeValue) :
    conValue g (.proj (.tuple cs) n) τ = conValue g c τ := by
  ext w
  simp [conValue, part_mem_conItems, h]

theorem app_typeArrow {F : (Nat → TypeValue) → TypeValue} (hF : Denotes F) (τ : Nat → TypeValue)
    (X : TypeValue) : app .arrow (lam .arrow fun X => F (push X τ)) X = F (push X τ) :=
  app_lam (fun h => by cases h; exact ⟨rfl, rfl⟩) hF τ X

end

-- ---------------------------------------------------------------------------
-- Rows
-- ---------------------------------------------------------------------------

theorem rowOf_nil : rowOf [] = {.row ∅} := by
  ext w
  simp [rowOf]

theorem mem_concatRows_of_not_row {X Y : TypeValue} (h : ∀ names, w ≠ .row names) :
    w ∈ concatRows X Y ↔ w ∈ X ∨ w ∈ Y := by
  simp [concatRows, h]

theorem entry_mem_concatRows {X Y : TypeValue} :
    .entry x ws ∈ concatRows X Y ↔ .entry x ws ∈ X ∨ .entry x ws ∈ Y :=
  mem_concatRows_of_not_row (by simp)

theorem row_mem_concatRows {X Y : TypeValue} : .row names ∈ concatRows X Y ↔
    ∃ xs ys, names = xs ∪ ys ∧ .row xs ∈ X ∧ .row ys ∈ Y := by
  simp [concatRows]

theorem entry_mem_rowOf : .entry x ws ∈ rowOf fields ↔
    ∃ f ∈ fields, .name x ∈ f.1 ∧ ∀ v ∈ ws, v ∈ f.2 := by
  simp [rowOf]

theorem row_mem_rowOf : .row names ∈ rowOf fields ↔
    ∃ xs : List String, names = xs.toFinset ∧ List.Forall₂ (fun x f => .name x ∈ f.1) xs fields := by
  simp [rowOf]

/-- Tokens other than those of a row. -/
theorem not_mem_rowOf (hentry : ∀ x ws, w ≠ .entry x ws) (hrow : ∀ names, w ≠ .row names) :
    w ∉ rowOf fields := by
  simp [rowOf, hentry, hrow]

theorem rowOf_append (fields fields' : List (TypeValue × TypeValue)) :
    rowOf (fields ++ fields') = concatRows (rowOf fields) (rowOf fields') := by
  ext w
  cases w with
  | row names =>
    rw [row_mem_concatRows]
    constructor
    · intro h
      obtain ⟨xs, rfl, hxs⟩ := row_mem_rowOf.mp h
      refine ⟨_, _, ?_, row_mem_rowOf.mpr ⟨_, rfl, List.forall₂_take_append _ _ _ hxs⟩,
        row_mem_rowOf.mpr ⟨_, rfl, List.forall₂_drop_append _ _ _ hxs⟩⟩
      rw [← List.toFinset_append, List.take_append_drop]
    · rintro ⟨_, _, rfl, h, h'⟩
      obtain ⟨xs, rfl, hxs⟩ := row_mem_rowOf.mp h
      obtain ⟨ys, rfl, hys⟩ := row_mem_rowOf.mp h'
      exact row_mem_rowOf.mpr ⟨xs ++ ys, by simp, List.rel_append hxs hys⟩
  | entry x ws =>
    simp only [entry_mem_concatRows, entry_mem_rowOf, List.mem_append, or_and_right, exists_or]
  | _ => simp [mem_concatRows_of_not_row, not_mem_rowOf]

theorem concatRows_nil_left (X : TypeValue) : concatRows (rowOf []) X = X := by
  ext w
  cases w <;> simp [rowOf_nil, concatRows]

theorem concatRows_nil_right (X : TypeValue) : concatRows X (rowOf []) = X := by
  ext w
  cases w <;> simp [rowOf_nil, concatRows]

theorem mapRow_nil (f : TypeValue) : mapRow f (rowOf []) = rowOf [] := by
  ext w
  cases w <;> simp [rowOf_nil, mapRow]

theorem app_arrow_mono_right (h : X ⊆ Y) (hv : v ∈ app .arrow f X) : v ∈ app TypeToken.arrow f Y :=
  app_mono subset_rfl h hv

/-- A finite part of a result needs a finite part of the argument. -/
theorem exists_tokens_of_app {f X : TypeValue} {ws : List TypeToken}
    (h : ∀ v ∈ ws, v ∈ app .arrow f X) :
    ∃ vs : List TypeToken, (∀ v ∈ vs, v ∈ X) ∧ ∀ v ∈ ws, v ∈ app .arrow f {v | v ∈ vs} := by
  induction ws with
  | nil => exact ⟨[], by simp, by simp⟩
  | cons w ws ih =>
    simp only [List.forall_mem_cons] at h ⊢
    obtain ⟨vs, hvs, hws⟩ := ih h.2
    obtain ⟨as, has, hw⟩ := h.1
    refine ⟨as ++ vs, fun v hv => (List.mem_append.mp hv).elim (has v) (hvs v), ?_, fun v hv => ?_⟩
    · exact ⟨as, fun a ha => List.mem_append_left _ ha, hw⟩
    · exact app_arrow_mono_right (fun a ha => List.mem_append_right _ ha) (hws v hv)

theorem row_mem_mapRow : .row names ∈ mapRow f X ↔ .row names ∈ X := by
  simp [mapRow]

theorem entry_mem_mapRow : .entry x ws ∈ mapRow f X ↔
    ∃ vs, .entry x vs ∈ X ∧ ∀ v ∈ ws, v ∈ app TypeToken.arrow f {v | v ∈ vs} := by
  constructor
  · rintro (⟨_, _, vs, heq, h⟩ | ⟨_, heq, _⟩) <;> cases heq
    exact ⟨vs, h⟩
  · rintro ⟨vs, h⟩
    exact .inl ⟨x, ws, vs, rfl, h⟩

theorem mapRow_concatRows (f X Y : TypeValue) :
    mapRow f (concatRows X Y) = concatRows (mapRow f X) (mapRow f Y) := by
  ext w
  cases w with
  | row names => simp only [row_mem_mapRow, row_mem_concatRows]
  | entry x ws =>
    simp only [entry_mem_concatRows, entry_mem_mapRow, or_and_right, exists_or]
  | _ => simp [mem_concatRows_of_not_row, mapRow]

theorem mapRow_singleton (f X T : TypeValue) :
    mapRow f (rowOf [(X, T)]) = rowOf [(X, app .arrow f T)] := by
  ext w
  cases w with
  | row names =>
    simp only [row_mem_mapRow, row_mem_rowOf, List.forall₂_cons_right_iff]
  | entry x ws =>
    rw [entry_mem_mapRow]
    simp only [entry_mem_rowOf, List.mem_singleton, exists_eq_left]
    constructor
    · rintro ⟨vs, ⟨hx, hvs⟩, hws⟩
      exact ⟨hx, fun v hv => app_arrow_mono_right hvs (hws v hv)⟩
    · rintro ⟨hx, hws⟩
      obtain ⟨vs, hvs, hws⟩ := exists_tokens_of_app hws
      exact ⟨vs, ⟨hx, hvs⟩, hws⟩
  | _ => simp [not_mem_rowOf, mapRow]

theorem conValue_map (g : TypeGlobals) (k1 k2 : Kind) (f c : Constructor) (τ : Nat → TypeValue) :
    conValue g (.app (.app (.map k1 k2) f) c) τ = mapRow (conValue g f τ) (conValue g c τ) := by
  have hrow : Denotes fun τ => mapRow (τ 1) (τ 0) :=
    denotes_mapRow (Continuous.mem 1) (Continuous.mem 0)
  have hlam := app_typeArrow (denotes_lam_push hrow) τ (conValue g f τ)
  have hrowApp := app_typeArrow hrow (push (conValue g f τ) τ) (conValue g c τ)
  exact (congrArg (app .arrow · (conValue g c τ)) hlam).trans hrowApp

theorem conValue_map_cons (g : TypeGlobals) (k1 k2 k domK : Kind) (f x c : Constructor)
    (rest : List (Constructor × Constructor)) (τ : Nat → TypeValue) :
    conValue g (.app (.app (.map k1 k2) f) (.record domK ((x, c) :: rest))) τ =
      conValue g (.concat (.record k [(x, .app f c)]) (.app (.app (.map k1 k2) f) (.record domK rest))) τ := by
  rw [conValue_map]
  simp only [conValue, conFields]
  rw [show (conValue g x τ, conValue g c τ) :: conFields g rest τ =
    [(conValue g x τ, conValue g c τ)] ++ conFields g rest τ from rfl, rowOf_append,
    mapRow_concatRows, mapRow_singleton]
  exact congrArg (concatRows _) (conValue_map g k1 k2 f (.record domK rest) τ).symm

-- ---------------------------------------------------------------------------
-- Patterns
-- ---------------------------------------------------------------------------

theorem subAccepts_iff {sub : Option Pattern} : SubAccepts sub X ↔ ∀ p ∈ sub, Accepts p X := by
  cases sub <;> simp [SubAccepts]

theorem subRejects_iff {sub : Option Pattern} : SubRejects sub X ↔ ∃ p ∈ sub, Rejects p X := by
  cases sub <;> simp [SubRejects]

theorem fieldsAccept_iff {fields : List (String × Pattern × Constructor)} :
    FieldsAccept fields X ↔ ∀ f ∈ fields, Accepts f.2.1 {v | .field f.1 v ∈ X} := by
  induction fields with
  | nil => simp [FieldsAccept]
  | cons f fields ih => simp [FieldsAccept, ih]

theorem fieldsReject_iff {fields : List (String × Pattern × Constructor)} :
    FieldsReject fields X ↔ ∃ f ∈ fields, Rejects f.2.1 {v | .field f.1 v ∈ X} := by
  induction fields with
  | nil => simp [FieldsReject]
  | cons f fields ih => simp [FieldsReject, ih]

theorem continuous_accepts (p : Pattern) {F : (Nat → Value) → Value} (hF : Denotes F) :
    Continuous fun ρ => Accepts p (F ρ) := by
  induction p generalizing F with
  | var x t => exact .const True
  | prim p => exact .exists' fun q => (hF _).and (.const _)
  | constructor dk pc args sub ih =>
    simp only [Accepts, subAccepts_iff]
    refine (hF _).and ?_
    cases sub with
    | none => simpa using Continuous.const True
    | some p =>
      have hpayload : Denotes fun ρ => {v | Token.payload (conTag pc) v ∈ F ρ} := fun v => hF _
      simpa using ih p rfl hpayload
  | record fields ih =>
    simp only [Accepts, fieldsAccept_iff]
    exact (Continuous.exists' fun names => (hF _).and (.const _)).and
      (.forall_mem fun f hf => ih f hf fun v => hF _)

theorem continuous_rejects (p : Pattern) {F : (Nat → Value) → Value} (hF : Denotes F) :
    Continuous fun ρ => Rejects p (F ρ) := by
  induction p generalizing F with
  | var x t => exact .const False
  | prim p => exact .exists' fun q => (hF _).and (.const _)
  | constructor dk pc args sub ih =>
    simp only [Rejects, subRejects_iff]
    refine (Continuous.exists' fun c => (hF _).and (.const _)).or ?_
    cases sub with
    | none => simpa using Continuous.const False
    | some p =>
      have hpayload : Denotes fun ρ => {v | Token.payload (conTag pc) v ∈ F ρ} := fun v => hF _
      simpa using ih p rfl hpayload
  | record fields ih =>
    simp only [Rejects, fieldsReject_iff]
    exact (Continuous.exists' fun names => (hF _).and (.const _)).or
      (.exists_mem fun f hf => ih f hf fun v => hF _)

/-- Each variable of a pattern selects a part of the value. -/
theorem exists_selectors (p : Pattern) : ∃ Gs : List (Value → Value),
    (∀ X, binds p X = Gs.map fun G => G X) ∧
    ∀ G ∈ Gs, ∀ F : (Nat → Value) → Value, Denotes F → Denotes fun ρ => G (F ρ) := by
  induction p with
  | var x t => exact ⟨[id], by simp [binds], by simp⟩
  | prim p => exact ⟨[], by simp [binds], by simp⟩
  | constructor dk pc args sub ih =>
    cases sub with
    | none => exact ⟨[], by simp [binds, subBinds], by simp⟩
    | some p =>
      obtain ⟨Gs, hbinds, hG⟩ := ih p rfl
      refine ⟨Gs.map fun G X => G {v | .payload (conTag pc) v ∈ X}, ?_, ?_⟩
      · simp [binds, subBinds, hbinds]
      · simp only [List.forall_mem_map]
        exact fun G hmem F hF => hG G hmem (fun ρ => {v | .payload (conTag pc) v ∈ F ρ}) fun v => hF _
  | record fields ih =>
    simp only [binds]
    induction fields with
    | nil => exact ⟨[], by simp [fieldsBind], by simp⟩
    | cons f fields ihf =>
      simp only [List.forall_mem_cons] at ih
      obtain ⟨Gs, hbinds, hG⟩ := ih.1
      obtain ⟨Gs', hbinds', hG'⟩ := ihf ih.2
      refine ⟨(Gs.map fun G X => G {v | .field f.1 v ∈ X}) ++ Gs', ?_, ?_⟩
      · simp [fieldsBind, hbinds, hbinds']
      · simp only [List.forall_mem_append, List.forall_mem_map]
        exact ⟨fun G hmem F hF => hG G hmem (fun ρ => {v | .field f.1 v ∈ F ρ}) fun v => hF _, hG'⟩

-- ---------------------------------------------------------------------------
-- Expressions
-- ---------------------------------------------------------------------------

section
variable (g : Globals) (clash : Value)

theorem payloadValue_eq (payload : Option Expression) (τ ρ) :
    payloadValue g clash payload τ ρ = payload.map fun e => value g clash e τ ρ := by
  cases payload <;> rfl

theorem argValues_eq (args : List (Expression × Constructor)) (τ ρ) :
    argValues g clash args τ ρ = args.map fun a => value g clash a.1 τ ρ := by
  induction args with
  | nil => rfl
  | cons a args ih => simp [argValues, ih]

theorem fieldValues_eq (fields : List (Constructor × Expression × Constructor)) (τ ρ) :
    fieldValues g clash fields τ ρ =
      fields.map fun f => (conValue g.types f.1 τ, value g clash f.2.1 τ ρ) := by
  induction fields with
  | nil => rfl
  | cons f fields ih => simp [fieldValues, ih]

theorem listValues_eq (es : List Expression) (τ ρ) :
    listValues g clash es τ ρ = es.map fun e => value g clash e τ ρ := by
  induction es with
  | nil => rfl
  | cons e es ih => simp [listValues, ih]

end

section
variable {F G : (Nat → Value) → Value}

theorem denotes_appAll {β : Type} {l : List β} {H : β → (Nat → Value) → Value} (hF : Denotes F)
    (hH : ∀ b ∈ l, Denotes (H b)) : Denotes fun ρ => appAll (F ρ) (l.map fun b => H b ρ) := by
  induction l generalizing F with
  | nil => exact hF
  | cons b l ih =>
    simp only [List.forall_mem_cons] at hH
    exact ih (denotes_app hF hH.1) hH.2

theorem denotes_constructed {β : Type} {payload : Option β} {H : β → (Nat → Value) → Value}
    (hH : ∀ b ∈ payload, Denotes (H b)) :
    Denotes fun ρ => constructed c (payload.map fun b => H b ρ) := fun w => by
  refine .or (.const _) ?_
  cases payload with
  | none => simpa using Continuous.const False
  | some b => simpa using Continuous.exists' fun v => (hH b rfl v).and (.const _)

theorem occurrences_congr {β : Type} {l : List β} {T : β → TypeValue} {X Y : β → Value} :
    occurrences x (l.map fun b => (T b, X b)) = occurrences x (l.map fun b => (T b, Y b)) := by
  simp [occurrences, List.countP_map, Function.comp_def]

theorem denotes_recordOf {β : Type} {l : List β} {T : β → TypeValue}
    {H : β → (Nat → Value) → Value} (hF : Denotes F) (hH : ∀ b ∈ l, Denotes (H b)) :
    Denotes fun ρ => recordOf (F ρ) (l.map fun b => (T b, H b ρ)) := fun w => by
  simp only [recordOf, List.mem_map, exists_exists_and_eq_and, List.forall₂_map_right_iff,
    Set.mem_ofPred_eq, occurrences_congr (X := fun b => H b _) (Y := fun _ => ∅)]
  refine .or (.exists' fun x => .exists' fun v => (Continuous.const _).and (.or ?_ ?_)) (.const _)
  · exact (Continuous.const _).and (.exists_mem fun b hb => (Continuous.const _).and (hH b hb v))
  · exact (Continuous.const _).and (hF v)

theorem denotes_fieldOf (hF : Denotes F) : Denotes fun ρ => fieldOf t (F ρ) := fun _ =>
  .exists' fun _ => (Continuous.const _).and (hF _)

theorem denotes_concatRecords (hF : Denotes F) (hG : Denotes G) :
    Denotes fun ρ => concatRecords (F ρ) (G ρ) := fun _ =>
  .or (.exists' fun _ => .exists' fun _ => (Continuous.const _).and ((hF _).or (hG _)))
    (.exists' fun _ => .exists' fun _ => (Continuous.const _).and ((hF _).and (hG _)))

theorem denotes_cutFields (hF : Denotes F) : Denotes fun ρ => cutFields names (F ρ) := fun _ =>
  .or (.exists' fun _ => .exists' fun _ => (Continuous.const _).and ((Continuous.const _).and (hF _)))
    (.exists' fun _ => (Continuous.const _).and (hF _))

theorem denotes_cutOf (hF : Denotes F) : Denotes fun ρ => cutOf t (F ρ) := fun _ =>
  .exists' fun _ => (Continuous.const _).and (denotes_cutFields hF _)

theorem denotes_cutMultiOf (hF : Denotes F) : Denotes fun ρ => cutMultiOf t (F ρ) := fun _ =>
  .exists' fun _ => (Continuous.const _).and (denotes_cutFields hF _)

end

section
variable (g : Globals)

theorem denotes_pushAll_binds {F : (Nat → Value) → Value} {σ : (Nat → Value) → Nat → Value}
    (p : Pattern) (hF : Denotes F) (hσ : ∀ i, Denotes fun ρ => σ ρ i) (i : Nat) :
    Denotes fun ρ => pushAll (binds p (F ρ)) (σ ρ) i := by
  obtain ⟨Gs, hbinds, hG⟩ := exists_selectors p
  have hGs : ∀ F' ∈ Gs.map fun G ρ => G (F ρ), Denotes F' := by
    simpa using fun G hmem => hG G hmem F hF
  simpa [hbinds, Function.comp_def] using denotes_pushAll hGs hσ i

/-- The meaning is continuous in the variables and in what clashing fields hold. -/
theorem denotes_value (e : Expression) (τ : Nat → TypeValue) {K : (Nat → Value) → Value}
    {σ : (Nat → Value) → Nat → Value} (hK : Denotes K) (hσ : ∀ i, Denotes fun ρ => σ ρ i) :
    Denotes fun ρ => value g (K ρ) e τ (σ ρ) := by
  induction e generalizing τ σ with
  | prim p => exact fun w => .const _
  | rel n => exact hσ n
  | named n => exact fun w => .const (w ∈ g.named n)
  | constructor dk pc args payload ih =>
    simp only [value, payloadValue_eq]
    exact denotes_constructed fun e he => ih e he τ hσ
  | ffi m x => exact fun w => .const (w ∈ g.ffi m x)
  | ffiApp m x args ih =>
    simp only [value, argValues_eq]
    exact denotes_appAll (fun w => .const (w ∈ g.ffi m x)) fun a ha => ih a ha τ hσ
  | app e1 e2 ih1 ih2 => exact denotes_app (ih1 τ hσ) (ih2 τ hσ)
  | abs x dom ran body ih =>
    exact denotes_lam fun as => ih τ (denotes_push (fun v => .const (v ∈ as)) hσ)
  | cApp e c ih => exact fun w => ih τ hσ _
  | cAbs x k body ih =>
    exact fun w => .exists' fun t => .exists' fun v => (Continuous.const _).and (ih _ hσ v)
  | kAbs x body ih => exact ih τ hσ
  | kApp e k ih => exact ih τ hσ
  | record fields ih =>
    simp only [value, fieldValues_eq]
    exact denotes_recordOf hK fun f hf => ih f hf τ hσ
  | field e c info ih => exact denotes_fieldOf (ih τ hσ)
  | concat e1 c1 e2 c2 ih1 ih2 => exact denotes_concatRecords (ih1 τ hσ) (ih2 τ hσ)
  | cut e c info ih => exact denotes_cutOf (ih τ hσ)
  | cutMulti e c info ih => exact denotes_cutMultiOf (ih τ hσ)
  | case disc arms info ihd ih =>
    simp only [value]
    have hd := ihd τ hσ
    clear ihd
    induction arms with
    | nil => exact fun w => .const False
    | cons arm arms iha =>
      simp only [List.forall_mem_cons] at ih
      have harm := ih.1 τ (denotes_pushAll_binds arm.1 hd hσ)
      exact fun w => ((continuous_accepts arm.1 hd).and (harm w)).or
        ((continuous_rejects arm.1 hd).and (iha ih.2 w))
  | write e ih => exact denotes_app (fun w => .const (w ∈ g.write)) (ih τ hσ)
  | closure n captured ih =>
    simp only [value, listValues_eq]
    exact denotes_appAll (fun w => .const (w ∈ g.closure n)) fun e he => ih e he τ hσ
  | letIn x t e1 e2 ih1 ih2 => exact ih2 τ (denotes_push (ih1 τ hσ) hσ)
  | serverCall n args result fm ih =>
    simp only [value, listValues_eq]
    exact denotes_appAll (fun w => .const (w ∈ g.serverCall n fm)) fun e he => ih e he τ hσ

theorem value_mono {K K' : Value} {ρ ρ' : Nat → Value} (e : Expression) (τ : Nat → TypeValue)
    (hK : K ⊆ K') (hρ : ∀ i, ρ i ⊆ ρ' i) : value g K e τ ρ ⊆ value g K' e τ ρ' := by
  have h : Denotes fun ρ => value g (ρ 0) e τ fun i => ρ (i + 1) :=
    denotes_value g e τ (Continuous.mem 0) fun i => Continuous.mem (i + 1)
  refine h.mono (R := push K ρ) (S := push K' ρ') fun i => ?_
  cases i with
  | zero => exact hK
  | succ i => exact hρ i

/-- Applying an abstraction binds its variable to the argument. -/
theorem app_abs (K X : Value) (e : Expression) (τ : Nat → TypeValue) (ρ : Nat → Value) :
    app .arrow (lam .arrow fun X => value g K e τ (push X ρ)) X = value g K e τ (push X ρ) :=
  app_lam (F := fun ρ => value g K e τ ρ) (fun h => by cases h; exact ⟨rfl, rfl⟩)
    (denotes_value g e τ (K := fun _ => K) (fun w => .const (w ∈ K)) Continuous.mem)
    ρ X

/-- Applying a type abstraction binds its variable to the type. -/
theorem cApp_cAbs (K : Value) (x : String) (k : Kind) (e : Expression) (c : Constructor)
    (τ : Nat → TypeValue) (ρ : Nat → Value) :
    value g K (.cApp (.cAbs x k e) c) τ ρ = value g K e (push (conValue g.types c τ) τ) ρ := by
  ext w
  simp [value]

end

end UrWeb.Core.Denotation
