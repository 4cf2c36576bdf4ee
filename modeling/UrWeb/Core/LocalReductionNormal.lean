import UrWeb.Core.LocalReductionSound
import UrWeb.Core.Utilities

/-!
# Local reduction leaves nothing to reduce

What comes out of local reduction is in normal form, and reducing it again, or
any part of it, gives it back.
-/

namespace UrWeb.Core.LocalReduction

-- ---------------------------------------------------------------------------
-- Types
-- ---------------------------------------------------------------------------

def conRedex : Constructor → Bool
  | .app (.abs _ _ _) _ => true
  | .app (.app (.map _ _) _) .unit => true
  | .app (.app (.map _ _) _) (.record _ _) => true
  | .kApp (.kAbs _ _) _ => true
  | .concat (.record _ _) (.record _ _) => true
  | .concat (.record _ []) _ => true
  | .concat _ (.record _ []) => true
  | .proj (.tuple _) _ => true
  | _ => false

/-- No part of the type can be reduced. -/
def NormalCon (c : Constructor) : Prop := ∀ n ∈ c.nodes, conRedex n = false

theorem mem_conFieldNodes {fields : List (Constructor × Constructor)} :
    n ∈ Constructor.fieldNodes fields ↔ ∃ f ∈ fields, n ∈ f.1.nodes ∨ n ∈ f.2.nodes := by
  induction fields with
  | nil => simp [Constructor.fieldNodes]
  | cons f fields ih => simp [Constructor.fieldNodes, ih, or_assoc]

theorem mem_conListNodes {cs : List Constructor} :
    n ∈ Constructor.listNodes cs ↔ ∃ c ∈ cs, n ∈ c.nodes := by
  induction cs with
  | nil => simp [Constructor.listNodes]
  | cons c cs ih => simp [Constructor.listNodes, ih]

section
variable {c c1 c2 : Constructor}

/-- A type with one part. -/
theorem normalCon_unary {d : Constructor} (h : d.nodes = d :: c.nodes) :
    NormalCon d ↔ conRedex d = false ∧ NormalCon c := by
  rw [NormalCon, h, List.forall_mem_cons, NormalCon]

/-- A type with two parts. -/
theorem normalCon_binary {d : Constructor} (h : d.nodes = d :: (c1.nodes ++ c2.nodes)) :
    NormalCon d ↔ conRedex d = false ∧ NormalCon c1 ∧ NormalCon c2 := by
  rw [NormalCon, h, List.forall_mem_cons, List.forall_mem_append, NormalCon, NormalCon]

theorem normalCon_tFun : NormalCon (.tFun c1 c2) ↔ NormalCon c1 ∧ NormalCon c2 :=
  (normalCon_binary rfl).trans (and_iff_right rfl)

theorem normalCon_app : NormalCon (.app c1 c2) ↔
    conRedex (.app c1 c2) = false ∧ NormalCon c1 ∧ NormalCon c2 :=
  normalCon_binary rfl

theorem normalCon_concat : NormalCon (.concat c1 c2) ↔
    conRedex (.concat c1 c2) = false ∧ NormalCon c1 ∧ NormalCon c2 :=
  normalCon_binary rfl

theorem normalCon_tCFun : NormalCon (.tCFun x k c) ↔ NormalCon c :=
  (normalCon_unary rfl).trans (and_iff_right rfl)

theorem normalCon_abs : NormalCon (.abs x k c) ↔ NormalCon c :=
  (normalCon_unary rfl).trans (and_iff_right rfl)

theorem normalCon_tKFun : NormalCon (.tKFun x c) ↔ NormalCon c :=
  (normalCon_unary rfl).trans (and_iff_right rfl)

theorem normalCon_kAbs : NormalCon (.kAbs x c) ↔ NormalCon c :=
  (normalCon_unary rfl).trans (and_iff_right rfl)

theorem normalCon_tRecord : NormalCon (.tRecord c) ↔ NormalCon c :=
  (normalCon_unary rfl).trans (and_iff_right rfl)

theorem normalCon_kApp : NormalCon (.kApp c k) ↔ conRedex (.kApp c k) = false ∧ NormalCon c :=
  normalCon_unary rfl

theorem normalCon_proj : NormalCon (.proj c n) ↔ conRedex (.proj c n) = false ∧ NormalCon c :=
  normalCon_unary rfl

theorem normalCon_record {fields : List (Constructor × Constructor)} :
    NormalCon (.record k fields) ↔ ∀ f ∈ fields, NormalCon f.1 ∧ NormalCon f.2 := by
  simp only [NormalCon, Constructor.nodes, List.mem_cons, mem_conFieldNodes]
  constructor
  · exact fun h f hf => ⟨fun n hn => h n (.inr ⟨f, hf, .inl hn⟩), fun n hn => h n (.inr ⟨f, hf, .inr hn⟩)⟩
  · rintro h n (rfl | ⟨f, hf, hn | hn⟩)
    · rfl
    · exact (h f hf).1 n hn
    · exact (h f hf).2 n hn

theorem normalCon_tuple {cs : List Constructor} : NormalCon (.tuple cs) ↔ ∀ c ∈ cs, NormalCon c := by
  simp only [NormalCon, Constructor.nodes, List.mem_cons, mem_conListNodes]
  constructor
  · exact fun h c hc n hn => h n (.inr ⟨c, hc, hn⟩)
  · rintro h n (rfl | ⟨c, hc, hn⟩)
    · rfl
    · exact h c hc n hn

theorem normalCon_leaf (h : c.nodes = [c]) (hc : conRedex c = false) : NormalCon c := by
  simpa [NormalCon, h] using hc

end

theorem findCon_result {simplify : Environment → Constructor → Option Constructor}
    (h : findCon simplify env nOrig nRem nudge liftC = some c) :
    (∃ n, c = .rel n) ∨ ∃ env' d, simplify env' d = some c := by
  induction env generalizing nRem nudge liftC with
  | nil =>
    cases h
    exact .inl ⟨_, rfl⟩
  | cons item env ih =>
    cases item with
    | unknown | known | lift => exact ih h
    | unknownC =>
      simp only [findCon] at h
      split at h
      · cases h
        exact .inl ⟨_, rfl⟩
      · exact ih h
    | knownC =>
      simp only [findCon] at h
      split at h
      · exact .inr ⟨_, _, h⟩
      · exact ih h

theorem forall₂_right_mem {α β : Type} {R : α → β → Prop} {P : β → Prop} {l : List α} {l' : List β}
    (h : List.Forall₂ R l l') (hR : ∀ a b, R a b → P b) : ∀ b ∈ l', P b := by
  induction h with
  | nil => simp
  | cons hab _ ih => exact List.forall_mem_cons.mpr ⟨hR _ _ hab, ih⟩

/-- What type-level simplification gives is normal. -/
theorem simplifyCon_normal (h : simplifyCon allowed fuel env c = some c') : NormalCon c' := by
  induction fuel generalizing env c c' with
  | zero => cases h
  | succ fuel ih =>
    cases c with
    | rel n =>
      obtain ⟨n, rfl⟩ | ⟨env', d, h⟩ := findCon_result h
      · exact normalCon_leaf rfl rfl
      · exact ih h
    | named | ffi | name | unit | map =>
      cases h
      exact normalCon_leaf rfl rfl
    | tFun c1 c2 =>
      simp only [simplifyCon, Option.bind_eq_bind, Option.bind_eq_some_iff] at h
      obtain ⟨d1, h1, d2, h2, ⟨⟩⟩ := h
      exact normalCon_tFun.mpr ⟨ih h1, ih h2⟩
    | tKFun x c =>
      simp only [simplifyCon, Option.bind_eq_bind, Option.bind_eq_some_iff] at h
      obtain ⟨d, hd, ⟨⟩⟩ := h
      exact normalCon_tKFun.mpr (ih hd)
    | tRecord c =>
      simp only [simplifyCon, Option.bind_eq_bind, Option.bind_eq_some_iff] at h
      obtain ⟨d, hd, ⟨⟩⟩ := h
      exact normalCon_tRecord.mpr (ih hd)
    | kAbs x c =>
      simp only [simplifyCon, Option.bind_eq_bind, Option.bind_eq_some_iff] at h
      obtain ⟨d, hd, ⟨⟩⟩ := h
      exact normalCon_kAbs.mpr (ih hd)
    | tCFun x k c =>
      simp only [simplifyCon, Option.bind_eq_bind, Option.bind_eq_some_iff] at h
      obtain ⟨d, hd, ⟨⟩⟩ := h
      exact normalCon_tCFun.mpr (ih hd)
    | abs x k c =>
      simp only [simplifyCon, Option.bind_eq_bind, Option.bind_eq_some_iff] at h
      obtain ⟨d, hd, ⟨⟩⟩ := h
      exact normalCon_abs.mpr (ih hd)
    | app c1 c2 =>
      simp only [simplifyCon, Option.bind_eq_bind, Option.bind_eq_some_iff] at h
      obtain ⟨f, hf, arg, harg, h⟩ := h
      split at h
      · exact ih (guard_bind_eq_some.mp (guard_bind_eq_some.mp h).2).2
      · split at h
        · cases h
          exact normalCon_record.mpr (by simp)
        · cases h
          exact normalCon_record.mpr (by simp)
        · exact ih (guard_bind_eq_some.mp h).2
        · rename_i hunit hempty hcons
          cases h
          refine normalCon_app.mpr ⟨?_, ih hf, ih harg⟩
          cases arg with
          | unit => exact (hunit rfl).elim
          | record k fields => cases fields with
            | nil => exact (hempty k rfl).elim
            | cons f fields => exact (hcons k f.1 f.2 fields rfl).elim
          | _ => rfl
      · cases h
        refine normalCon_app.mpr ⟨?_, ih hf, ih harg⟩
        unfold conRedex
        split <;> simp_all
    | kApp c k =>
      simp only [simplifyCon, Option.bind_eq_bind, Option.bind_eq_some_iff] at h
      obtain ⟨f, hf, h⟩ := h
      split at h
      · exact ih (guard_bind_eq_some.mp h).2
      · cases h
        refine normalCon_kApp.mpr ⟨?_, ih hf⟩
        unfold conRedex
        split <;> simp_all
    | record k fields =>
      simp only [simplifyCon, Option.bind_eq_bind, Option.bind_eq_some_iff] at h
      obtain ⟨fields', hfields, ⟨⟩⟩ := h
      refine normalCon_record.mpr (forall₂_right_mem (mapM_eq_some_iff.mp hfields) fun f f' hf => ?_)
      simp only [Option.bind_eq_some_iff] at hf
      obtain ⟨x, hx, c, hc, ⟨⟩⟩ := hf
      exact ⟨ih hx, ih hc⟩
    | concat c1 c2 =>
      simp only [simplifyCon, Option.bind_eq_bind, Option.bind_eq_some_iff] at h
      obtain ⟨d1, h1, d2, h2, h⟩ := h
      have hd1 := ih h1
      have hd2 := ih h2
      split at h
      · cases h
        simp only [normalCon_record] at hd1 hd2 ⊢
        exact List.forall_mem_append.mpr ⟨hd1, hd2⟩
      · cases h
        exact hd2
      · cases h
        exact hd1
      · cases h
        refine normalCon_concat.mpr ⟨?_, hd1, hd2⟩
        unfold conRedex
        split <;> first | rfl | grind
    | tuple cs =>
      simp only [simplifyCon, Option.bind_eq_bind, Option.bind_eq_some_iff] at h
      obtain ⟨cs', hcs, ⟨⟩⟩ := h
      exact normalCon_tuple.mpr (forall₂_right_mem (mapM_eq_some_iff.mp hcs) fun _ _ hc => ih hc)
    | proj c n =>
      simp only [simplifyCon, Option.bind_eq_bind, Option.bind_eq_some_iff] at h
      obtain ⟨d, hd, h⟩ := h
      have hd := ih hd
      split at h
      · split at h
        · cases h
        · exact normalCon_tuple.mp hd _ (List.mem_of_getElem? h)
      · cases h
        refine normalCon_proj.mpr ⟨?_, hd⟩
        unfold conRedex
        split <;> simp_all

/-- An environment in which nothing is known. -/
def Plain (env : Environment) : Prop := ∀ item ∈ env, item = .unknown ∨ item = .unknownC

theorem Plain.unknown (h : Plain env) : Plain (.unknown :: env) :=
  List.forall_mem_cons.mpr ⟨.inl rfl, h⟩

theorem Plain.unknownC (h : Plain env) : Plain (.unknownC :: env) :=
  List.forall_mem_cons.mpr ⟨.inr rfl, h⟩

theorem Plain.replicate (h : Plain env) (n : Nat) : Plain (List.replicate n .unknown ++ env) :=
  List.forall_mem_append.mpr ⟨fun _ hi => .inl (List.eq_of_mem_replicate hi), h⟩

theorem findCon_plain {simplify : Environment → Constructor → Option Constructor} (henv : Plain env)
    (nOrig nRem liftC : Nat) : findCon simplify env nOrig nRem 0 liftC = some (.rel nOrig) := by
  induction env generalizing nRem liftC with
  | nil => simp [findCon]
  | cons item env ih =>
    obtain ⟨rfl | rfl, htail⟩ := List.forall_mem_cons.mp henv
    · exact ih htail _ _
    · simp only [findCon]
      split
      · simp
      · exact ih htail _ _

theorem forall₂_eq {α : Type} {R : α → α → Prop} {l l' : List α} (h : List.Forall₂ R l l')
    (hR : ∀ a ∈ l, ∀ b, R a b → b = a) : l' = l := by
  induction h with
  | nil => rfl
  | cons hab _ ih =>
    simp only [List.forall_mem_cons] at hR
    rw [hR.1 _ hab, ih hR.2]

/-- A normal type stays as it is. -/
theorem simplifyCon_self (hc : NormalCon c) (henv : Plain env)
    (h : simplifyCon allowed fuel env c = some c') : c' = c := by
  induction fuel generalizing env c c' with
  | zero => cases h
  | succ fuel ih =>
    cases c with
    | rel n =>
      rw [simplifyCon, findCon_plain henv] at h
      exact (Option.some.inj h).symm
    | named | ffi | name | unit | map => exact (Option.some.inj h).symm
    | tFun c1 c2 =>
      simp only [simplifyCon, Option.bind_eq_bind, Option.bind_eq_some_iff] at h
      obtain ⟨d1, h1, d2, h2, ⟨⟩⟩ := h
      rw [ih (normalCon_tFun.mp hc).1 henv h1, ih (normalCon_tFun.mp hc).2 henv h2]
    | tKFun x c =>
      simp only [simplifyCon, Option.bind_eq_bind, Option.bind_eq_some_iff] at h
      obtain ⟨d, hd, ⟨⟩⟩ := h
      rw [ih (normalCon_tKFun.mp hc) henv hd]
    | tRecord c =>
      simp only [simplifyCon, Option.bind_eq_bind, Option.bind_eq_some_iff] at h
      obtain ⟨d, hd, ⟨⟩⟩ := h
      rw [ih (normalCon_tRecord.mp hc) henv hd]
    | kAbs x c =>
      simp only [simplifyCon, Option.bind_eq_bind, Option.bind_eq_some_iff] at h
      obtain ⟨d, hd, ⟨⟩⟩ := h
      rw [ih (normalCon_kAbs.mp hc) henv hd]
    | tCFun x k c =>
      simp only [simplifyCon, Option.bind_eq_bind, Option.bind_eq_some_iff] at h
      obtain ⟨d, hd, ⟨⟩⟩ := h
      rw [ih (normalCon_tCFun.mp hc) henv.unknownC hd]
    | abs x k c =>
      simp only [simplifyCon, Option.bind_eq_bind, Option.bind_eq_some_iff] at h
      obtain ⟨d, hd, ⟨⟩⟩ := h
      rw [ih (normalCon_abs.mp hc) henv.unknownC hd]
    | app c1 c2 =>
      simp only [simplifyCon, Option.bind_eq_bind, Option.bind_eq_some_iff] at h
      obtain ⟨f, hf, arg, harg, h⟩ := h
      obtain ⟨hredex, h1, h2⟩ := normalCon_app.mp hc
      obtain rfl := ih h1 henv hf
      obtain rfl := ih h2 henv harg
      split at h
      · simp [conRedex] at hredex
      · split at h
        · simp [conRedex] at hredex
        · simp [conRedex] at hredex
        · simp [conRedex] at hredex
        · exact (Option.some.inj h).symm
      · exact (Option.some.inj h).symm
    | kApp c k =>
      simp only [simplifyCon, Option.bind_eq_bind, Option.bind_eq_some_iff] at h
      obtain ⟨f, hf, h⟩ := h
      obtain ⟨hredex, hc⟩ := normalCon_kApp.mp hc
      obtain rfl := ih hc henv hf
      split at h
      · simp [conRedex] at hredex
      · exact (Option.some.inj h).symm
    | record k fields =>
      simp only [simplifyCon, Option.bind_eq_bind, Option.bind_eq_some_iff] at h
      obtain ⟨fields', hfields, ⟨⟩⟩ := h
      rw [forall₂_eq (mapM_eq_some_iff.mp hfields) fun f hf f' h => ?_]
      simp only [Option.bind_eq_some_iff] at h
      obtain ⟨x, hx, c, hc', ⟨⟩⟩ := h
      have hnormal := normalCon_record.mp hc f hf
      exact Prod.ext (ih hnormal.1 henv hx) (ih hnormal.2 henv hc')
    | concat c1 c2 =>
      simp only [simplifyCon, Option.bind_eq_bind, Option.bind_eq_some_iff] at h
      obtain ⟨d1, hd1, d2, hd2, h⟩ := h
      obtain ⟨hredex, h1, h2⟩ := normalCon_concat.mp hc
      obtain rfl := ih h1 henv hd1
      obtain rfl := ih h2 henv hd2
      split at h
      · simp [conRedex] at hredex
      · simp [conRedex] at hredex
      · simp [conRedex] at hredex
      · exact (Option.some.inj h).symm
    | tuple cs =>
      simp only [simplifyCon, Option.bind_eq_bind, Option.bind_eq_some_iff] at h
      obtain ⟨cs', hcs, ⟨⟩⟩ := h
      rw [forall₂_eq (mapM_eq_some_iff.mp hcs) fun c hmem c' h => ih (normalCon_tuple.mp hc c hmem) henv h]
    | proj c n =>
      simp only [simplifyCon, Option.bind_eq_bind, Option.bind_eq_some_iff] at h
      obtain ⟨d, hd, h⟩ := h
      obtain ⟨hredex, hc⟩ := normalCon_proj.mp hc
      obtain rfl := ih hc henv hd
      split at h
      · simp [conRedex] at hredex
      · exact (Option.some.inj h).symm

-- ---------------------------------------------------------------------------
-- Patterns
-- ---------------------------------------------------------------------------

def patConTypes : PatternConstructor → List Constructor
  | .var _ => []
  | .ffi _ _ _ _ arg _ => arg.toList

mutual
def patTypes : Pattern → List Constructor
  | .var _ t => [t]
  | .prim _ => []
  | .constructor _ pc cs sub => patConTypes pc ++ cs ++ patSubTypes sub
  | .record fields => patFieldTypes fields
def patSubTypes : Option Pattern → List Constructor
  | none => []
  | some p => patTypes p
def patFieldTypes : List (String × Pattern × Constructor) → List Constructor
  | [] => []
  | (_, p, t) :: fields => patTypes p ++ t :: patFieldTypes fields
end

def AllNormal (cs : List Constructor) : Prop := ∀ c ∈ cs, NormalCon c

theorem allNormal_append : AllNormal (cs ++ cs') ↔ AllNormal cs ∧ AllNormal cs' :=
  List.forall_mem_append

theorem allNormal_cons : AllNormal (c :: cs) ↔ NormalCon c ∧ AllNormal cs := List.forall_mem_cons

theorem mapM_simplifyCon_normal {cs : List Constructor}
    (h : cs.mapM (simplifyCon allowed fuel env) = some cs') : AllNormal cs' :=
  forall₂_right_mem (mapM_eq_some_iff.mp h) fun _ _ => simplifyCon_normal

theorem mapM_simplifyCon_self {cs : List Constructor} (hcs : AllNormal cs) (henv : Plain env)
    (h : cs.mapM (simplifyCon allowed fuel env) = some cs') : cs' = cs :=
  forall₂_eq (mapM_eq_some_iff.mp h) fun c hc _ => simplifyCon_self (hcs c hc) henv

theorem simplifyPatCon_normal (h : simplifyPatCon allowed fuel env pc = some pc') :
    AllNormal (patConTypes pc') := by
  cases pc with
  | var n =>
    cases h
    exact List.forall_mem_nil _
  | ffi m datatyp params con arg kind =>
    simp only [simplifyPatCon, Option.bind_eq_bind, Option.bind_eq_some_iff] at h
    obtain ⟨arg', harg, ⟨⟩⟩ := h
    cases arg with
    | none =>
      cases harg
      exact List.forall_mem_nil _
    | some c =>
      obtain ⟨d, hd, rfl⟩ := Option.map_eq_some_iff.mp harg
      simpa [patConTypes, AllNormal] using simplifyCon_normal hd

theorem simplifyPatCon_self (hpc : AllNormal (patConTypes pc)) (henv : Plain env)
    (h : simplifyPatCon allowed fuel env pc = some pc') : pc' = pc := by
  cases pc with
  | var n => exact (Option.some.inj h).symm
  | ffi m datatyp params con arg kind =>
    simp only [simplifyPatCon, Option.bind_eq_bind, Option.bind_eq_some_iff] at h
    obtain ⟨arg', harg, ⟨⟩⟩ := h
    cases arg with
    | none =>
      cases harg
      rfl
    | some c =>
      obtain ⟨d, hd, rfl⟩ := Option.map_eq_some_iff.mp harg
      have hplain : Plain (List.replicate params.length .unknownC ++ env) :=
        List.forall_mem_append.mpr ⟨fun _ hi => .inr (List.eq_of_mem_replicate hi), henv⟩
      rw [simplifyCon_self (hpc c (by simp [patConTypes])) hplain hd]

theorem simplifyPat_normal (h : simplifyPat allowed fuel env p = some p') :
    AllNormal (patTypes p') := by
  induction p generalizing p' with
  | var x t =>
    simp only [simplifyPat, Option.bind_eq_bind, Option.bind_eq_some_iff] at h
    obtain ⟨t', ht, ⟨⟩⟩ := h
    exact List.forall_mem_singleton.mpr (simplifyCon_normal ht)
  | prim p =>
    cases h
    exact List.forall_mem_nil _
  | constructor dk pc cs sub ih =>
    simp only [simplifyPat, Option.bind_eq_bind, Option.bind_eq_some_iff] at h
    obtain ⟨pc', hpc, cs', hcs, sub', hsub, ⟨⟩⟩ := h
    refine allNormal_append.mpr ⟨allNormal_append.mpr
      ⟨simplifyPatCon_normal hpc, mapM_simplifyCon_normal hcs⟩, ?_⟩
    cases sub with
    | none =>
      cases hsub
      exact List.forall_mem_nil _
    | some p =>
      simp only [simplifySubPat, Option.bind_eq_bind, Option.bind_eq_some_iff] at hsub
      obtain ⟨p', hp, ⟨⟩⟩ := hsub
      exact ih p rfl hp
  | record fields ih =>
    simp only [simplifyPat, Option.bind_eq_bind, Option.bind_eq_some_iff] at h
    obtain ⟨fields', hfields, ⟨⟩⟩ := h
    simp only [patTypes]
    induction fields generalizing fields' with
    | nil =>
      cases hfields
      exact List.forall_mem_nil _
    | cons f fields ihf =>
      simp only [simplifyPatFields, Option.bind_eq_bind, Option.bind_eq_some_iff] at hfields
      simp only [List.forall_mem_cons] at ih
      obtain ⟨p', hp, t', ht, rest, hrest, ⟨⟩⟩ := hfields
      exact allNormal_append.mpr
        ⟨ih.1 hp, allNormal_cons.mpr ⟨simplifyCon_normal ht, ihf ih.2 rest hrest⟩⟩

theorem simplifyPat_self (hp : AllNormal (patTypes p)) (henv : Plain env)
    (h : simplifyPat allowed fuel env p = some p') : p' = p := by
  induction p generalizing p' with
  | var x t =>
    simp only [simplifyPat, Option.bind_eq_bind, Option.bind_eq_some_iff] at h
    obtain ⟨t', ht, ⟨⟩⟩ := h
    rw [simplifyCon_self (hp t (List.mem_singleton_self t)) henv ht]
  | prim p => exact (Option.some.inj h).symm
  | constructor dk pc cs sub ih =>
    simp only [simplifyPat, Option.bind_eq_bind, Option.bind_eq_some_iff] at h
    obtain ⟨pc', hpc, cs', hcs, sub', hsub, ⟨⟩⟩ := h
    obtain ⟨hhead, hnsub⟩ := allNormal_append.mp hp
    obtain ⟨hnpc, hncs⟩ := allNormal_append.mp hhead
    rw [simplifyPatCon_self hnpc henv hpc, mapM_simplifyCon_self hncs henv hcs]
    cases sub with
    | none =>
      cases hsub
      rfl
    | some p =>
      simp only [simplifySubPat, Option.bind_eq_bind, Option.bind_eq_some_iff] at hsub
      obtain ⟨p', hp', ⟨⟩⟩ := hsub
      rw [ih p rfl hnsub hp']
  | record fields ih =>
    simp only [simplifyPat, Option.bind_eq_bind, Option.bind_eq_some_iff] at h
    obtain ⟨fields', hfields, ⟨⟩⟩ := h
    congr 1
    simp only [patTypes] at hp
    induction fields generalizing fields' with
    | nil =>
      cases hfields
      rfl
    | cons f fields ihf =>
      simp only [simplifyPatFields, Option.bind_eq_bind, Option.bind_eq_some_iff] at hfields
      simp only [List.forall_mem_cons] at ih
      obtain ⟨p', hp', t', ht, rest, hrest, ⟨⟩⟩ := hfields
      obtain ⟨hnp, hnrest⟩ := allNormal_append.mp hp
      obtain ⟨hnt, hnrest⟩ := allNormal_cons.mp hnrest
      rw [ih.1 hnp hp', simplifyCon_self hnt henv ht, ihf ih.2 hnrest rest hrest]

-- ---------------------------------------------------------------------------
-- Matching again
-- ---------------------------------------------------------------------------

/-- The same answer, whatever the environments. -/
inductive SameAnswer : MatchResult → MatchResult → Prop
  | yes : SameAnswer (.yes env) (.yes env')
  | no : SameAnswer .no .no
  | maybe : SameAnswer .maybe .maybe

open Denotation in
theorem tryMatchInner_same (p p' : Pattern) (hp : untyped p = untyped p') (e : Expression)
    (baseline baseline' : Nat) (env env' : Environment) :
    SameAnswer (tryMatchInner baseline env p e) (tryMatchInner baseline' env' p' e) := by
  induction p generalizing p' e env env' with
  | var x t =>
    cases p' <;> simp [untyped] at hp
    exact .yes
  | prim q =>
    cases p' <;> simp [untyped] at hp
    subst hp
    simp only [tryMatchInner]
    split
    · split
      · exact .yes
      · exact .no
    · exact .maybe
  | constructor dk pc cs sub ih =>
    cases p' with
    | constructor dk' pc' cs' sub' =>
      simp only [untyped, Pattern.constructor.injEq, true_and] at hp
      obtain ⟨-, hpc, hsub⟩ := hp
      have hpayload (same : Bool) (payload : Option Expression) :
          SameAnswer (tryMatchSub baseline same env sub payload)
            (tryMatchSub baseline' same env' sub' payload) := by
        cases sub <;> cases sub' <;> simp only [untypedSub, Option.some.injEq, reduceCtorEq] at hsub
        · cases payload <;> cases same <;> constructor
        · cases payload with
          | none => exact .maybe
          | some e =>
            cases same
            · exact .no
            · exact ih _ rfl _ hsub e env env'
      cases pc <;> cases pc' <;>
        simp only [PatternConstructor.untyped, PatternConstructor.var.injEq,
          PatternConstructor.ffi.injEq, reduceCtorEq] at hpc
      · subst hpc
        simp only [tryMatchInner]
        split
        · exact hpayload _ _
        · exact .maybe
      · obtain ⟨rfl, -, -, rfl, -, -⟩ := hpc
        simp only [tryMatchInner]
        split
        · exact hpayload _ _
        · exact .maybe
    | _ => simp [untyped] at hp
  | record fields ih =>
    cases p' with
    | record fields' =>
      simp only [untyped, Pattern.record.injEq] at hp
      simp only [tryMatchInner]
      split
      · rename_i xes
        split
        · exact .maybe
        · induction fields generalizing fields' env env' with
          | nil =>
            cases fields' with
            | nil => exact .yes
            | cons => simp [untypedFields] at hp
          | cons f fields ihf =>
            cases fields' with
            | nil => simp [untypedFields] at hp
            | cons f' fields' =>
              obtain ⟨x, q, t⟩ := f
              obtain ⟨x', q', t'⟩ := f'
              simp only [untypedFields, List.cons.injEq, Prod.mk.injEq, and_true] at hp
              obtain ⟨⟨rfl, hq⟩, hfields⟩ := hp
              simp only [List.forall_mem_cons] at ih
              simp only [tryMatchFields]
              cases fieldNamed xes x with
              | none => exact .no
              | some ev =>
                simp only
                have hfirst := ih.1 q' hq ev env env'
                revert hfirst
                cases tryMatchInner baseline env q ev <;>
                  cases tryMatchInner baseline' env' q' ev <;> intro hfirst <;> cases hfirst
                · exact ihf ih.2 _ _ fields' hfields
                · exact .no
                · exact .maybe
      · exact .maybe
    | _ => simp [untyped] at hp

open Denotation in
/-- Whether an arm can be chosen depends on the shapes of the patterns only. -/
theorem chosenArm_same (env env' : Environment) (disc : Expression)
    {arms arms' : List (Pattern × Expression)}
    (h : List.Forall₂ (fun a a' => untyped a.1 = untyped a'.1) arms arms') :
    (chosenArm env disc arms).isSome = (chosenArm env' disc arms').isSome := by
  induction h with
  | nil => rfl
  | @cons a a' _ _ ha _ ih =>
    obtain ⟨p, e⟩ := a
    obtain ⟨p', e'⟩ := a'
    have hsame := tryMatchInner_same p p' ha disc env.length env'.length env env'
    simp only [chosenArm, tryMatch]
    revert hsame
    cases tryMatchInner env.length env p disc <;>
      cases tryMatchInner env'.length env' p' disc <;> intro hsame <;> cases hsame
    · rfl
    · exact ih
    · rfl

-- ---------------------------------------------------------------------------
-- Expressions
-- ---------------------------------------------------------------------------

def expRedex : Expression → Bool
  | .app (.abs _ _ _ _) _ => true
  | .cApp (.cAbs _ _ _) _ => true
  | .field (.record fields) (.name x) _ => (fieldNamed fields x).isSome
  | .case disc arms _ => (chosenArm [] disc arms).isSome
  | _ => false

/-- The types in a node, those of its parts left out. -/
def ownTypes : Expression → List Constructor
  | .constructor _ pc cs _ => patConTypes pc ++ cs
  | .ffiApp _ _ args => args.map Prod.snd
  | .abs _ dom ran _ => [dom, ran]
  | .cApp _ c => [c]
  | .record fields => fields.flatMap fun f => [f.1, f.2.2]
  | .field _ c info | .cut _ c info => [c, info.field, info.rest]
  | .concat _ c1 _ c2 => [c1, c2]
  | .cutMulti _ c info => [c, info.rest]
  | .case _ arms info => info.disc :: info.result :: arms.flatMap fun a => patTypes a.1
  | .letIn _ t _ _ => [t]
  | .serverCall _ _ t _ => [t]
  | _ => []

/-- No part of the expression can be reduced. -/
def NormalExp (e : Expression) : Prop := ∀ n ∈ e.nodes, expRedex n = false ∧ AllNormal (ownTypes n)

theorem normalExp_iff (e : Expression) : NormalExp e ↔
    expRedex e = false ∧ AllNormal (ownTypes e) ∧ ∀ c ∈ e.children, NormalExp c := by
  simp only [NormalExp, Expression.nodes_eq e, List.forall_mem_cons, List.mem_flatMap]
  constructor
  · exact fun h => ⟨h.1.1, h.1.2, fun c hc n hn => h.2 n ⟨c, hc, hn⟩⟩
  · exact fun h => ⟨⟨h.1, h.2.1⟩, fun n ⟨c, hc, hn⟩ => h.2.2 c hc n hn⟩

theorem NormalExp.part (h : NormalExp e) (hx : x ∈ e.nodes) : NormalExp x :=
  fun n hn => h n (Expression.nodes_trans hx hn)

theorem findExp_result {simplify : Environment → Expression → Option Expression}
    (h : findExp simplify env nOrig nRem nudge liftC liftE = some e) :
    (∃ n, e = .rel n) ∨ ∃ env' d, simplify env' d = some e := by
  induction env generalizing nRem nudge liftC liftE with
  | nil =>
    cases h
    exact .inl ⟨_, rfl⟩
  | cons item env ih =>
    cases item with
    | unknownC | knownC | lift => exact ih h
    | unknown =>
      simp only [findExp] at h
      split at h
      · cases h
        exact .inl ⟨_, rfl⟩
      · exact ih h
    | known =>
      simp only [findExp] at h
      split at h
      · exact .inr ⟨_, _, h⟩
      · exact ih h

theorem simplifyFieldMeta_normal (h : simplifyFieldMeta allowed fuel env info = some info') :
    NormalCon info'.field ∧ NormalCon info'.rest := by
  simp only [simplifyFieldMeta, Option.bind_eq_bind, Option.bind_eq_some_iff] at h
  obtain ⟨f, hf, r, hr, ⟨⟩⟩ := h
  exact ⟨simplifyCon_normal hf, simplifyCon_normal hr⟩

/-- What simplification gives is normal. -/
theorem simplifyExp_normal (h : simplifyExp allowed fuel env e = some e') : NormalExp e' := by
  induction fuel generalizing env e e' with
  | zero => cases h
  | succ fuel ih =>
    cases e with
    | prim p | named n | ffi m x =>
      cases h
      exact (normalExp_iff _).mpr ⟨rfl, List.forall_mem_nil _, List.forall_mem_nil _⟩
    | rel n =>
      obtain ⟨n, rfl⟩ | ⟨env', d, h⟩ := findExp_result h
      · exact (normalExp_iff _).mpr ⟨rfl, List.forall_mem_nil _, List.forall_mem_nil _⟩
      · exact ih h
    | constructor dk pc cs payload =>
      simp only [simplifyExp, Option.bind_eq_bind, Option.bind_eq_some_iff] at h
      obtain ⟨pc', hpc, cs', hcs, payload', hpayload, ⟨⟩⟩ := h
      refine (normalExp_iff _).mpr ⟨rfl, allNormal_append.mpr
        ⟨simplifyPatCon_normal hpc, mapM_simplifyCon_normal hcs⟩, ?_⟩
      cases payload with
      | none =>
        cases hpayload
        exact List.forall_mem_nil _
      | some e =>
        obtain ⟨d, hd, rfl⟩ := Option.map_eq_some_iff.mp hpayload
        exact List.forall_mem_singleton.mpr (ih hd)
    | ffiApp m x args =>
      simp only [simplifyExp, Option.bind_eq_bind, Option.bind_eq_some_iff] at h
      obtain ⟨args', hargs, ⟨⟩⟩ := h
      have hall := forall₂_right_mem (P := fun a => NormalExp a.1 ∧ NormalCon a.2)
        (mapM_eq_some_iff.mp hargs) fun a a' ha => by
          simp only [Option.bind_eq_some_iff] at ha
          obtain ⟨e', he, t', ht, ⟨⟩⟩ := ha
          exact ⟨ih he, simplifyCon_normal ht⟩
      exact (normalExp_iff _).mpr ⟨rfl, List.forall_mem_map.mpr fun a ha => (hall a ha).2,
        List.forall_mem_map.mpr fun a ha => (hall a ha).1⟩
    | app e1 e2 =>
      simp only [simplifyExp, Option.bind_eq_bind, Option.bind_eq_some_iff] at h
      obtain ⟨f, hf, arg, harg, h⟩ := h
      split at h
      · split at h
        · obtain ⟨-, h⟩ := guard_bind_eq_some.mp h
          cases h
          exact ih hf
        · exact ih (guard_bind_eq_some.mp (guard_bind_eq_some.mp h).2).2
      · cases h
        refine (normalExp_iff _).mpr ⟨?_, List.forall_mem_nil _, ?_⟩
        · unfold expRedex
          split <;> simp_all
        · simpa [Expression.children] using ⟨ih hf, ih harg⟩
    | abs x dom ran e =>
      simp only [simplifyExp, Option.bind_eq_bind, Option.bind_eq_some_iff] at h
      obtain ⟨d, hd, r, hr, body, hbody, ⟨⟩⟩ := h
      refine (normalExp_iff _).mpr ⟨rfl, ?_, List.forall_mem_singleton.mpr (ih hbody)⟩
      exact allNormal_cons.mpr ⟨simplifyCon_normal hd, List.forall_mem_singleton.mpr (simplifyCon_normal hr)⟩
    | cApp e c =>
      simp only [simplifyExp, Option.bind_eq_bind, Option.bind_eq_some_iff] at h
      obtain ⟨f, hf, d, hd, h⟩ := h
      split at h
      · exact ih (guard_bind_eq_some.mp (guard_bind_eq_some.mp h).2).2
      · cases h
        refine (normalExp_iff _).mpr ⟨?_, List.forall_mem_singleton.mpr (simplifyCon_normal hd),
          List.forall_mem_singleton.mpr (ih hf)⟩
        unfold expRedex
        split <;> simp_all
    | cAbs x k e | kAbs x e | kApp e k | write e =>
      simp only [simplifyExp, Option.bind_eq_bind, Option.bind_eq_some_iff] at h
      obtain ⟨_, he, ⟨⟩⟩ := h
      exact (normalExp_iff _).mpr
        ⟨rfl, List.forall_mem_nil _, List.forall_mem_singleton.mpr (ih he)⟩
    | record fields =>
      simp only [simplifyExp, Option.bind_eq_bind, Option.bind_eq_some_iff] at h
      obtain ⟨fields', hfields, ⟨⟩⟩ := h
      have hall := forall₂_right_mem
        (P := fun f => NormalCon f.1 ∧ NormalExp f.2.1 ∧ NormalCon f.2.2)
        (mapM_eq_some_iff.mp hfields) fun f f' hf => by
          simp only [Option.bind_eq_some_iff] at hf
          obtain ⟨c', hc, e', he, t', ht, ⟨⟩⟩ := hf
          exact ⟨simplifyCon_normal hc, ih he, simplifyCon_normal ht⟩
      refine (normalExp_iff _).mpr ⟨rfl, fun t ht => ?_,
        List.forall_mem_map.mpr fun f hf => (hall f hf).2.1⟩
      obtain ⟨f, hf, ht⟩ := List.mem_flatMap.mp ht
      simp only [List.mem_cons, List.not_mem_nil, or_false] at ht
      obtain rfl | rfl := ht
      · exact (hall f hf).1
      · exact (hall f hf).2.2
    | field e c info =>
      simp only [simplifyExp, Option.bind_eq_bind, Option.bind_eq_some_iff] at h
      obtain ⟨e', he, c', hc, info', hinfo, h⟩ := h
      have hnormal (hredex : expRedex (.field e' c' info') = false) :
          NormalExp (.field e' c' info') := by
        refine (normalExp_iff _).mpr ⟨hredex, ?_, List.forall_mem_singleton.mpr (ih he)⟩
        obtain ⟨hfield, hrest⟩ := simplifyFieldMeta_normal hinfo
        exact allNormal_cons.mpr ⟨simplifyCon_normal hc,
          allNormal_cons.mpr ⟨hfield, List.forall_mem_singleton.mpr hrest⟩⟩
      split at h
      · split at h
        · cases h
          obtain ⟨f, hf, -, rfl⟩ := exists_of_fieldNamed ‹_›
          exact ((normalExp_iff _).mp (ih he)).2.2 _ (List.mem_map_of_mem hf)
        · cases h
          refine hnormal ?_
          simp_all [expRedex]
      · cases h
        refine hnormal ?_
        unfold expRedex
        split <;> simp_all
    | concat e1 c1 e2 c2 =>
      simp only [simplifyExp, Option.bind_eq_bind, Option.bind_eq_some_iff] at h
      obtain ⟨_, h1, _, hc1, _, h2, _, hc2, ⟨⟩⟩ := h
      refine (normalExp_iff _).mpr ⟨rfl, allNormal_cons.mpr
        ⟨simplifyCon_normal hc1, List.forall_mem_singleton.mpr (simplifyCon_normal hc2)⟩, ?_⟩
      simpa [Expression.children] using ⟨ih h1, ih h2⟩
    | cut e c info =>
      simp only [simplifyExp, Option.bind_eq_bind, Option.bind_eq_some_iff] at h
      obtain ⟨_, he, _, hc, _, hinfo, ⟨⟩⟩ := h
      obtain ⟨hfield, hrest⟩ := simplifyFieldMeta_normal hinfo
      exact (normalExp_iff _).mpr ⟨rfl, allNormal_cons.mpr ⟨simplifyCon_normal hc,
          allNormal_cons.mpr ⟨hfield, List.forall_mem_singleton.mpr hrest⟩⟩,
        List.forall_mem_singleton.mpr (ih he)⟩
    | cutMulti e c info =>
      simp only [simplifyExp, Option.bind_eq_bind, Option.bind_eq_some_iff] at h
      obtain ⟨_, he, _, hc, _, hrest, ⟨⟩⟩ := h
      exact (normalExp_iff _).mpr ⟨rfl, allNormal_cons.mpr ⟨simplifyCon_normal hc,
          List.forall_mem_singleton.mpr (simplifyCon_normal hrest)⟩,
        List.forall_mem_singleton.mpr (ih he)⟩
    | case disc arms info =>
      simp only [simplifyExp, Option.bind_eq_bind, Option.bind_eq_some_iff] at h
      obtain ⟨d, hd, r, hr, disc', hdisc, h⟩ := h
      split at h
      · exact ih (guard_bind_eq_some.mp h).2
      · rename_i hchosen
        simp only [Option.bind_eq_some_iff] at h
        obtain ⟨arms', harms, ⟨⟩⟩ := h
        have harms := mapM_eq_some_iff.mp harms
        have hall := forall₂_right_mem (P := fun a => AllNormal (patTypes a.1) ∧ NormalExp a.2) harms
          fun a a' ha => by
            simp only [Option.bind_eq_some_iff] at ha
            obtain ⟨p', hp, e', he, ⟨⟩⟩ := ha
            exact ⟨simplifyPat_normal hp, ih he⟩
        have hsame := chosenArm_same env [] disc' (harms.imp fun a a' ha => by
          simp only [Option.bind_eq_some_iff] at ha
          obtain ⟨p', hp, e', he, ⟨⟩⟩ := ha
          exact (untyped_simplifyPat hp).symm)
        refine (normalExp_iff _).mpr ⟨by rw [expRedex, ← hsame, hchosen]; rfl, ?_, ?_⟩
        · refine allNormal_cons.mpr ⟨simplifyCon_normal hd, allNormal_cons.mpr
            ⟨simplifyCon_normal hr, fun t ht => ?_⟩⟩
          obtain ⟨a, ha, ht⟩ := List.mem_flatMap.mp ht
          exact (hall a ha).1 t ht
        · exact List.forall_mem_cons.mpr ⟨ih hdisc, List.forall_mem_map.mpr fun a ha => (hall a ha).2⟩
    | closure n es =>
      simp only [simplifyExp, Option.bind_eq_bind, Option.bind_eq_some_iff] at h
      obtain ⟨es', hes, ⟨⟩⟩ := h
      exact (normalExp_iff _).mpr ⟨rfl, List.forall_mem_nil _,
        forall₂_right_mem (mapM_eq_some_iff.mp hes) fun _ _ => ih⟩
    | letIn x t e1 e2 =>
      simp only [simplifyExp, Option.bind_eq_bind, Option.bind_eq_some_iff] at h
      obtain ⟨t', ht, e1', h1, e2', h2, ⟨⟩⟩ := h
      refine (normalExp_iff _).mpr ⟨rfl, List.forall_mem_singleton.mpr (simplifyCon_normal ht), ?_⟩
      simpa [Expression.children] using ⟨ih h1, ih h2⟩
    | serverCall n es t fm =>
      simp only [simplifyExp, Option.bind_eq_bind, Option.bind_eq_some_iff] at h
      obtain ⟨es', hes, t', ht, ⟨⟩⟩ := h
      exact (normalExp_iff _).mpr ⟨rfl, List.forall_mem_singleton.mpr (simplifyCon_normal ht),
        forall₂_right_mem (mapM_eq_some_iff.mp hes) fun _ _ => ih⟩

theorem findExp_plain {simplify : Environment → Expression → Option Expression} (henv : Plain env)
    (nOrig nRem liftC liftE : Nat) :
    findExp simplify env nOrig nRem 0 liftC liftE = some (.rel nOrig) := by
  induction env generalizing nRem liftC liftE with
  | nil => simp [findExp]
  | cons item env ih =>
    obtain ⟨rfl | rfl, htail⟩ := List.forall_mem_cons.mp henv
    · simp only [findExp]
      split
      · simp
      · exact ih htail _ _ _
    · exact ih htail _ _ _

theorem simplifyFieldMeta_self (hfield : NormalCon info.field) (hrest : NormalCon info.rest)
    (henv : Plain env) (h : simplifyFieldMeta allowed fuel env info = some info') : info' = info := by
  simp only [simplifyFieldMeta, Option.bind_eq_bind, Option.bind_eq_some_iff] at h
  obtain ⟨f, hf, r, hr, ⟨⟩⟩ := h
  rw [simplifyCon_self hfield henv hf, simplifyCon_self hrest henv hr]

theorem mapM_simplifyExp_self {es : List Expression}
    (ih : ∀ e ∈ es, ∀ e', simplifyExp allowed fuel env e = some e' → e' = e)
    (h : es.mapM (simplifyExp allowed fuel env) = some es') : es' = es :=
  forall₂_eq (mapM_eq_some_iff.mp h) ih

/-- A normal expression stays as it is. -/
theorem simplifyExp_self (he : NormalExp e) (henv : Plain env)
    (h : simplifyExp allowed fuel env e = some e') : e' = e := by
  induction fuel generalizing env e e' with
  | zero => cases h
  | succ fuel ih =>
    obtain ⟨hredex, htypes, hparts⟩ := (normalExp_iff e).mp he
    cases e with
    | prim p | named n | ffi m x => exact (Option.some.inj h).symm
    | rel n =>
      rw [simplifyExp, findExp_plain henv] at h
      exact (Option.some.inj h).symm
    | constructor dk pc cs payload =>
      simp only [simplifyExp, Option.bind_eq_bind, Option.bind_eq_some_iff] at h
      obtain ⟨pc', hpc, cs', hcs, payload', hpayload, ⟨⟩⟩ := h
      obtain ⟨hnpc, hncs⟩ := allNormal_append.mp htypes
      rw [simplifyPatCon_self hnpc henv hpc, mapM_simplifyCon_self hncs henv hcs]
      cases payload with
      | none =>
        cases hpayload
        rfl
      | some e =>
        obtain ⟨d, hd, rfl⟩ := Option.map_eq_some_iff.mp hpayload
        rw [ih (hparts e (List.mem_singleton_self e)) henv hd]
    | ffiApp m x args =>
      simp only [simplifyExp, Option.bind_eq_bind, Option.bind_eq_some_iff] at h
      obtain ⟨args', hargs, ⟨⟩⟩ := h
      rw [forall₂_eq (mapM_eq_some_iff.mp hargs) fun a ha a' h => ?_]
      simp only [Option.bind_eq_some_iff] at h
      obtain ⟨e', he', t', ht, ⟨⟩⟩ := h
      exact Prod.ext (ih (hparts _ (List.mem_map_of_mem ha)) henv he')
        (simplifyCon_self (htypes _ (List.mem_map_of_mem ha)) henv ht)
    | app e1 e2 =>
      simp only [simplifyExp, Option.bind_eq_bind, Option.bind_eq_some_iff] at h
      obtain ⟨f, hf, arg, harg, h⟩ := h
      obtain rfl := ih (hparts e1 (by simp [Expression.children])) henv hf
      obtain rfl := ih (hparts e2 (by simp [Expression.children])) henv harg
      split at h
      · simp [expRedex] at hredex
      · exact (Option.some.inj h).symm
    | abs x dom ran e =>
      simp only [simplifyExp, Option.bind_eq_bind, Option.bind_eq_some_iff] at h
      obtain ⟨d, hd, r, hr, body, hbody, ⟨⟩⟩ := h
      obtain ⟨hndom, hnran⟩ := allNormal_cons.mp htypes
      rw [simplifyCon_self hndom henv hd,
        simplifyCon_self (hnran ran (List.mem_singleton_self ran)) henv hr,
        ih (hparts e (List.mem_singleton_self e)) henv.unknown hbody]
    | cApp e c =>
      simp only [simplifyExp, Option.bind_eq_bind, Option.bind_eq_some_iff] at h
      obtain ⟨f, hf, d, hd, h⟩ := h
      obtain rfl := ih (hparts e (List.mem_singleton_self e)) henv hf
      obtain rfl := simplifyCon_self (htypes c (List.mem_singleton_self c)) henv hd
      split at h
      · simp [expRedex] at hredex
      · exact (Option.some.inj h).symm
    | cAbs x k e =>
      simp only [simplifyExp, Option.bind_eq_bind, Option.bind_eq_some_iff] at h
      obtain ⟨_, he', ⟨⟩⟩ := h
      rw [ih (hparts e (List.mem_singleton_self e)) henv.unknownC he']
    | kAbs x e | kApp e k | write e =>
      simp only [simplifyExp, Option.bind_eq_bind, Option.bind_eq_some_iff] at h
      obtain ⟨_, he', ⟨⟩⟩ := h
      rw [ih (hparts e (List.mem_singleton_self e)) henv he']
    | record fields =>
      simp only [simplifyExp, Option.bind_eq_bind, Option.bind_eq_some_iff] at h
      obtain ⟨fields', hfields, ⟨⟩⟩ := h
      rw [forall₂_eq (mapM_eq_some_iff.mp hfields) fun f hf f' h => ?_]
      simp only [Option.bind_eq_some_iff] at h
      obtain ⟨c', hc, e', he', t', ht, ⟨⟩⟩ := h
      have htype (t : Constructor) (hmem : t ∈ [f.1, f.2.2]) : NormalCon t :=
        htypes t (List.mem_flatMap.mpr ⟨f, hf, hmem⟩)
      exact Prod.ext (simplifyCon_self (htype _ (by simp)) henv hc)
        (Prod.ext (ih (hparts _ (List.mem_map_of_mem hf)) henv he')
          (simplifyCon_self (htype _ (by simp)) henv ht))
    | field e c info =>
      simp only [simplifyExp, Option.bind_eq_bind, Option.bind_eq_some_iff] at h
      obtain ⟨e', he', c', hc, info', hinfo, h⟩ := h
      obtain rfl := ih (hparts e (List.mem_singleton_self e)) henv he'
      obtain rfl := simplifyCon_self (htypes c (by simp [ownTypes])) henv hc
      obtain rfl := simplifyFieldMeta_self (htypes _ (by simp [ownTypes]))
        (htypes _ (by simp [ownTypes])) henv hinfo
      split at h
      · split at h
        · simp_all [expRedex]
        · exact (Option.some.inj h).symm
      · exact (Option.some.inj h).symm
    | concat e1 c1 e2 c2 =>
      simp only [simplifyExp, Option.bind_eq_bind, Option.bind_eq_some_iff] at h
      obtain ⟨_, h1, _, hc1, _, h2, _, hc2, ⟨⟩⟩ := h
      rw [ih (hparts e1 (by simp [Expression.children])) henv h1,
        ih (hparts e2 (by simp [Expression.children])) henv h2,
        simplifyCon_self (htypes c1 (by simp [ownTypes])) henv hc1,
        simplifyCon_self (htypes c2 (by simp [ownTypes])) henv hc2]
    | cut e c info =>
      simp only [simplifyExp, Option.bind_eq_bind, Option.bind_eq_some_iff] at h
      obtain ⟨_, he', _, hc, _, hinfo, ⟨⟩⟩ := h
      rw [ih (hparts e (List.mem_singleton_self e)) henv he',
        simplifyCon_self (htypes c (by simp [ownTypes])) henv hc,
        simplifyFieldMeta_self (htypes _ (by simp [ownTypes])) (htypes _ (by simp [ownTypes])) henv
          hinfo]
    | cutMulti e c info =>
      simp only [simplifyExp, Option.bind_eq_bind, Option.bind_eq_some_iff] at h
      obtain ⟨_, he', _, hc, _, hrest, ⟨⟩⟩ := h
      rw [ih (hparts e (List.mem_singleton_self e)) henv he',
        simplifyCon_self (htypes c (by simp [ownTypes])) henv hc,
        simplifyCon_self (htypes info.rest (by simp [ownTypes])) henv hrest]
    | case disc arms info =>
      simp only [simplifyExp, Option.bind_eq_bind, Option.bind_eq_some_iff] at h
      obtain ⟨d, hd, r, hr, disc', hdisc, h⟩ := h
      obtain rfl := ih (hparts disc (by simp [Expression.children])) henv hdisc
      split at h
      · rename_i hchosen
        have hsame := chosenArm_same env [] disc' (List.forall₂_same.mpr fun a (_ : a ∈ arms) => rfl)
        rw [hchosen] at hsame
        simp only [expRedex, ← hsame] at hredex
        cases hredex
      · simp only [Option.bind_eq_some_iff] at h
        obtain ⟨arms', harms, ⟨⟩⟩ := h
        rw [simplifyCon_self (htypes info.disc (by simp [ownTypes])) henv hd,
          simplifyCon_self (htypes info.result (by simp [ownTypes])) henv hr,
          forall₂_eq (mapM_eq_some_iff.mp harms) fun a ha a' h => ?_]
        simp only [Option.bind_eq_some_iff] at h
        obtain ⟨p', hp, e', he', ⟨⟩⟩ := h
        refine Prod.ext (simplifyPat_self (fun t ht => htypes t ?_) henv hp)
          (ih (hparts _ ?_) (henv.replicate _) he')
        · exact List.mem_cons_of_mem _ (List.mem_cons_of_mem _ (List.mem_flatMap.mpr ⟨a, ha, ht⟩))
        · exact List.mem_cons_of_mem _ (List.mem_map_of_mem ha)
    | closure n es =>
      simp only [simplifyExp, Option.bind_eq_bind, Option.bind_eq_some_iff] at h
      obtain ⟨es', hes, ⟨⟩⟩ := h
      have hsame : es' = es := mapM_simplifyExp_self (fun e hmem _ => ih (hparts e hmem) henv) hes
      rw [hsame]
    | letIn x t e1 e2 =>
      simp only [simplifyExp, Option.bind_eq_bind, Option.bind_eq_some_iff] at h
      obtain ⟨t', ht, e1', h1, e2', h2, ⟨⟩⟩ := h
      rw [simplifyCon_self (htypes t (List.mem_singleton_self t)) henv ht,
        ih (hparts e1 (by simp [Expression.children])) henv h1,
        ih (hparts e2 (by simp [Expression.children])) henv.unknown h2]
    | serverCall n es t fm =>
      simp only [simplifyExp, Option.bind_eq_bind, Option.bind_eq_some_iff] at h
      obtain ⟨es', hes, t', ht, ⟨⟩⟩ := h
      have hsame : es' = es := mapM_simplifyExp_self (fun e hmem _ => ih (hparts e hmem) henv) hes
      rw [hsame, simplifyCon_self (htypes t (List.mem_singleton_self t)) henv ht]

end UrWeb.Core.LocalReduction
