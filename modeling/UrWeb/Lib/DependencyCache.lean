import Mathlib.Data.Set.Basic
import Mathlib.Data.Option.Basic

/-!
# Caches with recorded dependencies

A cache maps names to entries. An entry records the names it depends on, and
has identities that other entries can need. Storing an entry under a name
drops the entries that depend on the name. If the recorded dependencies are
closed and cover what each entry needs, then no entry is left behind without
what it needs, whatever is stored next.
-/

namespace UrWeb.DependencyCache

/-- What a cache reads off its entries. -/
structure View (κ ι ε : Type*) where
  deps : ε → Set κ
  Is : ε → ι → Prop

variable {κ ι ε : Type*} {V : View κ ι ε} {get : κ → Option ε} {x y : κ} {e r : ε}

open Classical in
/-- Stores `e` under `x` and drops what depends on `x`. -/
noncomputable def store (V : View κ ι ε) (get : κ → Option ε) (x : κ) (e : ε) (y : κ) :
    Option ε :=
  if y = x then some e else (get y).filter fun r => x ∉ V.deps r

@[simp] theorem store_self : store V get x e x = some e := if_pos rfl

theorem store_other (hy : y ≠ x) :
    store V get x e y = some r ↔ get y = some r ∧ x ∉ V.deps r := by
  simp [store, hy, Option.filter_eq_some_iff]

theorem store_cases (h : store V get x e y = some r) :
    (y = x ∧ r = e) ∨ (y ≠ x ∧ get y = some r ∧ x ∉ V.deps r) := by
  by_cases hy : y = x
  · subst hy
    exact Or.inl ⟨rfl, (Option.some.inj (store_self.symm.trans h)).symm⟩
  · exact Or.inr ⟨hy, (store_other hy).mp h⟩

-- ---------------------------------------------------------------------------
-- Closed dependencies
-- ---------------------------------------------------------------------------

/-- Every dependency's dependencies are among `ds`. -/
def ClosedUnder (V : View κ ι ε) (get : κ → Option ε) (ds : Set κ) : Prop :=
  ∀ y ∈ ds, ∀ r, get y = some r → V.deps r ⊆ ds

def Saturated (V : View κ ι ε) (get : κ → Option ε) : Prop :=
  ∀ x r, get x = some r → ClosedUnder V get (V.deps r)

/-- The names and what their entries depend on. -/
def dependencies (V : View κ ι ε) (get : κ → Option ε) (names : Set κ) : Set κ :=
  {y | ∃ z ∈ names, y = z ∨ ∃ r, get z = some r ∧ y ∈ V.deps r}

theorem dependencies_closed (h : Saturated V get) (names : Set κ) :
    ClosedUnder V get (dependencies V get names) := by
  rintro y ⟨z, hz, rfl | ⟨r, hr, hy⟩⟩ r' hr' w hw
  · exact ⟨y, hz, Or.inr ⟨r', hr', hw⟩⟩
  · exact ⟨z, hz, Or.inr ⟨r, hr, h z r hr y hy r' hr' hw⟩⟩

theorem Saturated.store (h : Saturated V get) (he : ClosedUnder V get (V.deps e)) :
    Saturated V (store V get x e) := by
  intro y r hr z hz r' hr'
  obtain ⟨rfl, rfl⟩ | ⟨-, hgy, hx⟩ := store_cases hr
  · obtain ⟨rfl, rfl⟩ | ⟨-, hgz, -⟩ := store_cases hr'
    · exact subset_rfl
    · exact he z hz r' hgz
  · obtain ⟨rfl, rfl⟩ | ⟨-, hgz, -⟩ := store_cases hr'
    · exact absurd hz hx
    · exact h y r hgy z hz r' hgz

-- ---------------------------------------------------------------------------
-- Supported entries
-- ---------------------------------------------------------------------------

/-- The entry `r` of `x` can rely on `i`: it is itself `i`, or it records the name under
which `i` is stored. -/
def Supports (V : View κ ι ε) (get : κ → Option ε) (x : κ) (r : ε) (i : ι) : Prop :=
  ∃ y s, get y = some s ∧ V.Is s i ∧ (y = x ∨ y ∈ V.deps r)

/-- Dependencies are closed and cover the needs. -/
structure Coherent (V : View κ ι ε) (needs : ε → Set ι) (get : κ → Option ε) : Prop where
  saturated : Saturated V get
  supported : ∀ x r, get x = some r → ∀ i ∈ needs r, Supports V get x r i

variable {needs needs' : ε → Set ι} {i : ι}

theorem Coherent.mono (h : Coherent V needs get)
    (hn : ∀ x r, get x = some r → needs' r ⊆ needs r) : Coherent V needs' get :=
  ⟨h.saturated, fun x r hr i hi => h.supported x r hr i (hn x r hr hi)⟩

/-- What an entry relies on outlives the storing of `x`, if the entry does. -/
theorem Supports.store (hsat : Saturated V get) (hr : get y = some r) (hyx : y ≠ x)
    (hx : x ∉ V.deps r) (h : Supports V get y r i) : Supports V (store V get x e) y r i := by
  obtain ⟨z, s, hs, hi, hz⟩ := h
  refine ⟨z, s, ?_, hi, hz⟩
  rcases hz with rfl | hz
  · obtain rfl : r = s := Option.some.inj (hr.symm.trans hs)
    exact (store_other hyx).mpr ⟨hs, hx⟩
  · have hzx : z ≠ x := fun h => hx (h ▸ hz)
    exact (store_other hzx).mpr ⟨hs, fun hxs => hx (hsat y r hr z hz s hs hxs)⟩

/-- A new entry keeps the cache coherent if its dependencies are closed, and everything it
needs is itself or survives the storing under a recorded name. -/
theorem Coherent.store (h : Coherent V needs get) (he : ClosedUnder V get (V.deps e))
    (hn : ∀ i ∈ needs e, V.Is e i ∨
      ∃ y s, get y = some s ∧ V.Is s i ∧ y ≠ x ∧ x ∉ V.deps s ∧ y ∈ V.deps e) :
    Coherent V needs (store V get x e) where
  saturated := h.saturated.store he
  supported := by
    intro y r hr i hi
    obtain ⟨rfl, rfl⟩ | ⟨hyx, hgy, hx⟩ := store_cases hr
    · rcases hn i hi with hself | ⟨z, s, hs, his, hzx, hxs, hz⟩
      · exact ⟨y, r, store_self, hself, Or.inl rfl⟩
      · exact ⟨z, s, (store_other hzx).mpr ⟨hs, hxs⟩, his, Or.inr hz⟩
    · exact (h.supported y r hgy i hi).store h.saturated hgy hyx hx

end UrWeb.DependencyCache
