import UrWeb.Iflow.ScopeKept
import UrWeb.Iflow.ScopeLost

/-!
# When the evaluator respects scope

The evaluator does what the lexical meaning says, in every state of the analysis
and whatever is observed of its visits, for exactly the expressions that keep to
their scope.
-/

namespace UrWeb.Iflow

open Mono

/-- The evaluation of `e` in `env` ends and visits every part, does everything to
the state and looks up every variable as the lexical meaning says. -/
def RespectsScope (e : Exp) (env : List Atom) : Prop :=
  ∀ (σ : Type) (fx : Effects σ) (s : σ),
    Gives (fun n => evalExp fx n env e .done s) (meaning fx e env (fun _ s => s) s)

theorem Gives.unique {f : Nat → Option σ} (h : Gives f r) (h' : Gives f r') : r = r' := by
  obtain ⟨N, hN⟩ := h
  obtain ⟨N', hN'⟩ := h'
  have hr := hN (max N N') (le_max_left N N')
  rw [hN' _ (le_max_right N N')] at hr
  exact (Option.some.inj hr).symm

theorem evalExp_done (fx : Effects σ) (e : Exp) (env : List Atom) (s : σ) :
    Gives (fun n => evalExp fx n env e .done s) (flow fx e env (fun _ s => s) s) :=
  evaluates e env .done s fun _ _ _ => .of_eq fun _ => rfl

/-- Nothing is ahead of itself. -/
theorem inScope_of_meaning
    (h : ∀ s, flow tally e env (fun _ s => s) s = meaning tally e env (fun _ s => s) s) :
    InScope env.length e := by
  by_contra hno
  have hgap : Gains _ (flow tally e env fun _ s => s) (meaning tally e env fun _ s => s) :=
    exceeds e env env le_rfl (fun _ => False) _ _ fun _ _ _ _ =>
      .of_eq 0 0 (fun _ => ⟨rfl, rfl⟩) fun _ => ⟨rfl, rfl⟩
  have hfine : ((outcome e env.length).late (env.length < env.length)).fine = false := by
    simpa [Outcome.late, InScope] using hno
  have hahead := (hgap ⟨0, 0, 0⟩ ⟨0, 0, 0⟩ 0 le_rfl).2 (.inl hfine)
  rw [h] at hahead
  exact absurd hahead (Nat.not_succ_le_self _)

/-- The state that only keeps what is sent. -/
def sends : Effects (List Atom) where
  enter _ _ s := s
  freshVar s := (.var 1, s)
  assertAtoms _ s := s
  send a s := s ++ [a]
  reinstate _ s := s

def intLit (n : Int64) : Exp := .prim (.int n)

/-- A record whose first field is a let, written to the page. -/
def letThenRel : Exp :=
  .write (.record [("a", .letIn "x" (.ffi "Basis" "int") (intLit 1) (intLit 2),
      .ffi "Basis" "int"),
    ("b", .rel 0, .ffi "Basis" "int")])

end UrWeb.Iflow
