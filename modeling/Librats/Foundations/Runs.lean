import Mathlib.Data.List.Basic
import Mathlib.Tactic

/-!
# Runs of a partial step function

The runs of `step : σ → α → Option σ` under a list of actions, and runs all of whose actions meet a
condition in the state they are taken in. What such actions keep, such runs keep (`run_induction`).
-/

namespace Runs

variable {σ α : Type*} (step : σ → α → Option σ)

def run (s : σ) (actions : List α) : Option σ := actions.foldlM step s

/-- Every action meets the condition in the state it is taken in. -/
def AllMeet (C : σ → α → Prop) : σ → List α → Prop
  | _, [] => True
  | s, a :: actions => C s a ∧ ∀ s' ∈ step s a, AllMeet C s' actions

instance decidableAllMeet (C : σ → α → Prop) [∀ s a, Decidable (C s a)] :
    ∀ (s : σ) (actions : List α), Decidable (AllMeet step C s actions)
  | _, [] => inferInstanceAs (Decidable True)
  | _, _ :: actions =>
    have : DecidablePred fun s' : σ => AllMeet step C s' actions :=
      fun s' => decidableAllMeet C s' actions
    inferInstanceAs (Decidable (_ ∧ _))

variable {step} {actions : List α}

theorem run_cons {s s' : σ} {a : α} :
    run step s (a :: actions) = some s' ↔ ∃ s₁, step s a = some s₁ ∧ run step s₁ actions = some s' := by
  exact Option.bind_eq_some_iff

theorem allMeet_of_forall {C : α → Prop} (h : ∀ a ∈ actions, C a) (s : σ) :
    AllMeet step (fun _ => C) s actions := by
  induction actions generalizing s with
  | nil => trivial
  | cons a actions ih =>
    exact ⟨h a (.head _), fun s' _ => ih (fun b hb => h b (.tail _ hb)) s'⟩

/-- What every action under the condition keeps holds at the end of the run. -/
theorem run_induction {C : σ → α → Prop} {P : σ → Prop}
    (hstep : ∀ s a s', P s → C s a → step s a = some s' → P s') {s s' : σ} (h : P s)
    (hmeet : AllMeet step C s actions) (hrun : run step s actions = some s') : P s' := by
  induction actions generalizing s with
  | nil =>
    cases hrun
    exact h
  | cons a actions ih =>
    obtain ⟨s₁, hs₁, hrun⟩ := run_cons.mp hrun
    exact ih (hstep s a s₁ h hmeet.1 hs₁) (hmeet.2 s₁ hs₁) hrun

end Runs
