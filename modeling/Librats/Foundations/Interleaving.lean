import Mathlib.Data.List.Perm.Basic
import Mathlib.Logic.Relation

/-!
# Threads over a shared state

Threads that interleave freely. A thread is the point it has reached: it makes one atomic step
there, which changes the shared state, has effects, and leaves the points at which it, and the
threads it has started, go on. A call from outside does the same.
-/

namespace Librats

theorem lt_of_getElem? {α : Type*} {l : List α} {a : α} {k : ℕ} (h : l[k]? = some a) :
    k < l.length := (List.getElem?_eq_some_iff.mp h).1

namespace Interleaving

open Option

variable {σ τ ι κ ε : Type*}

/-- What a step comes to: the shared state, effects, and where threads go on. -/
structure Outcome (σ τ ε : Type*) where
  shared : σ
  effects : List ε
  next : List τ

/-- The steps of threads with points in `τ` and of calls in `κ`, `none` if not possible. -/
structure Program (σ τ ι κ ε : Type*) where
  exec : σ → τ → ι → Option (Outcome σ τ ε)
  call : σ → List τ → κ → Option (Outcome σ τ ε)

/-- The shared state, the threads, and the effects so far. -/
structure Config (σ τ ε : Type*) where
  shared : σ
  threads : List τ
  trace : List ε

/-- A step of the thread at a place of the list, or a call. -/
inductive Move (ι κ : Type*)
  | exec (k : ℕ) (input : ι)
  | call (c : κ)

namespace Program

variable (p : Program σ τ ι κ ε)

def step (c : Config σ τ ε) : Move ι κ → Option (Config σ τ ε)
  | .exec k input =>
    (c.threads[k]?.bind fun th => p.exec c.shared th input).map fun o =>
      ⟨o.shared, c.threads.eraseIdx k ++ o.next, c.trace ++ o.effects⟩
  | .call x =>
    (p.call c.shared c.threads x).map fun o => ⟨o.shared, c.threads ++ o.next, c.trace ++ o.effects⟩

/-- The steps of a list, one after the other, each of which passes a test. -/
def run (test : Config σ τ ε → Move ι κ → Bool) (c : Config σ τ ε) (moves : List (Move ι κ)) :
    Option (Config σ τ ε) :=
  moves.foldlM (fun c m => if test c m then p.step c m else none) c

variable {p} {c c' : Config σ τ ε} {m : Move ι κ}

/-- What a step can be: a thread among the others goes on, or a call is made. -/
theorem step_cases (h : p.step c m = some c') :
    (∃ k th input rest o, m = .exec k input ∧ c.threads[k]? = some th ∧
      c.threads.Perm (th :: rest) ∧ p.exec c.shared th input = some o ∧
      c' = ⟨o.shared, rest ++ o.next, c.trace ++ o.effects⟩) ∨
    (∃ x o, m = .call x ∧ p.call c.shared c.threads x = some o ∧
      c' = ⟨o.shared, c.threads ++ o.next, c.trace ++ o.effects⟩) := by
  cases m with
  | exec k input =>
    obtain ⟨o, ho, rfl⟩ := map_eq_some_iff.mp h
    obtain ⟨th, hth, ho⟩ := bind_eq_some_iff.mp ho
    obtain ⟨hlt, rfl⟩ := List.getElem_of_getElem? hth
    exact .inl ⟨k, _, input, _, o, rfl, hth, (List.getElem_cons_eraseIdx_perm hlt).symm, ho, rfl⟩
  | call x =>
    obtain ⟨o, ho, rfl⟩ := map_eq_some_iff.mp h
    exact .inr ⟨x, o, rfl, ho, rfl⟩

theorem exists_run {test : Config σ τ ε → Move ι κ → Bool} {moves : List (Move ι κ)}
    {Q : Config σ τ ε → Prop} [DecidablePred Q]
    (h : (p.run test c moves).any (fun c => decide (Q c)) = true) :
    ∃ c', p.run test c moves = some c' ∧ Q c' := by
  obtain ⟨c', hrun, hQ⟩ := (any_eq_true _ _).mp h
  exact ⟨c', hrun, of_decide_eq_true hQ⟩

end Program

/-! ## Runs -/

/-- The states that runs reach whose steps all satisfy `ok`. -/
inductive Reach (p : Program σ τ ι κ ε) (ok : Config σ τ ε → Move ι κ → Prop)
    (c₀ : Config σ τ ε) : Config σ τ ε → Prop
  | refl : Reach p ok c₀ c₀
  | step {c c' : Config σ τ ε} {m : Move ι κ} (reach : Reach p ok c₀ c) (meets : ok c m)
      (step : p.step c m = some c') : Reach p ok c₀ c'

namespace Reach

variable {p : Program σ τ ι κ ε} {ok ok' : Config σ τ ε → Move ι κ → Prop} {c₀ c c' : Config σ τ ε}

/-- What holds at the start and is kept by every step under the condition holds throughout. -/
theorem invariant {I : Config σ τ ε → Prop} (h : Reach p ok c₀ c) (start : I c₀)
    (keeps : ∀ c m c', I c → ok c m → p.step c m = some c' → I c') : I c := by
  induction h with
  | refl => exact start
  | step _ meets hs ih => exact keeps _ _ _ ih meets hs

theorem mono (h : Reach p ok c₀ c) (himp : ∀ c m, ok c m → ok' c m) : Reach p ok' c₀ c := by
  induction h with
  | refl => exact .refl
  | step _ meets hs ih => exact .step ih (himp _ _ meets) hs

theorem trans (h : Reach p ok c₀ c) (h' : Reach p ok c c') : Reach p ok c₀ c' := by
  induction h' with
  | refl => exact h
  | step _ meets hs ih => exact .step ih meets hs

theorem of_run {test : Config σ τ ε → Move ι κ → Bool} {moves : List (Move ι κ)}
    (hrun : p.run test c₀ moves = some c) : Reach p (fun c m => test c m = true) c₀ c := by
  induction moves generalizing c₀ with
  | nil =>
    cases hrun
    exact .refl
  | cons m moves ih =>
    rw [Program.run, List.foldlM_cons] at hrun
    obtain ⟨c₁, hs, hrest⟩ := bind_eq_some_iff.mp hrun
    split_ifs at hs with htest
    exact trans (.step .refl htest hs) (ih hrest)

theorem exists_of_moves [∀ c m, Decidable (ok c m)] {Q : Config σ τ ε → Prop} [DecidablePred Q]
    (moves : List (Move ι κ))
    (h : (p.run (fun c m => decide (ok c m)) c₀ moves).any (fun c => decide (Q c)) = true) :
    ∃ c, Reach p ok c₀ c ∧ Q c := by
  obtain ⟨c, hrun, hQ⟩ := Program.exists_run h
  exact ⟨c, (of_run hrun).mono fun _ _ => of_decide_eq_true, hQ⟩

end Reach

end Interleaving

end Librats
