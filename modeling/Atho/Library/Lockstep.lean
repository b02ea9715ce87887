import Mathlib.Tactic

/-! Machines that answer calls, and machines that answer alike. -/

namespace Lockstep

variable {S T Call Answer : Type}

/-- The answers to the calls, in order, and the state after them. -/
def run (call : S → Call → Answer × S) : S → List Call → List Answer × S
  | state, [] => ([], state)
  | state, step :: calls =>
      let (answer, next) := call state step
      let (answers, last) := run call next calls
      (answer :: answers, last)

section

variable {call : S → Call → Answer × S} {state : S}

theorem run_cons (step : Call) (calls : List Call) :
    run call state (step :: calls) =
      ((call state step).1 :: (run call (call state step).2 calls).1,
        (run call (call state step).2 calls).2) := rfl

theorem run_invariant {invariant : S → Prop}
    (hstep : ∀ {state} (step : Call), invariant state → invariant (call state step).2)
    (hstate : invariant state) (calls : List Call) : invariant (run call state calls).2 := by
  induction calls generalizing state with
  | nil => exact hstate
  | cons step calls ih => exact ih (hstep step hstate)

end

/-- Related states that answer each call alike, and are related after it, answer every run
alike. -/
theorem run_eq {left : S → Call → Answer × S} {right : T → Call → Answer × T} {related : S → T → Prop}
    (hstep : ∀ {state other} (step : Call), related state other →
      (left state step).1 = (right other step).1 ∧
        related (left state step).2 (right other step).2)
    {state : S} {other : T} (hstate : related state other) (calls : List Call) :
    (run left state calls).1 = (run right other calls).1 ∧
      related (run left state calls).2 (run right other calls).2 := by
  induction calls generalizing state other with
  | nil => exact ⟨rfl, hstate⟩
  | cons step calls ih =>
      obtain ⟨hanswer, hnext⟩ := hstep step hstate
      obtain ⟨hanswers, hlast⟩ := ih hnext
      rw [run_cons, run_cons, hanswer, hanswers]
      exact ⟨rfl, hlast⟩

end Lockstep
