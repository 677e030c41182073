import TapeLang.Proofs.Machine.Progress

/-!
Sequences of calls on a machine.  What every step and every reset keeps, all calls keep; and
a change that no step and no reset notices, no sequence of calls notices.
-/

namespace TapeLang

inductive Call where
  | step
  | run
  | reset
  deriving DecidableEq

namespace Machine

/-- What a call returns, and the machine after it.  A run that takes more than `fuel` steps
does not return. -/
def call (fuel : Nat) (m : Machine) : Call → Option (Option Step × Machine)
  | .step => some (some m.step.1, m.step.2)
  | .run => (m.run fuel).map fun (outcome, last) => (some (.halted outcome), last)
  | .reset => some (none, m.reset)

/-- Makes one call after another as long as they return, and lists what each of them returned
and the machine after it. -/
def calls (fuel : Nat) (m : Machine) : List Call → List (Option Step × Machine)
  | [] => []
  | call :: later =>
      match m.call fuel call with
      | none => []
      | some (reply, n) => (reply, n) :: n.calls fuel later

variable {m n last : Machine} {outcome : Outcome} {fuel : Nat}

structure Invariant (kept : Machine → Prop) : Prop where
  kept_step : ∀ {m}, kept m → kept m.step.2
  kept_reset : ∀ {m}, kept m → kept m.reset

namespace Invariant

variable {kept : Machine → Prop}

theorem kept_run (invariant : Invariant kept) (here : kept m)
    (ended : m.run fuel = some (outcome, last)) : kept last := by
  induction fuel generalizing m with
  | zero => contradiction
  | succ fuel inductionHypothesis =>
      have next := invariant.kept_step here
      rcases taken : m.step with ⟨_ | final, n⟩
      · rw [run_succ_of_ran taken] at ended
        rw [taken] at next
        exact inductionHypothesis next ended
      · rw [run_succ_of_halted taken] at ended
        rw [taken] at next
        cases ended
        exact next

theorem kept_call (invariant : Invariant kept) (here : kept m) {call : Call}
    {reply : Option Step} (answered : m.call fuel call = some (reply, n)) : kept n := by
  cases call with
  | step =>
      cases answered
      exact invariant.kept_step here
  | run =>
      obtain ⟨⟨outcome, last⟩, ended, answer⟩ := Option.map_eq_some_iff.mp answered
      cases answer
      exact invariant.kept_run here ended
  | reset =>
      cases answered
      exact invariant.kept_reset here

/-- What all calls return while something is kept, a sequence of calls returns. -/
theorem of_mem_calls (invariant : Invariant kept) (shown : Option Step × Machine → Prop)
    (each : ∀ {m n call reply}, kept m → m.call fuel call = some (reply, n) → shown (reply, n))
    (here : kept m) {calls : List Call} {answer : Option Step × Machine}
    (inAnswers : answer ∈ m.calls fuel calls) : shown answer := by
  induction calls generalizing m with
  | nil => exact absurd inAnswers List.not_mem_nil
  | cons call later inductionHypothesis =>
      rw [Machine.calls] at inAnswers
      cases answered : m.call fuel call with
      | none =>
          rw [answered] at inAnswers
          exact absurd inAnswers List.not_mem_nil
      | some first =>
          obtain ⟨reply, n⟩ := first
          rw [answered] at inAnswers
          rcases List.mem_cons.mp inAnswers with rfl | inLater
          · exact each here answered
          · exact inductionHypothesis (invariant.kept_call here answered) inLater

end Invariant

/-- A change that makes no difference to a step or a reset. -/
structure Unnoticed (kept : Machine → Prop) (change : Machine → Machine) : Prop
    extends Invariant kept where
  step_change : ∀ {m}, kept m → (change m).step = m.step.map id change
  reset_change : ∀ {m}, kept m → (change m).reset = change m.reset

namespace Unnoticed

variable {kept : Machine → Prop} {change : Machine → Machine}

theorem run_change (unnoticed : Unnoticed kept change) (here : kept m) (fuel : Nat) :
    (change m).run fuel = (m.run fuel).map (Prod.map id change) := by
  induction fuel generalizing m with
  | zero => rfl
  | succ fuel inductionHypothesis =>
      have next := unnoticed.kept_step here
      have changed := unnoticed.step_change here
      rcases taken : m.step with ⟨_ | outcome, n⟩
      · rw [taken] at next changed
        rw [run_succ_of_ran taken, run_succ_of_ran changed, inductionHypothesis next]
      · rw [taken] at changed
        rw [run_succ_of_halted taken, run_succ_of_halted changed]
        rfl

theorem after_change (unnoticed : Unnoticed kept change) (here : kept m) (count : Nat) :
    (change m).after count = (m.after count).map change := by
  induction count generalizing m with
  | zero => rfl
  | succ count inductionHypothesis =>
      have next := unnoticed.kept_step here
      have changed := unnoticed.step_change here
      rcases taken : m.step with ⟨_ | outcome, n⟩
      · rw [taken] at next changed
        rw [after_succ_of_ran taken, after_succ_of_ran changed, inductionHypothesis next]
      · rw [taken] at changed
        rw [after_succ_of_halted taken, after_succ_of_halted changed]
        rfl

theorem call_change (unnoticed : Unnoticed kept change) (here : kept m) (call : Call) :
    (change m).call fuel call = (m.call fuel call).map (Prod.map id change) := by
  cases call with
  | step =>
      simp only [Machine.call, unnoticed.step_change here]
      rfl
  | run =>
      simp only [Machine.call, unnoticed.run_change here, Option.map_map]
      rfl
  | reset =>
      simp only [Machine.call, unnoticed.reset_change here]
      rfl

theorem calls_change (unnoticed : Unnoticed kept change) (here : kept m) (calls : List Call) :
    (change m).calls fuel calls = (m.calls fuel calls).map (Prod.map id change) := by
  induction calls generalizing m with
  | nil => rfl
  | cons call later inductionHypothesis =>
      rw [Machine.calls, Machine.calls, unnoticed.call_change here]
      cases answered : m.call fuel call with
      | none => rfl
      | some answer =>
          obtain ⟨reply, n⟩ := answer
          have next := unnoticed.toInvariant.kept_call here answered
          simp only [Option.map_some, Prod.map, List.map_cons, inductionHypothesis next]

end Unnoticed

end Machine

end TapeLang
