import Mathlib.Data.Nat.Count
import TapeLang.Proofs.Brackets.Matching
import TapeLang.Proofs.Machine.Limiting
import TapeLang.Proofs.Machine.Staying

/-!
Steps that go back.  A step that executes an instruction goes on further behind, unless it is
a loop end that repeats its loop.  Between two such steps a machine gets through its program
once at most, so that only they can keep it running.
-/

namespace TapeLang

open Brackets

section Targets

variable {code : Array Instruction} {position target : Nat}

theorem Brackets.LeadsForward.lt (leads : LeadsForward code position target)
    (inside : position < code.size) : position < target := by
  cases leads with
  | partner nearest => exact Nat.lt_succ_of_lt nearest.1.ordered
  | stop _ nearest => exact nearest.1.1
  | size => exact inside

theorem Brackets.LeadsBack.lt_or_eq_zero (leads : LeadsBack code position target) :
    target < position ∨ target = 0 := by
  cases leads with
  | partner nearest => exact .inl nearest.1.ordered
  | start => exact .inr rfl

end Targets

namespace Machine

variable {p : Program} {front rest : List Instruction} {m n last : Machine} {outcome : Outcome}
  {fuel : Nat}

def Executes (m : Machine) : Prop := m.step.1 = .ran

instance (m : Machine) : Decidable m.Executes := inferInstanceAs (Decidable (m.step.1 = .ran))

/-- The next step executes a loop end on a cell that is not zero. -/
def RepeatsLoop (m : Machine) : Prop :=
  m.Executes ∧ m.next? = some .loopEnd ∧ m.tape.current ≠ 0

instance (m : Machine) : Decidable m.RepeatsLoop :=
  inferInstanceAs (Decidable (m.Executes ∧ m.next? = some .loopEnd ∧ m.tape.current ≠ 0))

theorem executes_of_ran (ran : m.step = (.ran, n)) : m.Executes := congrArg Prod.fst ran

theorem step_eq_of_executes (executes : m.Executes) : m.step = (.ran, m.step.2) :=
  Prod.ext executes rfl

theorem not_executes_of_halted (halted : m.step = (.halted outcome, n)) : ¬m.Executes := by
  intro executes
  rw [Executes, halted] at executes
  contradiction

theorem exists_perform_of_ran (ran : m.step = (.ran, n)) :
    ∃ instruction, m.next? = some instruction ∧ m.perform instruction = (.ran, n) := by
  cases next : m.next? with
  | none =>
      rw [step_of_next?_eq_none next, halt_eq] at ran
      cases ran
  | some instruction =>
      have allowed := reachedLimit?_eq_none_iff.mp (reachedLimit?_of_ran ran)
      exact ⟨instruction, rfl, (step_of_allows next allowed).symm.trans ran⟩

/-- Only a loop that is repeated leads back, and then before the loop end, unless that is the
first instruction. -/
theorem Carries.pc_lt_or_repeatsLoop (carries : m.Carries p) (ran : m.step = (.ran, n)) :
    m.pc < n.pc ∨ m.RepeatsLoop ∧ (n.pc < m.pc ∨ n.pc = 0) := by
  obtain ⟨instruction, next, performed⟩ := exists_perform_of_ran ran
  have found : m.program.code[m.pc]? = some instruction := get?_of_next? next
  have inside : m.pc < m.program.code.size := (Array.getElem?_eq_some_iff.mp found).1
  have onward (advanced : n.pc = m.pc + 1) : m.pc < n.pc := advanced ▸ Nat.lt_succ_self m.pc
  cases instruction with
  | move _ | add _ =>
      cases performed
      exact .inl (onward rfl)
  | loopStart =>
      rw [perform] at performed
      split at performed
      · cases performed
        rw [jump, carries.resolver, Resolver.afterLoop_build _ found]
        exact .inl ((leadsForward_afterLoop inside).lt inside)
      · cases performed
        exact .inl (onward rfl)
  | loopEnd =>
      rw [perform] at performed
      split at performed
      · cases performed
        exact .inl (onward rfl)
      · next nonzero =>
          have repeats : m.RepeatsLoop := ⟨executes_of_ran ran, next, nonzero⟩
          cases performed
          rw [jump, carries.resolver, Resolver.loopHead_build _ found]
          exact .inr ⟨repeats, (leadsBack_loopHead inside).lt_or_eq_zero⟩
  | input =>
      obtain ⟨_, _, rfl⟩ := eq_of_receive performed
      exact .inl (onward rfl)
  | output =>
      obtain ⟨_, rfl⟩ := eq_of_send performed
      exact .inl (onward rfl)
  | stop => exact absurd rfl (ne_stop_of_next? next)

/-- An instruction costs one position of the program at most, and a loop that is repeated gives
back no more than all of them. -/
theorem Within.executes_add_pc_le (within : m.Within p front)
    (split : p.toList = front ++ .stop :: rest) :
    (if m.Executes then 1 else 0) + m.pc ≤
      (if m.RepeatsLoop then 1 else 0) * front.length + m.step.2.pc := by
  rcases taken : m.step with ⟨_ | outcome, n⟩
  · obtain ⟨instruction, next, _⟩ := exists_perform_of_ran taken
    have below := within.pc_lt_length split (get?_of_next? next) (ne_stop_of_next? next)
    rw [if_pos (executes_of_ran taken)]
    rcases within.pc_lt_or_repeatsLoop taken with onward | ⟨repeats, _⟩
    · exact Nat.le_trans (by omega) (Nat.le_add_left n.pc _)
    · rw [if_pos repeats, Nat.one_mul]
      omega
  · rw [if_neg (not_executes_of_halted taken), eq_of_halted taken, Nat.zero_add]
    exact Nat.le_add_left _ _

theorem stepped_succ (m : Machine) (count : Nat) :
    m.stepped (count + 1) = (m.stepped count).step.2 := by
  induction count generalizing m with
  | zero => rfl
  | succ count inductionHypothesis => exact inductionHypothesis m.step.2

def executed (m : Machine) (count : Nat) : Nat := Nat.count (fun k => (m.stepped k).Executes) count

/-- How many of so many steps repeat a loop. -/
def repeated (m : Machine) (count : Nat) : Nat :=
  Nat.count (fun k => (m.stepped k).RepeatsLoop) count

theorem Within.executed_add_pc_le (within : m.Within p front)
    (split : p.toList = front ++ .stop :: rest) (count : Nat) :
    m.executed count + m.pc ≤ m.repeated count * front.length + (m.stepped count).pc := by
  induction count with
  | zero => simp [executed, repeated, stepped]
  | succ count inductionHypothesis =>
      have still : (m.stepped count).Within p front :=
        (invariant_within split).kept_stepped within count
      have once := still.executes_add_pc_le split
      rw [executed, repeated] at inductionHypothesis
      rw [executed, repeated, Nat.count_succ, Nat.count_succ, stepped_succ, Nat.add_mul]
      omega

theorem Within.executed_le (within : m.Within p front) (split : p.toList = front ++ .stop :: rest)
    (count : Nat) : m.executed count ≤ (m.repeated count + 1) * front.length := by
  have bounded := within.executed_add_pc_le split count
  have below := ((invariant_within split).kept_stepped within count).pc_le
  rw [Nat.add_mul, Nat.one_mul]
  omega

theorem steps_stepped (m : Machine) (count : Nat) :
    (m.stepped count).steps = m.steps + m.executed count := by
  induction count with
  | zero => simp [executed, stepped]
  | succ count inductionHypothesis =>
      rw [executed] at inductionHypothesis
      rw [executed, Nat.count_succ, stepped_succ, ← Nat.add_assoc, ← inductionHypothesis]
      rcases taken : (m.stepped count).step with ⟨_ | outcome, n⟩
      · rw [if_pos (executes_of_ran taken), steps_of_ran taken]
      · rw [if_neg (not_executes_of_halted taken), eq_of_halted taken, Nat.add_zero]

/-- A run that has not ended has executed an instruction with every step. -/
theorem executed_of_run_eq_none (unended : m.run fuel = none) : m.executed fuel = fuel := by
  apply Nat.count_of_forall
  induction fuel generalizing m with
  | zero => exact fun k below => absurd below (Nat.not_lt_zero k)
  | succ fuel inductionHypothesis =>
      rcases taken : m.step with ⟨_ | outcome, n⟩
      · rw [run_succ_of_ran taken] at unended
        intro k below
        cases k with
        | zero => exact executes_of_ran taken
        | succ k =>
            rw [stepped, taken]
            exact inductionHypothesis unended k (Nat.lt_of_succ_lt_succ below)
      · rw [run_succ_of_halted taken] at unended
        contradiction

theorem exists_stepped_of_run (ended : m.run fuel = some (outcome, last)) :
    ∃ count, m.stepped count = last := by
  induction fuel generalizing m with
  | zero => contradiction
  | succ fuel inductionHypothesis =>
      rcases taken : m.step with ⟨_ | final, n⟩
      · rw [run_succ_of_ran taken] at ended
        obtain ⟨count, there⟩ := inductionHypothesis ended
        exact ⟨count + 1, by rw [stepped, taken, there]⟩
      · rw [run_succ_of_halted taken] at ended
        cases ended
        exact ⟨1, by rw [stepped, taken, stepped]⟩

/-- A machine that repeats loops a limited number of times halts. -/
theorem Within.exists_run_of_repeated_le (within : m.Within p front)
    (split : p.toList = front ++ .stop :: rest) {bound : Nat}
    (bounded : ∀ count, m.repeated count ≤ bound) :
    ∃ outcome last, m.run ((bound + 1) * front.length + 1) = some (outcome, last) ∧
      last.steps ≤ m.steps + (bound + 1) * front.length := by
  have executed_le (count : Nat) : m.executed count ≤ (bound + 1) * front.length :=
    Nat.le_trans (within.executed_le split count)
      (Nat.mul_le_mul_right _ (Nat.succ_le_succ (bounded count)))
  cases ended : m.run ((bound + 1) * front.length + 1) with
  | none =>
      have all := executed_le ((bound + 1) * front.length + 1)
      rw [executed_of_run_eq_none ended] at all
      exact absurd all (Nat.not_succ_le_self _)
  | some result =>
      obtain ⟨outcome, last⟩ := result
      obtain ⟨count, rfl⟩ := exists_stepped_of_run ended
      refine ⟨outcome, _, rfl, ?_⟩
      rw [steps_stepped]
      exact Nat.add_le_add_left (executed_le count) _

theorem Within.repeated_eq_zero (within : m.Within p front)
    (split : p.toList = front ++ .stop :: rest) (noEnd : .loopEnd ∉ p.toList) (count : Nat) :
    m.repeated count = 0 := by
  apply Nat.count_of_forall_not
  rintro k _ ⟨_, next, _⟩
  have still : (m.stepped k).Within p front := (invariant_within split).kept_stepped within k
  have found := get?_of_next? next
  rw [still.program, Program.get?, ← Array.getElem?_toList] at found
  exact noEnd (List.mem_of_getElem? found)

/-- A step that executes an instruction goes on behind it, or repeats a loop and goes back.  So
there are at most as many instructions between two loops that are repeated, before the first one
and after the last one as the program has without its last stop.  A machine that repeats loops a
limited number of times halts, and one whose program has no loop end halts within the length of
its program. -/
theorem only_repeated_loops_go_back (program : Program) (tape : Tape) (settings : Settings)
    (streams : Streams) :
    let m := onTape program tape settings streams
    (∀ count n, (m.stepped count).step = (.ran, n) →
      (m.stepped count).pc < n.pc ∨
      (m.stepped count).RepeatsLoop ∧ n.pc ≤ (m.stepped count).pc ∧
        ((m.stepped count).pc ≠ 0 → n.pc < (m.stepped count).pc)) ∧
    (∀ count, (m.stepped count).steps = m.executed count ∧
      m.executed count ≤ (m.repeated count + 1) * (program.size - 1)) ∧
    (∀ bound, (∀ count, m.repeated count ≤ bound) →
      ∃ outcome last, m.run ((bound + 1) * (program.size - 1) + 1) = some (outcome, last)) ∧
    (.loopEnd ∉ program.toList →
      ∃ outcome last, m.run program.size = some (outcome, last) ∧
        last.steps ≤ program.size - 1) := by
  intro m
  obtain ⟨front, split⟩ := program.exists_toList_eq
  have within : m.Within program front := within_onTape program front tape settings streams
  have length : program.size - 1 = front.length := by
    rw [← Program.length_toList, split, List.length_append, List.length_singleton,
      Nat.add_sub_cancel]
  rw [length]
  refine ⟨?_, ?_, ?_, ?_⟩
  · intro count n ran
    have still := (invariant_within split).kept_stepped within count
    rcases still.pc_lt_or_repeatsLoop ran with onward | ⟨repeats, back⟩
    · exact .inl onward
    · exact .inr ⟨repeats, by omega, by omega⟩
  · intro count
    refine ⟨?_, within.executed_le split count⟩
    rw [steps_stepped]
    exact Nat.zero_add _
  · intro bound bounded
    obtain ⟨outcome, last, ended, _⟩ := within.exists_run_of_repeated_le split bounded
    exact ⟨outcome, last, ended⟩
  · intro noEnd
    have never (count : Nat) : m.repeated count ≤ 0 :=
      Nat.le_of_eq (within.repeated_eq_zero split noEnd count)
    have size : program.size = (0 + 1) * front.length + 1 := by
      have := program.size_pos
      omega
    obtain ⟨outcome, last, ended, few⟩ := within.exists_run_of_repeated_le split never
    rw [size]
    refine ⟨outcome, last, ended, ?_⟩
    rw [show m.steps = 0 from rfl] at few
    omega

/-- A loop that is repeated once, and loop starts that have no partner. -/
theorem only_repeated_loops_go_back_of_countdown :
    let p := Program.ofArray #[.add 2, .loopStart, .add (-1), .loopEnd]
    let m := (onTape p (.blank 1) {} {}).stepped 3
    m.step = (.ran, m.step.2) ∧ ¬m.pc < m.step.2.pc ∧ m.RepeatsLoop ∧ m.step.2.pc < m.pc ∧
      ∃ outcome last, (onTape (.ofArray #[.loopStart, .output]) (.blank 1) {} {}).run 3 =
        some (outcome, last) ∧ last.steps ≤ 2 := by
  intro p m
  have ran : m.step = (.ran, m.step.2) := step_eq_of_executes (by decide +kernel)
  have notOnward : ¬m.pc < m.step.2.pc := by decide +kernel
  obtain ⟨step, _⟩ := only_repeated_loops_go_back p (.blank 1) {} {}
  obtain ⟨repeats, _, back⟩ := (step 3 m.step.2 ran).resolve_left notOnward
  obtain ⟨_, _, _, noEnd⟩ := only_repeated_loops_go_back (.ofArray #[.loopStart, .output])
    (.blank 1) {} {}
  exact ⟨ran, notOnward, repeats, back (by decide +kernel), noEnd (by decide +kernel)⟩

end Machine

end TapeLang
