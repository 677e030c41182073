import TapeLang.Proofs.Machine.Installing

/-!
No machine gets past a stop.  There is an instruction behind every one that is no stop, the
scans forward end at the stop at the latest, and the scans backward end before where they
began.  Since the last instruction is a stop, no machine leaves its program.
-/

namespace TapeLang

open Brackets

theorem Program.exists_toList_eq (p : Program) : ∃ front, p.toList = front ++ [.stop] := by
  have ends := p.back_code
  rw [← Array.getLast?_toList] at ends
  exact List.getLast?_eq_some_iff.mp ends

theorem Brackets.loopHead_le (code : Array Instruction) (position : Nat) :
    loopHead code position ≤ position := by
  have inRange := Nat.min_le_right position code.size
  obtain ⟨skipped, split⟩ := exists_append_beyond Instruction.backwardMark 0
    (code.toList.take (min position code.size)).reverse
  have shorter := congrArg List.length split
  rw [loopHead, openBefore_eq_length_beyond _ _ inRange]
  simp at shorter
  omega

namespace Machine

variable {p : Program} {front rest : List Instruction} {m n : Machine} {instruction : Instruction}
  {outcome : Outcome} {fuel : Nat}

/-- A machine in a part of its program, or right behind it. -/
structure Within (p : Program) (front : List Instruction) (m : Machine) : Prop
    extends Carries p m where
  pc_le : m.pc ≤ front.length

theorem within_onTape (p : Program) (front : List Instruction) (tape : Tape) (settings : Settings)
    (streams : Streams) : (onTape p tape settings streams).Within p front :=
  ⟨carries_onTape p tape settings streams, Nat.zero_le _⟩

theorem Within.pc_lt (within : m.Within p front) (split : p.toList = front ++ .stop :: rest) :
    m.pc < p.size := by
  rw [← Program.length_toList, split, List.length_append, List.length_cons]
  exact Nat.lt_of_le_of_lt within.pc_le (Nat.lt_add_of_pos_right (Nat.succ_pos _))

/-- At the stop there is nothing but the stop. -/
theorem Within.pc_lt_length (within : m.Within p front)
    (split : p.toList = front ++ .stop :: rest)
    (found : m.program.get? m.pc = some instruction) (goesOn : instruction ≠ .stop) :
    m.pc < front.length := by
  apply Nat.lt_of_le_of_ne within.pc_le
  intro atStop
  rw [within.program, atStop, Program.get?, ← Array.getElem?_toList, ← Program.toList, split,
    List.getElem?_append_right (Nat.le_refl _), Nat.sub_self, List.getElem?_cons_zero] at found
  exact goesOn (Option.some.inj found).symm

theorem pc_halt (m : Machine) (outcome : Outcome) : (m.halt outcome).2.pc = m.pc := by
  rw [halt_eq]

theorem pc_receive (m : Machine) : m.receive.2.pc = m.pc ∨ m.receive.2.pc = m.pc + 1 := by
  unfold receive
  rcases m.streams.flush with ⟨reason | _, flushed⟩
  · exact .inl (pc_halt _ _)
  · dsimp only
    rcases flushed.read with ⟨reason | received, rest⟩
    · exact .inl (pc_halt _ _)
    · exact .inr rfl

theorem pc_send (m : Machine) : m.send.2.pc = m.pc ∨ m.send.2.pc = m.pc + 1 := by
  unfold send
  rcases m.streams.write m.tape.current.toUInt8 with ⟨reason | _, rest⟩
  · exact .inl (pc_halt _ _)
  · exact .inr rfl

theorem Within.pc_perform_le (within : m.Within p front)
    (split : p.toList = front ++ .stop :: rest)
    (found : m.program.get? m.pc = some instruction) :
    (m.perform instruction).2.pc ≤ front.length := by
  have here := within.pc_le
  have next (goesOn : instruction ≠ .stop) : m.pc + 1 ≤ front.length :=
    within.pc_lt_length split found goesOn
  cases instruction with
  | move _ | add _ => exact next (by simp)
  | loopStart =>
      simp only [perform]
      split
      · rw [jump, within.resolver, Resolver.afterLoop_build _ found, within.program,
          ← afterLoop_add_length_beyond split (next (by simp))]
        exact Nat.le_add_right _ _
      · exact next (by simp)
  | loopEnd =>
      simp only [perform]
      split
      · exact next (by simp)
      · rw [jump, within.resolver, Resolver.loopHead_build _ found]
        exact Nat.le_trans (loopHead_le _ _) here
  | input =>
      rw [perform]
      rcases m.pc_receive with same | onward
      · rwa [same]
      · rw [onward]
        exact next (by simp)
  | output =>
      rw [perform]
      rcases m.pc_send with same | onward
      · rwa [same]
      · rw [onward]
        exact next (by simp)
  | stop => rwa [perform, pc_halt]

theorem Within.pc_step_le (within : m.Within p front)
    (split : p.toList = front ++ .stop :: rest) : m.step.2.pc ≤ front.length := by
  have here := within.pc_le
  unfold step
  split
  · rwa [pc_halt]
  · next instruction next =>
      split
      · rwa [pc_halt]
      · exact within.pc_perform_le split (get?_of_next? next)

theorem invariant_within (split : p.toList = front ++ .stop :: rest) :
    Invariant (Within p front) where
  kept_step within :=
    ⟨(invariant_carries p).kept_step within.toCarries, within.pc_step_le split⟩
  kept_reset within := ⟨(invariant_carries p).kept_reset within.toCarries, Nat.zero_le _⟩

theorem ne_finished_of_halt {streams : Streams} {fault : Fault}
    (halted : { m with streams }.halt (.failed fault) = (.halted outcome, n)) :
    outcome ≠ .finished := by
  rw [halt_eq, finalOutcome_failed] at halted
  cases halted
  simp

theorem ne_finished_of_receive (halted : m.receive = (.halted outcome, n)) :
    outcome ≠ .finished := by
  unfold receive at halted
  split at halted
  · exact ne_finished_of_halt halted
  · split at halted
    · exact ne_finished_of_halt halted
    · cases halted

theorem ne_finished_of_send (halted : m.send = (.halted outcome, n)) : outcome ≠ .finished := by
  unfold send at halted
  split at halted
  · exact ne_finished_of_halt halted
  · cases halted

theorem ne_finished_of_perform (goesOn : instruction ≠ .stop)
    (halted : m.perform instruction = (.halted outcome, n)) : outcome ≠ .finished := by
  cases instruction with
  | move _ | add _ => cases halted
  | loopStart | loopEnd =>
      simp only [perform] at halted
      split at halted <;> cases halted
  | input => exact ne_finished_of_receive halted
  | output => exact ne_finished_of_send halted
  | stop => exact absurd rfl goesOn

/-- A machine that halts without a fault, has no next instruction. -/
theorem next?_of_step_finished (halted : m.step = (.halted .finished, n)) : n.next? = none := by
  cases next : m.next? with
  | none =>
      rw [step_of_next?_eq_none next, halt_eq] at halted
      have last : { m with streams := m.streams.flush.2 } = n := congrArg Prod.snd halted
      rw [← last]
      exact next
  | some instruction =>
      unfold step at halted
      rw [next] at halted
      dsimp only at halted
      split at halted
      · exact absurd rfl (ne_finished_of_halt halted)
      · exact absurd rfl (ne_finished_of_perform (ne_stop_of_next? next) halted)

theorem next?_of_run_finished (ended : m.run fuel = some (.finished, n)) : n.next? = none := by
  induction fuel generalizing m with
  | zero => contradiction
  | succ fuel inductionHypothesis =>
      rcases taken : m.step with ⟨_ | outcome, next⟩
      · rw [run_succ_of_ran taken] at ended
        exact inductionHypothesis ended
      · rw [run_succ_of_halted taken] at ended
        cases ended
        exact next?_of_step_finished taken

theorem next?_of_call_finished {call : Call}
    (answered : m.call fuel call = some (some (.halted .finished), n)) : n.next? = none := by
  cases call with
  | step =>
      rcases taken : m.step with ⟨result, last⟩
      rw [Machine.call, taken] at answered
      cases answered
      exact next?_of_step_finished taken
  | run =>
      obtain ⟨⟨outcome, last⟩, ended, answer⟩ := Option.map_eq_some_iff.mp answered
      cases answer
      exact next?_of_run_finished ended
  | reset => cases answered

theorem within_of_mem_calls (split : p.toList = front ++ .stop :: rest) {calls : List Call}
    {answer : Option Step × Machine} (within : m.Within p front)
    (reached : answer ∈ m.calls fuel calls) :
    answer.2.Within p front ∧ (answer.1 = some (.halted .finished) → answer.2.next? = none) := by
  have invariant := invariant_within split
  refine invariant.of_mem_calls (fun answer => answer.2.Within p front ∧
    (answer.1 = some (.halted .finished) → answer.2.next? = none)) ?_ within reached
  intro m n call reply within answered
  refine ⟨invariant.kept_call within answered, ?_⟩
  rintro rfl
  exact next?_of_call_finished answered

/-- Within its program, a machine has no next instruction only at a stop. -/
theorem Within.get?_eq_stop (within : m.Within p front)
    (split : p.toList = front ++ .stop :: rest) (nothing : m.next? = none) :
    p.get? m.pc = some .stop := by
  have inRange : m.pc < p.code.size := within.pc_lt split
  have found : p.get? m.pc = some p.code[m.pc] := Array.getElem?_eq_getElem inRange
  rw [next?, within.program, found] at nothing
  split at nothing
  · next stops => rw [found, stops]
  · contradiction

end Machine

end TapeLang
