import TapeLang.Machine
import TapeLang.Proofs.Tape.View

/-!
Runs of a machine.  `Halts` leaves out how much fuel a run takes, and `pass` is what a
sequence of moves and additions does in as many steps.
-/

namespace TapeLang

/-- Not every outcome is the program's own: a step limit may end a run before. -/
def Outcome.IsOwn (outcome : Outcome) : Prop :=
  ∀ limit, outcome ≠ .failed (.stepLimit limit)

theorem Outcome.isOwn_finished : IsOwn .finished := by
  intro limit
  simp

theorem Outcome.isOwn_io (reason : String) : IsOwn (.failed (.io reason)) := by
  intro limit
  simp

namespace Instruction

/-- Moves and additions always go on with the next instruction. -/
def isStraight : Instruction → Bool
  | move _ | add _ => true
  | _ => false

def onTape (t : Tape) : Instruction → Tape
  | move distance => t.shift distance.toInt
  | add amount => t.add amount
  | _ => t

def onView (v : Tape.View) : Instruction → Tape.View
  | move distance => v.shift distance.toInt
  | add amount => v.add amount.toInt
  | _ => v

theorem view_onTape (t : Tape) (instruction : Instruction) :
    (instruction.onTape t).view = instruction.onView t.view := by
  cases instruction with
  | move distance => exact t.view_shift distance.toInt
  | add amount => exact t.view_add amount
  | _ => rfl

theorem view_foldl_onTape (t : Tape) (instructions : List Instruction) :
    (instructions.foldl onTape t).view = instructions.foldl onView t.view := by
  induction instructions generalizing t with
  | nil => rfl
  | cons instruction rest inductionHypothesis =>
      rw [List.foldl_cons, List.foldl_cons, inductionHypothesis, view_onTape]

end Instruction

namespace Machine

variable {m n last : Machine} {outcome : Outcome} {fuel : Nat}

def Halts (m : Machine) (outcome : Outcome) (last : Machine) : Prop :=
  ∃ fuel, m.run fuel = some (outcome, last)

theorem run_succ_of_ran (ran : m.step = (.ran, n)) (fuel : Nat) :
    m.run (fuel + 1) = n.run fuel := by
  rw [run, ran]

theorem run_succ_of_halted (halted : m.step = (.halted outcome, n)) (fuel : Nat) :
    m.run (fuel + 1) = some (outcome, n) := by
  rw [run, halted]

theorem run_add_one {result : Outcome × Machine} (ended : m.run fuel = some result) :
    m.run (fuel + 1) = some result := by
  induction fuel generalizing m with
  | zero => contradiction
  | succ fuel inductionHypothesis =>
      rcases taken : m.step with ⟨result | outcome, n⟩
      · rw [run_succ_of_ran taken] at ended ⊢
        exact inductionHypothesis ended
      · rw [run_succ_of_halted taken] at ended ⊢
        exact ended

theorem run_mono {more : Nat} {result : Outcome × Machine} (enough : fuel ≤ more)
    (ended : m.run fuel = some result) : m.run more = some result := by
  induction enough with
  | refl => exact ended
  | step _ inductionHypothesis => exact run_add_one inductionHypothesis

theorem halts_of_ran (ran : m.step = (.ran, n)) : m.Halts outcome last ↔ n.Halts outcome last := by
  constructor
  · rintro ⟨fuel, ended⟩
    exact ⟨fuel, by rw [← run_succ_of_ran ran]; exact run_add_one ended⟩
  · rintro ⟨fuel, ended⟩
    exact ⟨fuel + 1, by rw [run_succ_of_ran ran, ended]⟩

/-- Whether so many more instructions are within the step limit. -/
def Allows (m : Machine) (count : Nat) : Prop :=
  ∀ limit, m.settings.stepLimit = some limit → ∀ taken < count, m.steps + taken < limit.toNat

theorem allows_of_unlimited (unlimited : m.settings.stepLimit = none) (count : Nat) :
    m.Allows count := by
  intro limit limited
  rw [unlimited] at limited
  contradiction

theorem reachedLimit?_eq_none_iff : m.reachedLimit? = none ↔ m.Allows 1 := by
  simp [reachedLimit?, Option.filter_eq_none_iff, Allows]

theorem Allows.tail {count : Nat} (allowed : m.Allows (count + 1)) (same : n.settings = m.settings)
    (counted : n.steps = m.steps + 1) : n.Allows count := by
  intro limit limited taken below
  have := allowed limit (same ▸ limited) (taken + 1) (by omega)
  omega

theorem next?_eq_some {instruction : Instruction}
    (found : m.program.get? m.pc = some instruction) (goesOn : instruction ≠ .stop) :
    m.next? = some instruction := by
  rw [next?, found]
  cases instruction <;> first | rfl | contradiction

theorem get?_of_next? {instruction : Instruction} (next : m.next? = some instruction) :
    m.program.get? m.pc = some instruction := by
  unfold next? at next
  split at next
  · contradiction
  · exact next

theorem ne_stop_of_next? {instruction : Instruction} (next : m.next? = some instruction) :
    instruction ≠ .stop := by
  rintro rfl
  unfold next? at next
  split at next
  · contradiction
  · next goesOn => exact goesOn next

theorem step_of_next?_eq_none (nothing : m.next? = none) : m.step = m.halt .finished := by
  rw [step, nothing]

theorem step_of_allows {instruction : Instruction} (next : m.next? = some instruction)
    (allowed : m.Allows 1) : m.step = m.perform instruction := by
  rw [step, next, reachedLimit?_eq_none_iff.mpr allowed]

theorem receive_of_ok {flushed after : Streams} {received : Option UInt8}
    (flush : m.streams.flush = (.ok (), flushed)) (read : flushed.read = (.ok received, after)) :
    m.receive = (.ran, { m with streams := after, tape := m.store received }.advance) := by
  rw [receive, flush]
  dsimp only
  rw [read]

theorem send_of_ok {after : Streams}
    (write : m.streams.write m.tape.current.toUInt8 = (.ok (), after)) :
    m.send = (.ran, { m with streams := after }.advance) := by
  rw [send, write]

theorem halt_of_ok {flushed : Streams} (flush : m.streams.flush = (.ok (), flushed)) :
    m.halt outcome = (.halted outcome, { m with streams := flushed }) := by
  unfold halt
  rw [flush]

def finalOutcome (m : Machine) (outcome : Outcome) : Outcome :=
  match m.streams.flush.1, outcome with
  | .error reason, .finished => .failed (.io reason)
  | _, _ => outcome

theorem halt_eq (m : Machine) (outcome : Outcome) :
    m.halt outcome =
      (.halted (m.finalOutcome outcome), { m with streams := m.streams.flush.2 }) := by
  unfold halt finalOutcome
  rcases m.streams.flush with ⟨reason | _, streams⟩ <;> cases outcome <;> rfl

@[simp] theorem finalOutcome_failed (m : Machine) (fault : Fault) :
    m.finalOutcome (.failed fault) = .failed fault := by
  unfold finalOutcome
  split
  · contradiction
  · rfl

theorem eq_of_receive (ran : m.receive = (.ran, n)) :
    ∃ received streams, n = { m with streams, tape := m.store received }.advance := by
  unfold receive at ran
  split at ran
  · rw [halt_eq] at ran
    cases ran
  · split at ran
    · rw [halt_eq] at ran
      cases ran
    · cases ran
      exact ⟨_, _, rfl⟩

theorem eq_of_send (ran : m.send = (.ran, n)) : ∃ streams, n = { m with streams }.advance := by
  unfold send at ran
  split at ran
  · rw [halt_eq] at ran
    cases ran
  · cases ran
    exact ⟨_, rfl⟩

/-- What a step can come to.  Either it counts an instruction and goes on somewhere, with
another tape and other streams, or it halts, and only the streams are others. -/
inductive Moves (m : Machine) : Step × Machine → Prop
  | ran (tape : Tape) (streams : Streams) (target : Nat) :
      m.Moves (.ran, { m with tape, streams }.jump target)
  | halted (outcome : Outcome) (streams : Streams) : m.Moves (.halted outcome, { m with streams })

theorem moves_halt (m : Machine) (streams : Streams) (outcome : Outcome) :
    m.Moves ({ m with streams }.halt outcome) := by
  rw [halt_eq]
  exact .halted _ _

theorem moves_receive (m : Machine) : m.Moves m.receive := by
  unfold receive
  rcases m.streams.flush with ⟨reason | _, flushed⟩
  · exact m.moves_halt flushed _
  · dsimp only
    rcases flushed.read with ⟨reason | received, streams⟩
    · exact m.moves_halt streams _
    · exact .ran (m.store received) streams (m.pc + 1)

theorem moves_send (m : Machine) : m.Moves m.send := by
  unfold send
  rcases m.streams.write m.tape.current.toUInt8 with ⟨reason | _, streams⟩
  · exact m.moves_halt streams _
  · exact .ran m.tape streams (m.pc + 1)

theorem moves_perform (m : Machine) (instruction : Instruction) :
    m.Moves (m.perform instruction) := by
  cases instruction with
  | move distance => exact .ran (m.tape.shift distance.toInt) m.streams (m.pc + 1)
  | add amount => exact .ran (m.tape.add amount) m.streams (m.pc + 1)
  | loopStart | loopEnd =>
      simp only [perform]
      split
      · exact .ran m.tape m.streams _
      · exact .ran m.tape m.streams _
  | input => exact m.moves_receive
  | output => exact m.moves_send
  | stop => exact m.moves_halt m.streams .finished

theorem moves_step (m : Machine) : m.Moves m.step := by
  unfold step
  split
  · exact m.moves_halt m.streams .finished
  · split
    · exact m.moves_halt m.streams _
    · exact m.moves_perform _

/-- What no step changes. -/
structure SameSetup (m n : Machine) : Prop where
  program : n.program = m.program
  settings : n.settings = m.settings
  resolver : n.resolver = m.resolver

theorem sameSetup_step (m : Machine) : m.SameSetup m.step.2 := by
  have moves := m.moves_step
  generalize m.step = p at moves
  cases moves with
  | ran => exact ⟨rfl, rfl, rfl⟩
  | halted => exact ⟨rfl, rfl, rfl⟩

theorem steps_of_ran (ran : m.step = (.ran, n)) : n.steps = m.steps + 1 := by
  have moves := m.moves_step
  rw [ran] at moves
  cases moves
  rfl

theorem eq_of_halted (halted : m.step = (.halted outcome, n)) :
    n = { m with streams := n.streams } := by
  have moves := m.moves_step
  rw [halted] at moves
  cases moves
  rfl

/-- A run whose outcome is its own is not cut short before an instruction. -/
theorem allows_of_run {instruction : Instruction} (next : m.next? = some instruction)
    (ended : m.run fuel = some (outcome, last)) (own : outcome.IsOwn) : m.Allows 1 := by
  apply reachedLimit?_eq_none_iff.mp
  cases reached : m.reachedLimit? with
  | none => rfl
  | some limit =>
      have taken : m.step = m.halt (.failed (.stepLimit limit)) := by
        rw [step, next, reached]
      rw [halt_eq, finalOutcome_failed] at taken
      cases fuel with
      | zero => contradiction
      | succ fuel =>
          rw [run_succ_of_halted taken] at ended
          cases ended
          exact absurd rfl (own limit)

theorem isOwn_finalOutcome (own : outcome.IsOwn) : (m.finalOutcome outcome).IsOwn := by
  unfold finalOutcome
  split
  · intro limit
    simp
  · exact own

theorem isOwn_of_halt {streams : Streams} {final : Outcome}
    (halted : { m with streams }.halt outcome = (.halted final, n)) (own : outcome.IsOwn) :
    final.IsOwn := by
  rw [halt_eq] at halted
  cases halted
  exact isOwn_finalOutcome own

theorem isOwn_of_receive (halted : m.receive = (.halted outcome, n)) : outcome.IsOwn := by
  unfold receive at halted
  split at halted
  · exact isOwn_of_halt halted (Outcome.isOwn_io _)
  · split at halted
    · exact isOwn_of_halt halted (Outcome.isOwn_io _)
    · cases halted

theorem isOwn_of_send (halted : m.send = (.halted outcome, n)) : outcome.IsOwn := by
  unfold send at halted
  split at halted
  · exact isOwn_of_halt halted (Outcome.isOwn_io _)
  · cases halted

theorem isOwn_of_perform {instruction : Instruction}
    (halted : m.perform instruction = (.halted outcome, n)) : outcome.IsOwn := by
  cases instruction with
  | move _ | add _ => cases halted
  | loopStart | loopEnd =>
      simp only [perform] at halted
      split at halted <;> cases halted
  | input => exact isOwn_of_receive halted
  | output => exact isOwn_of_send halted
  | stop => exact isOwn_of_halt halted Outcome.isOwn_finished

theorem isOwn_of_step (unlimited : m.settings.stepLimit = none)
    (halted : m.step = (.halted outcome, n)) : outcome.IsOwn := by
  cases next : m.next? with
  | none =>
      rw [step_of_next?_eq_none next] at halted
      exact isOwn_of_halt halted Outcome.isOwn_finished
  | some instruction =>
      rw [step_of_allows next (allows_of_unlimited unlimited 1)] at halted
      exact isOwn_of_perform halted

theorem isOwn_of_run (unlimited : m.settings.stepLimit = none)
    (ended : m.run fuel = some (outcome, last)) : outcome.IsOwn := by
  induction fuel generalizing m with
  | zero => contradiction
  | succ fuel inductionHypothesis =>
      have setup := m.sameSetup_step
      rcases taken : m.step with ⟨_ | final, n⟩
      · rw [run_succ_of_ran taken] at ended
        rw [taken] at setup
        exact inductionHypothesis (setup.settings ▸ unlimited) ended
      · rw [run_succ_of_halted taken] at ended
        cases ended
        exact isOwn_of_step unlimited taken

def pass (m : Machine) (segment : List Instruction) : Machine :=
  { m with
    tape := segment.foldl Instruction.onTape m.tape
    pc := m.pc + segment.length
    steps := m.steps + segment.length }

theorem pass_cons (m : Machine) (instruction : Instruction) (segment : List Instruction) :
    m.pass (instruction :: segment) = (m.pass [instruction]).pass segment := by
  simp [pass, Nat.add_assoc, Nat.add_comm 1]

@[simp] theorem view_pass (m : Machine) (segment : List Instruction) :
    (m.pass segment).tape.view = segment.foldl Instruction.onView m.tape.view :=
  Instruction.view_foldl_onTape m.tape segment

theorem step_of_isStraight {instruction : Instruction} (straight : instruction.isStraight)
    (found : m.program.get? m.pc = some instruction) (allowed : m.Allows 1) :
    m.step = (.ran, m.pass [instruction]) := by
  have next : m.next? = some instruction := next?_eq_some found (by rintro rfl; contradiction)
  rw [step_of_allows next allowed]
  cases instruction <;> first | rfl | contradiction

variable {segment rest : List Instruction}

theorem get?_of_drop {instruction : Instruction} {position : Nat}
    (here : m.program.toList.drop position = instruction :: rest) :
    m.program.get? position = some instruction := by
  rw [Program.get?, ← Array.getElem?_toList, ← List.head?_drop]
  exact congrArg List.head? here

theorem drop_pass {instruction : Instruction}
    (here : m.program.toList.drop m.pc = instruction :: rest) :
    (m.pass [instruction]).program.toList.drop (m.pass [instruction]).pc = rest := by
  change m.program.toList.drop (m.pc + 1) = rest
  rw [← List.tail_drop, here, List.tail_cons]

theorem halts_pass (straight : ∀ instruction ∈ segment, instruction.isStraight)
    (here : m.program.toList.drop m.pc = segment ++ rest) (allowed : m.Allows segment.length) :
    m.Halts outcome last ↔ (m.pass segment).Halts outcome last := by
  induction segment generalizing m with
  | nil => rfl
  | cons instruction segment inductionHypothesis =>
      have ran : m.step = (.ran, m.pass [instruction]) := by
        apply step_of_isStraight (straight instruction (by simp)) (get?_of_drop here)
        intro limit limited taken below
        apply allowed limit limited taken
        rw [List.length_cons]
        omega
      rw [halts_of_ran ran, pass_cons m instruction segment]
      apply inductionHypothesis _ (drop_pass here)
      · exact allowed.tail rfl rfl
      · intro other inSegment
        exact straight other (List.mem_cons_of_mem _ inSegment)

theorem run_pass_of_run (straight : ∀ instruction ∈ segment, instruction.isStraight)
    (here : m.program.toList.drop m.pc = segment ++ rest)
    (ended : m.run fuel = some (outcome, last)) (own : outcome.IsOwn) :
    m.Allows segment.length ∧ (m.pass segment).run fuel = some (outcome, last) := by
  induction segment generalizing m fuel with
  | nil =>
      refine ⟨?_, ended⟩
      intro limit limited taken below
      exact absurd below (Nat.not_lt_zero taken)
  | cons instruction segment inductionHypothesis =>
      have isStraight := straight instruction (by simp)
      have found := get?_of_drop here
      have allowed := allows_of_run (next?_eq_some found (by rintro rfl; contradiction)) ended own
      have ran := step_of_isStraight isStraight found allowed
      cases fuel with
      | zero => contradiction
      | succ fuel =>
          rw [run_succ_of_ran ran] at ended
          have straightRest : ∀ other ∈ segment, other.isStraight := by
            intro other inSegment
            exact straight other (List.mem_cons_of_mem _ inSegment)
          obtain ⟨allows, ended⟩ := inductionHypothesis straightRest (drop_pass here) ended
          constructor
          · intro limit limited taken below
            cases taken with
            | zero => exact allowed limit limited 0 Nat.one_pos
            | succ taken =>
                have later : m.steps + 1 + taken < limit.toNat :=
                  allows limit limited taken (Nat.lt_of_succ_lt_succ below)
                omega
          · rw [pass_cons]
            exact run_add_one ended

end Machine

end TapeLang
