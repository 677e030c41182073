import TapeLang.Proofs.Machine.Running

/-!
Machines in other code.  The code of a machine may stand further behind in another program, and the
machine may have counted more instructions.  No step notices, if it finds the same instruction
and its target is as much further behind.
-/

namespace TapeLang.Machine

variable {m : Machine} {program : Program} {jumps : JumpMode} {distance count : Nat}

/-- The same machine in another program, so many positions and instructions further. -/
def relocate (program : Program) (jumps : JumpMode) (distance count : Nat) (m : Machine) :
    Machine :=
  { m with
    program
    settings := { m.settings with jumps }
    resolver := .build jumps program.code
    pc := m.pc + distance
    steps := m.steps + count }

theorem jump_relocate (m : Machine) (target : Nat) :
    (m.relocate program jumps distance count).jump (target + distance) =
      (m.jump target).relocate program jumps distance count := by
  simp only [jump, relocate, Nat.add_right_comm m.steps]

theorem advance_relocate (m : Machine) :
    (m.relocate program jumps distance count).advance =
      m.advance.relocate program jumps distance count := by
  rw [advance, advance, ← jump_relocate]
  exact congrArg _ (Nat.add_right_comm m.pc distance 1)

theorem halt_relocate (m : Machine) (outcome : Outcome) :
    (m.relocate program jumps distance count).halt outcome =
      (m.halt outcome).map id (relocate program jumps distance count) := by
  rw [halt_eq, halt_eq]
  rfl

theorem store_relocate (m : Machine) (received : Option UInt8) :
    (m.relocate program jumps distance count).store received = m.store received := by
  cases received <;> rfl

theorem receive_relocate (m : Machine) :
    (m.relocate program jumps distance count).receive =
      m.receive.map id (relocate program jumps distance count) := by
  have streams : (m.relocate program jumps distance count).streams = m.streams := rfl
  unfold receive
  rw [streams]
  rcases m.streams.flush with ⟨reason | _, flushed⟩
  · exact halt_relocate { m with streams := flushed } _
  · dsimp only
    rcases flushed.read with ⟨reason | received, rest⟩
    · exact halt_relocate { m with streams := rest } _
    · dsimp only
      rw [store_relocate]
      exact congrArg (Prod.mk Step.ran)
        (advance_relocate { m with streams := rest, tape := m.store received })

theorem send_relocate (m : Machine) :
    (m.relocate program jumps distance count).send =
      m.send.map id (relocate program jumps distance count) := by
  have streams : (m.relocate program jumps distance count).streams = m.streams := rfl
  have tape : (m.relocate program jumps distance count).tape = m.tape := rfl
  unfold send
  rw [streams, tape]
  rcases m.streams.write m.tape.current.toUInt8 with ⟨reason | _, rest⟩
  · exact halt_relocate { m with streams := rest } _
  · exact congrArg (Prod.mk Step.ran) (advance_relocate { m with streams := rest })

/-- What has to be the same in both codes, so that a step does not notice. -/
structure Fits (program : Program) (jumps : JumpMode) (distance : Nat) (m : Machine) : Prop where
  get? : program.get? (m.pc + distance) = m.program.get? m.pc
  afterLoop : m.program.get? m.pc = some .loopStart →
    (Resolver.build jumps program.code).afterLoop program.code (m.pc + distance) =
      m.resolver.afterLoop m.program.code m.pc + distance
  loopHead : m.program.get? m.pc = some .loopEnd →
    (Resolver.build jumps program.code).loopHead program.code (m.pc + distance) =
      m.resolver.loopHead m.program.code m.pc + distance

theorem perform_relocate {instruction : Instruction} (fits : m.Fits program jumps distance)
    (found : m.program.get? m.pc = some instruction) :
    (m.relocate program jumps distance count).perform instruction =
      (m.perform instruction).map id (relocate program jumps distance count) := by
  have tape : (m.relocate program jumps distance count).tape = m.tape := rfl
  have advances (t : Tape) : { m.relocate program jumps distance count with tape := t }.advance =
      { m with tape := t }.advance.relocate program jumps distance count :=
    advance_relocate { m with tape := t }
  cases instruction with
  | move distance => exact congrArg (Prod.mk Step.ran) (advances _)
  | add amount => exact congrArg (Prod.mk Step.ran) (advances _)
  | loopStart =>
      simp only [perform, tape]
      split
      · apply congrArg (Prod.mk Step.ran)
        rw [← jump_relocate, ← fits.afterLoop found]
        rfl
      · exact congrArg (Prod.mk Step.ran) (advance_relocate m)
  | loopEnd =>
      simp only [perform, tape]
      split
      · exact congrArg (Prod.mk Step.ran) (advance_relocate m)
      · apply congrArg (Prod.mk Step.ran)
        rw [← jump_relocate, ← fits.loopHead found]
        rfl
  | input => exact receive_relocate m
  | output => exact send_relocate m
  | stop => exact halt_relocate m .finished

theorem step_relocate (fits : m.Fits program jumps distance)
    (limit : (m.relocate program jumps distance count).reachedLimit? = m.reachedLimit?) :
    (m.relocate program jumps distance count).step =
      m.step.map id (relocate program jumps distance count) := by
  have next : (m.relocate program jumps distance count).next? = m.next? := by
    unfold next?
    rw [← fits.get?]
    rfl
  unfold step
  rw [next, limit]
  cases found : m.next? with
  | none => exact halt_relocate m .finished
  | some instruction =>
      cases m.reachedLimit? with
      | some limit => exact halt_relocate m _
      | none => exact perform_relocate fits (get?_of_next? found)

end TapeLang.Machine
