import TapeLang.Proofs.Brackets.Table
import TapeLang.Proofs.Machine.Calls
import TapeLang.Proofs.Machine.Relocating

/-!
Machines with other code.  A step does not notice that the code was exchanged, if the
instruction at the position of the machine is the same and its target is.  So no sequence of
calls tells whether targets are scanned for or looked up.
-/

namespace TapeLang.Machine

variable {m : Machine} {program : Program} {jumps : JumpMode}

/-- The same machine with this program, whose targets are found in this way. -/
def install (program : Program) (jumps : JumpMode) (m : Machine) : Machine :=
  { m with
    program
    settings := { m.settings with jumps }
    resolver := .build jumps program.code }

/-- What has to be the same in both codes, so that a step does not notice. -/
structure Agrees (program : Program) (jumps : JumpMode) (m : Machine) : Prop where
  get? : program.get? m.pc = m.program.get? m.pc
  afterLoop : m.program.get? m.pc = some .loopStart →
    (Resolver.build jumps program.code).afterLoop program.code m.pc =
      m.resolver.afterLoop m.program.code m.pc
  loopHead : m.program.get? m.pc = some .loopEnd →
    (Resolver.build jumps program.code).loopHead program.code m.pc =
      m.resolver.loopHead m.program.code m.pc

theorem step_install (agrees : m.Agrees program jumps) :
    (m.install program jumps).step = m.step.map id (install program jumps) := by
  have fits : m.Fits program jumps 0 := ⟨agrees.get?, agrees.afterLoop, agrees.loopHead⟩
  have limit : (m.relocate program jumps 0 0).reachedLimit? = m.reachedLimit? := rfl
  exact step_relocate fits limit

/-- Where no step notices the other program, both machines show the same. -/
theorem alike_install {kept : Machine → Prop} (unnoticed : Unnoticed kept (install program jumps))
    (here : kept m) : m.Alike (m.install program jumps) where
  forward := by
    constructor
    · rintro outcome last ⟨fuel, ended⟩
      refine ⟨last.install program jumps, ⟨fuel, ?_⟩, rfl, rfl⟩
      rw [unnoticed.run_change here, ended]
      rfl
    · rintro l ⟨count, reached⟩
      refine ⟨l.install program jumps, ⟨count, ?_⟩, rfl⟩
      rw [unnoticed.after_change here, reached]
      rfl
  backward := by
    constructor
    · rintro outcome last ⟨fuel, ended⟩
      rw [unnoticed.run_change here] at ended
      obtain ⟨⟨outcome', last'⟩, ended', same⟩ := Option.map_eq_some_iff.mp ended
      cases same
      exact ⟨last', ⟨fuel, ended'⟩, rfl, rfl⟩
    · rintro l ⟨count, reached⟩
      rw [unnoticed.after_change here] at reached
      obtain ⟨l', reached', rfl⟩ := Option.map_eq_some_iff.mp reached
      exact ⟨l', ⟨count, reached'⟩, rfl⟩

/-- A machine with this program and the targets of this program. -/
structure Carries (program : Program) (m : Machine) : Prop where
  program : m.program = program
  resolver : m.resolver = .build m.settings.jumps m.program.code

theorem carries_onTape (program : Program) (tape : Tape) (settings : Settings)
    (streams : Streams) : (onTape program tape settings streams).Carries program :=
  ⟨rfl, rfl⟩

theorem invariant_carries (program : Program) : Invariant (Carries program) where
  kept_step {m} carries := by
    obtain ⟨sameProgram, sameSettings, sameResolver⟩ := m.sameSetup_step
    refine ⟨sameProgram.trans carries.program, ?_⟩
    rw [sameResolver, sameSettings, sameProgram]
    exact carries.resolver
  kept_reset carries := ⟨carries.program, carries.resolver⟩

theorem Carries.agrees (carries : m.Carries program) (jumps : JumpMode) :
    m.Agrees program jumps where
  get? := by rw [carries.program]
  afterLoop found := by
    rw [carries.resolver, Resolver.afterLoop_build _ found, ← carries.program,
      Resolver.afterLoop_build _ found]
  loopHead found := by
    rw [carries.resolver, Resolver.loopHead_build _ found, ← carries.program,
      Resolver.loopHead_build _ found]

theorem unnoticed_jumps (program : Program) (jumps : JumpMode) :
    Unnoticed (Carries program) (install program jumps) where
  toInvariant := invariant_carries program
  step_change carries := step_install (carries.agrees jumps)
  reset_change _ := rfl

/-- What can be seen after a call. -/
structure Sight where
  reply : Option Step
  pc : Nat
  steps : Nat
  tape : Tape
  streams : Streams

def sight (answer : Option Step × Machine) : Sight where
  reply := answer.1
  pc := answer.2.pc
  steps := answer.2.steps
  tape := answer.2.tape
  streams := answer.2.streams

/-- Two machines that find their targets in different ways show the same after every call.
They differ in no cell, and in no byte that they read or wrote; and if a run of one of them
does not return, the same run of the other does not return either. -/
theorem sight_calls_eq_of_jumps (program : Program) (tape : Tape) (settings : Settings)
    (streams : Streams) (fuel : Nat) (calls : List Call) :
    let scanning := onTape program tape { settings with jumps := .scan } streams
    let tabled := onTape program tape { settings with jumps := .table } streams
    (tabled.calls fuel calls).map sight = (scanning.calls fuel calls).map sight := by
  intro scanning tabled
  have installed : tabled = scanning.install program .table := rfl
  have carries : scanning.Carries program := carries_onTape program tape _ streams
  rw [installed, (unnoticed_jumps program .table).calls_change carries, List.map_map]
  rfl

end TapeLang.Machine
