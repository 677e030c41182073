import TapeLang.Program
import TapeLang.Brackets.Resolver
import TapeLang.Outcome
import TapeLang.Streams

/-!
The machine: a program on a tape, with streams for input and output.  A step executes
one instruction or halts.  A halt leaves everything but the streams as it was, so that
a step that failed can be tried again.
-/

namespace TapeLang

structure Machine where
  program : Program
  settings : Settings
  resolver : Resolver
  tape : Tape
  /-- The position of the next instruction. -/
  pc : Nat := 0
  /-- The number of instructions executed so far. -/
  steps : Nat := 0
  streams : Streams

inductive Step where
  /-- An instruction was executed. -/
  | ran
  | halted (outcome : Outcome)
  deriving DecidableEq

namespace Machine

/-- A machine that takes over a tape, with its cursor and contents. -/
def onTape (program : Program) (tape : Tape) (settings : Settings) (streams : Streams) :
    Machine where
  program
  settings
  resolver := .build settings.jumps program.code
  tape
  streams

def start (program : Program) (settings : Settings) (streams : Streams) : Machine :=
  onTape program settings.blankTape settings streams

/-- A blank tape and the first instruction again.  The streams go on as they are. -/
def reset (m : Machine) : Machine :=
  { m with tape := m.settings.blankTape, pc := 0, steps := 0 }

/-- The instruction to execute next; there is none at a stop or outside of the program. -/
def next? (m : Machine) : Option Instruction :=
  match m.program.get? m.pc with
  | some .stop => none
  | found => found

/-- Whether the next step would halt without a fault. -/
def isHalted (m : Machine) : Bool := m.next?.isNone

def reachedLimit? (m : Machine) : Option UInt64 :=
  m.settings.stepLimit.filter fun limit => limit.toNat ≤ m.steps

/-- Flushes before the halt.  A flush that fails spoils a success, but never hides a
fault. -/
def halt (m : Machine) (outcome : Outcome) : Step × Machine :=
  match m.streams.flush, outcome with
  | (.error reason, streams), .finished =>
      (.halted (.failed (.io reason)), { m with streams })
  | (_, streams), _ => (.halted outcome, { m with streams })

def jump (m : Machine) (target : Nat) : Machine :=
  { m with pc := target, steps := m.steps + 1 }

/-- Counts the instruction and goes on with the one after it. -/
def advance (m : Machine) : Machine := m.jump (m.pc + 1)

/-- The tape after an input instruction that received a byte or the end of the input. -/
def store (m : Machine) : Option UInt8 → Tape
  | some value => m.tape.write value.toUInt64
  | none => m.settings.endOfInput.apply m.tape

/-- Reads a byte into the current cell.  Output that was written so far is flushed
first. -/
def receive (m : Machine) : Step × Machine :=
  match m.streams.flush with
  | (.error reason, streams) => { m with streams }.halt (.failed (.io reason))
  | (.ok _, flushed) =>
      match flushed.read with
      | (.error reason, streams) => { m with streams }.halt (.failed (.io reason))
      | (.ok received, streams) =>
          (.ran, { m with streams, tape := m.store received }.advance)

def send (m : Machine) : Step × Machine :=
  match m.streams.write m.tape.current.toUInt8 with
  | (.error reason, streams) => { m with streams }.halt (.failed (.io reason))
  | (.ok _, streams) => (.ran, { m with streams }.advance)

def perform (m : Machine) : Instruction → Step × Machine
  | .move distance => (.ran, { m with tape := m.tape.shift distance.toInt }.advance)
  | .add amount => (.ran, { m with tape := m.tape.add amount }.advance)
  | .loopStart =>
      if m.tape.current = 0 then
        (.ran, m.jump (m.resolver.afterLoop m.program.code m.pc))
      else
        (.ran, m.advance)
  | .loopEnd =>
      if m.tape.current = 0 then
        (.ran, m.advance)
      else
        (.ran, m.jump (m.resolver.loopHead m.program.code m.pc))
  | .input => m.receive
  | .output => m.send
  | .stop => m.halt .finished

/-- Executes the next instruction, or halts if there is none or the limit is reached. -/
def step (m : Machine) : Step × Machine :=
  match m.next? with
  | none => m.halt .finished
  | some instruction =>
      match m.reachedLimit? with
      | some limit => m.halt (.failed (.stepLimit limit))
      | none => m.perform instruction

/-- Steps until the machine halts.  There is no result if that takes more than `fuel`
steps, the halt included. -/
def run : Nat → Machine → Option (Outcome × Machine)
  | 0, _ => none
  | fuel + 1, m =>
      match m.step with
      | (.ran, m) => run fuel m
      | (.halted outcome, m) => some (outcome, m)

end Machine

end TapeLang
