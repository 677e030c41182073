import TapeLang.Proofs.Brackets.Checking
import TapeLang.Proofs.Machine.Calls

/-!
A machine that checks.  Its state carries no proofs, and whatever it does may miss: reading
and writing a cell, the code or the table behind its end, taking from a counter or from the
cursor more than there is, and doubling an empty tape until it is large enough.  In all of
these cases there is no result.  `bare` takes a machine to the checking one with the same
state.
-/

namespace TapeLang

/-- A tape of which nothing is known. -/
structure BareTape where
  cells : Array UInt64
  cursor : Nat
  origin : Nat

namespace BareTape

def blank (size : Nat) : BareTape := ⟨Array.replicate (max 1 size) 0, 0, 0⟩

def current? (t : BareTape) : Option UInt64 := t.cells[t.cursor]?

def write? (t : BareTape) (value : UInt64) : Option BareTape :=
  if inRange : t.cursor < t.cells.size then
    some { t with cells := t.cells.set t.cursor value inRange }
  else
    none

def add? (t : BareTape) (amount : Int64) : Option BareTape :=
  t.current?.bind fun value => t.write? (value + amount.toUInt64)

def endInput? (t : BareTape) : EndOfInput → Option BareTape
  | .zero => t.write? 0
  | .max => t.write? (-1)
  | .unchanged => some t

/-- Doubles to the right until the cursor is on a cell. -/
def reserveRight? (t : BareTape) : Option BareTape :=
  if t.cursor < t.cells.size then some t
  else if t.cells.isEmpty then none
  else reserveRight? { t with cells := t.cells ++ Array.replicate t.cells.size 0 }
termination_by t.cursor + 1 - t.cells.size
decreasing_by
  next outside occupied =>
    have : t.cells.size ≠ 0 := by simpa using occupied
    simp
    omega

/-- Doubles to the left until so many cells lie before the cursor. -/
def reserveLeft? (distance : Nat) (t : BareTape) : Option BareTape :=
  if distance ≤ t.cursor then some t
  else if t.cells.isEmpty then none
  else
    reserveLeft? distance {
      cells := Array.replicate t.cells.size 0 ++ t.cells
      cursor := t.cells.size + t.cursor
      origin := t.cells.size + t.origin }
termination_by distance - t.cursor
decreasing_by
  next short occupied =>
    have : t.cells.size ≠ 0 := by simpa using occupied
    omega

def shift? (t : BareTape) : Int → Option BareTape
  | .ofNat distance => reserveRight? { t with cursor := t.cursor + distance }
  | .negSucc predecessor =>
      (t.reserveLeft? (predecessor + 1)).bind fun reserved =>
        (reserved.cursor.psub (predecessor + 1)).map fun cursor => { reserved with cursor }

end BareTape

structure BareMachine where
  code : Array Instruction
  settings : Settings
  resolver : Resolver
  tape : BareTape
  pc : Nat := 0
  steps : Nat := 0
  streams : Streams

namespace BareMachine

def onTape? (code : Array Instruction) (tape : BareTape) (settings : Settings)
    (streams : Streams) : Option BareMachine :=
  (Resolver.build? settings.jumps code).map fun resolver =>
    { code, settings, resolver, tape, streams }

def reset (m : BareMachine) : BareMachine :=
  { m with tape := .blank m.settings.tapeSize.toNat, pc := 0, steps := 0 }

/-- The instruction to execute next; a position outside of the code is no miss. -/
def next? (m : BareMachine) : Option Instruction :=
  match m.code[m.pc]? with
  | some .stop => none
  | found => found

def reachedLimit? (m : BareMachine) : Option UInt64 :=
  m.settings.stepLimit.filter fun limit => limit.toNat ≤ m.steps

def halt (m : BareMachine) (outcome : Outcome) : Step × BareMachine :=
  match m.streams.flush, outcome with
  | (.error reason, streams), .finished =>
      (.halted (.failed (.io reason)), { m with streams })
  | (_, streams), _ => (.halted outcome, { m with streams })

def goOn (m : BareMachine) (target : Nat) (tape : BareTape) : Step × BareMachine :=
  (.ran, { m with pc := target, steps := m.steps + 1, tape })

def store? (m : BareMachine) : Option UInt8 → Option BareTape
  | some value => m.tape.write? value.toUInt64
  | none => m.tape.endInput? m.settings.endOfInput

def receive? (m : BareMachine) : Option (Step × BareMachine) :=
  match m.streams.flush with
  | (.error reason, streams) => some ({ m with streams }.halt (.failed (.io reason)))
  | (.ok _, flushed) =>
      match flushed.read with
      | (.error reason, streams) => some ({ m with streams }.halt (.failed (.io reason)))
      | (.ok received, streams) =>
          (m.store? received).map ({ m with streams }.goOn (m.pc + 1))

def send? (m : BareMachine) : Option (Step × BareMachine) :=
  m.tape.current?.map fun value =>
    match m.streams.write value.toUInt8 with
    | (.error reason, streams) => { m with streams }.halt (.failed (.io reason))
    | (.ok _, streams) => { m with streams }.goOn (m.pc + 1) m.tape

def perform? (m : BareMachine) : Instruction → Option (Step × BareMachine)
  | .move distance => (m.tape.shift? distance.toInt).map (m.goOn (m.pc + 1))
  | .add amount => (m.tape.add? amount).map (m.goOn (m.pc + 1))
  | .loopStart =>
      m.tape.current?.bind fun value =>
        if value = 0 then (m.resolver.afterLoop? m.code m.pc).map (m.goOn · m.tape)
        else some (m.goOn (m.pc + 1) m.tape)
  | .loopEnd =>
      m.tape.current?.bind fun value =>
        if value = 0 then some (m.goOn (m.pc + 1) m.tape)
        else (m.resolver.loopHead? m.code m.pc).map (m.goOn · m.tape)
  | .input => m.receive?
  | .output => m.send?
  | .stop => some (m.halt .finished)

def step? (m : BareMachine) : Option (Step × BareMachine) :=
  match m.next? with
  | none => some (m.halt .finished)
  | some instruction =>
      match m.reachedLimit? with
      | some limit => some (m.halt (.failed (.stepLimit limit)))
      | none => m.perform? instruction

/-- Steps until the machine halts or misses, or `fuel` steps were made without either. -/
def run? : Nat → BareMachine → Option (Option (Outcome × BareMachine))
  | 0, _ => some none
  | fuel + 1, m =>
      m.step?.bind fun
        | (.ran, n) => run? fuel n
        | (.halted outcome, n) => some (some (outcome, n))

def call? (fuel : Nat) (m : BareMachine) : Call → Option (Option (Option Step × BareMachine))
  | .step => m.step?.map fun (taken, n) => some (some taken, n)
  | .run => (m.run? fuel).map (Option.map fun (outcome, n) => (some (.halted outcome), n))
  | .reset => some (some (none, m.reset))

/-- Makes one call after another as long as they return.  There is no list of answers if one
of the calls misses. -/
def calls? (fuel : Nat) (m : BareMachine) : List Call → Option (List (Option Step × BareMachine))
  | [] => some []
  | call :: later =>
      (m.call? fuel call).bind fun
        | none => some []
        | some (reply, n) => (n.calls? fuel later).map ((reply, n) :: ·)

end BareMachine

def Tape.bare (t : Tape) : BareTape := ⟨t.cells, t.cursor, t.origin⟩

def Machine.bare (m : Machine) : BareMachine where
  code := m.program.code
  settings := m.settings
  resolver := m.resolver
  tape := m.tape.bare
  pc := m.pc
  steps := m.steps
  streams := m.streams

end TapeLang
