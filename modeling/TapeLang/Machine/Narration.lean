import TapeLang.Machine

/-!
Messages that tell about a run.
-/

namespace TapeLang

inductive Message where
  /-- A source of so many bytes was compiled. -/
  | compiled (bytes instructions : Nat)
  /-- An instruction is executed. -/
  | executing (position : Nat) (instruction : Instruction)
  | growing (growth : Growth)
  | halted (steps cells : Nat) (outcome : Outcome)
  deriving DecidableEq

inductive Level where
  | debug
  | trace
  deriving DecidableEq

def padLeft (width : Nat) (text : String) : String :=
  "".pushn ' ' (width - text.length) ++ text

def Fault.summary : Fault → String
  | io reason => "Io(\"" ++ reason ++ "\")"
  | stepLimit limit => "StepLimitExceeded(" ++ toString limit.toNat ++ ")"

def Outcome.summary : Outcome → String
  | finished => "Halt(Ok)"
  | failed fault => "Halt(Err(" ++ fault.summary ++ "))"

def Side.text : Side → String
  | left => "left"
  | right => "right"

namespace Message

def level : Message → Level
  | executing _ _ => .trace
  | _ => .debug

def text : Message → String
  | compiled bytes instructions =>
      "Compiled " ++ toString bytes ++ " bytes of source into " ++ toString instructions ++
        " instructions"
  | executing position instruction =>
      padLeft 6 (toString position) ++ ": " ++ instruction.text
  | growing growth =>
      "Growing tape " ++ growth.side.text ++ " from " ++ toString growth.size ++ " to " ++
        toString (growth.size * 2) ++ " cells"
  | halted steps cells outcome =>
      "Machine halted after " ++ toString steps ++ " steps with " ++ toString cells ++
        " tape cells: " ++ outcome.summary

end Message

namespace Machine

/-- What there is to tell about the next step, in the order in which it happens. -/
def narrateStep (m : Machine) : List Message :=
  match m.next?, m.reachedLimit? with
  | some instruction, none =>
      let growths :=
        match instruction with
        | .move distance => m.tape.growths distance.toInt
        | _ => []
      .executing m.pc instruction :: growths.map .growing
  | _, _ => []

def narrateHalt (m : Machine) (outcome : Outcome) : Message :=
  .halted m.steps m.tape.size outcome

/-- Runs the machine and adds what there is to tell to `told`, the latest first. -/
def narrateFrom (told : List Message) :
    Nat → Machine → Option (List Message × Outcome × Machine)
  | 0, _ => none
  | fuel + 1, m =>
      let told := m.narrateStep.reverse ++ told
      match m.step with
      | (.ran, m) => narrateFrom told fuel m
      | (.halted outcome, m) => some (m.narrateHalt outcome :: told, outcome, m)

def narrate (fuel : Nat) (m : Machine) : Option (List Message × Outcome × Machine) :=
  (narrateFrom [] fuel m).map fun (told, result) => (told.reverse, result)

end Machine

end TapeLang
