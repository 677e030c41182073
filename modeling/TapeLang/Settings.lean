import TapeLang.Tape

/-!
Settings of a run.
-/

namespace TapeLang

/-- What an input instruction stores when there is no input left. -/
inductive EndOfInput where
  /-- Store zero. -/
  | zero
  /-- Store a cell with all bits set. -/
  | max
  /-- Store nothing. -/
  | unchanged
  deriving DecidableEq

def EndOfInput.apply (rule : EndOfInput) (tape : Tape) : Tape :=
  match rule with
  | zero => tape.write 0
  | max => tape.write (-1)
  | unchanged => tape

/-- How the partners of brackets are found. -/
inductive JumpMode where
  /-- Scan the code at every jump. -/
  | scan
  /-- Look into a table that is built once. -/
  | table
  deriving DecidableEq

structure Settings where
  /-- The number of cells of a new tape. -/
  tapeSize : UInt64 := .ofNat Tape.defaultSize
  endOfInput : EndOfInput := .zero
  /-- The number of instructions after which a run fails, if there is one. -/
  stepLimit : Option UInt64 := none
  jumps : JumpMode := .scan
  deriving DecidableEq

namespace Settings

def blankTape (settings : Settings) : Tape := .blank settings.tapeSize.toNat

end Settings

end TapeLang
