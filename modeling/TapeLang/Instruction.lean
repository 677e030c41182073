/-!
Instructions of a compiled tape program.  A run of moves or of additions in the
source is a single instruction here, and carries the net effect of the run.
-/

namespace TapeLang

inductive Instruction where
  /-- Move the cursor; positive distances go right. -/
  | move (distance : Int64)
  /-- Add to the current cell, modulo `2 ^ 64`. -/
  | add (amount : Int64)
  /-- Skip the loop if the current cell is zero. -/
  | loopStart
  /-- Repeat the loop unless the current cell is zero. -/
  | loopEnd
  /-- Read one byte into the current cell. -/
  | input
  /-- Write the low byte of the current cell. -/
  | output
  /-- End the run. -/
  | stop
  deriving DecidableEq, Inhabited

namespace Instruction

/-- The number that a move or an addition carries, and zero for the others. -/
def payload : Instruction → Int64
  | move distance => distance
  | add amount => amount
  | _ => 0

def text : Instruction → String
  | move distance => "MOVE " ++ toString distance.toInt
  | add amount => "ADD " ++ toString amount.toInt
  | loopStart => "BEGIN_LOOP"
  | loopEnd => "END_LOOP"
  | input => "IN"
  | output => "OUT"
  | stop => "END"

@[simp] theorem payload_move (n : Int64) : (move n).payload = n := rfl
@[simp] theorem payload_add (n : Int64) : (add n).payload = n := rfl

end Instruction

end TapeLang
