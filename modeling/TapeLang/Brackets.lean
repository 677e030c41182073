import TapeLang.Program

/-!
Bracket matching by rescanning.  A scan counts nesting depth.  The forward scan gives
up at a stop, the backward scan at the start of the code, and brackets without a
partner lead there.
-/

namespace TapeLang

namespace Brackets

/-- Scans forward from `position`, inside `depth` loops that were opened on the way. -/
def closeFrom (code : Array Instruction) (depth position : Nat) : Nat :=
  if inRange : position < code.size then
    match code[position], depth with
    | .stop, _ => position
    | .loopEnd, 0 => position + 1
    | .loopEnd, outer + 1 => closeFrom code outer (position + 1)
    | .loopStart, _ => closeFrom code (depth + 1) (position + 1)
    | _, _ => closeFrom code depth (position + 1)
  else
    position
termination_by code.size - position

/-- Scans the positions below the given one backward, inside `depth` loops that were
closed on the way. -/
def openBefore (code : Array Instruction) (depth : Nat) : Nat → Nat
  | 0 => 0
  | position + 1 =>
      match code[position]?, depth with
      | some .loopStart, 0 => position
      | some .loopStart, inner + 1 => openBefore code inner position
      | some .loopEnd, _ => openBefore code (depth + 1) position
      | _, _ => openBefore code depth position

/-- Where a loop start at `position` leads when it skips its loop: just past the
partner, or to the next stop, or to the end of the code. -/
def afterLoop (code : Array Instruction) (position : Nat) : Nat :=
  closeFrom code 0 (position + 1)

/-- Where a loop end at `position` leads when it repeats its loop: to the partner, or
to the start of the code. -/
def loopHead (code : Array Instruction) (position : Nat) : Nat :=
  openBefore code 0 (min position code.size)

end Brackets

end TapeLang
