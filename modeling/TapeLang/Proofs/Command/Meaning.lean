import TapeLang.Program
import TapeLang.Proofs.Brackets.Scanning
import TapeLang.Proofs.Tape.View

/-!
Structured commands: loops that are trees, with a meaning that knows nothing of positions
or jumps.  The code of a command holds the partner of each of its brackets, and so every
scan that comes upon it from outside goes on behind it as it was.
-/

namespace TapeLang

open Brackets

theorem toUInt64_ne_zero {byte : UInt8} (nonzero : byte ≠ 0) : byte.toUInt64 ≠ 0 := by
  intro zero
  apply nonzero
  rw [← UInt8.toUInt8_toUInt64 byte, zero]
  rfl

/-- What a single instruction does that is no bracket and no stop. -/
inductive Action where
  | move (distance : Int64)
  | add (amount : Int64)
  | input
  | output
  deriving DecidableEq

inductive Command where
  | skip
  | act (action : Action)
  | sequence (first second : Command)
  | loop (body : Command)
  deriving DecidableEq

/-- What a command works on: the tape, the input that is left, and the output so far. -/
structure Situation where
  tape : Tape.View
  unread : List UInt8
  output : List UInt8 := []

namespace Situation

def read (rule : EndOfInput) (s : Situation) : Situation :=
  match s.unread with
  | [] => { s with tape := s.tape.endInput rule }
  | value :: rest => { s with tape := s.tape.write value.toUInt64, unread := rest }

def act (rule : EndOfInput) (s : Situation) : Action → Situation
  | .move distance => { s with tape := s.tape.shift distance.toInt }
  | .add amount => { s with tape := s.tape.add amount.toInt }
  | .input => s.read rule
  | .output => { s with output := s.output ++ [s.tape.current.toUInt8] }

variable {rule : EndOfInput} {s : Situation}

theorem read_cons {value : UInt8} {rest : List UInt8} (unread : s.unread = value :: rest) :
    s.read rule = { s with tape := s.tape.write value.toUInt64, unread := rest } := by
  simp only [read, unread]

theorem read_nil (unread : s.unread = []) :
    s.read rule = { s with tape := s.tape.endInput rule } := by
  simp only [read, unread]

@[simp] theorem output_read (rule : EndOfInput) (s : Situation) :
    (s.read rule).output = s.output := by
  unfold read
  split <;> rfl

end Situation

def Action.instruction : Action → Instruction
  | move distance => .move distance
  | add amount => .add amount
  | input => .input
  | output => .output

namespace Command

/-- From one situation the command ends in the other. -/
inductive Ends (rule : EndOfInput) : Command → Situation → Situation → Prop where
  | skip {s} : Ends rule skip s s
  | act {action s} : Ends rule (act action) s (s.act rule action)
  | sequence {first second s t u} :
      Ends rule first s t → Ends rule second t u → Ends rule (sequence first second) s u
  | loopDone {body s} : s.tape.current = 0 → Ends rule (loop body) s s
  | loopAgain {body s t u} : s.tape.current ≠ 0 →
      Ends rule body s t → Ends rule (loop body) t u → Ends rule (loop body) s u

/-- A loop whose body keeps a condition under which the current cell is not zero never ends. -/
theorem not_ends_loop {rule : EndOfInput} {body : Command} {Condition : Situation → Prop}
    (nonzero : ∀ s, Condition s → s.tape.current ≠ 0)
    (kept : ∀ s t, Condition s → body.Ends rule s t → Condition t) {s t : Situation}
    (holds : Condition s) : ¬(loop body).Ends rule s t := by
  intro ends
  generalize command : loop body = c at ends
  induction ends with
  | skip | act | sequence => contradiction
  | loopDone zero => exact nonzero _ holds zero
  | loopAgain _ once _ _ onLoop =>
      cases command
      exact onLoop (kept _ _ holds once) rfl

def code : Command → List Instruction
  | skip => []
  | act action => [action.instruction]
  | sequence first second => first.code ++ second.code
  | loop body => .loopStart :: (body.code ++ [.loopEnd])

def program (c : Command) : Program := .ofList c.code

theorem stop_not_mem_code (c : Command) : .stop ∉ c.code := by
  induction c with
  | skip => simp [code]
  | act action => cases action <;> simp [code, Action.instruction]
  | sequence first second onFirst onSecond => simp [code, onFirst, onSecond]
  | loop body inductionHypothesis => simp [code, inductionHypothesis]

@[simp] theorem toList_program (c : Command) : c.program.toList = c.code ++ [.stop] :=
  Program.toList_ofList c.stop_not_mem_code

theorem beyond_code_append (c : Command) (depth : Nat) (rest : List Instruction) :
    beyond Instruction.forwardMark depth (c.code ++ rest) =
      beyond Instruction.forwardMark depth rest := by
  induction c generalizing depth rest with
  | skip => rfl
  | act action => cases action <;> exact beyond_cons_plain rfl
  | sequence first second onFirst onSecond => rw [code, List.append_assoc, onFirst, onSecond]
  | loop body inductionHypothesis =>
      rw [code, List.cons_append, beyond_cons_opening rfl, List.append_assoc, inductionHypothesis]
      exact beyond_cons_closing_succ rfl

theorem beyond_reverse_code_append (c : Command) (depth : Nat) (rest : List Instruction) :
    beyond Instruction.backwardMark depth (c.code.reverse ++ rest) =
      beyond Instruction.backwardMark depth rest := by
  induction c generalizing depth rest with
  | skip => rfl
  | act action => cases action <;> exact beyond_cons_plain rfl
  | sequence first second onFirst onSecond =>
      rw [code, List.reverse_append, List.append_assoc, onSecond, onFirst]
  | loop body inductionHypothesis =>
      rw [code, List.reverse_cons, List.reverse_append, List.reverse_singleton,
        List.singleton_append, List.cons_append, List.cons_append, beyond_cons_opening rfl,
        List.append_assoc, inductionHypothesis]
      exact beyond_cons_closing_succ rfl

section Targets

variable {program : Array Instruction} {before after : List Instruction} {body : Command}

/-- A loop that is skipped leads past the end of its body. -/
theorem afterLoop_of_code
    (here : program.toList = before ++ ((loop body).code ++ after)) :
    afterLoop program before.length = before.length + (loop body).code.length := by
  have split : program.toList = before ++ .loopStart :: (body.code ++ .loopEnd :: after) := by
    rw [here, code, List.cons_append, List.append_assoc, List.singleton_append]
  have scanned := afterLoop_add_length_beyond_behind split
  rw [beyond_code_append, beyond_cons_closing_zero rfl, List.length_append, List.length_cons]
    at scanned
  rw [code, List.length_cons, List.length_append, List.length_singleton]
  omega

/-- A loop that is repeated leads back to the start of its body. -/
theorem loopHead_of_code
    (here : program.toList = before ++ (.loopStart :: body.code) ++ .loopEnd :: after) :
    loopHead program (before ++ .loopStart :: body.code).length = before.length := by
  rw [loopHead_eq_length_beyond here (Nat.le_refl _), List.take_length, List.reverse_append,
    List.reverse_cons, List.append_assoc, beyond_reverse_code_append, List.singleton_append,
    beyond_cons_closing_zero rfl, List.length_reverse]

end Targets

end Command

end TapeLang
