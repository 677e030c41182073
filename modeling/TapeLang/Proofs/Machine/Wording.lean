import TapeLang.Machine.Narration

/-!
What messages read.  The relations spell every text out, and the functions that put a text together
come to a text like this.
-/

namespace TapeLang

inductive Fault.Reads : Fault → String → Prop
  | io {reason} : Reads (.io reason) ("I/O error: " ++ reason)
  | stepLimit {limit : UInt64} :
      Reads (.stepLimit limit) ("Step limit of " ++ toString limit.toNat ++ " exceeded")

theorem Fault.reads_message (fault : Fault) : fault.Reads fault.message := by
  cases fault with
  | io => exact .io
  | stepLimit => exact .stepLimit

inductive Instruction.Reads : Instruction → String → Prop
  | move {distance : Int64} : Reads (.move distance) ("MOVE " ++ toString distance.toInt)
  | add {amount : Int64} : Reads (.add amount) ("ADD " ++ toString amount.toInt)
  | loopStart : Reads .loopStart "BEGIN_LOOP"
  | loopEnd : Reads .loopEnd "END_LOOP"
  | input : Reads .input "IN"
  | output : Reads .output "OUT"
  | stop : Reads .stop "END"

theorem Instruction.reads_text (instruction : Instruction) :
    instruction.Reads instruction.text := by
  cases instruction <;> constructor

/-- No text is given for a stream that failed. -/
inductive Outcome.Reads : Outcome → String → Prop
  | finished : Reads .finished "Halt(Ok)"
  | limited {limit : UInt64} :
      Reads (.failed (.stepLimit limit))
        ("Halt(Err(StepLimitExceeded(" ++ toString limit.toNat ++ ")))")

theorem Outcome.reads_summary {outcome : Outcome}
    (streaming : ∀ reason, outcome ≠ .failed (.io reason)) : outcome.Reads outcome.summary := by
  rcases outcome with _ | reason | limit
  · exact .finished
  · exact absurd rfl (streaming reason)
  · have joined (number : String) :
        "Halt(Err(" ++ ("StepLimitExceeded(" ++ number ++ ")") ++ "))" =
          "Halt(Err(StepLimitExceeded(" ++ number ++ ")))" := by
      apply String.toList_injective
      simp
    have spelled : summary (.failed (.stepLimit limit)) =
        "Halt(Err(StepLimitExceeded(" ++ toString limit.toNat ++ ")))" := joined _
    rw [spelled]
    exact .limited

/-- A position stands at the right end of six columns, if it has no more digits. -/
inductive Message.Reads : Message → String → Prop
  | compiled {bytes instructions} :
      Reads (.compiled bytes instructions)
        ("Compiled " ++ toString bytes ++ " bytes of source into " ++ toString instructions ++
          " instructions")
  | executing {position instruction blanks name} :
      blanks.toList = List.replicate (6 - (toString position).length) ' ' →
      instruction.Reads name →
      Reads (.executing position instruction) (blanks ++ toString position ++ ": " ++ name)
  | growingRight {size} :
      Reads (.growing ⟨.right, size⟩)
        ("Growing tape right from " ++ toString size ++ " to " ++ toString (size * 2) ++ " cells")
  | growingLeft {size} :
      Reads (.growing ⟨.left, size⟩)
        ("Growing tape left from " ++ toString size ++ " to " ++ toString (size * 2) ++ " cells")
  | halted {steps cells outcome ending} : outcome.Reads ending →
      Reads (.halted steps cells outcome)
        ("Machine halted after " ++ toString steps ++ " steps with " ++ toString cells ++
          " tape cells: " ++ ending)

namespace Message

theorem toList_pushn (blank : Char) (count : Nat) :
    ("".pushn blank count).toList = List.replicate count blank := by
  rw [String.pushn_eq_repeat_push]
  induction count with
  | zero => rfl
  | succ count inductionHypothesis =>
      rw [Nat.repeat, String.toList_push, inductionHypothesis, List.replicate_succ']

theorem reads_text {message : Message}
    (streaming : ∀ steps cells reason, message ≠ .halted steps cells (.failed (.io reason))) :
    message.Reads message.text := by
  cases message with
  | compiled => exact .compiled
  | executing _ instruction => exact .executing (toList_pushn ' ' _) instruction.reads_text
  | growing growth =>
      obtain ⟨side, size⟩ := growth
      cases side with
      | left => exact .growingLeft
      | right => exact .growingRight
  | halted steps cells outcome =>
      apply Reads.halted
      apply Outcome.reads_summary
      rintro reason rfl
      exact streaming steps cells reason rfl

end Message

end TapeLang
