import Mathlib.Data.List.TakeWhile
import TapeLang.Registry
import TapeLang.Proofs.Command.Executing

/-!
The program that copies its input up to the first zero byte.  It has one cell, and goes on as long
as this cell is not zero; at the end of the input, that depends on the rule for it.
-/

namespace TapeLang

namespace Command

open Tape.View

variable {rule : EndOfInput} {s t : Situation}

/-- Writes a cell, and reads the next byte into it. -/
def relay : Command := .sequence (.act .output) (.act .input)

/-- Reads a byte, and relays bytes as long as they are not zero. -/
def copying : Command := .sequence (.act .input) (.loop relay)

/-- The bytes up to the first zero are written, and also those up to the end of the input if that
leaves a zero. -/
theorem exists_ends_copying (comesToZero : rule = .zero ∨ 0 ∈ s.unread) :
    ∃ t, copying.Ends rule s t ∧ t.output = s.output ++ s.unread.takeWhile (· ≠ 0) := by
  generalize unread : s.unread = input at comesToZero
  induction input generalizing s with
  | nil =>
      obtain rfl : rule = .zero := by simpa using comesToZero
      have zero : (s.read .zero).tape.current = 0 := by
        rw [Situation.read_nil unread]
        exact current_write _ _
      refine ⟨s.read .zero, .sequence .act (.loopDone zero), ?_⟩
      rw [Situation.output_read, List.takeWhile_nil, List.append_nil]
  | cons value rest inductionHypothesis =>
      have current : (s.read rule).tape.current = value.toUInt64 := by
        rw [Situation.read_cons unread]
        exact current_write _ _
      by_cases isZero : value = 0
      · subst isZero
        refine ⟨s.read rule, .sequence .act (.loopDone current), ?_⟩
        rw [Situation.output_read, List.takeWhile_cons_of_neg (by simp), List.append_nil]
      · have nonzero : (s.read rule).tape.current ≠ 0 := current ▸ toUInt64_ne_zero isZero
        have left : ((s.read rule).act rule .output).unread = rest := by
          rw [Situation.read_cons unread]
          rfl
        have further : rule = .zero ∨ 0 ∈ rest := by simpa [Ne.symm isZero] using comesToZero
        obtain ⟨t, ends, output⟩ := inductionHypothesis left further
        have written : ((s.read rule).act rule .output).output = s.output ++ [value] := by
          change (s.read rule).output ++ [(s.read rule).tape.current.toUInt8] = _
          rw [Situation.output_read, current, UInt8.toUInt8_toUInt64]
        cases ends with
        | sequence first again =>
            refine ⟨t, .sequence .act (.loopAgain nonzero (.sequence .act first) again), ?_⟩
            rw [output, written, List.takeWhile_cons_of_pos (by simp [isZero]), List.append_assoc,
              List.singleton_append]

/-- No read is going to leave a zero.  There is none in the input, and the end of the input either
stores something else or leaves a cell that is not zero by then. -/
structure KeepsOn (rule : EndOfInput) (s : Situation) : Prop where
  noZero : 0 ∉ s.unread
  atEnd : rule = .max ∨ rule = .unchanged ∧ (s.tape.current ≠ 0 ∨ s.unread ≠ [])

theorem KeepsOn.current_read (keepsOn : KeepsOn rule s) : (s.read rule).tape.current ≠ 0 := by
  rcases unread : s.unread with _ | ⟨value, rest⟩
  · rw [Situation.read_nil unread]
    rcases keepsOn.atEnd with rfl | ⟨rfl, nonzero⟩
    · rw [endInput, current_write]
      decide
    · exact nonzero.resolve_right (absurd unread)
  · have noZero := keepsOn.noZero
    rw [unread, List.mem_cons, not_or] at noZero
    rw [Situation.read_cons unread, current_write]
    exact toUInt64_ne_zero (Ne.symm noZero.1)

theorem KeepsOn.read (keepsOn : KeepsOn rule s) : KeepsOn rule (s.read rule) := by
  refine ⟨?_, keepsOn.atEnd.imp_right fun both => ⟨both.1, .inl keepsOn.current_read⟩⟩
  have noZero := keepsOn.noZero
  rcases unread : s.unread with _ | ⟨value, rest⟩
  · rwa [Situation.read_nil unread]
  · rw [unread, List.mem_cons, not_or] at noZero
    rw [Situation.read_cons unread]
    exact noZero.2

theorem not_ends_copying (keepsOn : KeepsOn rule s) : ¬copying.Ends rule s t := by
  intro ends
  cases ends with
  | sequence first again =>
      cases first
      have kept (u v) (holds : u.tape.current ≠ 0 ∧ KeepsOn rule u) (once : relay.Ends rule u v) :
          v.tape.current ≠ 0 ∧ KeepsOn rule v := by
        cases once with
        | sequence written received =>
            cases written
            cases received
            have still : KeepsOn rule (u.act rule .output) := ⟨holds.2.noZero, holds.2.atEnd⟩
            exact ⟨still.current_read, still.read⟩
      exact not_ends_loop (fun _ => And.left) kept ⟨keepsOn.current_read, keepsOn.read⟩ again

end Command

namespace Registry

open Command

theorem scan_cat : scan cat.source = copying.program := by decide +kernel

/-- The program writes the bytes before the first zero, on a tape of any initial size.  Without a
zero it depends on what the end of the input leaves in the cell: a zero ends the program, and
anything else is written again and again. -/
theorem execute_cat (settings : Settings) (unlimited : settings.stepLimit = none)
    (input : List UInt8) :
    (0 ∈ input → Answers cat.source input settings (input.takeWhile (· ≠ 0))) ∧
    (0 ∉ input →
      (settings.endOfInput = .zero → Answers cat.source input settings input) ∧
      (settings.endOfInput = .unchanged →
        (input = [] → Answers cat.source input settings []) ∧
        (input ≠ [] → RunsForever cat.source input settings)) ∧
      (settings.endOfInput = .max → RunsForever cat.source input settings)) := by
  have answers (comesToZero : settings.endOfInput = .zero ∨ 0 ∈ input) :
      Answers cat.source input settings (input.takeWhile (· ≠ 0)) := by
    obtain ⟨t, ends, output⟩ :=
      exists_ends_copying (s := { tape := .blank, unread := input }) comesToZero
    have answered := answers_of_ends scan_cat unlimited ends
    rwa [output, List.nil_append] at answered
  have forever (noZero : 0 ∉ input)
      (goesOn : settings.endOfInput = .max ∨ settings.endOfInput = .unchanged ∧ input ≠ []) :
      RunsForever cat.source input settings := by
    apply runsForever_of_not_ends scan_cat unlimited
    intro t
    exact not_ends_copying ⟨noZero, goesOn.imp_right fun both => ⟨both.1, .inr both.2⟩⟩
  refine ⟨fun isZero => answers (.inr isZero), fun noZero => ⟨?_, ?_, ?_⟩⟩
  · intro isZero
    have whole : input.takeWhile (· ≠ 0) = input := by
      apply List.takeWhile_eq_self_iff.mpr
      intro value inInput
      simpa using ne_of_mem_of_not_mem inInput noZero
    have answered := answers (.inl isZero)
    rwa [whole] at answered
  · intro isUnchanged
    refine ⟨?_, fun nonempty => forever noZero (.inr ⟨isUnchanged, nonempty⟩)⟩
    rintro rfl
    have ends : copying.Ends settings.endOfInput { tape := .blank, unread := [] }
        (({ tape := .blank, unread := [] } : Situation).read settings.endOfInput) := by
      refine .sequence .act (.loopDone ?_)
      rw [isUnchanged]
      rfl
    exact answers_of_ends scan_cat unlimited ends
  · exact fun isMax => forever noZero (.inl isMax)

theorem execute_cat_of_small_tape :
    Answers cat.source [1, 0, 3] { jumps := .table, endOfInput := .max } [1] ∧
    Answers cat.source [1, 3] { tapeSize := 0 } [1, 3] ∧
    Answers cat.source [] { endOfInput := .unchanged } [] ∧
    RunsForever cat.source [1, 3] { jumps := .table, endOfInput := .unchanged } ∧
    RunsForever cat.source [] { endOfInput := .max } := by
  refine ⟨?_, ?_, ?_, ?_, ?_⟩
  · exact (execute_cat { jumps := .table, endOfInput := .max } rfl [1, 0, 3]).1 (by decide)
  · exact ((execute_cat { tapeSize := 0 } rfl [1, 3]).2 (by decide)).1 rfl
  · exact (((execute_cat { endOfInput := .unchanged } rfl []).2 (by decide)).2.1 rfl).1 rfl
  · exact (((execute_cat { jumps := .table, endOfInput := .unchanged } rfl [1, 3]).2
      (by decide)).2.1 rfl).2 (by decide)
  · exact ((execute_cat { endOfInput := .max } rfl []).2 (by decide)).2.2 rfl

end Registry

end TapeLang
