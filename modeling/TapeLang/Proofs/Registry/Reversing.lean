import TapeLang.Execution
import TapeLang.Registry
import TapeLang.Proofs.Command.Flattening

/-!
The program that writes its input backward.  It reads one byte a cell, to the right, until a
cell is zero; then it writes the cells to the left, until the zero before the first of them.
-/

namespace TapeLang

namespace Tape.View

/-- From the head to the left, the cells hold the bytes, none of them zero, and then a zero. -/
def Stacked : List UInt8 → View → Prop
  | [], v => v.current = 0
  | byte :: below, v => byte ≠ 0 ∧ v.current = byte.toUInt64 ∧ Stacked below (v.shift (-1))

/-- All cells to the right of the head are zero. -/
def BlankAhead (v : View) : Prop := ∀ k, v.head < k → v.values k = 0

variable {v w : View} {bytes : List UInt8}

theorem stacked_blank : Stacked [] blank := rfl

theorem blankAhead_blank : blank.BlankAhead := fun _ _ => rfl

theorem Stacked.congr (stacked : Stacked bytes v) (head : w.head = v.head)
    (same : ∀ k ≤ v.head, w.values k = v.values k) : Stacked bytes w := by
  have current : w.current = v.current := by
    rw [View.current, head]
    exact same v.head (Int.le_refl _)
  induction bytes generalizing v w with
  | nil => exact current.trans stacked
  | cons byte below inductionHypothesis =>
      obtain ⟨nonzero, holds, further⟩ := stacked
      have before : v.head + -1 ≤ v.head := by omega
      refine ⟨nonzero, current.trans holds, inductionHypothesis further ?_ ?_ ?_⟩
      · exact congrArg (· + -1) head
      · intro k left
        exact same k (Int.le_trans left before)
      · rw [View.current, shift, head]
        exact same _ before

/-- What lies to the left of a cell stays when the cell is replaced. -/
theorem Stacked.shift_write_shift (stacked : Stacked bytes v) (value : UInt64) :
    Stacked bytes (((v.shift 1).write value).shift (-1)) := by
  apply stacked.congr
  · simp only [shift, write]
    omega
  · intro k left
    simp only [shift, write]
    exact if_neg (by omega)

theorem Stacked.shift (stacked : Stacked bytes v) : Stacked bytes ((v.shift 1).shift (-1)) := by
  rw [shift_shift]
  simpa using stacked

theorem BlankAhead.shift (blank : v.BlankAhead) : (v.shift 1).BlankAhead := by
  intro k right
  apply blank
  simp only [View.shift] at right
  omega

theorem BlankAhead.write (blank : v.BlankAhead) (value : UInt64) :
    (v.write value).BlankAhead := by
  intro k right
  have other : k ≠ v.head := Int.ne_of_gt right
  exact (if_neg other).trans (blank k right)

end Tape.View

namespace Command

open Tape.View

variable {rule : EndOfInput} {s t : Situation} {below bytes : List UInt8}

/-- Goes to the next cell, and reads a byte into it. -/
def fill : Command := .sequence (.act (.move 1)) (.act .input)

/-- Writes a cell, and goes to the one before it. -/
def pour : Command := .sequence (.act .output) (.act (.move (-1)))

/-- Fills cells up to the first zero, and pours them out again. -/
def reversing : Command :=
  .sequence (.sequence fill (.loop fill)) (.sequence (.act (.move (-1))) (.loop pour))

def filled (rule : EndOfInput) (s : Situation) : Situation :=
  (s.act rule (.move 1)).act rule .input

def poured (rule : EndOfInput) (s : Situation) : Situation :=
  (s.act rule .output).act rule (.move (-1))

theorem ends_fill : fill.Ends rule s (filled rule s) := .sequence .act .act

theorem ends_pour : pour.Ends rule s (poured rule s) := .sequence .act .act

theorem eq_filled_of_ends (ends : fill.Ends rule s t) : t = filled rule s := by
  cases ends with
  | sequence first second =>
      cases first
      cases second
      rfl

theorem filled_cons {value : UInt8} {rest : List UInt8} (unread : s.unread = value :: rest) :
    filled rule s =
      { s with tape := (s.tape.shift 1).write value.toUInt64, unread := rest } := by
  simp only [filled, Situation.act, Situation.read, unread]
  rfl

theorem filled_nil (unread : s.unread = []) :
    filled rule s = { s with tape := (s.tape.shift 1).endInput rule } := by
  simp only [filled, Situation.act, Situation.read, unread]
  rfl

theorem output_filled : (filled rule s).output = s.output := by
  simp only [filled, Situation.act, Situation.read]
  split <;> rfl

/-- At the end of the input a fresh cell is zero, also where nothing is stored. -/
theorem filled_at_end (goesOn : rule ≠ .max) (unread : s.unread = [])
    (stacked : Stacked below s.tape) (blank : s.tape.BlankAhead) :
    (filled rule s).tape.current = 0 ∧ Stacked below ((filled rule s).tape.shift (-1)) := by
  rw [filled_nil unread]
  cases rule with
  | zero => exact ⟨current_write _ 0, stacked.shift_write_shift 0⟩
  | max => contradiction
  | unchanged =>
      have ahead : s.tape.head < s.tape.head + 1 := by omega
      exact ⟨blank _ ahead, stacked.shift⟩

/-- A zero in the input ends the reading alike. -/
theorem filled_at_zero {rest : List UInt8} (unread : s.unread = 0 :: rest)
    (stacked : Stacked below s.tape) :
    (filled rule s).tape.current = 0 ∧ Stacked below ((filled rule s).tape.shift (-1)) := by
  rw [filled_cons unread]
  exact ⟨current_write _ 0, stacked.shift_write_shift 0⟩

theorem current_filled {value : UInt8} {rest : List UInt8} (unread : s.unread = value :: rest) :
    (filled rule s).tape.current = value.toUInt64 := by
  rw [filled_cons unread]
  exact current_write _ _

/-- Any other byte comes to lie on those that are there. -/
theorem filled_stacked {value : UInt8} {rest : List UInt8} (unread : s.unread = value :: rest)
    (nonzero : value ≠ 0) (stacked : Stacked below s.tape) :
    Stacked (value :: below) (filled rule s).tape := by
  refine ⟨nonzero, current_filled unread, ?_⟩
  rw [filled_cons unread]
  exact stacked.shift_write_shift _

theorem filled_blankAhead {value : UInt8} {rest : List UInt8} (unread : s.unread = value :: rest)
    (blank : s.tape.BlankAhead) : (filled rule s).tape.BlankAhead := by
  rw [filled_cons unread]
  exact blank.shift.write _

/-- The bytes up to the first zero come to lie on those that are there. -/
theorem exists_ends_fill (stacked : Stacked below s.tape) (blank : s.tape.BlankAhead)
    (comesToZero : rule ≠ .max ∨ 0 ∈ s.unread) :
    ∃ t, (sequence fill (.loop fill)).Ends rule s t ∧ t.output = s.output ∧
      Stacked ((s.unread.takeWhile (· ≠ 0)).reverse ++ below) (t.tape.shift (-1)) := by
  generalize unread : s.unread = input at comesToZero
  induction input generalizing s below with
  | nil =>
      have goesOn : rule ≠ .max := by simpa using comesToZero
      obtain ⟨zero, stays⟩ := filled_at_end goesOn unread stacked blank
      exact ⟨_, .sequence ends_fill (.loopDone zero), output_filled, stays⟩
  | cons value rest inductionHypothesis =>
      by_cases isZero : value = 0
      · subst isZero
        refine ⟨filled rule s, .sequence ends_fill (.loopDone ?_), output_filled, ?_⟩
        · exact (filled_at_zero unread stacked).1
        · exact (filled_at_zero unread stacked).2
      · have left : (filled rule s).unread = rest := by rw [filled_cons unread]
        have further : rule ≠ .max ∨ 0 ∈ rest := by simpa [Ne.symm isZero] using comesToZero
        obtain ⟨t, ends, output, lies⟩ := inductionHypothesis
          (filled_stacked unread isZero stacked) (filled_blankAhead unread blank) left further
        have nonzero : (filled rule s).tape.current ≠ 0 := by
          rw [current_filled unread]
          exact toUInt64_ne_zero isZero
        cases ends with
        | sequence first again =>
            refine ⟨t, .sequence ends_fill (.loopAgain nonzero first again), ?_, ?_⟩
            · exact output.trans output_filled
            · simpa [isZero] using lies

/-- Without a zero in the input, and with ones at its end, no cell that is filled is zero. -/
theorem filled_goesOn (noZero : 0 ∉ s.unread) :
    (filled .max s).tape.current ≠ 0 ∧ 0 ∉ (filled .max s).unread := by
  rcases unread : s.unread with _ | ⟨value, rest⟩
  · rw [filled_nil unread, unread]
    refine ⟨?_, List.not_mem_nil⟩
    change ((s.tape.shift 1).write _).current ≠ 0
    rw [current_write]
    decide
  · rw [unread, List.mem_cons, not_or] at noZero
    refine ⟨?_, ?_⟩
    · rw [current_filled unread]
      exact toUInt64_ne_zero (Ne.symm noZero.1)
    · rw [filled_cons unread]
      exact noZero.2

theorem not_ends_fill (noZero : 0 ∉ s.unread) :
    ¬(sequence fill (.loop fill)).Ends .max s t := by
  intro ends
  cases ends with
  | sequence first again =>
      have kept (u v) (holds : u.tape.current ≠ 0 ∧ 0 ∉ u.unread) (once : fill.Ends .max u v) :
          v.tape.current ≠ 0 ∧ 0 ∉ v.unread := by
        rw [eq_filled_of_ends once]
        exact filled_goesOn holds.2
      rw [eq_filled_of_ends first] at again
      exact not_ends_loop (fun _ => And.left) kept (filled_goesOn noZero) again

/-- The bytes that are stacked are written, the upper ones first. -/
theorem exists_ends_pour (stacked : Stacked bytes s.tape) :
    ∃ t, (loop pour).Ends rule s t ∧ t.output = s.output ++ bytes := by
  induction bytes generalizing s with
  | nil => exact ⟨s, .loopDone stacked, (List.append_nil _).symm⟩
  | cons byte below inductionHypothesis =>
      obtain ⟨nonzero, holds, further⟩ := stacked
      have once : (poured rule s).output = s.output ++ [byte] := by
        change s.output ++ [s.tape.current.toUInt8] = s.output ++ [byte]
        rw [holds, UInt8.toUInt8_toUInt64]
      obtain ⟨t, ends, output⟩ := inductionHypothesis (s := poured rule s) further
      refine ⟨t, .loopAgain (holds ▸ toUInt64_ne_zero nonzero) ends_pour ends, ?_⟩
      rw [output, once, List.append_assoc, List.singleton_append]

theorem exists_ends_reversing {input : List UInt8} (comesToZero : rule ≠ .max ∨ 0 ∈ input) :
    ∃ t, reversing.Ends rule { tape := .blank, unread := input } t ∧
      t.output = (input.takeWhile (· ≠ 0)).reverse := by
  obtain ⟨t, read, output, lies⟩ :=
    exists_ends_fill (s := { tape := .blank, unread := input }) stacked_blank blankAhead_blank
      comesToZero
  rw [List.append_nil] at lies
  obtain ⟨u, written, output'⟩ := exists_ends_pour (s := t.act rule (.move (-1))) lies
  refine ⟨u, .sequence read (.sequence .act written), ?_⟩
  rw [output', show (t.act rule (.move (-1))).output = [] from output, List.nil_append]

theorem not_ends_reversing {input : List UInt8} (noZero : 0 ∉ input) :
    ¬reversing.Ends .max { tape := .blank, unread := input } t := by
  intro ends
  cases ends with
  | sequence read _ => exact not_ends_fill noZero read

end Command

namespace Registry

theorem scan_reverse : scan reverse.source = Command.reversing.program := by decide +kernel

/-- The program writes the bytes before the first zero backward, on a tape of any initial size.
Without a zero it needs an end of the input that leaves one, or it never halts. -/
theorem execute_reverse (settings : Settings) (unlimited : settings.stepLimit = none)
    (input : List UInt8) :
    (settings.endOfInput ≠ .max ∨ 0 ∈ input →
      ∃ fuel, execute fuel reverse.source input settings =
        some (.ok (input.takeWhile (· ≠ 0)).reverse)) ∧
    (settings.endOfInput = .max → 0 ∉ input →
      ∀ fuel, execute fuel reverse.source input settings = none) := by
  have start : Machine.session (scan reverse.source) settings input =
      .onTape Command.reversing.program settings.blankTape settings (.ofBytes input) := by
    rw [scan_reverse]
    rfl
  have blank : settings.blankTape.view = .blank := Tape.view_blank _
  refine ⟨?_, ?_⟩
  · intro comesToZero
    obtain ⟨t, ends, output⟩ := Command.exists_ends_reversing comesToZero
    rw [← blank] at ends
    obtain ⟨last, ⟨fuel, ended⟩, _, serves⟩ := Command.halts_of_ends unlimited ends
    refine ⟨fuel, Option.map_eq_some_iff.mpr ⟨_, start ▸ ended, ?_⟩⟩
    rw [← output, ← serves.written]
    rfl
  · intro isMax noZero fuel
    apply Option.map_eq_none_iff.mpr
    apply Option.eq_none_iff_forall_not_mem.mpr
    rintro ⟨outcome, last⟩ ended
    rw [start] at ended
    obtain ⟨_, t, ends, _⟩ := Command.ends_of_halts unlimited ⟨fuel, ended⟩
    rw [blank, isMax] at ends
    exact Command.not_ends_reversing noZero ends

theorem execute_reverse_of_small_tape :
    ({ tapeSize := 1, endOfInput := .unchanged } : Settings).stepLimit = none ∧
    (∃ fuel, execute fuel reverse.source [1, 2, 3] { tapeSize := 1, endOfInput := .unchanged } =
      some (.ok [3, 2, 1])) ∧
    ({ jumps := .table, endOfInput := .max } : Settings).stepLimit = none ∧
    (∃ fuel, execute fuel reverse.source [1, 0, 3] { jumps := .table, endOfInput := .max } =
      some (.ok [1])) ∧
    ∀ fuel, execute fuel reverse.source [1, 3] { jumps := .table, endOfInput := .max } = none := by
  refine ⟨rfl, ?_, rfl, ?_, ?_⟩
  · exact (execute_reverse _ rfl [1, 2, 3]).1 (by decide)
  · exact (execute_reverse _ rfl [1, 0, 3]).1 (by decide)
  · exact (execute_reverse _ rfl [1, 3]).2 rfl (by decide)

end Registry

end TapeLang
