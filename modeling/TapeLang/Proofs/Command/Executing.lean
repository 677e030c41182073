import TapeLang.Proofs.Command.Flattening
import TapeLang.Proofs.Machine.Limiting

/-!
Sources that compile to the code of a command.  Where the command ends, executing the source
answers the output of the command, and where it does not end, the source runs forever: only a step
limit stops it, and every step limit does.
-/

namespace TapeLang

/-- Executing the source on the input answers this output. -/
def Answers (source : String) (input : List UInt8) (settings : Settings)
    (output : List UInt8) : Prop :=
  ∃ fuel, execute fuel source input settings = some (.ok output)

/-- The source never halts on the input, and exceeds every step limit. -/
structure RunsForever (source : String) (input : List UInt8) (settings : Settings) : Prop where
  never : ∀ fuel, execute fuel source input settings = none
  exceeds : ∀ limit, ∃ fuel, execute fuel source input { settings with stepLimit := some limit } =
    some (.error (.stepLimit limit))

namespace Command

variable {c : Command} {source : String} {settings : Settings} {input : List UInt8}

theorem session_of_scan (compiled : scan source = c.program) :
    Machine.session (scan source) settings input =
      .onTape c.program settings.blankTape settings (.ofBytes input) := by
  rw [compiled]
  rfl

theorem answers_of_ends (compiled : scan source = c.program)
    (unlimited : settings.stepLimit = none) {t : Situation}
    (ends : c.Ends settings.endOfInput { tape := .blank, unread := input } t) :
    Answers source input settings t.output := by
  have blank : settings.blankTape.view = .blank := Tape.view_blank _
  rw [← blank] at ends
  obtain ⟨last, ⟨fuel, ended⟩, _, serves⟩ := halts_of_ends unlimited ends
  rw [← session_of_scan compiled] at ended
  refine ⟨fuel, Option.map_eq_some_iff.mpr ⟨_, ended, ?_⟩⟩
  exact congrArg Except.ok serves.written

theorem runsForever_of_not_ends (compiled : scan source = c.program)
    (unlimited : settings.stepLimit = none)
    (never : ∀ t, ¬c.Ends settings.endOfInput { tape := .blank, unread := input } t) :
    RunsForever source input settings := by
  have goesOn (fuel outcome last) :
      (Machine.session (scan source) settings input).run fuel ≠ some (outcome, last) := by
    intro ended
    rw [session_of_scan compiled] at ended
    obtain ⟨_, t, ends, _⟩ := ends_of_halts unlimited ⟨fuel, ended⟩
    rw [Settings.blankTape, Tape.view_blank] at ends
    exact never t ends
  refine ⟨?_, ?_⟩
  · intro fuel
    apply Option.map_eq_none_iff.mpr
    apply Option.eq_none_iff_forall_not_mem.mpr
    rintro ⟨outcome, last⟩ ended
    exact goesOn fuel outcome last ended
  · intro limit
    have cuts := Machine.cuts_limitedTo (m := .session (scan source) settings input) unlimited rfl
      limit
    have unended : ¬∃ outcome last, (Machine.session (scan source) settings input).EndsWithin
        limit.toNat outcome last := by
      rintro ⟨outcome, last, ends⟩
      exact goesOn _ outcome last ends.run
    obtain ⟨n, _, ended⟩ := cuts.cut unended
    exact ⟨limit.toNat + 1, Option.map_eq_some_iff.mpr ⟨_, ended, rfl⟩⟩

end Command

end TapeLang
