import TapeLang.Proofs.CommandLine.Choosing
import TapeLang.Proofs.CommandLine.Loading
import TapeLang.Proofs.Machine.Wording

/-!
The command line runs what a caller of `execute` or `interpret` runs, if both take the same source
and the same settings.
-/

namespace TapeLang.CommandLine

namespace Options

variable {options : Options} {files : FileSystem} {input : ByteArray}

structure AsksForRun (options : Options) : Prop where
  noList : options.list = false
  noDump : options.dump = false
  noMinify : options.minify = false

theorem job_eq_ok_iff (asks : options.AsksForRun) {job : Job} :
    options.job files input = .ok job ↔
      ∃ settings text rest, options.settings files = .ok settings ∧
        options.source files input = .ok (text, rest) ∧
        .run (.session (scan text) settings rest.data.toList) options.stats = job := by
  unfold Options.job
  simp only [asks.noList, asks.noDump, asks.noMinify, Bool.false_eq_true, if_false,
    bind_eq_ok_iff, Prod.exists]
  refine ⟨?_, ?_⟩
  · rintro ⟨settings, chosen, text, rest, loaded, whole⟩
    exact ⟨settings, text, rest, chosen, loaded, Except.ok.inj whole⟩
  · rintro ⟨settings, text, rest, chosen, loaded, rfl⟩
    exact ⟨settings, chosen, text, rest, loaded, rfl⟩

end Options

/-- The line about a run that is asked for, or nothing. -/
inductive Sums (last : Machine) : Bool → String → Prop
  | asked : Sums last true (toString last.program.size ++ " instructions, " ++
      toString last.steps ++ " steps, " ++ toString last.tape.size ++ " tape cells\n")
  | unasked : Sums last false ""

theorem sums_statsLine (last : Machine) (stats : Bool) :
    Sums last stats (if stats then statsLine last else "") := by
  cases stats
  · exact .unasked
  · exact .asked

/-- One run of a machine as the answer of `execute`, as what is seen of the command line, and as
what `interpret` returns and writes. -/
inductive OneRun (fuel : Nat) (m : Machine) (stats : Bool) :
    Option (Except Fault (List UInt8)) → Option Transcript → Option Interaction → Prop
  | unfinished : m.run fuel = none → OneRun fuel m stats none none none
  | finished {last output line} : m.run fuel = some (.finished, last) →
      last.streams.written = output → Sums last stats line →
      OneRun fuel m stats (some (.ok output))
        (some { status := 0, output := output.toByteArray, errors := line })
        (some { result := .ok (), output := output.toByteArray, errors := "" })
  | failed {last fault reason written line} : m.run fuel = some (.failed fault, last) →
      last.streams.written = written → fault.Reads reason → Sums last stats line →
      OneRun fuel m stats (some (.error fault))
        (some {
          status := 1
          output := written.toByteArray
          errors := line ++ ("Error: " ++ reason ++ "\n") })
        (some { result := .error fault, output := written.toByteArray, errors := "" })

theorem oneRun (fuel : Nat) (text : String) (settings : Settings) (input : List UInt8)
    (stats : Bool) :
    OneRun fuel (.session (scan text) settings input) stats (execute fuel text input settings)
      (Job.transcript? fuel (.run (.session (scan text) settings input) stats))
      (interpret fuel (scan text) settings input) := by
  simp only [execute, Job.transcript?, interpret]
  rcases ended : (Machine.session (scan text) settings input).run fuel with _ | ⟨outcome, last⟩
  · exact .unfinished ended
  · cases outcome with
    | finished => exact .finished ended rfl (sums_statsLine last stats)
    | failed fault => exact .failed ended rfl fault.reads_message (sums_statsLine last stats)

variable {options : Options} {files : FileSystem} {input : ByteArray} {arguments : List String}

theorem run_of_loaded (parsed : parse arguments = .ok options) {job : Job}
    (loaded : options.job files input = .ok job) (fuel : Nat) :
    run fuel files input arguments = job.transcript? fuel := by
  rw [run, parsed]
  dsimp only
  rw [loaded]

theorem run_of_not_loaded (parsed : parse arguments = .ok options)
    (notLoaded : ∀ job, options.job files input ≠ .ok job) (fuel : Nat) :
    ∃ error, run fuel files input arguments = some (.failure error) := by
  rw [run, parsed]
  dsimp only
  cases loaded : options.job files input with
  | error error => exact ⟨error, rfl⟩
  | ok job => exact absurd loaded (notLoaded job)

/-- The command line takes just the arguments that are in order.  If they ask for a run, it does
what `execute` and `interpret` do with its source, what is left of the input, and its settings:
those of the options over those of the file over the defaults.  If it does not get these, it fails
and puts nothing out. -/
theorem run_agrees_with_execute (files : FileSystem) (input : ByteArray) (arguments : List String)
    (options : Options) :
    (parse arguments = .ok options ↔ Accepts arguments options) ∧
    (Accepts arguments options → options.AsksForRun →
      (∀ layer text rest, options.FileGives files layer →
        options.Provides files input text rest →
        let settings := options.layer.above (layer.above {})
        ∀ fuel, OneRun fuel (.session (scan text) settings rest.data.toList) options.stats
          (execute fuel text rest.data.toList settings)
          (run fuel files input arguments)
          (interpret fuel (scan text) settings rest.data.toList)) ∧
      ((¬∃ layer, options.FileGives files layer) ∨
          (¬∃ text rest, options.Provides files input text rest) →
        ∀ fuel, ∃ error, run fuel files input arguments =
          some { status := 1, output := .empty, errors := Transcript.errorLine error })) := by
  refine ⟨parse_eq_ok_iff_accepts, fun accepts asks => ⟨?_, ?_⟩⟩
  · intro layer text rest gives provides settings fuel
    have chosen : options.settings files = .ok settings :=
      Options.settings_eq_ok_iff.mpr ⟨layer, gives, rfl⟩
    have loaded := (Options.job_eq_ok_iff asks).mpr
      ⟨settings, text, rest, chosen, Options.source_eq_ok_iff.mpr provides, rfl⟩
    rw [run_of_loaded (parse_eq_ok_iff_accepts.mpr accepts) loaded]
    exact oneRun fuel text settings rest.data.toList options.stats
  · intro missing
    apply run_of_not_loaded (parse_eq_ok_iff_accepts.mpr accepts)
    intro job loaded
    obtain ⟨settings, text, rest, chosen, isSource, _⟩ := (Options.job_eq_ok_iff asks).mp loaded
    rcases missing with noLayer | noSource
    · obtain ⟨layer, gives, _⟩ := Options.settings_eq_ok_iff.mp chosen
      exact noLayer ⟨layer, gives⟩
    · exact noSource ⟨text, rest, Options.source_eq_ok_iff.mp isSource⟩

section Example

def settingsText : String := "\x7b\"eof\": \"max\", \"step_limit\": 7\x7d"

def settingsFile : FileSystem where
  read path := if path = "c" then .ok settingsText.toUTF8 else .error .missing
  list _ := .error .notDirectory
  isThere path := path == "c"

/-- A program by its letter, a file in the next argument and a limit behind its sign. -/
def spelledArguments : List String := ["-b", "cat", "--config", "c", "--max-steps=9"]

def spelledOptions : Options := { builtin := some "cat", config := some "c", stepLimit := some 9 }

theorem run_agrees_with_execute_of_settings_file :
    Accepts spelledArguments spelledOptions ∧ spelledOptions.AsksForRun ∧
      spelledOptions.FileGives settingsFile
        { endOfInput := some .max, stepLimit := some (some 7) } ∧
      spelledOptions.Provides settingsFile "ab".toUTF8 Registry.cat.source "ab".toUTF8 ∧
      let settings : Settings := { endOfInput := .max, stepLimit := some 9 }
      ∀ fuel, OneRun fuel (.session (scan Registry.cat.source) settings [97, 98]) false
        (execute fuel Registry.cat.source [97, 98] settings)
        (run fuel settingsFile "ab".toUTF8 spelledArguments)
        (interpret fuel (scan Registry.cat.source) settings [97, 98]) := by
  have asks : spelledOptions.AsksForRun := ⟨rfl, rfl, rfl⟩
  have decoded : Utf8.decode? settingsText.toUTF8 = some settingsText := by decide +kernel
  have tells : Settings.Tells (.object [(some "eof", .text "max"), (some "step_limit", .integer 7)])
      { endOfInput := some .max, stepLimit := some (some 7) } := by
    apply Settings.Tells.object (by simp) (Settings.member_eq_ok_iff.mp rfl)
      (Settings.member_eq_ok_iff.mp rfl) (Settings.member_eq_ok_iff.mp rfl)
      (Settings.member_eq_ok_iff.mp rfl)
    exact ⟨rfl, rfl, rfl, rfl⟩
  have gives : spelledOptions.FileGives settingsFile
      { endOfInput := some .max, stepLimit := some (some 7) } :=
    .file rfl rfl decoded rfl tells
  have provides :
      spelledOptions.Provides settingsFile "ab".toUTF8 Registry.cat.source "ab".toUTF8 :=
    .builtin rfl (by decide) (by decide)
  obtain ⟨accepted, agrees⟩ :=
    run_agrees_with_execute settingsFile "ab".toUTF8 spelledArguments spelledOptions
  have accepts := accepted.mp rfl
  exact ⟨accepts, asks, gives, provides, (agrees accepts asks).1 _ _ _ gives provides⟩

end Example

end TapeLang.CommandLine
