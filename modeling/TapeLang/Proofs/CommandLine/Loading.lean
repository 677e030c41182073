import TapeLang.CommandLine
import TapeLang.Proofs.Settings.Layers

/-!
What the command line takes its settings and its source from.  `FileGives` and `Provides` say it
without the functions that read the files, and these functions find exactly that.
-/

namespace TapeLang

theorem FileSystem.readText_eq_ok_iff {files : FileSystem} {path text : String} :
    files.readText path = .ok text ↔
      ∃ bytes, files.read path = .ok bytes ∧ Utf8.decode? bytes = some text := by
  unfold readText
  rcases files.read path with fault | bytes
  · simp
  · cases decoded : Utf8.decode? bytes <;> simp [decoded]

theorem FileSystem.readSource_eq_ok_iff {files : FileSystem} {path source : String} :
    files.readSource path = .ok source ↔
      ∃ bytes, files.read path = .ok bytes ∧ bytes.size ≤ sourceSizeLimit ∧
        Utf8.decodeLossy bytes = source := by
  unfold readSource
  rcases files.read path with fault | bytes
  · simp
  · dsimp only
    split
    · next oversized => simp [Nat.not_le.mpr oversized]
    · next fits => simp [Nat.le_of_not_lt fits]

namespace Registry

/-- No two names differ in case only. -/
theorem eq_of_isNamed {first second : NamedSource} {name : String} (isFirst : first ∈ entries)
    (isSecond : second ∈ entries) (named : first.isNamed name = true)
    (named' : second.isNamed name = true) : first = second := by
  have same : first.name.toList.map Char.toLower = second.name.toList.map Char.toLower :=
    (eq_of_beq named).trans (eq_of_beq named').symm
  have apart : ∀ first ∈ entries, ∀ second ∈ entries,
      first.name.toList.map Char.toLower = second.name.toList.map Char.toLower →
        first = second := by
    decide +kernel
  exact apart first isFirst second isSecond same

theorem sourceNamed_eq_ok_iff {name source : String} :
    sourceNamed name = .ok source ↔
      ∃ entry ∈ entries, entry.isNamed name = true ∧ entry.source = source := by
  unfold sourceNamed find
  cases found : entries.find? fun entry => entry.isNamed name with
  | none =>
      have unnamed := List.find?_eq_none.mp found
      refine ⟨by rintro ⟨⟩, ?_⟩
      rintro ⟨entry, inEntries, named, _⟩
      exact absurd named (unnamed entry inEntries)
  | some entry =>
      have inEntries := List.mem_of_find?_eq_some found
      have named := List.find?_some found
      refine ⟨fun same => ⟨entry, inEntries, named, Except.ok.inj same⟩, ?_⟩
      rintro ⟨other, isOther, named', rfl⟩
      rw [eq_of_isNamed isOther inEntries named' named]
      rfl

end Registry

namespace CommandLine

namespace Options

def layer (options : Options) : SettingsLayer where
  tapeSize := options.tapeSize
  endOfInput := options.endOfInput
  stepLimit := options.stepLimit.map some
  jumps := if options.jumpTable then some .table else none

/-- The settings that the file gives that the options name. -/
inductive FileGives (options : Options) (files : FileSystem) : SettingsLayer → Prop
  | noFile : options.config = none → FileGives options files {}
  | file {path bytes text value layer} : options.config = some path →
      files.read path = .ok bytes → Utf8.decode? bytes = some text →
      Json.parse? text = some value → Settings.Tells value layer → FileGives options files layer

/-- The source to run, and the input that it leaves: a program of the library, a file, or all of
standard input. -/
inductive Provides (options : Options) (files : FileSystem) (input : ByteArray) :
    String → ByteArray → Prop
  | builtin {name entry} : options.builtin = some name → entry ∈ Registry.entries →
      entry.isNamed name = true → Provides options files input entry.source input
  | file {path bytes} : options.builtin = none → options.path = some path →
      files.read path = .ok bytes → bytes.size ≤ sourceSizeLimit →
      Provides options files input (Utf8.decodeLossy bytes) input
  | standardInput {text} : options.builtin = none → options.path = none →
      Utf8.decode? input = some text → Provides options files input text .empty

variable {options : Options} {files : FileSystem} {input rest : ByteArray} {text : String}
  {settings : Settings}

theorem override_eq_above (options : Options) (base : Settings) :
    options.override base = options.layer.above base := by
  unfold override SettingsLayer.above layer
  congr 1
  · cases options.stepLimit <;> rfl
  · cases options.jumpTable <;> rfl

theorem fileSettings_of_some {path : String} (named : options.config = some path) :
    options.fileSettings files = .ok settings ↔
      ∃ text, files.readText path = .ok text ∧ Settings.parse text = .ok settings := by
  rw [fileSettings, named]
  cases isRead : files.readText path with
  | error fault => simp [isRead]
  | ok text => simp [isRead, mapError_eq_ok_iff]

theorem fileSettings_eq_ok_iff :
    options.fileSettings files = .ok settings ↔
      ∃ layer, options.FileGives files layer ∧ layer.above {} = settings := by
  refine ⟨?_, ?_⟩
  · intro loaded
    cases named : options.config with
    | none =>
        rw [fileSettings, named] at loaded
        exact ⟨{}, .noFile named, Except.ok.inj loaded⟩
    | some path =>
        obtain ⟨text, isText, parsed⟩ := (fileSettings_of_some named).mp loaded
        obtain ⟨bytes, isRead, decoded⟩ := FileSystem.readText_eq_ok_iff.mp isText
        obtain ⟨value, layer, isJson, tells, whole⟩ := Settings.parse_eq_ok_iff.mp parsed
        exact ⟨layer, .file named isRead decoded isJson tells, whole⟩
  · rintro ⟨layer, gives, rfl⟩
    cases gives with
    | noFile noName =>
        rw [fileSettings, noName]
        rfl
    | file named isRead decoded isJson tells =>
        apply (fileSettings_of_some named).mpr
        exact ⟨_, FileSystem.readText_eq_ok_iff.mpr ⟨_, isRead, decoded⟩,
          Settings.parse_eq_ok_iff.mpr ⟨_, _, isJson, tells, rfl⟩⟩

theorem settings_eq_ok_iff :
    options.settings files = .ok settings ↔
      ∃ layer, options.FileGives files layer ∧ options.layer.above (layer.above {}) = settings := by
  simp only [Options.settings, map_eq_ok_iff, fileSettings_eq_ok_iff, override_eq_above]
  refine ⟨?_, ?_⟩
  · rintro ⟨_, ⟨layer, gives, rfl⟩, whole⟩
    exact ⟨layer, gives, whole⟩
  · rintro ⟨layer, gives, whole⟩
    exact ⟨_, ⟨layer, gives, rfl⟩, whole⟩

theorem source_of_builtin {name : String} (isBuiltin : options.builtin = some name) :
    options.source files input = (Registry.sourceNamed name).map (·, input) := by
  rw [source, isBuiltin]

theorem source_of_path {path : String} (noBuiltin : options.builtin = none)
    (isPath : options.path = some path) :
    options.source files input = (files.readSource path).map (·, input) := by
  rw [source, noBuiltin, isPath]

theorem source_of_none (noBuiltin : options.builtin = none) (noPath : options.path = none) :
    options.source files input = .ok (text, rest) ↔
      Utf8.decode? input = some text ∧ .empty = rest := by
  rw [source, noBuiltin, noPath]
  cases decoded : Utf8.decode? input with
  | none => simp
  | some other => simp

theorem source_eq_ok_iff :
    options.source files input = .ok (text, rest) ↔ options.Provides files input text rest := by
  refine ⟨?_, ?_⟩
  · intro loaded
    cases isBuiltin : options.builtin with
    | some name =>
        rw [source_of_builtin isBuiltin] at loaded
        obtain ⟨_, found, whole⟩ := map_eq_ok_iff.mp loaded
        obtain ⟨entry, inEntries, named, rfl⟩ := Registry.sourceNamed_eq_ok_iff.mp found
        cases whole
        exact .builtin isBuiltin inEntries named
    | none =>
        cases isPath : options.path with
        | some path =>
            rw [source_of_path isBuiltin isPath] at loaded
            obtain ⟨_, found, whole⟩ := map_eq_ok_iff.mp loaded
            obtain ⟨bytes, isRead, fits, rfl⟩ := FileSystem.readSource_eq_ok_iff.mp found
            cases whole
            exact .file isBuiltin isPath isRead fits
        | none =>
            obtain ⟨decoded, rfl⟩ := (source_of_none isBuiltin isPath).mp loaded
            exact .standardInput isBuiltin isPath decoded
  · intro provides
    cases provides with
    | builtin isBuiltin inEntries named =>
        rw [source_of_builtin isBuiltin]
        exact map_eq_ok_iff.mpr
          ⟨_, Registry.sourceNamed_eq_ok_iff.mpr ⟨_, inEntries, named, rfl⟩, rfl⟩
    | file noBuiltin isPath isRead fits =>
        rw [source_of_path noBuiltin isPath]
        exact map_eq_ok_iff.mpr
          ⟨_, FileSystem.readSource_eq_ok_iff.mpr ⟨_, isRead, fits, rfl⟩, rfl⟩
    | standardInput noBuiltin noPath isText =>
        exact (source_of_none noBuiltin noPath).mpr ⟨isText, rfl⟩

end Options

end CommandLine

end TapeLang
