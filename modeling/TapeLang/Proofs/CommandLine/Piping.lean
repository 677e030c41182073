import TapeLang.Proofs.CommandLine.Agreement
import TapeLang.Proofs.Source.Loading

/-!
Programs on standard input and programs in files.  What the command line does with a source
depends on the program that it scans to only, so that a text of the size of a file does the same
wherever it comes from.  Only a file can be too large.
-/

namespace TapeLang

theorem Utf8.decode?_toUTF8 (text : String) : decode? text.toUTF8 = some text :=
  dif_pos text.isValidUTF8

theorem scan_of_decode? {bytes : ByteArray} {text : String}
    (decoded : Utf8.decode? bytes = some text) : scan text = scanBytes bytes := by
  unfold Utf8.decode? String.fromUTF8? at decoded
  split at decoded
  · cases decoded
    rfl
  · contradiction

namespace CommandLine

/-- The arguments are accepted, and name no program and ask for no listing and no help. -/
def AwaitsProgram (arguments : List String) : Prop :=
  parse arguments = .error .version ∨ ∃ options, parse arguments = .ok options ∧
    options.list = false ∧ options.builtin = none ∧ options.path = none

def Options.withPath (path : String) (options : Options) : Options :=
  { options with path := some path }

/-- The other arguments say the same, and name the path of a program too. -/
def AddsPath (path : String) (arguments others : List String) : Prop :=
  parse others = (parse arguments).map (.withPath path)

section Arguments

variable {arguments : List String} {options : Options} {path : String}

theorem Intake.finish_ne_version {intake : Intake} : intake.finish ≠ .error .version := by
  unfold Intake.finish
  dsimp only
  repeat' split
  all_goals exact fun same => nomatch same

/-- An argument that does not look like an option is a path. -/
theorem Intake.feed_path {intake : Intake} (nothingDue : intake.pending = none)
    (noPath : intake.options.path = none) (nonempty : path ≠ "") (plain : IsPlain path) :
    intake.feed path =
      .ok { intake with options := intake.options.withPath path } := by
  have chosen : intake.options.setPath path = .ok (intake.options.withPath path) := by
    have isEmpty : path.isEmpty = false := by simpa using nonempty
    rw [Options.setPath, noPath, Options.nonempty?, isEmpty]
    rfl
  rw [feed_plain nothingDue plain, chosen]
  rfl

theorem addsPath_append (awaits : AwaitsProgram arguments) (nonempty : path ≠ "")
    (plain : IsPlain path) :
    AddsPath path arguments (arguments ++ [path]) := by
  rw [AddsPath]
  rcases awaits with version | ⟨options, parsed, _, noBuiltin, noPath⟩
  · rw [version]
    cases fed : arguments.foldlM Intake.feed {} with
    | error refusal =>
        rw [parse, fed] at version
        rw [parse, List.foldlM_append, fed]
        exact version
    | ok intake =>
        rw [parse, fed] at version
        exact absurd version Intake.finish_ne_version
  · obtain ⟨intake, fed, finished⟩ := parse_eq_ok_iff.mp parsed
    obtain ⟨rfl, nothingDue, _, apart⟩ := Intake.finish_eq_ok_iff.mp finished
    let named : Intake := { intake with options := intake.options.withPath path }
    have fed' : (arguments ++ [path]).foldlM Intake.feed {} = .ok named := by
      have atPath : intake.feed path = .ok named :=
        Intake.feed_path nothingDue noPath nonempty plain
      rw [List.foldlM_append]
      exact bind_eq_ok_iff.mpr ⟨intake, fed, bind_eq_ok_iff.mpr ⟨named, atPath, rfl⟩⟩
    rw [parsed]
    apply parse_eq_ok_iff.mpr
    exact ⟨named, fed', Intake.finish_eq_ok_iff.mpr ⟨rfl, nothingDue, .inl noBuiltin, apart⟩⟩

end Arguments

section Jobs

variable {options : Options} {files : FileSystem} {path text : String} {bytes : ByteArray}

/-- The two ways to read a source agree on every text that is not too large. -/
theorem Options.job_withPath (noBuiltin : options.builtin = none) (noPath : options.path = none)
    (isRead : files.read path = .ok bytes) (fits : bytes.size ≤ sourceSizeLimit)
    (decoded : Utf8.decode? bytes = some text) :
    (options.withPath path).job files .empty = options.job files bytes := by
  have piped : options.source files bytes = .ok (text, .empty) :=
    (source_of_none noBuiltin noPath).mpr ⟨decoded, rfl⟩
  have noBuiltin' : (options.withPath path).builtin = none := noBuiltin
  have named : (options.withPath path).source files .empty =
      .ok (Utf8.decodeLossy bytes, .empty) := by
    rw [source_of_path noBuiltin' rfl,
      FileSystem.readSource_eq_ok_iff.mpr ⟨bytes, isRead, fits, rfl⟩]
    rfl
  -- The texts are the same too, but it is enough that their programs are.
  have same : scan (Utf8.decodeLossy bytes) = scan text :=
    (scan_decodeLossy bytes).trans (scan_of_decode? decoded).symm
  have sameSettings : (options.withPath path).settings files = options.settings files := rfl
  unfold job
  rw [piped, named, sameSettings]
  cases options.settings files with
  | error error => rfl
  | ok settings =>
      dsimp only [bind, Except.bind]
      rw [TapeLang.minify, TapeLang.minify, same]
      rfl

/-- Nothing is done with a file that is too large. -/
theorem Options.job_withPath_of_oversized (noList : options.list = false)
    (noBuiltin : options.builtin = none) (isRead : files.read path = .ok bytes)
    (oversized : sourceSizeLimit < bytes.size) (result : Job) :
    (options.withPath path).job files .empty ≠ .ok result := by
  intro loaded
  have noBuiltin' : (options.withPath path).builtin = none := noBuiltin
  unfold job at loaded
  rw [show (options.withPath path).list = false from noList] at loaded
  obtain ⟨settings, _, loaded⟩ := bind_eq_ok_iff.mp loaded
  obtain ⟨_, isSource, _⟩ := bind_eq_ok_iff.mp loaded
  rw [source_of_path noBuiltin' rfl, FileSystem.readSource_of_oversized isRead oversized]
    at isSource
  contradiction

theorem run_congr {input input' : ByteArray} {arguments arguments' : List String}
    {options' : Options} (parsed : parse arguments = .ok options)
    (parsed' : parse arguments' = .ok options')
    (same : options.job files input = options'.job files input') (fuel : Nat) :
    run fuel files input arguments = run fuel files input' arguments' := by
  rw [run, run, parsed, parsed']
  dsimp only
  rw [same]

end Jobs

/-- A program does the same on standard input and in a file, if it is text and no larger than a
file may be, and the version is the same with any.  A file that is larger is an error.  The path
may stand behind all other arguments, or wherever else it is taken for one. -/
theorem run_piped_eq_run_named (files : FileSystem) {arguments : List String}
    (awaits : AwaitsProgram arguments) :
    (∀ path, path ≠ "" → (path.toList.head? = some '-' → path = "-") →
      AddsPath path arguments (arguments ++ [path])) ∧
    ∀ path others bytes, AddsPath path arguments others → files.read path = .ok bytes →
      (parse arguments = .error .version ∨
          bytes.size ≤ sourceSizeLimit ∧ (Utf8.decode? bytes).isSome → ∀ fuel,
        run fuel files bytes arguments = run fuel files .empty others) ∧
      (sourceSizeLimit < bytes.size → parse arguments ≠ .error .version → ∀ fuel,
        ∃ error, run fuel files .empty others =
          some { status := 1, output := .empty, errors := Transcript.errorLine error }) := by
  refine ⟨fun path => addsPath_append awaits, ?_⟩
  intro path others bytes adds isRead
  rw [AddsPath] at adds
  rcases awaits with version | ⟨options, parsed, noList, noBuiltin, noPath⟩
  · rw [version] at adds
    refine ⟨fun _ fuel => ?_, fun _ notVersion => absurd version notVersion⟩
    rw [run, run, version, adds]
    rfl
  · rw [parsed] at adds
    refine ⟨?_, ?_⟩
    · rintro (version | ⟨fits, isText⟩) fuel
      · rw [parsed] at version
        contradiction
      obtain ⟨text, decoded⟩ := Option.isSome_iff_exists.mp isText
      have sameJob := Options.job_withPath noBuiltin noPath isRead fits decoded
      exact run_congr parsed adds sameJob.symm fuel
    · intro oversized _
      exact run_of_not_loaded adds
        (Options.job_withPath_of_oversized noList noBuiltin isRead oversized)

section Example

def spaces (count : Nat) : String := .ofList (.replicate count ' ')

theorem size_toUTF8_spaces (count : Nat) : (spaces count).toUTF8.size = count := by
  change (spaces count).toByteArray.size = count
  rw [spaces, String.toByteArray_ofList]
  induction count with
  | zero => rfl
  | succ count inductionHypothesis =>
      rw [List.replicate_succ, List.utf8Encode_cons, ByteArray.size_append, inductionHypothesis,
        Nat.add_comm]
      rfl

theorem oversized_spaces : sourceSizeLimit < (spaces (sourceSizeLimit + 1)).toUTF8.size := by
  rw [size_toUTF8_spaces]
  exact Nat.lt_succ_self _

theorem run_minify_toUTF8 (fuel : Nat) (files : FileSystem) (text : String) :
    run fuel files text.toUTF8 ["--minify"] = some (.line (minify text)) := by
  have parsed : parse ["--minify"] = .ok { minify := true } := rfl
  have isSource : Options.source { minify := true } files text.toUTF8 = .ok (text, .empty) :=
    (Options.source_of_none rfl rfl).mpr ⟨Utf8.decode?_toUTF8 text, rfl⟩
  have loaded : Options.job { minify := true } files text.toUTF8 =
      .ok (.print (minify text)) := by
    unfold Options.job
    rw [isSource]
    rfl
  rw [run_of_loaded parsed loaded]
  rfl

/-- A small program with a comment, a text that is too large, and a byte that is no text. -/
def threeFiles : FileSystem := (FileTree.directory [
  ("small.b", .file "é,+.".toUTF8),
  ("large.b", .file (spaces (sourceSizeLimit + 1)).toUTF8),
  ("broken.b", .file ⟨#[0xFF]⟩)]).files

theorem run_piped_eq_run_named_of_small :
    AwaitsProgram ["-s", "--eof=max"] ∧
    AddsPath "small.b" ["-s", "--eof=max"] ["-s", "--eof=max", "small.b"] ∧
    (∀ fuel, run fuel threeFiles "é,+.".toUTF8 ["-s", "--eof=max"] =
      run fuel threeFiles .empty ["-s", "--eof=max", "small.b"]) ∧
    ∀ fuel, ∃ error, run fuel threeFiles .empty ["-s", "--eof=max", "large.b"] =
      some { status := 1, output := .empty, errors := Transcript.errorLine error } := by
  have awaits : AwaitsProgram ["-s", "--eof=max"] := .inr ⟨_, rfl, rfl, rfl, rfl⟩
  obtain ⟨appended, runs⟩ := run_piped_eq_run_named threeFiles awaits
  have adds := appended "small.b" (by decide) (by decide)
  have addsLarge := appended "large.b" (by decide) (by decide)
  have isText : (Utf8.decode? "é,+.".toUTF8).isSome := by
    rw [Utf8.decode?_toUTF8]
    rfl
  refine ⟨awaits, adds, ?_, ?_⟩
  · exact (runs "small.b" _ _ adds rfl).1 (.inr ⟨by decide, isText⟩)
  · exact (runs "large.b" _ _ addsLarge rfl).2 oversized_spaces (fun same => nomatch same)

/-- A text that is too large for a file can be piped, and bytes that are no text cannot. -/
theorem run_piped_ne_run_named :
    (AwaitsProgram ["--minify"] ∧
      AddsPath "large.b" ["--minify"] ["--minify", "large.b"] ∧
      AddsPath "broken.b" ["--minify"] ["--minify", "broken.b"]) ∧
    (∃ bytes, threeFiles.read "large.b" = .ok bytes ∧
      (run 0 threeFiles bytes ["--minify"]).map Transcript.status = some 0 ∧
      (run 0 threeFiles .empty ["--minify", "large.b"]).map Transcript.status = some 1) ∧
    ∃ bytes, threeFiles.read "broken.b" = .ok bytes ∧
      (run 0 threeFiles bytes ["--minify"]).map Transcript.status = some 1 ∧
      (run 0 threeFiles .empty ["--minify", "broken.b"]).map Transcript.status = some 0 := by
  have awaits : AwaitsProgram ["--minify"] := .inr ⟨_, rfl, rfl, rfl, rfl⟩
  refine ⟨⟨awaits, rfl, rfl⟩, ⟨_, rfl, ?piped, ?named⟩, ⟨_, rfl, ?_, ?_⟩⟩
  case piped =>
    rw [run_minify_toUTF8]
    rfl
  case named =>
    have parsed : parse ["--minify", "large.b"] =
        .ok (Options.withPath "large.b" { minify := true }) := rfl
    have isRead : threeFiles.read "large.b" = .ok (spaces (sourceSizeLimit + 1)).toUTF8 := rfl
    obtain ⟨error, failed⟩ := run_of_not_loaded parsed
      (Options.job_withPath_of_oversized rfl rfl isRead oversized_spaces) 0
    rw [failed]
    rfl
  all_goals decide +kernel

end Example

end CommandLine

end TapeLang
