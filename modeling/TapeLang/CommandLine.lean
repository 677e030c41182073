import TapeLang.CommandLine.Arguments
import TapeLang.Execution
import TapeLang.Program.Json
import TapeLang.Registry
import TapeLang.Source.Encoding
import TapeLang.Source.Loading

/-!
The command line: what a list of arguments does.
-/

namespace TapeLang.CommandLine

def versionLine : String := "bfi-cli 0.0.1"

def usageLine : String := "Usage: bfi-cli [OPTIONS] [PROGRAM_FILE]"

def helpText : String :=
  String.intercalate "\n" [
    "An interpreter for the eight-symbol tape language",
    "",
    usageLine,
    "",
    "Arguments:",
    "  [PROGRAM_FILE]  Path to a program file. Without it, the program is read from stdin",
    "",
    "Options:",
    "  -b, --builtin <BUILTIN>      Run an embedded program by name",
    "  -l, --list                   List the embedded programs and exit",
    "      --dump                   Print the compiled instruction stream as JSON",
    "      --minify                 Print the program without comments and redundant operations",
    "  -c, --config <CONFIG>        Load settings from a JSON file; options override it",
    "      --tape-size <TAPE_SIZE>  Initial number of tape cells",
    "      --eof <EOF>              Value stored once input is exhausted: zero, max, unchanged",
    "      --max-steps <MAX_STEPS>  Stop with an error after this many instructions",
    "      --jump-table             Resolve loops with a precomputed jump table",
    "  -s, --stats                  Print execution statistics to stderr",
    "  -h, --help                   Print help",
    "  -V, --version                Print version"]

def padRight (width : Nat) (text : String) : String := text.pushn ' ' (width - text.length)

def summaryLine (summary : ProgramSummary) : String :=
  padRight 12 summary.name ++ " " ++ padLeft 4 (toString summary.instructions) ++
    " instructions, " ++ toString summary.loops ++ " loops"

def listing : String :=
  String.intercalate "\n" ((List.range Registry.count).filterMap fun index =>
    (Registry.summaryAt index).toOption.map summaryLine)

def statsLine (m : Machine) : String :=
  toString m.program.size ++ " instructions, " ++ toString m.steps ++ " steps, " ++
    toString m.tape.size ++ " tape cells\n"

/-- What is left to do when all files are read. -/
inductive Job where
  | print (text : String)
  | run (m : Machine) (stats : Bool)

namespace Job

def conclude (stats : Bool) (outcome : Outcome) (m : Machine) : Interaction :=
  { Interaction.ofRun outcome m with errors := if stats then statsLine m else "" }

def transcript? (fuel : Nat) : Job → Option Transcript
  | print text => some (.line text)
  | run m stats =>
      (m.run fuel).map fun (outcome, m) => (conclude stats outcome m).transcript

end Job

namespace Options

def fileSettings (options : Options) (files : FileSystem) : Except Error Settings :=
  match options.config with
  | none => .ok {}
  | some path =>
      match files.readText path with
      | .error fault => .error (.unreadableSettings path fault)
      | .ok text => (Settings.parse text).mapError .invalidSettings

/-- Settings with what the options say in their place. -/
def override (options : Options) (settings : Settings) : Settings where
  tapeSize := options.tapeSize.getD settings.tapeSize
  endOfInput := options.endOfInput.getD settings.endOfInput
  stepLimit := options.stepLimit.or settings.stepLimit
  jumps := if options.jumpTable then .table else settings.jumps

def settings (options : Options) (files : FileSystem) : Except Error Settings :=
  (options.fileSettings files).map options.override

def readsProgram (options : Options) : Bool :=
  !options.list && options.builtin.isNone && options.path.isNone

/-- The source to run and the input that is left for it. -/
def source (options : Options) (files : FileSystem) (input : ByteArray) :
    Except Error (String × ByteArray) :=
  match options.builtin, options.path with
  | some name, _ => (Registry.sourceNamed name).map (·, input)
  | none, some path => (files.readSource path).map (·, input)
  | none, none =>
      match Utf8.decode? input with
      | some text => .ok (text, .empty)
      | none => .error .inputNotText

def job (options : Options) (files : FileSystem) (input : ByteArray) : Except Error Job := do
  if options.list then return .print listing
  let settings ← options.settings files
  let (source, rest) ← options.source files input
  if options.minify then return .print (TapeLang.minify source)
  let program := scan source
  if options.dump then return .print program.toJson.pretty
  return .run (.session program settings rest.data.toList) options.stats

end Options

namespace Refusal

def transcript : Refusal → Transcript
  | usage =>
      { status := 2
        errors := "error: invalid arguments\n\n" ++ usageLine ++
          "\n\nFor more information, try '--help'.\n" }
  | help => .line helpText
  | version => .line versionLine

end Refusal

/-- Carries out the arguments with some files and standard input.  There is no result
if a run takes more than `fuel` steps. -/
def run (fuel : Nat) (files : FileSystem) (input : ByteArray) (arguments : List String) :
    Option Transcript :=
  match parse arguments with
  | .error refusal => some refusal.transcript
  | .ok options =>
      match options.job files input with
      | .error error => some (.failure error)
      | .ok job => job.transcript? fuel

end TapeLang.CommandLine
