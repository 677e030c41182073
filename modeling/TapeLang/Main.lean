import TapeLang.CommandLine
import TapeLang.Repl

/-!
The program: carries out its arguments with the files and the streams of the process.
Machines run live here: input is read when it is asked for, and output is passed on at
once.  With a terminal for input and no program to run, a line by line session begins.
-/

namespace TapeLang.Live

def fileFault : IO.Error → FileFault
  | .noFileOrDirectory _ _ _ => .missing
  | .inappropriateType _ 20 _ => .notDirectory
  | .inappropriateType _ 21 _ => .isDirectory
  | .invalidArgument _ 36 _ => .nameTooLong
  | error => .other (toString error)

def readFile (path : String) : IO (Except FileFault ByteArray) := do
  try
    return .ok (← IO.FS.readBinFile path)
  catch error =>
    return .error (fileFault error)

def readFiles (options : CommandLine.Options) : IO FileSystem := do
  let mut found : List (String × Except FileFault ByteArray) := []
  for path in options.config.toList ++ options.path.toList do
    found := (path, ← readFile path) :: found
  let contents := found
  return {
    read := fun path => (contents.lookup path).getD (.error .missing)
    list := fun _ => .error .notDirectory
    isThere := fun path => (contents.lookup path).isSome }

/-- Lets the machine have the next byte of standard input if it is about to ask. -/
def supply (m : Machine) : IO Machine := do
  if m.next? == some .input && m.reachedLimit?.isNone then
    (← IO.getStdout).flush
    let bytes ← (← IO.getStdin).read 1
    let reply : ReadReply :=
      match bytes.data[0]? with
      | some value => .byte value
      | none => .endOfInput
    return { m with streams := { m.streams with reads := [reply] } }
  else
    return m

/-- Passes on what the machine wrote. -/
def release (m : Machine) : IO Machine := do
  let output ← IO.getStdout
  unless m.streams.written.isEmpty do
    output.write m.streams.written.toByteArray
  if m.streams.history.contains (.flush .done) then
    output.flush
  return { m with streams := { m.streams with history := [] } }

partial def run (m : Machine) : IO (Outcome × Machine) := do
  match (← supply m).step with
  | (.ran, m) => run (← release m)
  | (.halted outcome, m) => return (outcome, ← release m)

def emit (transcript : Transcript) : IO UInt32 := do
  let output ← IO.getStdout
  output.write transcript.output
  output.flush
  (← IO.getStderr).putStr transcript.errors
  return transcript.status.toUInt32

partial def session (settings : Settings) (tape : Tape) : IO UInt32 := do
  let output ← IO.getStdout
  output.putStr Repl.prompt
  output.flush
  let line ← (← IO.getStdin).getLine
  if line.isEmpty then
    output.putStr "\n"
    return 0
  let (outcome, m) ← run (.onTape (scan line) tape settings {})
  match outcome with
  | .finished => pure ()
  | .failed fault => (← IO.getStderr).putStr (Transcript.errorLine (.run fault))
  output.putStr (Repl.status m.tape.offset m.tape.current)
  session settings m.tape

def carryOut (options : CommandLine.Options) : IO UInt32 := do
  let files ← readFiles options
  let input ← IO.getStdin
  if options.readsProgram && (← input.isTty) then
    match options.settings files with
    | .error error => emit (.failure error)
    | .ok settings =>
        (← IO.getStdout).putStr Repl.banner
        session settings settings.blankTape
  else
    let program ← if options.readsProgram then input.readBinToEnd else pure .empty
    match options.job files program with
    | .error error => emit (.failure error)
    | .ok (.print text) => emit (.line text)
    | .ok (.run m stats) =>
        let (outcome, m) ← run m
        emit (CommandLine.Job.conclude stats outcome m).transcript

end TapeLang.Live

def main (arguments : List String) : IO UInt32 :=
  match TapeLang.CommandLine.parse arguments with
  | .error refusal => TapeLang.Live.emit refusal.transcript
  | .ok options => TapeLang.Live.carryOut options
