import TapeLang.Error
import TapeLang.Machine.Narration
import TapeLang.Source.Scan

/-!
Running programs from start to end.  `fuel` bounds the number of steps; without a
result, it was not enough.
-/

namespace TapeLang

/-- The machine that runs a program on some input that never fails to arrive. -/
def Machine.session (program : Program) (settings : Settings) (input : List UInt8) :
    Machine :=
  .start program settings (.ofBytes input)

/-- What a run wrote, if it did not fail. -/
def Machine.answer (outcome : Outcome) (m : Machine) : Except Fault (List UInt8) :=
  match outcome with
  | .finished => .ok m.streams.written
  | .failed fault => .error fault

/-- Runs a source on some input; the answer is the output. -/
def execute (fuel : Nat) (source : String) (input : List UInt8) (settings : Settings) :
    Option (Except Fault (List UInt8)) :=
  ((Machine.session (scan source) settings input).run fuel).map fun (outcome, m) =>
    m.answer outcome

/-- Runs a source like `execute`, and lists the messages about it. -/
def executeNarrated (fuel : Nat) (source : String) (input : List UInt8)
    (settings : Settings) : Option (List Message × Except Fault (List UInt8)) :=
  let program := scan source
  ((Machine.session program settings input).narrate fuel).map fun (told, outcome, m) =>
    (.compiled source.utf8ByteSize program.size :: told, m.answer outcome)

/-- What a function returned that runs programs on the standard streams, and what it wrote
to them. -/
structure Interaction where
  result : Except Fault Unit := .ok ()
  output : ByteArray := .empty
  errors : String := ""

def Interaction.ofRun (outcome : Outcome) (m : Machine) : Interaction where
  result := outcome.result
  output := m.streams.written.toByteArray

def interpret (fuel : Nat) (program : Program) (settings : Settings) (input : List UInt8) :
    Option Interaction :=
  ((Machine.session program settings input).run fuel).map fun (outcome, m) =>
    .ofRun outcome m

/-- What can be seen of a command: its exit status and what it wrote. -/
structure Transcript where
  status : UInt8 := 0
  output : ByteArray := .empty
  errors : String := ""

namespace Transcript

def errorLine (error : Error) : String := "Error: " ++ error.message ++ "\n"

def failure (error : Error) : Transcript := { status := 1, errors := errorLine error }

def line (text : String) : Transcript := { output := (text ++ "\n").toUTF8 }

end Transcript

def Interaction.transcript (interaction : Interaction) : Transcript :=
  let { result, output, errors } := interaction
  match result with
  | .ok () => { output, errors }
  | .error fault =>
      { status := 1, output, errors := errors ++ Transcript.errorLine (.run fault) }

end TapeLang
