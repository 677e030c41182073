import TapeLang.Execution

/-!
Line by line sessions.  Every line of the input is a program, and runs on the tape that
the line before it left.  What a program reads comes from the same input, right after
its line.
-/

namespace TapeLang.Repl

/-- One line and what came of it. -/
structure Turn where
  /-- The line, with its end if it has one. -/
  line : List UInt8
  /-- What the program of the line read. -/
  consumed : List UInt8
  written : List UInt8
  outcome : Outcome
  /-- The cursor after the run. -/
  offset : Int
  /-- The current cell after the run. -/
  value : UInt64
  deriving DecidableEq

inductive Ending where
  | endOfInput
  /-- This line is not UTF-8. -/
  | notText (line : List UInt8)
  deriving DecidableEq

structure Session where
  turns : List Turn
  ending : Ending
  deriving DecidableEq

/-- The length of the first line, with its end. -/
def lineLength (input : List UInt8) : Nat :=
  (input.takeWhile (· != '\n'.toUInt8)).length + 1

/-- Runs the program of a line on a tape; `rest` is the input after the line.  Gives
the turn and the tape that it leaves. -/
def takeTurn (fuel : Nat) (settings : Settings) (tape : Tape) (line rest : List UInt8)
    (text : String) : Option (Turn × Tape) :=
  ((Machine.onTape (scan text) tape settings (.ofBytes rest)).run fuel).map
    fun (outcome, m) =>
      ({ line
         consumed := m.streams.consumed
         written := m.streams.written
         outcome
         offset := m.tape.offset
         value := m.tape.current }, m.tape)

/-- Goes on with a session.  There is no result if a program takes more than `fuel`
steps. -/
def sessionFrom (fuel : Nat) (settings : Settings) (tape : Tape) (input : List UInt8) :
    Option Session :=
  if input.isEmpty then some ⟨[], .endOfInput⟩
  else
    let line := input.take (lineLength input)
    let rest := input.drop (lineLength input)
    match Utf8.decode? line.toByteArray with
    | none => some ⟨[], .notText line⟩
    | some text =>
        match takeTurn fuel settings tape line rest text with
        | none => none
        | some (turn, tape) =>
            (sessionFrom fuel settings tape (rest.drop turn.consumed.length)).map
              fun session => { session with turns := turn :: session.turns }
termination_by input.length
decreasing_by
  have := List.length_pos_iff.mpr (show input ≠ [] by simp_all)
  simp [lineLength]
  omega

def session (fuel : Nat) (settings : Settings) (input : List UInt8) : Option Session :=
  sessionFrom fuel settings settings.blankTape input

def banner : String := "bfi 0.0.1 - one program per line, Ctrl-D to quit\n"

def prompt : String := "> "

/-- What is shown of the tape after a run: the cursor and the current cell. -/
def status (offset : Int) (value : UInt64) : String :=
  "\n[" ++ toString offset ++ "] = " ++ toString value.toNat ++ "\n"

namespace Turn

def output (turn : Turn) : ByteArray :=
  prompt.toUTF8 ++ turn.written.toByteArray ++ (status turn.offset turn.value).toUTF8

def errors (turn : Turn) : String :=
  match turn.outcome with
  | .finished => ""
  | .failed fault => Transcript.errorLine (.run fault)

end Turn

namespace Session

def interaction (session : Session) : Interaction :=
  let output := session.turns.foldl (fun out turn => out ++ turn.output) banner.toUTF8
  let errors := session.turns.foldl (fun out turn => out ++ turn.errors) ""
  match session.ending with
  | .endOfInput => { output := output ++ (prompt ++ "\n").toUTF8, errors }
  | .notText _ =>
      { result := .error (.io FileFault.notText.message)
        output := output ++ prompt.toUTF8
        errors }

end Session

def run (fuel : Nat) (settings : Settings) (input : List UInt8) : Option Interaction :=
  (session fuel settings input).map Session.interaction

end TapeLang.Repl
