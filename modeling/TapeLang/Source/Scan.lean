import TapeLang.Bytes
import TapeLang.Program
import TapeLang.Source

/-!
Scanning: from source text to a program.  The scanner takes one byte at a time and
holds back the run that it is inside of.  A byte of another kind, comments included,
closes the run.
-/

namespace TapeLang

/-- The two kinds of symbols of which neighbours are collected into one instruction. -/
inductive RunKind where
  | move
  | add
  deriving DecidableEq

def RunKind.instruction : RunKind → Int64 → Instruction
  | move, net => .move net
  | add, net => .add net

/-- The instructions found so far, and the open run with its net effect. -/
structure Scanner where
  emitted : Array Instruction := #[]
  run : Option (RunKind × Int64) := none

namespace Scanner

def close (s : Scanner) : Scanner :=
  match s.run with
  | none => s
  | some (kind, net) => { emitted := s.emitted.push (kind.instruction net) }

/-- Adds to the open run if it is of this kind, and opens a new one otherwise. -/
def extend (s : Scanner) (kind : RunKind) (amount : Int64) : Scanner :=
  match s.run with
  | some (current, net) =>
      if current = kind then { s with run := some (kind, net + amount) }
      else { s.close with run := some (kind, amount) }
  | none => { s with run := some (kind, amount) }

def emit (s : Scanner) (instruction : Instruction) : Scanner :=
  { emitted := s.close.emitted.push instruction }

def feed (s : Scanner) (byte : UInt8) : Scanner :=
  match Symbol.ofByte? byte with
  | some .right => s.extend .move 1
  | some .left => s.extend .move (-1)
  | some .increment => s.extend .add 1
  | some .decrement => s.extend .add (-1)
  | some .output => s.emit .output
  | some .input => s.emit .input
  | some .loopStart => s.emit .loopStart
  | some .loopEnd => s.emit .loopEnd
  | none => s.close

def finish (s : Scanner) : Program :=
  ⟨s.close.emitted.push .stop, by simp⟩

end Scanner

/-- The program of a source given as bytes. -/
def scanBytes (source : ByteArray) : Program :=
  (foldBytes Scanner.feed {} source).finish

def scan (source : String) : Program := scanBytes source.toUTF8

theorem scanBytes_eq_foldl (source : ByteArray) :
    scanBytes source = (source.data.toList.foldl Scanner.feed {}).finish := by
  rw [scanBytes, foldBytes_eq_foldl]

end TapeLang
