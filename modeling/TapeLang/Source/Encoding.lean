import TapeLang.Error
import TapeLang.Source.Scan

/-!
Encoding: from a program back to source text.  Every move or addition becomes a run of
one symbol, and stops leave no trace.
-/

namespace TapeLang

namespace Instruction

def symbols : Instruction → List Symbol
  | move distance =>
      List.replicate distance.toInt.natAbs (if 0 ≤ distance then .right else .left)
  | add amount =>
      List.replicate amount.toInt.natAbs (if 0 ≤ amount then .increment else .decrement)
  | loopStart => [.loopStart]
  | loopEnd => [.loopEnd]
  | input => [.input]
  | output => [.output]
  | stop => []

def encodeAfter (out : String) : Instruction → String
  | move distance =>
      out.pushn (if 0 ≤ distance then Symbol.right else .left).toChar distance.toInt.natAbs
  | add amount =>
      out.pushn (if 0 ≤ amount then Symbol.increment else .decrement).toChar
        amount.toInt.natAbs
  | loopStart => out.push Symbol.loopStart.toChar
  | loopEnd => out.push Symbol.loopEnd.toChar
  | input => out.push Symbol.input.toChar
  | output => out.push Symbol.output.toChar
  | stop => out

/-- Whether the run of an instruction is longer than a source may be. -/
def isOversized (instruction : Instruction) : Bool :=
  sourceSizeLimit < instruction.payload.toInt.natAbs

theorem toList_pushn (out : String) (c : Char) (count : Nat) :
    (out.pushn c count).toList = out.toList ++ List.replicate count c := by
  rw [String.pushn_eq_repeat_push]
  induction count with
  | zero => simp [Nat.repeat]
  | succ count inductionHypothesis =>
      rw [Nat.repeat, String.toList_push, inductionHypothesis, List.append_assoc,
        List.replicate_succ']

theorem toList_encodeAfter (out : String) (instruction : Instruction) :
    (instruction.encodeAfter out).toList =
      out.toList ++ instruction.symbols.map Symbol.toChar := by
  cases instruction <;>
    simp [encodeAfter, symbols, toList_pushn]

end Instruction

namespace Program

def encoding (p : Program) : String := p.code.foldl Instruction.encodeAfter ""

/-- The source text of a program, unless the run of an instruction is longer than a
source may be. -/
def encode (p : Program) : Except Error String :=
  match p.code.findFinIdx? Instruction.isOversized with
  | some position => .error (.oversizedInstruction p.code[position] position)
  | none => .ok p.encoding

theorem toList_encoding (p : Program) :
    p.encoding.toList = p.toList.flatMap fun i => i.symbols.map Symbol.toChar := by
  have appended (instructions : List Instruction) (out : String) :
      (instructions.foldl Instruction.encodeAfter out).toList =
        out.toList ++ instructions.flatMap fun i => i.symbols.map Symbol.toChar := by
    induction instructions generalizing out with
    | nil => simp
    | cons instruction rest inductionHypothesis =>
        simp [inductionHypothesis, Instruction.toList_encodeAfter]
  rw [encoding, ← Array.foldl_toList, appended]
  rfl

end Program

/-- The source without comments, and with each run reduced to its net effect. -/
def minify (source : String) : String := (scan source).encoding

end TapeLang
