import TapeLang.Program
import TapeLang.Json.Reader
import TapeLang.Json.Writer

/-!
Instructions and programs as JSON.  A program is the array of its instructions.  An
instruction with a number is an object with one member; the others are strings, and
may also be read from an object whose one member is null.
-/

namespace TapeLang

namespace Instruction

def jsonName : Instruction → String
  | move _ => "Move"
  | add _ => "Add"
  | loopStart => "BeginLoop"
  | loopEnd => "EndLoop"
  | input => "Input"
  | output => "Output"
  | stop => "End"

def toJson : Instruction → Json
  | move distance => .object [(some "Move", .integer distance.toInt)]
  | add amount => .object [(some "Add", .integer amount.toInt)]
  | plain => .text plain.jsonName

/-- The instruction without a number that has this name. -/
def ofPlainName? (name : String) : Option Instruction :=
  [loopStart, loopEnd, input, output, stop].find? fun plain => plain.jsonName == name

/-- A signed number of 64 bits. -/
def payload? : Json → Option Int64
  | .number (.integer value) =>
      if Int64.minValue.toInt ≤ value ∧ value ≤ Int64.maxValue.toInt then some (.ofInt value)
      else none
  | _ => none

def ofJson? : Json → Option Instruction
  | .string (some name) => ofPlainName? name
  | .object [(some name, value)] =>
      if name = "Move" then (payload? value).map move
      else if name = "Add" then (payload? value).map add
      else
        match value with
        | .null => ofPlainName? name
        | _ => none
  | _ => none

/-- Reads an instruction from JSON text. -/
def parse? (source : String) : Option Instruction := (Json.parse? source).bind ofJson?

end Instruction

def instructionsOfJson? : Json → Option (List Instruction)
  | .array items => items.mapM Instruction.ofJson?
  | _ => none

def parseInstructions? (source : String) : Option (List Instruction) :=
  (Json.parse? source).bind instructionsOfJson?

namespace Program

def toJson (p : Program) : Json := .array (p.toList.map Instruction.toJson)

/-- Reads a program from JSON text; a stop is added unless it ends with one. -/
def parse? (source : String) : Option Program := (parseInstructions? source).map ofList

end Program

end TapeLang
