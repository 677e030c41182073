import TapeLang.Settings
import TapeLang.Json.Reader
import TapeLang.Json.Writer

/-!
Settings as JSON: an object with a member for each setting, or an array of the values
in a fixed order.  Settings that are left out keep their default.  Members of other
names are ignored.
-/

namespace TapeLang

inductive SettingsDefect where
  | notJson
  | wrongShape
  | tooManyValues
  /-- A name in an object stands for no text. -/
  | invalidName
  | repeated (name : String)
  | invalidValue (name : String)
  deriving DecidableEq

def SettingsDefect.message : SettingsDefect → String
  | notJson => "not valid JSON"
  | wrongShape => "neither an object nor an array"
  | tooManyValues => "more than four values"
  | invalidName => "unpaired surrogate in a name"
  | repeated name => "repeated member " ++ name
  | invalidValue name => "invalid value for " ++ name

namespace EndOfInput

def jsonName : EndOfInput → String
  | zero => "zero"
  | max => "max"
  | unchanged => "unchanged"

def ofName? (name : String) : Option EndOfInput :=
  [zero, max, unchanged].find? fun rule => rule.jsonName == name

end EndOfInput

namespace JumpMode

def jsonName : JumpMode → String
  | scan => "scan"
  | table => "table"

def ofName? (name : String) : Option JumpMode :=
  [scan, table].find? fun mode => mode.jsonName == name

end JumpMode

namespace Settings

def countOfJson? : Json → Option UInt64
  | .number (.integer value) =>
      if 0 ≤ value ∧ value < UInt64.size then some (.ofNat value.toNat) else none
  | _ => none

/-- A name, given as a string or as the one member of an object, which must be null. -/
def choiceOfJson? : Json → Option String
  | .string name => name
  | .object [(name, .null)] => name
  | _ => none

/-- The step limit; null stands for none. -/
def limitOfJson? : Json → Option (Option UInt64)
  | .null => some none
  | value => (countOfJson? value).map some

def endOfInputOfJson? (value : Json) : Option EndOfInput :=
  (choiceOfJson? value).bind EndOfInput.ofName?

def jumpsOfJson? (value : Json) : Option JumpMode :=
  (choiceOfJson? value).bind JumpMode.ofName?

/-- Reads one setting, or takes its default if it is not there. -/
def setting {Value : Type} (name : String) (read? : Json → Option Value) (default : Value) :
    Option Json → Except SettingsDefect Value
  | none => .ok default
  | some value =>
      match read? value with
      | some result => .ok result
      | none => .error (.invalidValue name)

def ofValues (tapeSize endOfInput stepLimit jumps : Option Json) :
    Except SettingsDefect Settings := do
  let initial : Settings := {}
  let tapeSize ← setting "tape_size" countOfJson? initial.tapeSize tapeSize
  let endOfInput ← setting "eof" endOfInputOfJson? initial.endOfInput endOfInput
  let stepLimit ← setting "step_limit" limitOfJson? initial.stepLimit stepLimit
  let jumps ← setting "jumps" jumpsOfJson? initial.jumps jumps
  return { tapeSize, endOfInput, stepLimit, jumps }

/-- The value of the member with this name, which must not be repeated. -/
def member (members : List (Json.Text × Json)) (name : String) :
    Except SettingsDefect (Option Json) :=
  match members.filter fun member => member.1 == some name with
  | [] => .ok none
  | [member] => .ok (some member.2)
  | _ => .error (.repeated name)

def ofMembers (members : List (Json.Text × Json)) : Except SettingsDefect Settings := do
  if members.any fun member => member.1.isNone then throw .invalidName
  let tapeSize ← member members "tape_size"
  let endOfInput ← member members "eof"
  let stepLimit ← member members "step_limit"
  let jumps ← member members "jumps"
  ofValues tapeSize endOfInput stepLimit jumps

def ofJson : Json → Except SettingsDefect Settings
  | .object members => ofMembers members
  | .array items =>
      if items.length ≤ 4 then ofValues items[0]? items[1]? items[2]? items[3]?
      else .error .tooManyValues
  | _ => .error .wrongShape

def parse (source : String) : Except SettingsDefect Settings :=
  match Json.parse? source with
  | none => .error .notJson
  | some value => ofJson value

def toJson (settings : Settings) : Json :=
  .object [
    (some "tape_size", .integer settings.tapeSize.toNat),
    (some "eof", .text settings.endOfInput.jsonName),
    (some "step_limit",
      match settings.stepLimit with
      | none => .null
      | some limit => .integer limit.toNat),
    (some "jumps", .text settings.jumps.jsonName)]

end Settings

end TapeLang
