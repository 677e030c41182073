import TapeLang.Files
import TapeLang.Instruction
import TapeLang.Outcome
import TapeLang.Settings.Json
import TapeLang.Source

/-!
Everything that can go wrong, and what is said about it.
-/

namespace TapeLang

inductive Error where
  | run (fault : Fault)
  /-- Standard input should hold a program, and is not UTF-8. -/
  | inputNotText
  | unknownProgram (name : String)
  | noProgramAt (index : Nat)
  | noTextAt (index : Nat)
  /-- An instruction stands for more symbols than a source may have. -/
  | oversizedInstruction (instruction : Instruction) (position : Nat)
  | invalidSettings (defect : SettingsDefect)
  | unreadableFile (path : String) (fault : FileFault)
  | oversizedFile (path : String) (size : Nat)
  | missingDirectory (path : String)
  | unreadableDirectory (path : String) (fault : FileFault)
  | unreadableEntry (fault : FileFault)
  | unreadableSettings (path : String) (fault : FileFault)
  deriving DecidableEq

/-- What an error is about. -/
inductive ErrorKind where
  | io
  | stepLimit
  | lookup
  | validation
  | file
  deriving DecidableEq

namespace Error

def kind : Error → ErrorKind
  | run (.io _) | inputNotText => .io
  | run (.stepLimit _) => .stepLimit
  | unknownProgram _ => .lookup
  | noProgramAt _ | noTextAt _ | oversizedInstruction _ _ | invalidSettings _ => .validation
  | unreadableFile _ _ | oversizedFile _ _ | missingDirectory _ | unreadableDirectory _ _
  | unreadableEntry _ | unreadableSettings _ _ => .file

def message : Error → String
  | run fault => fault.message
  | inputNotText =>
      (Fault.io ("Failed to read from stdin: " ++ FileFault.notText.message)).message
  | unknownProgram name => "Program '" ++ name ++ "' not found"
  | noProgramAt index =>
      "Validation error: Program index " ++ toString index ++ " out of range"
  | noTextAt index =>
      "Validation error: Program text index " ++ toString index ++ " out of range"
  | oversizedInstruction instruction position =>
      "Validation error: Instruction " ++ instruction.text ++ " at position " ++
        toString position ++ " is too large to encode"
  | invalidSettings defect =>
      "Validation error: Invalid configuration: " ++ defect.message
  | unreadableFile path fault =>
      "File error: Failed to read file " ++ path ++ ": " ++ fault.message
  | oversizedFile path size =>
      "File error: File " ++ path ++ " is " ++ toString size ++
        " bytes, larger than the " ++ toString sourceSizeLimit ++ " byte limit"
  | missingDirectory path => "File error: Directory " ++ path ++ " does not exist"
  | unreadableDirectory path fault =>
      "File error: Failed to read directory " ++ path ++ ": " ++ fault.message
  | unreadableEntry fault => "File error: Failed to read directory entry: " ++ fault.message
  | unreadableSettings path fault =>
      "File error: Failed to read config " ++ path ++ ": " ++ fault.message

end Error

end TapeLang
