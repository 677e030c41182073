import TapeLang.Text.Utf8

/-!
Files as the programs see them: paths can be read, and directories listed.
-/

namespace TapeLang

inductive FileFault where
  | missing
  | notDirectory
  | isDirectory
  | nameTooLong
  | nulInName
  /-- The contents are not UTF-8. -/
  | notText
  | other (reason : String)
  deriving DecidableEq

def FileFault.message : FileFault → String
  | missing => "No such file or directory (os error 2)"
  | notDirectory => "Not a directory (os error 20)"
  | isDirectory => "Is a directory (os error 21)"
  | nameTooLong => "File name too long (os error 36)"
  | nulInName => "file name contained an unexpected NUL byte"
  | notText => "stream did not contain valid UTF-8"
  | other reason => reason

structure DirectoryEntry where
  name : String
  isDirectory : Bool
  deriving DecidableEq

structure FileSystem where
  /-- The contents of a file. -/
  read : String → Except FileFault ByteArray
  /-- The entries of a directory, in any order; each one can fail to be read. -/
  list : String → Except FileFault (List (Except FileFault DirectoryEntry))
  /-- Whether there is a file or directory. -/
  isThere : String → Bool

namespace FileSystem

/-- The contents of a file that must be UTF-8. -/
def readText (files : FileSystem) (path : String) : Except FileFault String :=
  match files.read path with
  | .error fault => .error fault
  | .ok bytes =>
      match Utf8.decode? bytes with
      | some text => .ok text
      | none => .error .notText

end FileSystem

def joinPath (directory name : String) : String :=
  if directory.toList.getLast? = some '/' then directory ++ name
  else directory ++ "/" ++ name

/-- What follows the last dot of a file name, unless the name only begins with it. -/
def extension? (name : String) : Option String :=
  let reversed := name.toList.reverse
  let suffix := reversed.takeWhile (· != '.')
  match reversed.drop suffix.length with
  | _ :: _ :: _ => some (String.ofList suffix.reverse)
  | _ => none

end TapeLang
