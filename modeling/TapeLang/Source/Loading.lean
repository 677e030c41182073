import TapeLang.Error
import TapeLang.Source.Scan

/-!
Loading of programs from files and directories.
-/

namespace TapeLang

structure LoadedProgram where
  path : String
  program : Program
  deriving DecidableEq

namespace FileSystem

/-- The source text in a file.  What is not UTF-8 in it is replaced. -/
def readSource (files : FileSystem) (path : String) : Except Error String :=
  match files.read path with
  | .error fault => .error (.unreadableFile path fault)
  | .ok bytes =>
      if sourceSizeLimit < bytes.size then .error (.oversizedFile path bytes.size)
      else .ok (Utf8.decodeLossy bytes)

def loadProgram (files : FileSystem) (path : String) : Except Error Program :=
  (files.readSource path).map scan

def isProgramFile (entry : DirectoryEntry) : Bool :=
  !entry.isDirectory && ["b", "bf"].any fun known => extension? entry.name == some known

def loadEntry (files : FileSystem) (directory : String) (entry : DirectoryEntry) :
    Except Error LoadedProgram :=
  let path := joinPath directory entry.name
  (files.loadProgram path).map fun program => { path, program }

def loadListed? (files : FileSystem) (directory : String) :
    Except FileFault DirectoryEntry → Option (Except Error LoadedProgram)
  | .error fault => some (.error (.unreadableEntry fault))
  | .ok entry => if isProgramFile entry then some (files.loadEntry directory entry) else none

def successes {Value : Type} (results : List (Except Error Value)) : List Value :=
  results.filterMap fun result =>
    match result with
    | .ok value => some value
    | .error _ => none

def failures {Value : Type} (results : List (Except Error Value)) : List Error :=
  results.filterMap fun result =>
    match result with
    | .ok _ => none
    | .error error => some error

/-- Whether a result may stand before another one: what loaded by its path, and before every
error.  The order of errors is left as it is. -/
def mayPrecede : Except Error LoadedProgram → Except Error LoadedProgram → Bool
  | .ok first, .ok second => decide (first.path ≤ second.path)
  | .ok _, .error _ => true
  | .error _, .ok _ => false
  | .error _, .error _ => true

/-- All programs in a directory: first those that load, by path, then the errors. -/
def loadPrograms (files : FileSystem) (directory : String) :
    List (Except Error LoadedProgram) :=
  if !files.isThere directory then [.error (.missingDirectory directory)]
  else
    match files.list directory with
    | .error fault => [.error (.unreadableDirectory directory fault)]
    | .ok listing => (listing.filterMap (files.loadListed? directory)).mergeSort mayPrecede

end FileSystem

end TapeLang
