import TapeLang.Files

/-!
File trees: a directory with all that is in it, as a file system.  Relative paths start
at the root of the tree.  Nothing is known about what lies outside of it.
-/

namespace TapeLang

inductive FileTree where
  | file (contents : ByteArray)
  | directory (entries : List (String × FileTree))

namespace FileTree

def empty : FileTree := directory []

def isDirectory : FileTree → Bool
  | directory _ => true
  | file _ => false

def entries : FileTree → List (String × FileTree)
  | directory entries => entries
  | file _ => []

def child? (tree : FileTree) (name : String) : Option FileTree := tree.entries.lookup name

/-- Replaces the entry of this name, or adds it after the others. -/
def setEntry (name : String) (node : FileTree) :
    List (String × FileTree) → List (String × FileTree)
  | [] => [(name, node)]
  | entry :: rest =>
      if entry.1 = name then (name, node) :: rest else entry :: setEntry name node rest

/-- Puts a file, or adds a directory, at a path; directories on the way are made. -/
def insert (tree : FileTree) : List String → FileTree → FileTree
  | [], node =>
      match node, tree with
      | directory [], directory _ => tree
      | _, _ => node
  | name :: rest, node =>
      let inner := ((tree.child? name).getD empty).insert rest node
      directory (setEntry name inner tree.entries)

def components (path : String) : List String :=
  (path.toList.splitOn '/').map String.ofList

/-- The longest name of a file, in bytes. -/
def nameLimit : Nat := 255

def pathLimit : Nat := 4095

/-- Follows the parts of a path from a node.  `above` holds the directories around the
node, the innermost first. -/
def follow (above : List FileTree) (node : FileTree) :
    List String → Except FileFault FileTree
  | [] => .ok node
  | part :: rest =>
      if !node.isDirectory then .error .notDirectory
      else if part = "" ∨ part = "." then follow above node rest
      else if part = ".." then follow above.tail (above.head?.getD empty) rest
      else if nameLimit < part.utf8ByteSize then .error .nameTooLong
      else
        match node.child? part with
        | none => .error .missing
        | some child => follow (node :: above) child rest

def resolve (tree : FileTree) (path : String) : Except FileFault FileTree :=
  if path.toList.contains '\x00' then .error .nulInName
  else if pathLimit < path.utf8ByteSize then .error .nameTooLong
  else if path.isEmpty || path.toList.head? == some '/' then .error .missing
  else follow [] tree (components path)

def files (tree : FileTree) : FileSystem where
  read path :=
    match tree.resolve path with
    | .error fault => .error fault
    | .ok (file contents) => .ok contents
    | .ok (directory _) => .error .isDirectory
  list path :=
    match tree.resolve path with
    | .error fault => .error fault
    | .ok (directory entries) =>
        .ok (entries.map fun entry => .ok ⟨entry.1, entry.2.isDirectory⟩)
    | .ok (file _) => .error .notDirectory
  isThere path :=
    match tree.resolve path with
    | .ok _ => true
    | .error _ => false

end FileTree

end TapeLang
