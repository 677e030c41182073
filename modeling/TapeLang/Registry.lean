import TapeLang.Error
import TapeLang.Source.Scan

/-!
The programs that come with the library.
-/

namespace TapeLang

structure NamedSource where
  name : String
  source : String
  deriving DecidableEq

namespace NamedSource

def program (entry : NamedSource) : Program := scan entry.source

/-- Names are compared without regard to the case of ASCII letters. -/
def isNamed (entry : NamedSource) (name : String) : Bool :=
  entry.name.toList.map Char.toLower == name.toList.map Char.toLower

end NamedSource

structure ProgramSummary where
  index : Nat
  name : String
  /-- The length of the source, in bytes. -/
  sourceSize : Nat
  instructions : Nat
  loops : Nat
  deriving DecidableEq

namespace Registry

def helloWorld : NamedSource where
  name := "Hello World"
  source :=
    "++++++++[>++++[>++>+++>+++>+<<<<-]>+>+>->>+[<]<-]>>.>---.+++++++..+++.>>.<-.<.+++.------.--------.>>+.>++.\n"

/-- Copies its input up to the first zero byte. -/
def cat : NamedSource where
  name := "Cat"
  source := ",[.,]\n"

/-- Writes its input up to the first zero byte backward. -/
def reverse : NamedSource where
  name := "Reverse"
  source := ">,[>,]<[.<]\n"

def alphabet : NamedSource where
  name := "Alphabet"
  source :=
    "++++++++[>++++++++<-]>+\n>++++++++++++++++++++++++++\n[<.+>-]\n++++++++++.\n"

def entries : List NamedSource := [helloWorld, cat, reverse, alphabet]

def count : Nat := entries.length

def names : List String := entries.map NamedSource.name

def find (name : String) : Except Error NamedSource :=
  match entries.find? fun entry => entry.isNamed name with
  | some entry => .ok entry
  | none => .error (.unknownProgram name)

def programNamed (name : String) : Except Error Program :=
  (find name).map NamedSource.program

def sourceNamed (name : String) : Except Error String :=
  (find name).map NamedSource.source

def programAt (index : Nat) : Except Error Program :=
  match entries[index]? with
  | some entry => .ok entry.program
  | none => .error (.noProgramAt index)

def sourceAt (index : Nat) : Except Error String :=
  match entries[index]? with
  | some entry => .ok entry.source
  | none => .error (.noTextAt index)

def summaryAt (index : Nat) : Except Error ProgramSummary :=
  match entries[index]? with
  | some entry =>
      let program := entry.program
      .ok {
        index
        name := entry.name
        sourceSize := entry.source.utf8ByteSize
        instructions := program.size
        loops := program.loopCount }
  | none => .error (.noProgramAt index)

/-- Whether the first list occurs within the second one. -/
def occursIn (part : List Char) : List Char → Bool
  | [] => part.isEmpty
  | c :: rest => part.isPrefixOf (c :: rest) || occursIn part rest

/-- The indices of the programs with a name that the query is a part of, without regard
to the case of ASCII letters. -/
def search (query : String) : List Nat :=
  let query := query.toList.map Char.toLower
  (List.range count).filter fun index =>
    entries[index]?.any fun entry => occursIn query (entry.name.toList.map Char.toLower)

end Registry

end TapeLang
