import TapeLang.Json.Basic

/-!
Writing JSON, on one line or with one item or member per line.
-/

namespace TapeLang.Json

inductive Layout where
  /-- Without any blanks. -/
  | compact
  /-- Two blanks of indentation for each level. -/
  | pretty
  deriving DecidableEq

namespace Layout

def newline : Layout → Nat → String
  | compact, _ => ""
  | pretty, depth => "\n".pushn ' ' (2 * depth)

def colon : Layout → String
  | compact => ":"
  | pretty => ": "

end Layout

def Number.literal : Number → String
  | integer value => toString value
  | real literal => literal

def hexDigit (value : Nat) : Char :=
  if value < 10 then Char.ofNat ('0'.toNat + value) else Char.ofNat ('a'.toNat + (value - 10))

def escape : Char → String
  | '"' => "\\\""
  | '\\' => "\\\\"
  | '\x08' => "\\b"
  | '\x0c' => "\\f"
  | '\n' => "\\n"
  | '\r' => "\\r"
  | '\t' => "\\t"
  | c =>
      if c.toNat < 0x20 then
        (("\\u00".push (hexDigit (c.toNat / 16))).push (hexDigit (c.toNat % 16)))
      else c.toString

/-- A string with its quotes.  A string that stands for no text is written as a
surrogate alone. -/
def quote : Text → String
  | some value => value.toList.foldl (fun out c => out ++ escape c) "\"" ++ "\""
  | none => "\"\\ud800\""

mutual

/-- Writes a value that is inside of `depth` others after `out`. -/
def write (layout : Layout) (depth : Nat) (out : String) : Json → String
  | null => out ++ "null"
  | bool true => out ++ "true"
  | bool false => out ++ "false"
  | number value => out ++ value.literal
  | string value => out ++ quote value
  | array [] => out ++ "[]"
  | array (item :: rest) =>
      writeItems layout depth
        (write layout (depth + 1) (out ++ "[" ++ layout.newline (depth + 1)) item) rest
  | object [] => out ++ "\x7b\x7d"
  | object (member :: rest) =>
      writeMembers layout depth
        (writeMember layout (depth + 1) (out ++ "\x7b" ++ layout.newline (depth + 1)) member)
        rest

/-- Writes the later items of an array and closes it. -/
def writeItems (layout : Layout) (depth : Nat) (out : String) : List Json → String
  | [] => out ++ layout.newline depth ++ "]"
  | item :: rest =>
      writeItems layout depth
        (write layout (depth + 1) (out ++ "," ++ layout.newline (depth + 1)) item) rest

/-- Writes the later members of an object and closes it. -/
def writeMembers (layout : Layout) (depth : Nat) (out : String) :
    List (Text × Json) → String
  | [] => out ++ layout.newline depth ++ "\x7d"
  | member :: rest =>
      writeMembers layout depth
        (writeMember layout (depth + 1) (out ++ "," ++ layout.newline (depth + 1)) member)
        rest

def writeMember (layout : Layout) (depth : Nat) (out : String) : Text × Json → String
  | (name, value) => write layout depth (out ++ quote name ++ layout.colon) value

end

def render (layout : Layout) (value : Json) : String := write layout 0 "" value

def compact (value : Json) : String := render .compact value

def pretty (value : Json) : String := render .pretty value

end TapeLang.Json
