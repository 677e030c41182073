/-!
Source text.  Eight bytes are symbols of the language and every other byte is a
comment, so that any text, and any sequence of bytes, is a source.
-/

namespace TapeLang

/-- The largest source that is loaded from a file, in bytes. -/
def sourceSizeLimit : Nat := 16 * 1024 * 1024

inductive Symbol where
  | right
  | left
  | increment
  | decrement
  | output
  | input
  | loopStart
  | loopEnd
  deriving DecidableEq

namespace Symbol

def toChar : Symbol → Char
  | right => '>'
  | left => '<'
  | increment => '+'
  | decrement => '-'
  | output => '.'
  | input => ','
  | loopStart => '['
  | loopEnd => ']'

def toByte (symbol : Symbol) : UInt8 := symbol.toChar.toUInt8

/-- The symbol that a byte stands for; comment bytes stand for none. -/
def ofByte? : UInt8 → Option Symbol
  | 62 => some right
  | 60 => some left
  | 43 => some increment
  | 45 => some decrement
  | 46 => some output
  | 44 => some input
  | 91 => some loopStart
  | 93 => some loopEnd
  | _ => none

@[simp] theorem ofByte?_toByte (symbol : Symbol) : ofByte? symbol.toByte = some symbol := by
  cases symbol <;> rfl

end Symbol

end TapeLang
