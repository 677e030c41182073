import TapeLang.Bytes

/-!
Decoding of bytes that may not be UTF-8.  The decoder takes one byte at a time.  Bytes
that could begin a character but are not completed to one are replaced together; a byte
that can begin no character is replaced on its own.
-/

namespace TapeLang.Utf8

/-- What stands for bytes that are not UTF-8. -/
def replacement : Char := '\uFFFD'

/-- A character of which bytes are missing. -/
structure Partial where
  /-- How many bytes are missing, not counting the next one. -/
  later : Nat
  /-- The least next byte that goes on with the character. -/
  low : UInt8
  /-- The greatest next byte that goes on with the character. -/
  high : UInt8
  /-- The bits of the code point that are known. -/
  bits : Nat
  deriving DecidableEq

/-- The character that a byte begins, if it begins one that takes more bytes. -/
def begin? (byte : UInt8) : Option Partial :=
  if byte < 0xC2 then none
  else if byte < 0xE0 then some ⟨0, 0x80, 0xBF, byte.toNat % 0x20⟩
  else if byte = 0xE0 then some ⟨1, 0xA0, 0xBF, 0⟩
  else if byte = 0xED then some ⟨1, 0x80, 0x9F, 0xD⟩
  else if byte < 0xF0 then some ⟨1, 0x80, 0xBF, byte.toNat % 0x10⟩
  else if byte = 0xF0 then some ⟨2, 0x90, 0xBF, 0⟩
  else if byte < 0xF4 then some ⟨2, 0x80, 0xBF, byte.toNat % 0x8⟩
  else if byte = 0xF4 then some ⟨2, 0x80, 0x8F, 4⟩
  else none

/-- The text so far, and the character in progress. -/
structure Decoder where
  text : String := ""
  current : Option Partial := none
  deriving DecidableEq

namespace Decoder

/-- Takes a byte where a character begins. -/
def start (text : String) (byte : UInt8) : Decoder :=
  if byte < 0x80 then { text := text.push (Char.ofNat byte.toNat) }
  else
    match begin? byte with
    | some begun => { text, current := some begun }
    | none => { text := text.push replacement }

def feed (d : Decoder) (byte : UInt8) : Decoder :=
  match d.current with
  | none => start d.text byte
  | some ⟨later, low, high, known⟩ =>
      if low ≤ byte ∧ byte ≤ high then
        let bits := known * 0x40 + byte.toNat % 0x40
        match later with
        | 0 => { text := d.text.push (Char.ofNat bits) }
        | later + 1 => { d with current := some ⟨later, 0x80, 0xBF, bits⟩ }
      else
        start (d.text.push replacement) byte

def finish (d : Decoder) : String :=
  match d.current with
  | none => d.text
  | some _ => d.text.push replacement

end Decoder

def decodeLossy (bytes : ByteArray) : String := (foldBytes Decoder.feed {} bytes).finish

def decode? (bytes : ByteArray) : Option String := String.fromUTF8? bytes

theorem decodeLossy_eq_foldl (bytes : ByteArray) :
    decodeLossy bytes = (bytes.data.toList.foldl Decoder.feed {}).finish := by
  rw [decodeLossy, foldBytes_eq_foldl]

end TapeLang.Utf8
