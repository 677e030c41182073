import TapeLang.Json.Basic

/-!
The tokens of JSON text.  A lexer takes one character at a time; a number or a word
ends where a character follows that cannot belong to it.
-/

namespace TapeLang.Json

inductive Token where
  | openArray
  | closeArray
  | openObject
  | closeObject
  | comma
  | colon
  | null
  | bool (value : Bool)
  | number (value : Number)
  | string (value : Text)
  deriving DecidableEq

namespace Number

/-- Whether the text is an optional sign and at least one digit. -/
def isExponent : List Char → Bool
  | '+' :: digits | '-' :: digits | digits => !digits.isEmpty && digits.all Char.isDigit

/-- Whether the text is empty or an exponent with its mark. -/
def isScale : List Char → Bool
  | [] => true
  | 'e' :: rest | 'E' :: rest => isExponent rest
  | _ => false

/-- Whether the text may follow the digits before the point. -/
def isTail : List Char → Bool
  | '.' :: rest => (rest.head?.any Char.isDigit) && isScale (rest.dropWhile Char.isDigit)
  | rest => isScale rest

/-- Whether the digits are a whole number without superfluous zeros. -/
def isWhole : List Char → Bool
  | [] => false
  | ['0'] => true
  | first :: _ => first != '0'

def digitsValue (digits : List Char) : Nat :=
  digits.foldl (fun value digit => 10 * value + (digit.toNat - '0'.toNat)) 0

def ofLiteral? (literal : List Char) : Option Number :=
  let negative := literal.head? == some '-'
  let unsigned := if negative then literal.tail else literal
  let whole := unsigned.takeWhile Char.isDigit
  let tail := unsigned.dropWhile Char.isDigit
  if isWhole whole && isTail tail then
    if tail.isEmpty && !(negative && whole == ['0']) then
      let value : Int := digitsValue whole
      some (integer (if negative then -value else value))
    else
      some (real (String.ofList literal))
  else
    none

end Number

/-- The parts of a string: characters, and the UTF-16 units that escapes name. -/
inductive Piece where
  | char (value : Char)
  | unit (value : Nat)
  deriving DecidableEq

def isHighSurrogate (unit : Nat) : Bool := 0xD800 ≤ unit && unit < 0xDC00

def isLowSurrogate (unit : Nat) : Bool := 0xDC00 ≤ unit && unit < 0xE000

def pairSurrogates (high low : Nat) : Char :=
  Char.ofNat (0x10000 + (high - 0xD800) * 0x400 + (low - 0xDC00))

/-- The characters of a string, unless a surrogate is left without a partner. -/
def Piece.chars? : List Piece → Option (List Char)
  | [] => some []
  | .char value :: rest => (chars? rest).map (value :: ·)
  | .unit high :: .unit low :: rest =>
      if isHighSurrogate high then
        if isLowSurrogate low then (chars? rest).map (pairSurrogates high low :: ·) else none
      else if isLowSurrogate high then none
      else (chars? (.unit low :: rest)).map (Char.ofNat high :: ·)
  | .unit single :: rest =>
      if isHighSurrogate single || isLowSurrogate single then none
      else (chars? rest).map (Char.ofNat single :: ·)

/-- The character that a backslash and this one stand for; `u` starts a longer escape. -/
def unescape? : Char → Option Char
  | '"' => some '"'
  | '\\' => some '\\'
  | '/' => some '/'
  | 'b' => some '\x08'
  | 'f' => some '\x0c'
  | 'n' => some '\n'
  | 'r' => some '\r'
  | 't' => some '\t'
  | _ => none

def hexValue? (digit : Char) : Option Nat :=
  if digit.isDigit then some (digit.toNat - '0'.toNat)
  else if 'a' ≤ digit && digit ≤ 'f' then some (digit.toNat - 'a'.toNat + 10)
  else if 'A' ≤ digit && digit ≤ 'F' then some (digit.toNat - 'A'.toNat + 10)
  else none

def isBlank (c : Char) : Bool := c == ' ' || c == '\t' || c == '\n' || c == '\r'

def continuesNumber (c : Char) : Bool :=
  c.isDigit || c == '+' || c == '-' || c == '.' || c == 'e' || c == 'E'

def wordToken? : List Char → Option Token
  | ['n', 'u', 'l', 'l'] => some .null
  | ['t', 'r', 'u', 'e'] => some (.bool true)
  | ['f', 'a', 'l', 's', 'e'] => some (.bool false)
  | _ => none

def punctuation? : Char → Option Token
  | '[' => some .openArray
  | ']' => some .closeArray
  | '\x7b' => some .openObject
  | '\x7d' => some .closeObject
  | ',' => some .comma
  | ':' => some .colon
  | _ => none

/-- The token that the lexer is inside of, its characters or pieces latest first. -/
inductive LexerMode where
  | between
  | word (letters : List Char)
  | number (literal : List Char)
  | string (pieces : List Piece)
  | escape (pieces : List Piece)
  /-- Inside of an escape by number, with so many digits still to come. -/
  | unit (pieces : List Piece) (missing value : Nat)
  deriving DecidableEq

/-- The tokens so far, the latest first. -/
structure Lexer where
  tokens : List Token := []
  mode : LexerMode := .between
  deriving DecidableEq

namespace Lexer

def push (l : Lexer) (token : Token) : Lexer := { tokens := token :: l.tokens }

/-- Ends the open word or number; an open string has no end here. -/
def close? (l : Lexer) : Option Lexer :=
  match l.mode with
  | .between => some l
  | .word letters => (wordToken? letters.reverse).map l.push
  | .number literal => (Number.ofLiteral? literal.reverse).map fun value => l.push (.number value)
  | .string _ | .escape _ | .unit _ _ _ => none

def open? (l : Lexer) (c : Char) : Option Lexer :=
  if isBlank c then some l
  else if c == '"' then some { l with mode := .string [] }
  else if c == '-' || c.isDigit then some { l with mode := .number [c] }
  else if c.isLower then some { l with mode := .word [c] }
  else (punctuation? c).map l.push

def feed (l : Lexer) (c : Char) : Option Lexer :=
  match l.mode with
  | .between => l.open? c
  | .word letters =>
      if c.isLower then some { l with mode := .word (c :: letters) }
      else l.close?.bind (open? · c)
  | .number literal =>
      if continuesNumber c then some { l with mode := .number (c :: literal) }
      else l.close?.bind (open? · c)
  | .string pieces =>
      if c == '"' then some (l.push (.string ((Piece.chars? pieces.reverse).map String.ofList)))
      else if c == '\\' then some { l with mode := .escape pieces }
      else if c.toNat < 0x20 then none
      else some { l with mode := .string (.char c :: pieces) }
  | .escape pieces =>
      if c == 'u' then some { l with mode := .unit pieces 4 0 }
      else (unescape? c).map fun value => { l with mode := .string (.char value :: pieces) }
  | .unit pieces missing value =>
      (hexValue? c).map fun digit =>
        let value := 16 * value + digit
        if missing ≤ 1 then { l with mode := .string (.unit value :: pieces) }
        else { l with mode := .unit pieces (missing - 1) value }

end Lexer

def tokens? (source : List Char) : Option (List Token) :=
  ((source.foldlM Lexer.feed {}).bind Lexer.close?).map fun l => l.tokens.reverse

end TapeLang.Json
