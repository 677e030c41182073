/-!
JSON values.  Objects keep their members in order, repeated names included.
-/

namespace TapeLang

namespace Json

/-- What a string stands for: nothing, if it names a surrogate that is not part of a
pair. -/
abbrev Text := Option String

inductive Number where
  | integer (value : Int)
  /-- A number with a fraction or an exponent, or a negative zero, as it is written. -/
  | real (literal : String)
  deriving DecidableEq

end Json

inductive Json where
  | null
  | bool (value : Bool)
  | number (value : Json.Number)
  | string (value : Json.Text)
  | array (items : List Json)
  | object (members : List (Json.Text × Json))

namespace Json

def text (value : String) : Json := string (some value)

def integer (value : Int) : Json := number (.integer value)

end Json

end TapeLang
