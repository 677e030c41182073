import TapeLang.Json.Token

/-!
Reading JSON: from tokens to a value.  A reader takes one token at a time and keeps
the arrays and objects that it is inside of on a stack.
-/

namespace TapeLang.Json

/-- An array or object around the value that is being read, its contents so far latest
first. -/
inductive Frame where
  | array (items : List Json)
  | member (members : List (Text × Json)) (name : Text)

/-- What may come next; `outer` is what surrounds it, the innermost first. -/
inductive Reader where
  | valueDue (outer : List Frame)
  /-- At the start of an array. -/
  | itemOrClose (outer : List Frame)
  /-- After an item of an array. -/
  | afterItem (items : List Json) (outer : List Frame)
  /-- At the start of an object. -/
  | nameOrClose (outer : List Frame)
  | nameDue (members : List (Text × Json)) (outer : List Frame)
  | colonDue (members : List (Text × Json)) (name : Text) (outer : List Frame)
  /-- After a member of an object. -/
  | afterMember (members : List (Text × Json)) (outer : List Frame)
  | done (value : Json)

namespace Reader

/-- Goes on after a complete value. -/
def deliver (value : Json) : List Frame → Reader
  | [] => done value
  | .array items :: outer => afterItem (value :: items) outer
  | .member members name :: outer => afterMember ((name, value) :: members) outer

def start? (outer : List Frame) : Token → Option Reader
  | .openArray => some (itemOrClose outer)
  | .openObject => some (nameOrClose outer)
  | .null => some (deliver .null outer)
  | .bool value => some (deliver (.bool value) outer)
  | .number value => some (deliver (.number value) outer)
  | .string value => some (deliver (.string value) outer)
  | _ => none

def feed : Reader → Token → Option Reader
  | valueDue outer, token => start? outer token
  | itemOrClose outer, .closeArray => some (deliver (.array []) outer)
  | itemOrClose outer, token => start? (.array [] :: outer) token
  | afterItem items outer, .comma => some (valueDue (.array items :: outer))
  | afterItem items outer, .closeArray => some (deliver (.array items.reverse) outer)
  | nameOrClose outer, .closeObject => some (deliver (.object []) outer)
  | nameOrClose outer, .string text => some (colonDue [] text outer)
  | nameDue members outer, .string text => some (colonDue members text outer)
  | colonDue members text outer, .colon => some (valueDue (.member members text :: outer))
  | afterMember members outer, .comma => some (nameDue members outer)
  | afterMember members outer, .closeObject =>
      some (deliver (.object members.reverse) outer)
  | _, _ => none

def result? : Reader → Option Json
  | done value => some value
  | _ => none

end Reader

def ofTokens? (tokens : List Token) : Option Json :=
  (tokens.foldlM Reader.feed (.valueDue [])).bind Reader.result?

def parse? (source : String) : Option Json := (tokens? source.toList).bind ofTokens?

end TapeLang.Json
