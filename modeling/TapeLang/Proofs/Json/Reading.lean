import TapeLang.Json.Reader

/-!
The tokens of a value, and what the reader makes of them.  Whatever surrounds a value, its tokens
deliver it and nothing else, so that tokens stand for at most one value.
-/

namespace TapeLang.Json

mutual

def tokens : Json → List Token
  | null => [.null]
  | bool value => [.bool value]
  | number value => [.number value]
  | string value => [.string value]
  | array [] => [.openArray, .closeArray]
  | array (item :: rest) => .openArray :: (item.tokens ++ laterTokens rest)
  | object [] => [.openObject, .closeObject]
  | object (member :: rest) => .openObject :: (memberTokens member ++ laterMemberTokens rest)

/-- The tokens of the later items of an array, and of its end. -/
def laterTokens : List Json → List Token
  | [] => [.closeArray]
  | item :: rest => .comma :: (item.tokens ++ laterTokens rest)

def laterMemberTokens : List (Text × Json) → List Token
  | [] => [.closeObject]
  | member :: rest => .comma :: (memberTokens member ++ laterMemberTokens rest)

def memberTokens : Text × Json → List Token
  | (name, value) => .string name :: .colon :: value.tokens

end

open Reader

/-- The first item of an array is read like any other value. -/
theorem foldlM_itemOrClose (value : Json) (outer : List Frame) :
    value.tokens.foldlM feed (.itemOrClose outer) =
      value.tokens.foldlM feed (.valueDue (.array [] :: outer)) := by
  cases value with
  | null | bool | number | string => rfl
  | array items => cases items <;> simp [tokens, List.foldlM_cons, feed]
  | object members => cases members <;> simp [tokens, List.foldlM_cons, feed]

theorem foldlM_nameOrClose (member : Text × Json) (outer : List Frame) :
    (memberTokens member).foldlM feed (.nameOrClose outer) =
      (memberTokens member).foldlM feed (.nameDue [] outer) := by
  obtain ⟨name, value⟩ := member
  rw [memberTokens, List.foldlM_cons, List.foldlM_cons]
  rfl

mutual

theorem foldlM_tokens (outer : List Frame) :
    (value : Json) → value.tokens.foldlM feed (.valueDue outer) = some (deliver value outer)
  | null | bool _ | number _ | string _ => rfl
  | array [] | object [] => rfl
  | array (item :: rest) => by
      have first := foldlM_tokens (.array [] :: outer) item
      have later := foldlM_laterTokens [item] outer rest
      simp only [tokens, List.foldlM_cons, feed, start?, Option.bind_eq_bind, Option.bind_some,
        List.foldlM_append, foldlM_itemOrClose, first]
      exact later
  | object (member :: rest) => by
      have first := foldlM_memberTokens [] outer member
      have later := foldlM_laterMemberTokens [member] outer rest
      simp only [tokens, List.foldlM_cons, feed, start?, Option.bind_eq_bind, Option.bind_some,
        List.foldlM_append, foldlM_nameOrClose, first]
      exact later

theorem foldlM_laterTokens (items : List Json) (outer : List Frame) :
    (rest : List Json) → (laterTokens rest).foldlM feed (.afterItem items outer) =
      some (deliver (.array (items.reverse ++ rest)) outer)
  | [] => by simp [laterTokens, feed]
  | item :: rest => by
      have first := foldlM_tokens (.array items :: outer) item
      have later := foldlM_laterTokens (item :: items) outer rest
      simp only [laterTokens, List.foldlM_cons, feed, Option.bind_eq_bind, Option.bind_some,
        List.foldlM_append, first, deliver, later, List.reverse_cons, List.append_assoc,
        List.singleton_append]

theorem foldlM_laterMemberTokens (members : List (Text × Json)) (outer : List Frame) :
    (rest : List (Text × Json)) →
      (laterMemberTokens rest).foldlM feed (.afterMember members outer) =
        some (deliver (.object (members.reverse ++ rest)) outer)
  | [] => by simp [laterMemberTokens, feed]
  | member :: rest => by
      have first := foldlM_memberTokens members outer member
      have later := foldlM_laterMemberTokens (member :: members) outer rest
      simp only [laterMemberTokens, List.foldlM_cons, feed, Option.bind_eq_bind, Option.bind_some,
        List.foldlM_append, first, later, List.reverse_cons, List.append_assoc,
        List.singleton_append]

theorem foldlM_memberTokens (members : List (Text × Json)) (outer : List Frame) :
    (member : Text × Json) → (memberTokens member).foldlM feed (.nameDue members outer) =
      some (.afterMember (member :: members) outer)
  | (name, value) => by
      have read := foldlM_tokens (.member members name :: outer) value
      simp only [memberTokens, List.foldlM_cons, feed, Option.bind_eq_bind, Option.bind_some, read,
        deliver]

end

theorem ofTokens?_tokens (value : Json) : ofTokens? value.tokens = some value := by
  rw [ofTokens?, foldlM_tokens]
  rfl

end TapeLang.Json
