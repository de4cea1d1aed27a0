import SelectorEngine.Json.Decimal

/-!
# JSON values

Values as they are read from a text. The members of an object keep their order. A string or a key
that holds half of a surrogate pair has no text.
-/
namespace SelectorEngine

inductive Json where
  | null
  | bool (value : Bool)
  | number (value : Decimal)
  | string (text : Option String)
  | array (items : List Json)
  | object (members : List (Option String × Json))

namespace Json

mutual

/-- Whether all numbers are finite and all strings and keys have a text. -/
def isSound : Json → Bool
  | null | bool _ => true
  | number value => value.isFinite
  | string text => text.isSome
  | array items => itemsSound items
  | object members => membersSound members

def itemsSound : List Json → Bool
  | [] => true
  | item :: items => item.isSound && itemsSound items

def membersSound : List (Option String × Json) → Bool
  | [] => true
  | (key, value) :: members => key.isSome && value.isSound && membersSound members

end

abbrev Members := List (Option String × Json)

def keysSound (members : Members) : Bool := members.all (·.1.isSome)

def find? (members : Members) (key : String) : Option Json :=
  (members.find? (·.1 == some key)).map (·.2)

def boolMember? (members : Members) (key : String) (missing : Bool) : Option Bool :=
  match find? members key with
  | none => some missing
  | some (bool value) => some value
  | some _ => none

def stringMember? (members : Members) (key : String) : Option String :=
  match find? members key with
  | some (string text) => text
  | _ => none

end Json
end SelectorEngine
