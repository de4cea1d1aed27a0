import SelectorEngine.Config
import SelectorEngine.Json.Quoted
import SelectorEngine.Json.Reader

/-!
# The text of a configuration

A configuration is an object of truth values. A switch that is missing is on, and members of any
other name are ignored.
-/
namespace SelectorEngine.Config

def ofJson? : Json → Option Config
  | .object members => do
    guard (Json.keysSound members)
    let nativeQuery ← Json.boolMember? members "native-query" true
    let classLookup ← Json.boolMember? members "class-lookup" true
    let nameLookup ← Json.boolMember? members "name-lookup" true
    return ⟨nativeQuery, classLookup, nameLookup⟩
  | _ => none

def parse (text : String) : Option Config := (Json.parse text).bind ofJson?

def switches (c : Config) : List (String × Bool) :=
  [("native-query", c.nativeQuery), ("class-lookup", c.classLookup), ("name-lookup", c.nameLookup)]

def render (c : Config) : String :=
  let members := c.switches.map fun (name, value) => Json.quoted name ++ ":" ++ toString value
  "\x7b" ++ ",".intercalate members ++ "\x7d"

end SelectorEngine.Config
