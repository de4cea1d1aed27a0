/-!
# Arguments of the command line

Options may stand before and after the selector, and a value follows its option as the next
argument or after an equals sign. After `--` nothing is an option.
-/
namespace SelectorEngine

structure Arguments where
  selector : Option String := none
  tree : Option String := none
  config : Option String := none
  context : Option String := none
  testMatch : Bool := false
  json : Bool := false
  deriving DecidableEq, Repr

inductive UsageError where
  | unknownOption (name : String)
  | missingValue (name : String)
  | missing (name : String)
  | extraArgument (text : String)
  deriving DecidableEq, Repr

def UsageError.message : UsageError → String
  | unknownOption name => "unexpected argument '" ++ name ++ "' found"
  | missingValue name => "a value is required for '" ++ name ++ "' but none was supplied"
  | missing name => "the following required arguments were not provided: " ++ name
  | extraArgument text => "unexpected argument '" ++ text ++ "' found"

namespace Arguments

def valueOption? : String → Option (String → Arguments → Arguments)
  | "--tree" | "-t" => some fun value a => { a with tree := some value }
  | "--config" => some fun value a => { a with config := some value }
  | "--context" | "-c" => some fun value a => { a with context := some value }
  | _ => none

def flag? : String → Option (Arguments → Arguments)
  | "--matches" | "-m" => some fun a => { a with testMatch := true }
  | "--json" => some fun a => { a with json := true }
  | _ => none

def addSelector (text : String) (a : Arguments) : Except UsageError Arguments :=
  match a.selector with
  | none => .ok { a with selector := some text }
  | some _ => .error (.extraArgument text)

def splitOption (argument : String) : String × Option String :=
  let characters := argument.toList
  match characters.dropWhile (· != '=') with
  | [] => (argument, none)
  | _ :: value => (String.ofList (characters.takeWhile (· != '=')), some (String.ofList value))

def isOption (argument : String) : Bool :=
  match argument.toList with
  | '-' :: _ :: _ => true
  | _ => false

def readFrom (a : Arguments) : List String → Except UsageError Arguments
  | [] => .ok a
  | "--" :: texts => texts.foldlM (fun a text => addSelector text a) a
  | argument :: rest =>
    if isOption argument then
      let (name, value) := splitOption argument
      match valueOption? name, value, flag? name with
      | some use, some value, _ => readFrom (use value a) rest
      | some use, none, _ =>
        match rest with
        | value :: rest => readFrom (use value a) rest
        | [] => .error (.missingValue name)
      | none, none, some use => readFrom (use a) rest
      | none, _, _ => .error (.unknownOption name)
    else do readFrom (← addSelector argument a) rest

/-- The arguments of a command line, which has to name a tree and a selector. -/
def read (texts : List String) : Except UsageError (Arguments × String × String) := do
  let a ← readFrom {} texts
  match a.tree, a.selector with
  | some tree, some selector => return (a, tree, selector)
  | none, _ => .error (.missing "--tree <FILE>")
  | _, none => .error (.missing "<SELECTOR>")

end Arguments
end SelectorEngine
