import SelectorEngine.ConfigText
import SelectorEngine.Engine.Basic
import SelectorEngine.Blueprint
import SelectorEngine.View.Document

/-!
# The command line

The program reads a document from a file, evaluates a selector in it, and writes what it has
found. `run` computes all that it writes from the options and the files.
-/
namespace SelectorEngine.CommandLine

structure File where
  path : String
  content : Option String

structure Options where
  selector : String
  tree : File
  config : Option File := none
  /-- The identifier of the element below which to select. -/
  context : Option String := none
  testMatch : Bool := false
  json : Bool := false

structure Outcome where
  exitCode : Nat := 0
  output : String := ""
  error : String := ""
  deriving DecidableEq, Repr

inductive RunError where
  | reading (path : String)
  | parsing (path : String)
  | noElement (id : String)
  | selector (error : SelectorError)
  deriving DecidableEq, Repr

def RunError.message : RunError → String
  | reading path => "reading " ++ path
  | parsing path => "parsing " ++ path
  | noElement id => "no element with id \u0060" ++ id ++ "\u0060"
  | selector error => error.message

def File.load {A : Type} (f : File) (parse : String → Option A) : Except RunError A :=
  match f.content with
  | none => .error (.reading f.path)
  | some content =>
    match parse content with
    | none => .error (.parsing f.path)
    | some value => .ok value

def green (text : String) : String := "\x1b[32m" ++ text ++ "\x1b[39m"

def red (text : String) : String := "\x1b[31m" ++ text ++ "\x1b[39m"

def bold (text : String) : String := "\x1b[1m" ++ text ++ "\x1b[0m"

def describeElement (t : Tree) (n : NodeId) (tag : String) : String :=
  let id := match t.attr n "id" with
    | some id => "#" ++ id
    | none => ""
  tag ++ id ++ String.join ((t.classes n).map fun name => "." ++ String.ofList name)

def describe (t : Tree) (n : NodeId) : String :=
  let steps := (t.path n).filterMap fun m => (t.tagName m).map (describeElement t m)
  if steps.isEmpty then "#document" else " > ".intercalate steps

def outcomeOfMatch (t : Tree) (n : NodeId) (isMatch : Bool) : Outcome :=
  if isMatch then { output := bold (green "match") ++ " " ++ describe t n ++ "\n" }
  else { exitCode := 1, output := bold (red "no match") ++ " " ++ describe t n ++ "\n" }

def outcomeOfNodes (t : Tree) (nodes : List NodeId) (json : Bool) : Outcome :=
  let lines := nodes.map (describe t)
  if json then { output := Json.stringArray lines ++ "\n" }
  else
    let summary := bold (toString nodes.length ++ " match(es)")
    { output := String.join ((lines.map green ++ [summary]).map (· ++ "\n")) }

def contextOf (t : Tree) : Option String → Except RunError NodeId
  | none => .ok Tree.root
  | some id =>
    match t.elementById Tree.root id with
    | some n => .ok n
    | none => .error (.noElement id)

def evaluate (o : Options) : Except RunError Outcome := do
  let t := (← o.tree.load Blueprint.parse).build
  let config ← match o.config with
    | none => pure {}
    | some file => file.load Config.parse
  let context ← contextOf t o.context
  let engine : Engine NodeId := { view := t.view, config, delegate := some .byShape }
  if o.testMatch then
    return outcomeOfMatch t context (← (engine.isMatch context o.selector).mapError .selector)
  else
    return outcomeOfNodes t (← (engine.select o.selector context).mapError .selector) o.json

def run (o : Options) : Outcome :=
  match evaluate o with
  | .ok outcome => outcome
  | .error error => { exitCode := 1, error := "Error: " ++ error.message ++ "\n" }

end SelectorEngine.CommandLine
