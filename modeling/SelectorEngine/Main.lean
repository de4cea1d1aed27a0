import SelectorEngine.Arguments
import SelectorEngine.CommandLine

/-!
# The program

Reads the files that the arguments name, runs the command line and writes its outcome.
-/
namespace SelectorEngine

def readSource (path : String) : IO CommandLine.File := do
  try
    return ⟨path, some (← IO.FS.readFile path)⟩
  catch _ =>
    return ⟨path, none⟩

def optionsOf (a : Arguments) (tree selector : String) : IO CommandLine.Options := do
  return {
    selector
    tree := ← readSource tree
    config := ← a.config.mapM readSource
    context := a.context
    testMatch := a.testMatch
    json := a.json }

end SelectorEngine

def main (texts : List String) : IO UInt32 := do
  match SelectorEngine.Arguments.read texts with
  | .error error =>
    IO.eprintln ("error: " ++ error.message)
    return 2
  | .ok (a, tree, selector) =>
    let outcome := SelectorEngine.CommandLine.run (← SelectorEngine.optionsOf a tree selector)
    IO.print outcome.output
    IO.eprint outcome.error
    return outcome.exitCode.toUInt32
