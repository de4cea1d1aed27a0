/-!
# Errors of reading a selector

Every error is a syntax error and names the expression it is about.
-/
namespace SelectorEngine

inductive SelectorError where
  | unrecognized (expression : String)
  | unterminated (expression : String)
  | unknownPseudoClass (name : String)
  | missingArgument (name : String)
  | unexpectedArgument (name : String)
  deriving DecidableEq, Repr

namespace SelectorError

def expression : SelectorError → String
  | unrecognized text | unterminated text => text
  | unknownPseudoClass name | missingArgument name | unexpectedArgument name => name

def detail : SelectorError → String
  | unrecognized text => text
  | unterminated text => text ++ " (unterminated)"
  | unknownPseudoClass name => "unsupported pseudo: " ++ name
  | missingArgument name => ":" ++ name ++ " requires an argument"
  | unexpectedArgument name => ":" ++ name ++ " takes no argument"

def message (error : SelectorError) : String :=
  "Syntax error, unrecognized expression: " ++ error.detail

end SelectorError

/-- What can be wrong at a place in a text, before it is known which expression the text is. -/
inductive Fault where
  | unrecognized
  | unterminated
  deriving DecidableEq, Repr

def Fault.within (expression : List Char) : Fault → SelectorError
  | .unrecognized => .unrecognized (String.ofList expression)
  | .unterminated => .unterminated (String.ofList expression)

end SelectorEngine
