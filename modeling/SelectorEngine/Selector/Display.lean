import SelectorEngine.Selector.Spelling

/-!
# Displaying selectors

A simple selector is displayed in one fixed form. Compounds and lists are displayed as they were
written, and the parts of a branch with single spaces between them.
-/
namespace SelectorEngine

def AttributeTest.display (test : AttributeTest) : String :=
  match test.comparison with
  | none => "[" ++ test.name ++ "]"
  | some (operator, operand) =>
    "[" ++ test.name ++ operator.symbol ++ "\"" ++ operand ++ "\"]"

def ChildPosition.display : ChildPosition → String
  | first => ":first-child"
  | last => ":last-child"
  | only => ":only-child"
  | nth formula => ":nth-child(" ++ formula.display ++ ")"

def Position.display : Position → String
  | first => ":first"
  | last => ":last"
  | even => ":even"
  | odd => ":odd"
  | eq index => ":eq(" ++ toString index ++ ")"
  | lt index => ":lt(" ++ toString index ++ ")"
  | gt index => ":gt(" ++ toString index ++ ")"

def Simple.display : Simple SelectorList → String
  | .universal => "*"
  | .tag name => name
  | .id name => "#" ++ name
  | .className name => "." ++ name
  | .attr test => test.display
  | .child place => place.display
  | .pseudo kind => ":" ++ kind.keyword
  | .contains text => ":contains(" ++ text ++ ")"
  | .has argument => ":has(" ++ argument.source ++ ")"
  | .not argument => ":not(" ++ argument.source ++ ")"
  | .position place => place.display

variable {A : Type}

def Compound.display (c : Compound A) : String := c.source

def Part.source : Part A → String
  | compound block => block.source
  | combinator relation => relation.symbol

def Complex.display (c : Complex A) : String := " ".intercalate (c.parts.map Part.source)

end SelectorEngine
