import SelectorEngine.Matching.Setting
import SelectorEngine.Text.Blank
import SelectorEngine.Text.Letters
import SelectorEngine.Text.Search

/-!
# Tests of one node

The simple selectors that can be decided by looking at a node and around it.
-/
namespace SelectorEngine
open Text

def padded (text : List Char) : List Char := ' ' :: text ++ [' ']

/-- Whether the value of an attribute stands in a relation to the operand. An operand without
characters stands in most relations to every value that has some. -/
def AttributeOperator.holds (operator : AttributeOperator) (value operand : List Char) : Bool :=
  match operator with
  | equals => value == operand
  | substring => occursIn operand value
  | includes => occursIn (padded operand) (padded value)
  | notEquals => if operand.isEmpty then !value.isEmpty else value != operand
  | startsWith => if operand.isEmpty then !value.isEmpty else operand.isPrefixOf value
  | endsWith => if operand.isEmpty then !value.isEmpty else operand.isSuffixOf value
  | dashMatch =>
    if operand.isEmpty then !value.isEmpty
    else value == operand || (operand ++ ['-']).isPrefixOf value

def AttributeTest.holds (test : AttributeTest) (value : Option String) : Bool :=
  match value, test.comparison with
  | none, some (.notEquals, _) => true
  | none, _ => false
  | some _, none => true
  | some value, some (operator, operand) => operator.holds value.toList operand.toList

def namesHeading : List Char → Bool
  | c :: d :: rest => (c.toLower == 'h' && d.isDigit) || namesHeading (d :: rest)
  | _ => false

def formControls : List String :=
  ["button", "fieldset", "input", "optgroup", "option", "select", "textarea"]

namespace TreeView

variable {N : Type} (view : TreeView N)

def isTag (n : N) (name : String) : Bool := (view.tagName n).any (sameLetters · name)

def hasAttr (n : N) (name : String) : Bool := (view.attr n name).isSome

def controlType (n : N) : Option String :=
  let declared := (view.attr n "type").map lowered
  if view.isTag n "input" then some (declared.getD "text")
  else if view.isTag n "button" then some (declared.getD "submit")
  else none

def isInputOfType (n : N) (type : String) : Bool :=
  view.isTag n "input" && view.controlType n == some type

def isFormControl (n : N) : Bool := formControls.any (view.isTag n)

/-- Whether the class stands between spaces in the class list, in which tabs and line ends count
as spaces. -/
def hasClass (n : N) (name : String) : Bool :=
  (view.classList n).any fun list =>
    occursIn (padded name.toList) <| padded <| list.toList.map fun c =>
      if c == '\t' || c == '\n' || c == '\r' then ' ' else c

def previousElement (n : N) : Option N := (view.earlierSiblings n).find? view.isElement

def nextElement (n : N) : Option N := (view.laterSiblings n).find? view.isElement

def isAtPlace (n : N) : ChildPosition → Bool
  | .first => (view.previousElement n).isNone
  | .last => (view.nextElement n).isNone
  | .only => (view.previousElement n).isNone && (view.nextElement n).isNone
  | .nth _ => false

def isInState [DecidableEq N] (n : N) : PseudoClass → Bool
  | .enabled => view.isFormControl n && !view.hasAttr n "disabled" && !view.isInputOfType n "hidden"
  | .disabled => view.isFormControl n && view.hasAttr n "disabled"
  | .checked => view.isTag n "input" && view.hasAttr n "checked"
  | .selected => view.isTag n "option" && view.hasAttr n "selected"
  | .parent => (view.firstChild n).isSome
  | .empty => (view.firstChild n).isNone
  | .header => (view.tagName n).any fun name => namesHeading name.toList
  | .text => view.isTag n "input" && (view.attr n "type").all (· == "text")
  | .radio => view.isInputOfType n "radio"
  | .checkbox => view.isInputOfType n "checkbox"
  | .file => view.isInputOfType n "file"
  | .password => view.isInputOfType n "password"
  | .image => view.isInputOfType n "image"
  | .submit => view.controlType n == some "submit"
  | .reset => view.controlType n == some "reset"
  | .button => view.isTag n "button" || view.isInputOfType n "button"
  | .input => ["input", "select", "textarea", "button"].any (view.isTag n)
  | .focus => view.activeElement == some n

end TreeView

namespace Setting

variable {N : Type} (s : Setting N)

def tagMatches (n : N) (name : String) : Bool :=
  s.view.isElement n && (s.view.tagName n).any fun tag =>
    if s.xml then tag == name else sameLetters tag name

/-- The value of an attribute. In HTML the view may keep classes and labels elsewhere. -/
def attrValue (n : N) (name : String) : Option String :=
  if s.xml then s.view.attr n name
  else if name = "class" then s.view.classList n
  else if name = "for" then s.view.htmlFor n
  else s.view.attr n name

/-- Whether an element satisfies a simple selector that neither looks at the other candidates nor
needs counting. Nothing but an element does. -/
def passes [DecidableEq N] (simple : Simple (Query N)) (n : N) : Bool :=
  s.view.isElement n &&
    match simple with
    | .universal => true
    | .tag name => s.tagMatches n name
    | .id id => s.view.attr n "id" == some id
    | .className name => s.view.hasClass n name
    | .attr test => test.holds (s.attrValue n test.name)
    | .child place => s.view.isAtPlace n place
    | .pseudo kind => s.view.isInState n kind
    | .contains text => occursIn text.toList (s.view.textContent n).toList
    | .has query => !(query.answer n none).isEmpty
    | .not _ | .position _ => false

end Setting
end SelectorEngine
