import SelectorEngine.Selector.Basic

/-!
# Spellings

The fixed symbols and keywords of selectors. Each is written in one way; `ofChar?`, `ofLead?` and
`ofKeyword?` read it back.
-/
namespace SelectorEngine

def Combinator.symbol : Combinator → String
  | descendant => ""
  | child => ">"
  | adjacent => "+"
  | general => "~"

def Combinator.ofChar? : Char → Option Combinator
  | '>' => some child
  | '+' => some adjacent
  | '~' => some general
  | _ => none

def AttributeOperator.symbol : AttributeOperator → String
  | equals => "="
  | notEquals => "!="
  | includes => "~="
  | dashMatch => "|="
  | startsWith => "^="
  | endsWith => "$="
  | substring => "*="

def AttributeOperator.ofLead? : Char → Option AttributeOperator
  | '!' => some notEquals
  | '~' => some includes
  | '|' => some dashMatch
  | '^' => some startsWith
  | '$' => some endsWith
  | '*' => some substring
  | _ => none

namespace PseudoClass

def keyword : PseudoClass → String
  | enabled => "enabled"
  | disabled => "disabled"
  | checked => "checked"
  | selected => "selected"
  | parent => "parent"
  | empty => "empty"
  | header => "header"
  | text => "text"
  | radio => "radio"
  | checkbox => "checkbox"
  | file => "file"
  | password => "password"
  | submit => "submit"
  | image => "image"
  | reset => "reset"
  | button => "button"
  | input => "input"
  | focus => "focus"

def all : List PseudoClass :=
  [enabled, disabled, checked, selected, parent, empty, header, text, radio, checkbox, file,
    password, submit, image, reset, button, input, focus]

end PseudoClass

/-- What a keyword after a colon stands for, and so whether an argument follows it. -/
inductive PseudoForm where
  | child (place : ChildPosition)
  | state (kind : PseudoClass)
  | position (place : Position)
  | nthChild
  | indexed (place : Nat → Position)
  | contains
  | has
  | not

namespace PseudoForm

def ofKeyword? (keyword : String) : Option PseudoForm :=
  match keyword with
  | "first-child" => some (child .first)
  | "last-child" => some (child .last)
  | "only-child" => some (child .only)
  | "nth-child" => some nthChild
  | "first" => some (position .first)
  | "last" => some (position .last)
  | "even" => some (position .even)
  | "odd" => some (position .odd)
  | "eq" => some (indexed .eq)
  | "nth" => some (indexed .eq)
  | "lt" => some (indexed .lt)
  | "gt" => some (indexed .gt)
  | "contains" => some contains
  | "has" => some has
  | "not" => some not
  | other => (PseudoClass.all.find? (·.keyword == other)).map state

end PseudoForm
end SelectorEngine
