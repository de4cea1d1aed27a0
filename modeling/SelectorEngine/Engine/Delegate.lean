import SelectorEngine.View.Basic
import SelectorEngine.Text.Letters
import SelectorEngine.Text.Blank

/-!
# Delegates

A host that can answer some selectors in a faster way is asked before the selector is read. It may
decline or fail, and then the engine answers. The fast path answers a single tag, class or
identifier from the indices of the view.
-/
namespace SelectorEngine

inductive DelegateError where
  | rejected (selector : String)
  | failed (selector : String)
  deriving DecidableEq, Repr

def DelegateError.message : DelegateError → String
  | rejected selector => "native query rejected \u0060" ++ selector ++ "\u0060"
  | failed selector => "native query failed: " ++ selector

/-- The answers of a delegate. One that is `none` is left to the engine. -/
structure Delegate (N : Type) where
  query : TreeView N → (selector : String) → (context : N) → Except DelegateError (Option (List N))
  decide : TreeView N → N → (selector : String) → Except DelegateError (Option Bool) :=
    fun _ _ _ => .ok none

inductive Shape where
  | tag (name : String)
  | className (name : String)
  | id (name : String)
  deriving DecidableEq, Repr

namespace Shape

def isWord (text : List Char) : Bool :=
  !text.isEmpty && text.all Text.isWordChar

def isHyphenated (text : List Char) : Bool :=
  !text.isEmpty && text.all fun c => Text.isWordChar c || c == '-'

def ofSelector? (selector : String) : Option Shape :=
  match selector.toList with
  | '.' :: name => if isHyphenated name then some (className (String.ofList name)) else none
  | '#' :: name => if isHyphenated name then some (id (String.ofList name)) else none
  | word => if isWord word then some (tag selector) else none

variable {N : Type} (view : TreeView N)

def query (context : N) : Shape → Option (List N)
  | tag name => some (view.elementsByTag context name)
  | className name => view.elementsByClass context name
  | id name =>
    if view.isDocumentRoot context then some (view.elementById context name).toList else none

/-- Whether an element has the shape. Tag names compare without regard to case. -/
def decide (n : N) : Shape → Option Bool
  | tag name => (view.tagName n).map (Text.sameLetters · name)
  | className name =>
    some ((view.classList n).any fun list => (Text.words list.toList).contains name.toList)
  | id name => some (view.attr n "id" == some name)

end Shape

def Delegate.byShape {N : Type} : Delegate N where
  query := fun view selector context =>
    .ok ((Shape.ofSelector? selector).bind (·.query view context))
  decide := fun view n selector =>
    .ok (if view.isElement n then (Shape.ofSelector? selector).bind (·.decide view n) else none)

end SelectorEngine
