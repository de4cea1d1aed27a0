import SelectorEngine.Config
import SelectorEngine.Matching.Marks
import SelectorEngine.Selector.Basic
import SelectorEngine.View.Order

/-!
# Settings and queries

A selector list that stands as an argument is met only through what it means: a query, which
answers below any context and may be negated in place.
-/
namespace SelectorEngine

/-- What one branch is evaluated with. Whether names compare as in an XML document is decided once
by the context, and not node by node. -/
structure Setting (N : Type) where
  view : TreeView N
  config : Config
  xml : Bool

abbrev Verdicts (N : Type) := List N → (negate : Bool) → Marks N → List Bool × Marks N

/-- What a selector list means in a view. -/
structure Query (N : Type) where
  positional : Bool
  answer : (context : N) → (seed : Option (List N)) → List N
  /-- The verdicts of the only simple selector of the list, if the list is one that can be negated
  without being evaluated on its own. -/
  inPlace : Option ((xml : Bool) → Verdicts N)

end SelectorEngine
