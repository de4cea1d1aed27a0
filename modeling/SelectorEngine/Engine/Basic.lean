import SelectorEngine.Engine.Delegate
import SelectorEngine.Matching.Meaning
import SelectorEngine.Selector.Reader

/-!
# The engine

Selecting the nodes below a context, filtering a list of nodes, and testing one node. A delegate
is asked first where there is one and nothing speaks against it.
-/
namespace SelectorEngine

structure Engine (N : Type) where
  view : TreeView N
  config : Config := {}
  delegate : Option (Delegate N) := none

structure Selection (N : Type) where
  results : List N
  error : Option SelectorError := none
  deriving DecidableEq, Repr

def Selection.toExcept {N : Type} (s : Selection N) : Except SelectorError (List N) :=
  match s.error with
  | none => .ok s.results
  | some error => .error error

namespace Engine

variable {N : Type} [DecidableEq N] (e : Engine N)

/-- Whether a selection is nothing but its results so far: below a node that is no context, or for
a blank selector. -/
def isIdle (selector : String) (context : N) : Bool :=
  !e.view.isContext context || (Text.trim selector.toList).isEmpty

/-- The answer of the delegate. It is not asked about a seed or in an XML document. -/
def delegated (selector : String) (context : N) (seed : Option (List N)) :
    Except DelegateError (Option (List N)) :=
  match e.delegate with
  | none => .ok none
  | some delegate =>
    if e.config.nativeQuery && seed.isNone && !e.view.isXml context then
      delegate.query e.view selector context
    else .ok none

def selectRead (selector : String) (context : N) (results : List N) (seed : Option (List N)) :
    Selection N :=
  match SelectorList.parse selector with
  | .error error => ⟨results, some error⟩
  | .ok list =>
    ⟨settle e.view list.branches.length (results ++ list.found e.view e.config context seed), none⟩

/-- The results so far with what a selector selects below a context, out of a seed if there is
one. The answers of several branches are merged in document order with the results so far. -/
def selectInto (selector : String) (context : N) (results : List N) (seed : Option (List N)) :
    Selection N :=
  if e.isIdle selector context then ⟨results, none⟩
  else match e.delegated selector context seed with
    | .ok (some found) => ⟨results ++ found, none⟩
    | _ => e.selectRead selector context results seed

def warning? (selector : String) (context : N) (seed : Option (List N)) : Option String :=
  if e.isIdle selector context then none
  else match e.delegated selector context seed with
    | .ok _ => none
    | .error error => some ("falling back from native query: " ++ error.message)

def component : String := "select"

def select (selector : String) (context : N) : Except SelectorError (List N) :=
  (e.selectInto selector context [] none).toExcept

def selectFrom (selector : String) (context : N) (seed : List N) : Except SelectorError (List N) :=
  (e.selectInto selector context [] (some seed)).toExcept

def filter (selector : String) (nodes : List N) : Except SelectorError (List N) :=
  e.selectFrom selector e.view.documentRoot nodes

def delegatedMatch (n : N) (selector : String) : Except DelegateError (Option Bool) :=
  match e.delegate with
  | none => .ok none
  | some delegate =>
    if e.config.nativeQuery && !e.view.isXml n then delegate.decide e.view n selector
    else .ok none

def isMatch (n : N) (selector : String) : Except SelectorError Bool :=
  match e.delegatedMatch n selector with
  | .ok (some answer) => .ok answer
  | _ => (e.filter selector [n]).map (!·.isEmpty)

end Engine
end SelectorEngine
