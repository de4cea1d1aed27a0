import SelectorEngine.Tree.Placement
import SelectorEngine.Walk

/-!
# Views of a tree

The engine reads a tree through a view: functions on the handles of its nodes. An outline holds
what every tree can answer. What a tree may answer in a faster or in another way stands in the
view; a plain view answers it from the outline alone.
-/
namespace SelectorEngine

structure Outline (N : Type) where
  documentRoot : N
  isDocumentRoot : N → Bool
  isElement : N → Bool
  isXml : N → Bool
  parent : N → Option N
  firstChild : N → Option N
  nextSibling : N → Option N
  previousSibling : N → Option N
  tagName : N → Option String
  attr : N → String → Option String
  text : N → Option String
  elementById : N → String → Option N
  elementsByTag : N → String → List N
  /-- An order of the handles, which decides between nodes of different trees. -/
  compareHandles : N → N → Ordering
  /-- A number of steps that no walk without a circle reaches. -/
  bound : Nat

structure TreeView (N : Type) extends Outline N where
  classList : N → Option String
  htmlFor : N → Option String
  textContent : N → String
  /-- The elements with a name, if the view keeps an index of them. -/
  elementsByName : N → String → Option (List N)
  elementsByClass : N → String → Option (List N)
  /-- Where the second node is, seen from the first, if the view can tell. -/
  placement : N → N → Option Placement
  contains : N → N → Bool
  activeElement : Option N

variable {N : Type}

namespace Outline

def ancestors (o : Outline N) (n : N) : List N := walk o.parent o.bound (o.parent n)

def earlierSiblings (o : Outline N) (n : N) : List N :=
  walk o.previousSibling o.bound (o.previousSibling n)

def laterSiblings (o : Outline N) (n : N) : List N :=
  walk o.nextSibling o.bound (o.nextSibling n)

def children (o : Outline N) (n : N) : List N := walk o.nextSibling o.bound (o.firstChild n)

/-- The content with the text of the nodes that are put aside, the last one first: of each node, of
everything below it, and then of what follows it among its siblings. It ends after a number of
rounds. -/
def gatherText (o : Outline N) : (rounds : Nat) → (content : String) → (aside : List N) → String
  | 0, content, _ => content
  | _, content, [] => content
  | rounds + 1, content, n :: aside =>
    o.gatherText rounds (content ++ (o.text n).getD "")
      ((o.firstChild n).toList ++ (o.nextSibling n).toList ++ aside)

/-- The text of a text node, else that of everything below a node. There are rounds enough for links
that never lead back, even where they lead to one node in several ways. -/
def textContent (o : Outline N) (n : N) : String :=
  match o.text n with
  | some data => data
  | none => o.gatherText (Nat.pow 2 o.bound) "" (o.firstChild n).toList

def plain [DecidableEq N] (o : Outline N) : TreeView N :=
  { o with
    classList := (o.attr · "class")
    htmlFor := (o.attr · "for")
    textContent := o.textContent
    elementsByName := fun _ _ => none
    elementsByClass := fun _ _ => none
    placement := fun _ _ => none
    contains := fun ancestor n => (o.ancestors n).contains ancestor
    activeElement := none }

end Outline

def TreeView.isContext (view : TreeView N) (n : N) : Bool :=
  view.isElement n || view.isDocumentRoot n

end SelectorEngine
