import SelectorEngine.Tree.Basic
import SelectorEngine.Walk

/-!
# Walks through a tree

All walks follow the links. In a tree without a circle of links each of them meets a node at most
once, so that the number of nodes bounds it.
-/
namespace SelectorEngine.Tree

variable (t : Tree)

/-- A number of steps that no walk without a circle reaches. -/
def bound : Nat := t.size + 1

def ancestors (n : NodeId) : List NodeId := walk t.parent t.bound (t.parent n)

/-- The node after `n` in the order of a walk through everything below `scope`: its first child,
else the next sibling of the first node that has one on the way from `n` up to `scope`. -/
def successor (scope n : NodeId) : Option NodeId :=
  (t.firstChild n).orElse fun _ =>
    ((n :: t.ancestors n).takeWhile (· ≠ scope)).findSome? t.nextSibling

def descendants (scope : NodeId) : List NodeId :=
  walk (t.successor scope) t.bound (t.firstChild scope)

/-- Whether `n` lies below `ancestor`. No node lies below itself. -/
def isBelow (n ancestor : NodeId) : Bool := (t.ancestors n).contains ancestor

def textContent (n : NodeId) : String :=
  match t.text n with
  | some data => data
  | none => String.join ((t.descendants n).filterMap t.text)

end SelectorEngine.Tree
