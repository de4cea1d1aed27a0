import SelectorEngine.Tree.Traversal

/-!
# The place of one node relative to another

Nodes of one tree are compared by the paths that lead to them from the top. Nodes of different
trees are ordered by the indices of the topmost nodes, so that any two nodes have an order.
-/
namespace SelectorEngine

/-- Where a node is, seen from a node of reference. No flag is set for the same node. -/
structure Placement where
  disconnected : Bool := false
  preceding : Bool := false
  following : Bool := false
  contains : Bool := false
  containedBy : Bool := false
  implementationSpecific : Bool := false
  deriving DecidableEq, Repr

namespace Placement

def weights (p : Placement) : List (Bool × Nat) :=
  [(p.disconnected, 1), (p.preceding, 2), (p.following, 4), (p.contains, 8), (p.containedBy, 16),
    (p.implementationSpecific, 32)]

def bits (p : Placement) : Nat := ((p.weights.filter (·.1)).map (·.2)).foldr (· + ·) 0

def isSame (p : Placement) : Bool := p == {}

end Placement

namespace Tree

variable (t : Tree)

def path (n : NodeId) : List NodeId := (t.ancestors n).reverse ++ [n]

/-- Whether one child stands before another in the list of children. A node that is not in the
list stands before those that are. -/
def childBefore (children : List NodeId) (a b : NodeId) : Bool :=
  match children.idxOf? a, children.idxOf? b with
  | some i, some j => i < j
  | none, some _ => true
  | _, none => false

/-- The place of the node at the end of the path `theirs`, seen from the end of `ours`, where
`parent` is the last node that the paths have shared so far. -/
def placementBelow (parent : NodeId) : (ours theirs : List NodeId) → Placement
  | [], _ => { containedBy := true, following := true }
  | _ :: _, [] => { contains := true, preceding := true }
  | a :: ours, b :: theirs =>
    if a = b then placementBelow a ours theirs
    else if childBefore (t.children parent) a b then { following := true }
    else { preceding := true }

def placement (reference other : NodeId) : Placement :=
  if reference = other then {}
  else match t.path reference, t.path other with
    | ours :: above, theirs :: below =>
      if ours = theirs then t.placementBelow ours above below
      else
        { disconnected := true, implementationSpecific := true,
          following := ours < theirs, preceding := !(ours < theirs) }
    | _, _ => {}

end Tree
end SelectorEngine
