import SelectorEngine.Tree.Basic

/-!
# Editing a tree

Nodes are first allocated and then attached. An edit changes the links one after the other and
trusts its caller: a node that is attached anew is not detached from its old parent first. An edit
of a node that is not in the tree has no result.
-/
namespace SelectorEngine.Tree

def update (t : Tree) (n : NodeId) (change : Node → Node) : Tree :=
  { t with nodes := t.nodes.modify n change }

def alloc (t : Tree) (kind : NodeKind) : NodeId × Tree :=
  (t.size, { t with nodes := t.nodes.push { kind } })

def setParent (n : NodeId) (parent : Option NodeId) (t : Tree) : Tree :=
  t.update n ({ · with parent })

def setNext (n : NodeId) (nextSibling : Option NodeId) (t : Tree) : Tree :=
  t.update n ({ · with nextSibling })

def setPrevious (n : NodeId) (previousSibling : Option NodeId) (t : Tree) : Tree :=
  t.update n ({ · with previousSibling })

def changeChildren (n : NodeId) (change : List NodeId → List NodeId) (t : Tree) : Tree :=
  t.update n fun node => { node with children := change node.children }

def linkBehind (last : Option NodeId) (child : NodeId) (t : Tree) : Tree :=
  match last with
  | some last => t |>.setNext last (some child) |>.setPrevious child (some last)
  | none => t

/-- Attaches `child` as the last child of `parent`, both of which are in the tree. -/
def attachLast (parent child : NodeId) (t : Tree) : Tree :=
  t |>.changeChildren parent (· ++ [child])
    |>.setParent child (some parent)
    |>.linkBehind (t.children parent).getLast? child

def appendChild (t : Tree) (parent child : NodeId) : Option Tree :=
  if parent < t.size ∧ child < t.size then some (t.attachLast parent child) else none

def append (t : Tree) (parent : NodeId) (kind : NodeKind) : Option (NodeId × Tree) :=
  let (n, t) := t.alloc kind
  (t.appendChild parent n).map (n, ·)

def linkBefore (child reference : NodeId) (before : Option NodeId) (t : Tree) : Tree :=
  let t := t |>.setPrevious child before
    |>.setNext child (some reference)
    |>.setPrevious reference (some child)
  match before with
  | some before => t.setNext before (some child)
  | none => t

/-- Attaches `child` to `parent` before `reference`, or as the last child if `reference` is not a
child of `parent`. -/
def insertBefore (t : Tree) (parent child reference : NodeId) : Option Tree :=
  match (t.children parent).idxOf? reference with
  | none => t.appendChild parent child
  | some index =>
    if child < t.size then
      some <| t |>.changeChildren parent (·.insertIdx index child)
        |>.setParent child (some parent)
        |>.linkBefore child reference (t.previousSibling reference)
    else none

def bridge (before after : Option NodeId) (t : Tree) : Tree :=
  let t := match before with
    | some before => t.setNext before after
    | none => t
  match after with
  | some after => t.setPrevious after before
  | none => t

/-- Detaches `child` from `parent`, if it is a child of it. What is below `child` stays. -/
def removeChild (t : Tree) (parent child : NodeId) : Option Tree :=
  if parent < t.size then
    if child ∈ t.children parent then
      some <| t |>.changeChildren parent (·.erase child)
        |>.update child (fun node =>
          { node with parent := none, nextSibling := none, previousSibling := none })
        |>.bridge (t.previousSibling child) (t.nextSibling child)
    else some t
  else none

def focus (t : Tree) (n : Option NodeId) : Tree := { t with focused := n }

end SelectorEngine.Tree
