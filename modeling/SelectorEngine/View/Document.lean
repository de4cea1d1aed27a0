import SelectorEngine.View.Basic
import SelectorEngine.Tree.Lookup

/-!
# The views of a tree of nodes

A tree can be seen with its own indices or through its links alone.
-/
namespace SelectorEngine.Tree

variable (t : Tree)

def outline : Outline NodeId where
  documentRoot := root
  isDocumentRoot := t.isDocument
  isElement := t.isElement
  isXml := fun _ => t.isXml
  parent := t.parent
  firstChild := t.firstChild
  nextSibling := t.nextSibling
  previousSibling := t.previousSibling
  tagName := t.tagName
  attr := t.attr
  text := t.text
  elementById := t.elementById
  elementsByTag := t.elementsByTag
  compareHandles := compare
  bound := t.bound

/-- The view with the indices of the tree. Names are indexed from the root only, and in an XML
document neither names nor classes are. -/
def view : TreeView NodeId :=
  { t.outline with
    classList := (t.attr · "class")
    htmlFor := (t.attr · "for")
    textContent := t.textContent
    elementsByName := fun scope name =>
      if scope = root ∧ !t.isXml then some (t.elementsByName name) else none
    elementsByClass := fun scope names =>
      if t.isXml then none else some (t.elementsByClass scope names)
    placement := fun reference other => some (t.placement reference other)
    contains := fun ancestor n => t.isBelow n ancestor
    activeElement := t.focused }

def plainView : TreeView NodeId := t.outline.plain

end SelectorEngine.Tree
