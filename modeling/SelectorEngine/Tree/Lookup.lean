import SelectorEngine.Tree.Traversal
import SelectorEngine.Text.Blank
import SelectorEngine.Text.Letters

/-!
# Looking up elements

Elements by identifier, tag, name and class, each in the order of the text.
-/
namespace SelectorEngine.Tree

variable (t : Tree)

def documentElement : Option NodeId := (t.children root).find? t.isElement

def elementById (scope : NodeId) (id : String) : Option NodeId :=
  (t.descendants scope).find? fun n => t.attr n "id" == some id

def sameTag (stored wanted : String) : Bool :=
  match t.kind with
  | .html => Text.sameLetters stored wanted
  | .xml => stored == wanted

/-- The elements below `scope` with the given tag name. A star stands for every name. -/
def elementsByTag (scope : NodeId) (name : String) : List NodeId :=
  (t.descendants scope).filter fun n =>
    (t.tagName n).any fun tag => name == "*" || t.sameTag tag name

def elementsByName (name : String) : List NodeId :=
  (t.descendants root).filter fun n => t.attr n "name" == some name

def classes (n : NodeId) : List (List Char) :=
  Text.words ((t.attr n "class").getD "").toList

/-- The elements below `scope` that have all the classes of a list of at least one. -/
def elementsByClass (scope : NodeId) (names : String) : List NodeId :=
  let wanted := Text.words names.toList
  if wanted.isEmpty then []
  else (t.descendants scope).filter fun n => t.isElement n && wanted.all (t.classes n).contains

end SelectorEngine.Tree
