import SelectorEngine.Table

/-!
# Trees

A tree keeps all its nodes in one array and links them by their indices. Node 0 is the document.
A node that no other node lists as a child is detached and stays in the array. Every function
here is total: a node that is not in the tree has no links and no content.
-/
namespace SelectorEngine

abbrev NodeId := Nat

inductive NodeKind where
  | document
  | element (tag : String) (attributes : Table String String)
  | text (data : String)
  | comment (data : String)
  deriving DecidableEq, Repr

structure Node where
  kind : NodeKind
  parent : Option NodeId := none
  children : List NodeId := []
  nextSibling : Option NodeId := none
  previousSibling : Option NodeId := none
  deriving DecidableEq, Repr

/-- Names in an HTML document compare without regard to case, in an XML document exactly. -/
inductive DocumentKind where
  | html
  | xml
  deriving DecidableEq, Repr

structure Tree where
  nodes : Array Node
  kind : DocumentKind
  focused : Option NodeId := none
  deriving DecidableEq, Repr

namespace Tree

def root : NodeId := 0

def empty (kind : DocumentKind) : Tree := ⟨#[{ kind := .document }], kind, none⟩

variable (t : Tree)

def size : Nat := t.nodes.size

def node? (n : NodeId) : Option Node := t.nodes[n]?

def isXml : Bool := t.kind == .xml

def parent (n : NodeId) : Option NodeId := (t.node? n).bind (·.parent)

def children (n : NodeId) : List NodeId := ((t.node? n).map (·.children)).getD []

def firstChild (n : NodeId) : Option NodeId := (t.children n).head?

def nextSibling (n : NodeId) : Option NodeId := (t.node? n).bind (·.nextSibling)

def previousSibling (n : NodeId) : Option NodeId := (t.node? n).bind (·.previousSibling)

def isDocument (n : NodeId) : Bool :=
  match t.node? n with
  | some { kind := .document, .. } => true
  | _ => false

def isElement (n : NodeId) : Bool :=
  match t.node? n with
  | some { kind := .element _ _, .. } => true
  | _ => false

def tagName (n : NodeId) : Option String :=
  match t.node? n with
  | some { kind := .element tag _, .. } => some tag
  | _ => none

def attr (n : NodeId) (name : String) : Option String :=
  match t.node? n with
  | some { kind := .element _ attributes, .. } => attributes.get? name
  | _ => none

def text (n : NodeId) : Option String :=
  match t.node? n with
  | some { kind := .text data, .. } => some data
  | _ => none

end Tree
end SelectorEngine
