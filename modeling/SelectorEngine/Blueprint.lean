import SelectorEngine.Json.Reader
import SelectorEngine.Tree.Edit
import SelectorEngine.Tree.Lookup

/-!
# Documents described in JSON

A blueprint is an object with the children of a document. A child is an element if it has a tag and
its attributes and children can be read, else a text if it has one, else a comment. Its nodes get
their indices in the order in which they are written.
-/
namespace SelectorEngine

inductive BlueprintNode where
  | element (tag : String) (attributes : List (String × String)) (children : List BlueprintNode)
  | text (data : String)
  | comment (data : String)

structure Blueprint where
  xml : Bool := false
  focus : Option String := none
  children : List BlueprintNode := []

namespace BlueprintNode

def attribute? : Option String × Json → Option (String × String)
  | (some name, .string (some value)) => some (name, value)
  | _ => none

def attributes? (members : Json.Members) : Option (List (String × String)) :=
  match Json.find? members "attrs" with
  | none => some []
  | some (.object attributes) => attributes.mapM attribute?
  | some _ => none

mutual

def ofJson? : Json → Option BlueprintNode
  | .object members =>
    (do
      let tag ← Json.stringMember? members "tag"
      let attributes ← attributes? members
      let children ← children? members
      return element tag attributes children) <|>
    (Json.stringMember? members "text").map text <|>
    (Json.stringMember? members "comment").map comment
  | _ => none

def children? : List (Option String × Json) → Option (List BlueprintNode)
  | [] => some []
  | (key, .array items) :: members =>
    if key = some "children" then ofItems? items else children? members
  | (key, _) :: members => if key = some "children" then none else children? members

def ofItems? : List Json → Option (List BlueprintNode)
  | [] => some []
  | item :: items => do
    let node ← ofJson? item
    let nodes ← ofItems? items
    return node :: nodes

end

mutual

def appendTo (parent : NodeId) : BlueprintNode → Tree → Tree
  | element tag attributes children, t =>
    let (n, t) := t.alloc <|
      .element tag (attributes.foldl (fun table (name, value) => table.set name value) [])
    appendAllTo n children (t.attachLast parent n)
  | text data, t =>
    let (n, t) := t.alloc (.text data)
    t.attachLast parent n
  | comment data, t =>
    let (n, t) := t.alloc (.comment data)
    t.attachLast parent n

def appendAllTo (parent : NodeId) : List BlueprintNode → Tree → Tree
  | [], t => t
  | node :: nodes, t => appendAllTo parent nodes (appendTo parent node t)

end

end BlueprintNode

namespace Blueprint

def focus? (members : Json.Members) : Option (Option String) :=
  match Json.find? members "focus" with
  | none | some .null => some none
  | some (.string (some id)) => some (some id)
  | some _ => none

/-- The children of the document. All that is written in them has to be sound, even where it is
not used. -/
def children? (members : Json.Members) : Option (List BlueprintNode) :=
  match Json.find? members "children" with
  | none => some []
  | some (.array items) => if Json.itemsSound items then BlueprintNode.ofItems? items else none
  | some _ => none

def ofJson? : Json → Option Blueprint
  | .object members => do
    guard (Json.keysSound members)
    let xml ← Json.boolMember? members "xml" false
    let focus ← focus? members
    let children ← children? members
    return ⟨xml, focus, children⟩
  | _ => none

def parse (text : String) : Option Blueprint := (Json.parse text).bind ofJson?

/-- The tree that a blueprint describes. The focus is on the first element with its identifier. -/
def build (b : Blueprint) : Tree :=
  let t := BlueprintNode.appendAllTo Tree.root b.children (.empty (if b.xml then .xml else .html))
  t.focus (b.focus.bind (t.elementById Tree.root))

end Blueprint
end SelectorEngine
