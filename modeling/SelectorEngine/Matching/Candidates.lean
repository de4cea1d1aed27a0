import SelectorEngine.Matching.Filter

/-!
# Finding candidates

The first candidates for a compound come from the cheapest index that applies: the identifier and
the name from the root of an HTML document, the class where the view keeps an index, else the tag.
The simple selector that the index answers is not tested again.
-/
namespace SelectorEngine

/-- Nodes, and the simple selectors that they still have to satisfy. -/
structure Candidates (N : Type) where
  nodes : List N
  remaining : List (Simple (Query N))

def extract? {A B : Type} (use : Simple A → Option B) :
    List (Simple A) → Option (B × List (Simple A))
  | [] => none
  | simple :: simples =>
    match use simple with
    | some value => some (value, simples)
    | none => (extract? use simples).map fun (value, others) => (value, simple :: others)

variable {A : Type}

def Simple.id? : Simple A → Option String
  | .id name => some name
  | _ => none

def Simple.className? : Simple A → Option String
  | .className name => some name
  | _ => none

def Simple.exactName? : Simple A → Option String
  | .attr ⟨"name", some (.equals, value)⟩ => if value.isEmpty then none else some value
  | _ => none

namespace Setting

variable {N : Type} [DecidableEq N] (s : Setting N)

def candidatesById (simples : List (Simple (Query N))) (scope : N) : Option (Candidates N) :=
  if s.view.isDocumentRoot scope && !s.xml then
    (extract? Simple.id? simples).map fun (id, remaining) =>
      ⟨(s.view.elementById scope id).toList, remaining⟩
  else none

def candidatesByClass (simples : List (Simple (Query N))) (scope : N) : Option (Candidates N) :=
  if !s.xml && s.config.classLookup then do
    let (name, remaining) ← extract? Simple.className? simples
    let nodes ← s.view.elementsByClass scope name
    return ⟨nodes, remaining⟩
  else none

/-- An index of names may list elements that are known by the name in another way, and it is of no
use when it lists none. -/
def candidatesByName (simples : List (Simple (Query N))) (scope : N) : Option (Candidates N) :=
  if s.view.isDocumentRoot scope && !s.xml && s.config.nameLookup then do
    let (value, remaining) ← extract? Simple.exactName? simples
    let found ← s.view.elementsByName scope value
    let nodes := found.filter fun n => s.view.attr n "name" == some value
    if nodes.isEmpty then none else return ⟨nodes, remaining⟩
  else none

def candidatesByTag (simples : List (Simple (Query N))) (scope : N) : Candidates N :=
  match simples with
  | .tag name :: remaining => ⟨s.view.elementsByTag scope name, remaining⟩
  | .universal :: remaining => ⟨s.view.elementsByTag scope "*", remaining⟩
  | remaining => ⟨s.view.elementsByTag scope "*", remaining⟩

def candidates (simples : List (Simple (Query N))) (scope : N) : Candidates N :=
  (s.candidatesById simples scope <|> s.candidatesByClass simples scope <|>
    s.candidatesByName simples scope).getD (s.candidatesByTag simples scope)

def find (simples : List (Simple (Query N))) (scope : N) (marks : Marks N) : List N × Marks N :=
  let found := s.candidates simples scope
  s.filter found.remaining found.nodes marks

end Setting
end SelectorEngine
