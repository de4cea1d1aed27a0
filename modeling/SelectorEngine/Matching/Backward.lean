import SelectorEngine.Matching.Candidates
import SelectorEngine.Matching.Relation
import SelectorEngine.Selector.Chain

/-!
# Evaluation from right to left

The candidates of the last compound are found first; then every candidate is related to the
compounds on its left, one combinator after the other.
-/
namespace SelectorEngine.Setting

variable {N : Type} [DecidableEq N] (s : Setting N)

/-- Whether the identifier in the first compound of a chain can replace the context. A sibling
combinator behind it would lead out of the element again. -/
def narrows (chain : Chain (Query N)) (context : N) (seed : Option (List N)) : Bool :=
  seed.isNone && !s.xml && s.view.isDocumentRoot context &&
    match chain.head, chain.links with
    | some first, link :: _ =>
      !link.combinator.isSibling && first.any (·.id?.isSome) &&
        !(chain.last?.getD []).any (·.id?.isSome)
    | _, _ => false

/-- Where the candidates of the last compound are looked for. Siblings of the context are not
below it. -/
def scope (chain : Chain (Query N)) (context : N) : N :=
  match chain with
  | ⟨none, [link]⟩ =>
    if link.combinator.isSibling then (s.view.parent context).getD context else context
  | _ => context

def relateAll (context : N) : List (Combinator × Option (List (Simple (Query N)))) →
    List (Trail N) → Marks N → List (Trail N) × Marks N
  | [], trails, marks => (trails, marks)
  | (combinator, left) :: rest, trails, marks =>
    let target : Target N := match left with
      | some simples => .block simples
      | none => .context context
    let (trails, marks) := s.relate combinator target trails marks
    relateAll context rest trails marks

/-- Whether a candidate is part of the answer. Below an element the node that was reached last has
to lie below it too. -/
def accepts (context : N) : Trail N → Bool
  | .lost => false
  | .home => true
  | .reached node => s.view.isElement node &&
    (!s.view.isElement context || s.view.contains context node)

def evaluateWithin (chain : Chain (Query N)) (context : N) (seed : Option (List N))
    (marks : Marks N) : List N × Marks N :=
  match chain.last? with
  | none => ([], marks)
  | some last =>
    let (nodes, marks) := match seed with
      | some seed => s.filter last seed marks
      | none => s.find last (s.scope chain context) marks
    if chain.links.isEmpty then (nodes, marks)
    else
      let (trails, marks) := s.relateAll context chain.leftwards (nodes.map .reached) marks
      (keep nodes (trails.map (s.accepts context)), marks)

def evaluateBackward (chain : Chain (Query N)) (context : N) (seed : Option (List N))
    (marks : Marks N) : List N × Marks N :=
  if s.narrows chain context seed then
    let (found, marks) := s.find (chain.head.getD []) context marks
    match found with
    | [] => ([], marks)
    | element :: _ => s.evaluateWithin chain.dropHead element seed marks
  else s.evaluateWithin chain context seed marks

end SelectorEngine.Setting
