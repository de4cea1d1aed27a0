import SelectorEngine.Matching.Backward

/-!
# Evaluation from left to right

A positional simple selector counts the nodes that everything on its left has produced. So the
chain is followed link by link: the plain part of a compound is matched from each node found so
far, and the rest of it filters all that was found as one list.
-/
namespace SelectorEngine.Setting

variable {N : Type} [DecidableEq N] (s : Setting N)

def plainPart (simples : List (Simple (Query N))) : List (Simple (Query N)) :=
  match simples.filter (·.isPlain) with
  | [] => [.universal]
  | plain => plain

/-- The chain that leads from one node to the plain part of a link. Below a node a plain look-up
is enough; a seed has to be related to the node. -/
def fragmentChain (link : Link (Query N)) (seed : Option (List N)) : Chain (Query N) :=
  match link.combinator, seed with
  | .descendant, none => ⟨some (plainPart link.simples), []⟩
  | combinator, _ => ⟨none, [⟨combinator, plainPart link.simples⟩]⟩

def evaluateFromEach (chain : Chain (Query N)) (seed : Option (List N)) :
    (roots : List N) → Marks N → List N × Marks N
  | [], marks => ([], marks)
  | root :: roots, marks =>
    let (found, marks) := s.evaluateBackward chain root seed marks
    let (others, marks) := evaluateFromEach chain seed roots marks
    (found ++ others, marks)

def fragment (link : Link (Query N)) (seed : Option (List N)) (roots : List N) (marks : Marks N) :
    List N × Marks N :=
  let (found, marks) := s.evaluateFromEach (fragmentChain link seed) seed roots marks
  let found := if 1 < roots.length then s.view.arrange found else found
  s.filter (link.simples.filter (!·.isPlain)) found marks

/-- The nodes that all links lead to. A seed restricts what the last of them finds. -/
def followLinks (seed : Option (List N)) :
    List (Link (Query N)) → (roots : List N) → Marks N → List N × Marks N
  | [], roots, marks => (roots, marks)
  | link :: links, roots, marks =>
    let (found, marks) := s.fragment link (if links.isEmpty then seed else none) roots marks
    followLinks seed links found marks

def evaluateForward (chain : Chain (Query N)) (context : N) (seed : Option (List N))
    (marks : Marks N) : List N × Marks N :=
  let (start, marks) := match chain.head with
    | some simples => s.evaluateBackward ⟨some simples, []⟩ context none marks
    | none => ([context], marks)
  s.followLinks seed chain.links start marks

/-- The answer of a branch. Positional simple selectors in a chain of several compounds need the
evaluation from left to right. -/
def evaluateBranch (branch : Complex (Query N)) (context : N) (seed : Option (List N)) : List N :=
  match Chain.ofParts? branch.parts with
  | none => []
  | some chain =>
    if !chain.links.isEmpty && chain.hasPositional Query.positional then
      (s.evaluateForward chain context seed {}).1
    else (s.evaluateBackward chain context seed {}).1

end SelectorEngine.Setting
