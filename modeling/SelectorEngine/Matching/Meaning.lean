import SelectorEngine.Matching.Forward

/-!
# The meaning of a selector list

A list selects what one of its branches selects. The answers of several branches are merged in
document order.
-/
namespace SelectorEngine

variable {N : Type} [DecidableEq N] (view : TreeView N) (config : Config)

def gather (branches : List (Complex (Query N))) (context : N) (seed : Option (List N)) : List N :=
  let s : Setting N := ⟨view, config, view.isXml context⟩
  if view.isContext context then
    branches.flatMap fun branch => s.evaluateBranch branch context seed
  else []

/-- A list of nodes as it is after the answers of `count` branches have been added to it. -/
def settle (count : Nat) (nodes : List N) : List N :=
  if 1 < count then view.arrange nodes else nodes

/-- The simple selector of a list that consists of nothing else, where it can be negated in
place. -/
def single? {A : Type} : List (Complex A) → Option (Simple A)
  | [⟨[.compound ⟨_, [simple]⟩], _⟩] =>
    match simple with
    | .universal | .tag _ | .position _ => none
    | _ => some simple
  | _ => none

def Query.ofBranches (branches : List (Complex (Query N))) : Query N where
  positional := branches.any (Complex.hasPositional Query.positional)
  answer := fun context seed =>
    if view.isContext context then
      settle view branches.length (gather view config branches context seed)
    else []
  inPlace := (single? branches).map fun simple xml =>
    (⟨view, config, xml⟩ : Setting N).verdicts simple

def SelectorList.query : SelectorList → Query N :=
  SelectorList.fold fun _ branches => Query.ofBranches view config branches

def SelectorList.found (list : SelectorList) (context : N) (seed : Option (List N)) : List N :=
  gather view config (list.branches.map (Complex.map (SelectorList.query view config))) context seed

theorem SelectorList.answer_query (list : SelectorList) (context : N) (seed : Option (List N)) :
    (list.query view config).answer context seed =
      if view.isContext context then
        settle view list.branches.length (list.found view config context seed)
      else [] := by
  rw [SelectorList.query, SelectorList.fold_eq]
  simp [Query.ofBranches, SelectorList.found, SelectorList.query]

end SelectorEngine
