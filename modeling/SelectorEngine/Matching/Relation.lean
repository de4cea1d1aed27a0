import SelectorEngine.Matching.Filter

/-!
# Following combinators

A trail leads from a node to the related node on the left of a combinator. One step leads to a
parent or to the element before. A walk along the ancestors or along the earlier siblings ends at
the nearest node that fits; it stamps the elements on its way, and a later walk that reaches one
of them takes over what was found from there.
-/
namespace SelectorEngine

inductive Target (N : Type) where
  | block (simples : List (Simple (Query N)))
  /-- This very node, where a chain starts with a combinator. -/
  | context (node : N)

namespace Setting

variable {N : Type} [DecidableEq N] (s : Setting N)

/-- One step to the left. A compound that is no bare tag name is left to a filter. -/
def stepTrail (target : Target N) (step : N → Option N) : Trail N → Trail N
  | .reached n =>
    match (step n).filter s.view.isElement, target with
    | none, _ => .lost
    | some related, .context node => if related = node then .home else .lost
    | some related, .block simples =>
      match wordTag? simples with
      | some name => if s.tagMatches related name then .reached related else .lost
      | none => .reached related
  | trail => trail

def relateNear (target : Target N) (step : N → Option N) (trails : List (Trail N))
    (marks : Marks N) : List (Trail N) × Marks N :=
  let moved := trails.map (s.stepTrail target step)
  match target with
  | .context _ => (moved, marks)
  | .block simples =>
    if (wordTag? simples).isSome then (moved, marks) else s.filterTrails simples moved marks

def meet (target : Target N) (n : N) (marks : Marks N) : Option (Trail N) × Marks N :=
  match target with
  | .context node => (if n = node then some .home else none, marks)
  | .block simples =>
    match wordTag? simples with
    | some name => (if s.tagMatches n name then some (.reached n) else none, marks)
    | none =>
      let (kept, marks) := s.filter simples [n] marks
      (if kept.isEmpty then none else some (.reached n), marks)

def seek (target : Target N) (generation candidate : Nat) (trails : List (Trail N)) :
    (path : List N) → Marks N → Trail N × Marks N
  | [], marks => (.lost, marks)
  | n :: path, marks =>
    match marks.reachedBy? generation n with
    | some earlier => ((trails[earlier]?).getD .lost, marks)
    | none =>
      if s.view.isElement n then
        match s.meet target n (marks.stamp generation candidate n) with
        | (some trail, marks) => (trail, marks)
        | (none, marks) => seek target generation candidate trails path marks
      else seek target generation candidate trails path marks

/-- The walk of one candidate. Where the links lead in a circle it comes back to an element that it
has stamped itself within a second round, and its trail stays where it is. -/
def seekFrom (target : Target N) (step : N → Option N) (generation : Nat)
    (state : List (Trail N) × Marks N) (candidate : Nat) : List (Trail N) × Marks N :=
  let (trails, marks) := state
  match trails[candidate]? with
  | some (.reached start) =>
    let (trail, marks) := s.seek target generation candidate trails
      (walk step (2 * s.view.bound) (step start)) marks
    (trails.set candidate trail, marks)
  | _ => (trails, marks)

def relateFar (target : Target N) (step : N → Option N) (trails : List (Trail N))
    (marks : Marks N) : List (Trail N) × Marks N :=
  let marks := marks.advance
  (List.range trails.length).foldl (s.seekFrom target step marks.generation) (trails, marks)

def relate (combinator : Combinator) (target : Target N) (trails : List (Trail N))
    (marks : Marks N) : List (Trail N) × Marks N :=
  match combinator with
  | .adjacent => s.relateNear target s.view.previousElement trails marks
  | .child => s.relateNear target s.view.parent trails marks
  | .descendant => s.relateFar target s.view.parent trails marks
  | .general => s.relateFar target s.view.previousSibling trails marks

end Setting
end SelectorEngine
