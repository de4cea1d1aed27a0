import SelectorEngine.Matching.NodeTest

/-!
# Filtering candidates

The simple selectors of a compound are applied one after the other, each to what the ones before
have left. Positional ones come last, so that they count what all others leave. A compound can
filter a list of nodes, or a list of trails in which what fails keeps its place.
-/
namespace SelectorEngine

variable {A N : Type} [DecidableEq N]

def evaluationOrder (simples : List (Simple A)) : List (Simple A) :=
  simples.filter (!·.isPositional) ++ simples.filter (·.isPositional)

def keep (nodes : List N) (verdicts : List Bool) : List N :=
  ((nodes.zip verdicts).filter (·.2)).map (·.1)

/-- How far a candidate has been followed from right to left. -/
inductive Trail (N : Type) where
  | lost
  | reached (node : N)
  | home
  deriving DecidableEq, Repr

def Trail.node? : Trail N → Option N
  | reached node => some node
  | _ => none

/-- The trails after the nodes among them have got their verdicts in order. -/
def judge : List (Trail N) → List Bool → List (Trail N)
  | .reached n :: trails, verdict :: verdicts =>
    (if verdict then .reached n else .lost) :: judge trails verdicts
  | trail :: trails, verdicts => trail :: judge trails verdicts
  | [], _ => []

namespace Setting

variable (s : Setting N)

/-- Whether the place of a node among its element siblings matches. The siblings are counted once
for each parent and generation. -/
def nthChild (formula : AnPlusB) (generation : Nat) (n : N) (marks : Marks N) : Bool × Marks N :=
  if !s.view.isElement n then (false, marks)
  else if formula = ⟨1, 0⟩ then (true, marks)
  else match s.view.parent n with
    | none => (false, marks)
    | some parent =>
      let marks :=
        if marks.isCounted generation parent then marks
        else marks.count generation parent ((s.view.children parent).filter s.view.isElement)
      ((marks.places.get? n).any fun place => formula.holds place, marks)

def nthChildren (formula : AnPlusB) (generation : Nat) : List N → Marks N → List Bool × Marks N
  | [], marks => ([], marks)
  | n :: nodes, marks =>
    let (verdict, marks) := s.nthChild formula generation n marks
    let (verdicts, marks) := nthChildren formula generation nodes marks
    (verdict :: verdicts, marks)

/-- What a simple selector, or its negation, says about each node of a list. -/
def verdicts (simple : Simple (Query N)) : Verdicts N := fun nodes negate marks =>
  match simple with
  | .position place =>
    (nodes.zipIdx.map fun (_, index) => place.holds index nodes.length ^^ negate, marks)
  | .not query =>
    match query.inPlace with
    | some verdicts => verdicts s.xml nodes (!negate) marks
    | none =>
      let matched := query.answer s.view.documentRoot (some nodes)
      (nodes.map fun n => !matched.contains n ^^ negate, marks)
  | .child (.nth formula) =>
    let marks := marks.advance
    let (verdicts, marks) := s.nthChildren formula marks.generation nodes marks
    (verdicts.map (· ^^ negate), marks)
  | simple => (nodes.map fun n => s.passes simple n ^^ negate, marks)

def filterEach : List (Simple (Query N)) → List N → Marks N → List N × Marks N
  | [], nodes, marks => (nodes, marks)
  | simple :: simples, nodes, marks =>
    let (verdicts, marks) := s.verdicts simple nodes false marks
    filterEach simples (keep nodes verdicts) marks

def filter (simples : List (Simple (Query N))) (nodes : List N) (marks : Marks N) :
    List N × Marks N :=
  s.filterEach (evaluationOrder simples) nodes marks

def filterTrailsEach : List (Simple (Query N)) → List (Trail N) → Marks N → List (Trail N) × Marks N
  | [], trails, marks => (trails, marks)
  | simple :: simples, trails, marks =>
    let (verdicts, marks) := s.verdicts simple (trails.filterMap Trail.node?) false marks
    filterTrailsEach simples (judge trails verdicts) marks

def filterTrails (simples : List (Simple (Query N))) (trails : List (Trail N)) (marks : Marks N) :
    List (Trail N) × Marks N :=
  s.filterTrailsEach (evaluationOrder simples) trails marks

end Setting
end SelectorEngine
