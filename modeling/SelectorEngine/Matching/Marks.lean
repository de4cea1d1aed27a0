import SelectorEngine.Table

/-!
# Marks

What the evaluation of one branch remembers about nodes. Generations tell the walks and the counts
apart: a mark says something only to the walk or the count of its own generation.
-/
namespace SelectorEngine

structure Marks (N : Type) where
  generation : Nat := 0
  /-- The generation and the candidate of the walk that reached a node last. -/
  stamps : Table N (Nat × Nat) := []
  /-- The generation in which the children of a node were counted last. -/
  counted : Table N Nat := []
  places : Table N Nat := []

namespace Marks

variable {N : Type} [DecidableEq N]

def advance (m : Marks N) : Marks N := { m with generation := m.generation + 1 }

def reachedBy? (m : Marks N) (generation : Nat) (n : N) : Option Nat :=
  match m.stamps.get? n with
  | some (g, candidate) => if g = generation then some candidate else none
  | none => none

def stamp (m : Marks N) (generation candidate : Nat) (n : N) : Marks N :=
  { m with stamps := m.stamps.set n (generation, candidate) }

def isCounted (m : Marks N) (generation : Nat) (parent : N) : Bool :=
  m.counted.get? parent == some generation

def count (m : Marks N) (generation : Nat) (parent : N) (elements : List N) : Marks N :=
  { m with
    counted := m.counted.set parent generation
    places := (elements.zipIdx 1).foldl (fun places (n, place) => places.set n place) m.places }

end Marks
end SelectorEngine
