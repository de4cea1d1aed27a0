import SelectorEngine.Selector.Basic

/-!
# Chains

The parts of a branch in the form in which they are evaluated: a first compound and links, each of
them a combinator with the compound on its right. A chain without a first compound starts from the
context instead. Parts form a chain unless two combinators meet or the last part is one.
-/
namespace SelectorEngine

variable {A : Type}

structure Link (A : Type) where
  combinator : Combinator
  simples : List (Simple A)

structure Chain (A : Type) where
  head : Option (List (Simple A))
  links : List (Link A)

def linksOf? : List (Part A) → Option (List (Link A))
  | [] => some []
  | .compound block :: rest => (linksOf? rest).map (⟨.descendant, block.simples⟩ :: ·)
  | .combinator relation :: .compound block :: rest =>
    (linksOf? rest).map (⟨relation, block.simples⟩ :: ·)
  | .combinator _ :: _ => none

namespace Chain

def ofParts? : List (Part A) → Option (Chain A)
  | .compound block :: rest => (linksOf? rest).map (⟨some block.simples, ·⟩)
  | parts => (linksOf? parts).map (⟨none, ·⟩)

def last? (c : Chain A) : Option (List (Simple A)) :=
  match c.links.getLast? with
  | some link => some link.simples
  | none => c.head

/-- The links from right to left, each with the compound on its left. The leftmost link of a chain
without a first compound has none. -/
def leftwards (c : Chain A) : List (Combinator × Option (List (Simple A))) :=
  ((c.links.map (·.combinator)).zip (c.head :: c.links.map fun link => some link.simples)).reverse

/-- The chain without its first compound. The first link becomes the start of the chain, and a
descendant combinator, which then says no more than that, goes away. -/
def dropHead (c : Chain A) : Chain A :=
  match c.links with
  | [] => ⟨none, []⟩
  | link :: links =>
    if link.combinator = .descendant then ⟨some link.simples, links⟩ else ⟨none, link :: links⟩

def hasPositional (argument : A → Bool) (c : Chain A) : Bool :=
  (c.head.getD []).any (Simple.hasPositional argument) ||
    c.links.any fun link => link.simples.any (Simple.hasPositional argument)

end Chain
end SelectorEngine
