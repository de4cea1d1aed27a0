import SelectorEngine.View.Basic

/-!
# Document order

A node comes before what is below it and before its later siblings. A view may know the place of
one node relative to another; otherwise the chains that lead to both from the top are compared.
-/
namespace SelectorEngine

variable {N : Type} [DecidableEq N]

namespace Outline

variable (o : Outline N)

def chain (n : N) : List N := (n :: o.ancestors n).reverse

def compareSiblings (a b : N) : Ordering :=
  if (o.laterSiblings a).contains b then .lt else .gt

def compareBelow : (ours theirs : List N) → Ordering
  | [], [] => .eq
  | [], _ :: _ => .lt
  | _ :: _, [] => .gt
  | a :: ours, b :: theirs =>
    if a = b then compareBelow ours theirs else o.compareSiblings a b

/-- The order of two nodes, found from the links alone. -/
def compareChains (a b : N) : Ordering :=
  if (o.parent a).isSome ∧ o.parent a = o.parent b then o.compareSiblings a b
  else match o.chain a, o.chain b with
    | ours :: above, theirs :: below =>
      if ours = theirs then o.compareBelow above below else o.compareHandles ours theirs
    | _, _ => .eq

end Outline

namespace TreeView

variable (view : TreeView N)

def compare (a b : N) : Ordering :=
  if a = b then .eq
  else match view.placement a b with
    | some place => if place.following then .lt else .gt
    | none => view.compareChains a b

def insertDescending (n : N) : List N → List N
  | [] => [n]
  | m :: rest =>
    if view.compare n m = .lt then m :: insertDescending n rest else n :: m :: rest

def insertionSort (nodes : List N) : List N :=
  (nodes.foldl (fun sorted n => view.insertDescending n sorted) []).reverse

def shortList : Nat := 20

/-- The nodes in document order. A long list, in which a node may stand many times, loses its
repeats and is sorted by merging. -/
def sort (nodes : List N) : List N :=
  if nodes.length ≤ shortList then view.insertionSort nodes
  else nodes.eraseDups.mergeSort fun a b => view.compare b a != .lt

end TreeView

def dropRepeats : List N → List N
  | [] => []
  | [n] => [n]
  | n :: m :: rest => if n = m then dropRepeats (m :: rest) else n :: dropRepeats (m :: rest)

def TreeView.arrange (view : TreeView N) (nodes : List N) : List N :=
  dropRepeats (view.sort nodes)

end SelectorEngine
