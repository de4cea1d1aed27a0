/-!
# Walking along links

A walk repeats one step from a start. Where the links lead back to a node the walk would not end,
so it is cut off after a given number of nodes; links that never lead back are walked to the end
as soon as that number reaches the number of nodes there are.
-/
namespace SelectorEngine

variable {N : Type}

/-- The nodes that a walk meets, at most `limit` of them. -/
def walk (step : N → Option N) : (limit : Nat) → (start : Option N) → List N
  | 0, _ => []
  | _, none => []
  | limit + 1, some node => node :: walk step limit (step node)

@[simp] theorem walk_none (step : N → Option N) (limit : Nat) : walk step limit none = [] := by
  cases limit <;> rfl

@[simp] theorem walk_some (step : N → Option N) (limit : Nat) (node : N) :
    walk step (limit + 1) (some node) = node :: walk step limit (step node) := rfl

end SelectorEngine
