/-!
# Tables

A finite map as a list of pairs, in which the first pair of a key counts.
-/
namespace SelectorEngine

abbrev Table (K V : Type) := List (K × V)

namespace Table

variable {K V : Type} [DecidableEq K]

def get? (t : Table K V) (key : K) : Option V :=
  match t with
  | [] => none
  | (k, value) :: rest => if k = key then some value else get? rest key

/-- The table in which `key` has a new value, and only one. -/
def set (t : Table K V) (key : K) (value : V) : Table K V :=
  (key, value) :: t.filter fun pair => !decide (pair.1 = key)

theorem get?_set (t : Table K V) (key other : K) (value : V) :
    (t.set key value).get? other = if key = other then some value else t.get? other := by
  by_cases h : key = other
  · simp [set, get?, h]
  · simp only [set, get?, h, if_false]
    induction t with
    | nil => rfl
    | cons pair rest ih =>
      by_cases hp : pair.1 = key
      · have : pair.1 ≠ other := fun e => h (hp.symm.trans e)
        simp [hp, get?, h, ih]
      · simp [hp, get?, ih]

end Table
end SelectorEngine
