import SelectorEngine.Text.Numeral

/-!
# Decimal numbers

A number is kept by its leading digits, as many as fit into 64 bits, and by the power of ten that
they are multiplied with. It is in range if the product of the two is finite in double precision,
where each factor is rounded before they are multiplied.
-/
namespace SelectorEngine

structure Decimal where
  negative : Bool
  digits : Nat
  exponent : Int
  deriving DecidableEq, Repr

namespace Decimal

def takeDigits (value : Nat) : List Char → Nat × List Char
  | [] => (value, [])
  | digit :: rest =>
    let longer := 10 * value + (digit.toNat - '0'.toNat)
    if longer ≤ Text.maxUnsigned then takeDigits longer rest else (value, digit :: rest)

/-- The number with the given digits before and after the decimal point. Digits that are left over
before the point still count for its place. -/
def ofDigits (negative : Bool) (whole fraction : List Char) (exponent : Int) : Decimal :=
  let (value, leftOver) := takeDigits 0 whole
  let (value, unused) := takeDigits value fraction
  ⟨negative, value, exponent + leftOver.length - (fraction.length - unused.length : Nat)⟩

/-- The nearest number of 53 significant bits. Of two that are as near, it is the one whose last
bit is zero. -/
def nearestDouble (n : Nat) : Nat :=
  let unit := 1 <<< (n.log2 - 52)
  let below := n / unit
  let remainder := n % unit
  if 2 * remainder > unit ∨ (2 * remainder = unit ∧ below % 2 = 1) then (below + 1) * unit
  else below * unit

def overflow : Nat := 1 <<< 1024 - 1 <<< 970

def maxPower : Nat := 308

/-- Whether the number is finite in double precision. A division never leaves the range. -/
def isFinite (d : Decimal) : Bool :=
  d.digits == 0 || d.exponent < 0 ||
    (d.exponent ≤ maxPower &&
      nearestDouble d.digits * nearestDouble (Nat.pow 10 d.exponent.toNat) < overflow)

end Decimal
end SelectorEngine
