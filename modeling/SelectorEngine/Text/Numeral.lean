/-!
# Decimal numerals of bounded size

The numbers in a selector are written in ASCII digits, and each place where one may stand has a
largest value that it takes.
-/
namespace SelectorEngine.Text

def digitsValue (digits : List Char) : Nat :=
  digits.foldl (fun value digit => 10 * value + (digit.toNat - '0'.toNat)) 0

/-- The value of a non-empty run of digits that does not exceed `limit`. -/
def readNumeral (limit : Nat) (text : List Char) : Option Nat :=
  if !text.isEmpty && text.all Char.isDigit && digitsValue text ≤ limit then
    some (digitsValue text)
  else none

def maxSigned : Nat := 1 <<< 63 - 1

def maxUnsigned : Nat := 1 <<< 64 - 1

end SelectorEngine.Text
