import SelectorEngine.Text.Blank
import SelectorEngine.Text.Numeral

/-!
# The `an+b` argument of `:nth-child`

A position counted from one matches when it is `a * n + b` for some `n` that is not negative.
-/
namespace SelectorEngine

structure AnPlusB where
  step : Int
  offset : Int
  deriving DecidableEq, Repr

namespace AnPlusB
open Text

def readAmount (text : List Char) : Option Int := (readNumeral maxSigned text).map Int.ofNat

def readConstant : List Char → Option Int
  | [] => some 0
  | '+' :: text => readAmount text
  | '-' :: text => (readAmount text).map (- ·)
  | _ => none

def readUnsigned (text : List Char) : Option AnPlusB :=
  match text.dropWhile (· != 'n') with
  | [] => (readAmount text).map fun value => ⟨0, value⟩
  | _ :: constant => do
    let coefficient := text.takeWhile (· != 'n')
    let step ← if coefficient.isEmpty then some 1 else readAmount coefficient
    let offset ← readConstant constant
    return ⟨step, offset⟩

/-- A minus sign belongs to the first number only. -/
def negateFirst (hasStep : Bool) (n : AnPlusB) : AnPlusB :=
  if hasStep then ⟨-n.step, n.offset⟩ else ⟨n.step, -n.offset⟩

def readCompact (text : List Char) : Option AnPlusB :=
  if text = "even".toList then some ⟨2, 0⟩
  else if text = "odd".toList then some ⟨2, 1⟩
  else match text with
    | '-' :: unsigned => (readUnsigned unsigned).map (negateFirst (unsigned.contains 'n'))
    | unsigned => readUnsigned unsigned

/-- `even`, `odd`, a number or `an+b`. Blanks may stand anywhere and one plus sign may lead. -/
def read (argument : List Char) : Option AnPlusB :=
  match argument.filter (!isBlank ·) with
  | '+' :: text => readCompact text
  | text => readCompact text

def holds (n : AnPlusB) (position : Int) : Bool :=
  let difference := position - n.offset
  if n.step = 1 ∧ n.offset = 0 then true
  else if n.step = 0 then difference = 0
  else difference.tmod n.step = 0 ∧ 0 ≤ difference.tdiv n.step

def signed (value : Int) : String :=
  if value < 0 then toString value else "+" ++ toString value

def display (n : AnPlusB) : String := toString n.step ++ "n" ++ signed n.offset

end AnPlusB
end SelectorEngine
