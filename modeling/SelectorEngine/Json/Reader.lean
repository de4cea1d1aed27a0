import SelectorEngine.Json.Basic
import SelectorEngine.Text.Numeral

/-!
# Reading JSON

The grammar is the strict one: no comments, no trailing commas, no zeros in front of a number, and
nothing but blanks around the one value of a text.
-/
namespace SelectorEngine.Json
open Text (digitsValue)

def isSpace (c : Char) : Bool := c == ' ' || c == '\t' || c == '\n' || c == '\r'

def skipSpace (text : List Char) : List Char := text.dropWhile isSpace

def digitRun (text : List Char) : List Char × List Char :=
  (text.takeWhile Char.isDigit, text.dropWhile Char.isDigit)

def readFraction : List Char → Option (List Char × List Char)
  | '.' :: text =>
    let (digits, rest) := digitRun text
    if digits.isEmpty then none else some (digits, rest)
  | text => some ([], text)

def readPower (text : List Char) : Option (Nat × List Char) :=
  let (digits, rest) := digitRun text
  if digits.isEmpty then none else some (digitsValue digits, rest)

def readExponent : List Char → Option (Int × List Char)
  | c :: text =>
    if c == 'e' || c == 'E' then
      match text with
      | '+' :: text => (readPower text).map fun (power, rest) => ((power : Int), rest)
      | '-' :: text => (readPower text).map fun (power, rest) => (-(power : Int), rest)
      | text => (readPower text).map fun (power, rest) => ((power : Int), rest)
    else some (0, c :: text)
  | [] => some (0, [])

def readUnsigned (negative : Bool) (text : List Char) : Option (Decimal × List Char) := do
  let (whole, rest) := digitRun text
  if whole.isEmpty || (whole.head? == some '0' && 1 < whole.length) then none
  else
    let (fraction, rest) ← readFraction rest
    let (exponent, rest) ← readExponent rest
    return (.ofDigits negative whole fraction exponent, rest)

def readNumber : List Char → Option (Decimal × List Char)
  | '-' :: text => readUnsigned true text
  | text => readUnsigned false text

def hexDigit? (c : Char) : Option Nat :=
  if c.isDigit then some (c.toNat - '0'.toNat)
  else if 'a' ≤ c ∧ c ≤ 'f' then some (c.toNat - 'a'.toNat + 10)
  else if 'A' ≤ c ∧ c ≤ 'F' then some (c.toNat - 'A'.toNat + 10)
  else none

def codeUnit? (a b c d : Char) : Option Nat := do
  return (((← hexDigit? a) * 16 + (← hexDigit? b)) * 16 + (← hexDigit? c)) * 16 + (← hexDigit? d)

def isLeading (unit : Nat) : Bool := 0xD800 ≤ unit && unit < 0xDC00

def isTrailing (unit : Nat) : Bool := 0xDC00 ≤ unit && unit < 0xE000

def escaped? : Char → Option Char
  | '"' => some '"'
  | '\\' => some '\\'
  | '/' => some '/'
  | 'b' => some '\x08'
  | 'f' => some '\x0c'
  | 'n' => some '\n'
  | 'r' => some '\r'
  | 't' => some '\t'
  | _ => none

def extend (c : Option Char) (tail : Option (List Char) × List Char) :
    Option (List Char) × List Char :=
  ((do return (← c) :: (← tail.1)), tail.2)

/-- The content of a string whose opening quote has been read. There is none if half of a
surrogate pair stands alone in it. -/
def readString : List Char → Option (Option (List Char) × List Char)
  | [] => none
  | '"' :: rest => some (some [], rest)
  | '\\' :: 'u' :: a :: b :: c :: d :: rest => do
    let unit ← codeUnit? a b c d
    if isTrailing unit then return extend none (← readString rest)
    else if isLeading unit then
      match rest with
      | '\\' :: 'u' :: e :: f :: g :: h :: after =>
        let second ← codeUnit? e f g h
        let tail ← readString after
        if isTrailing second then
          return extend
            (some (Char.ofNat (0x10000 + (unit - 0xD800) * 0x400 + (second - 0xDC00)))) tail
        else return extend none tail
      | rest => return extend none (← readString rest)
    else return extend (some (Char.ofNat unit)) (← readString rest)
  | '\\' :: c :: rest => do
    let plain ← escaped? c
    return extend (some plain) (← readString rest)
  | c :: rest => if c.toNat < 0x20 then none else do return extend (some c) (← readString rest)

def dropKeyword? (keyword : String) (text : List Char) : Option (List Char) :=
  if keyword.toList.isPrefixOf text then some (text.drop keyword.toList.length) else none

mutual

/-- A value at the start of a text, where `limit` bounds how often a value, an item or a member is
started. -/
def readValue : (limit : Nat) → List Char → Option (Json × List Char)
  | 0, _ => none
  | limit + 1, text =>
    match skipSpace text with
    | 'n' :: rest => (dropKeyword? "ull" rest).map (null, ·)
    | 't' :: rest => (dropKeyword? "rue" rest).map (bool true, ·)
    | 'f' :: rest => (dropKeyword? "alse" rest).map (bool false, ·)
    | '"' :: rest =>
      (readString rest).map fun (text, rest) => (string (text.map String.ofList), rest)
    | '[' :: rest =>
      match skipSpace rest with
      | ']' :: rest => some (array [], rest)
      | rest => (readItems limit rest).map fun (items, rest) => (array items, rest)
    | '\x7b' :: rest =>
      match skipSpace rest with
      | '\x7d' :: rest => some (object [], rest)
      | rest => (readMembers limit rest).map fun (members, rest) => (object members, rest)
    | rest => (readNumber rest).map fun (value, rest) => (number value, rest)

def readItems : (limit : Nat) → List Char → Option (List Json × List Char)
  | 0, _ => none
  | limit + 1, text => do
    let (item, rest) ← readValue limit text
    match skipSpace rest with
    | ',' :: rest =>
      let (items, rest) ← readItems limit rest
      return (item :: items, rest)
    | ']' :: rest => return ([item], rest)
    | _ => none

def readMembers : (limit : Nat) → List Char → Option (List (Option String × Json) × List Char)
  | 0, _ => none
  | limit + 1, text =>
    match skipSpace text with
    | '"' :: rest => do
      let (key, rest) ← readString rest
      let key := key.map String.ofList
      match skipSpace rest with
      | ':' :: rest =>
        let (value, rest) ← readValue limit rest
        match skipSpace rest with
        | ',' :: rest =>
          let (members, rest) ← readMembers limit rest
          return ((key, value) :: members, rest)
        | '\x7d' :: rest => return ([(key, value)], rest)
        | _ => none
      | _ => none
    | _ => none

end

def parse (text : String) : Option Json :=
  match readValue (2 * text.toList.length + 1) text.toList with
  | some (value, rest) => if (skipSpace rest).isEmpty then some value else none
  | none => none

end SelectorEngine.Json
