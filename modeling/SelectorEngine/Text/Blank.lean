/-!
# Blank characters

Selectors are written with Unicode white space between their pieces, while the words of a token
list are separated by five ASCII characters only.
-/
namespace SelectorEngine.Text

/-- The code points with the Unicode property White_Space. -/
def blankCodes : List Nat :=
  [0x09, 0x0A, 0x0B, 0x0C, 0x0D, 0x20, 0x85, 0xA0, 0x1680, 0x2000, 0x2001, 0x2002, 0x2003, 0x2004,
    0x2005, 0x2006, 0x2007, 0x2008, 0x2009, 0x200A, 0x2028, 0x2029, 0x202F, 0x205F, 0x3000]

def isBlank (c : Char) : Bool := blankCodes.contains c.toNat

def skipBlank (text : List Char) : List Char := text.dropWhile isBlank

def trim (text : List Char) : List Char := (skipBlank (skipBlank text).reverse).reverse

theorem length_skipBlank_le (text : List Char) : (skipBlank text).length ≤ text.length :=
  (List.dropWhile_sublist isBlank).length_le

theorem length_trim_le (text : List Char) : (trim text).length ≤ text.length := by
  have outer := length_skipBlank_le (skipBlank text).reverse
  have inner := length_skipBlank_le text
  simp only [trim, List.length_reverse] at *
  omega

def isSeparator (c : Char) : Bool :=
  c == ' ' || c == '\t' || c == '\n' || c == '\r' || c == '\x0c'

/-- The pieces of a text between the characters where it is cut, empty ones included. -/
def pieces (cut : Char → Bool) : List Char → List (List Char)
  | [] => [[]]
  | c :: rest =>
    if cut c then [] :: pieces cut rest
    else match pieces cut rest with
      | [] => [[c]]
      | piece :: others => (c :: piece) :: others

def words (text : List Char) : List (List Char) :=
  (pieces isSeparator text).filter (!·.isEmpty)

end SelectorEngine.Text
