/-!
# ASCII letters

Keywords, and names in an HTML document, compare without regard to the case of ASCII letters. All
other characters have no case here.
-/
namespace SelectorEngine.Text

def sameLetters (a b : String) : Bool :=
  a.toList.map Char.toLower == b.toList.map Char.toLower

def lowered (text : String) : String := String.ofList (text.toList.map Char.toLower)

def isWordChar (c : Char) : Bool := c.isAlphanum || c == '_'

end SelectorEngine.Text
