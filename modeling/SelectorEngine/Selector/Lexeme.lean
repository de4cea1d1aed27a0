import SelectorEngine.Selector.Error
import SelectorEngine.Text.Letters

/-!
# Names and quoted strings

A backslash takes the next character as it is, in a name as well as in a string. Each reader
returns the characters it stands for and the text that follows.
-/
namespace SelectorEngine

/-- The characters of a name that need no backslash: ASCII letters and digits, `_`, `-` and
everything from U+00C0 on. -/
def isNameChar (c : Char) : Bool := Text.isWordChar c || c == '-' || 0xC0 ≤ c.toNat

def isQuote (c : Char) : Bool := c == '"' || c == '\''

/-- The longest name at the start of a text, which may be empty. -/
def readName : List Char → Except Fault (List Char × List Char)
  | [] => .ok ([], [])
  | ['\\'] => .error .unterminated
  | '\\' :: c :: rest => (readName rest).map fun (name, rest) => (c :: name, rest)
  | c :: rest =>
    if isNameChar c then (readName rest).map fun (name, rest) => (c :: name, rest)
    else .ok ([], c :: rest)

def readFullName (text : List Char) : Except Fault (List Char × List Char) := do
  let (name, rest) ← readName text
  if name.isEmpty then .error .unrecognized else return (name, rest)

def readQuoted (quote : Char) : List Char → Except Fault (List Char × List Char)
  | [] => .error .unterminated
  | ['\\'] => .error .unterminated
  | '\\' :: c :: rest => (readQuoted quote rest).map fun (text, rest) => (c :: text, rest)
  | c :: rest =>
    if c = quote then .ok ([], rest)
    else (readQuoted quote rest).map fun (text, rest) => (c :: text, rest)

end SelectorEngine
