import SelectorEngine.Selector.Lexeme
import SelectorEngine.Selector.Spelling

/-!
# Groups and blocks

Brackets nest, and what stands between them is not looked at until the group is closed. Inside
square brackets every quote opens a string; inside round brackets only a quote that is the first
character after the blanks does, so that `:contains(don't)` is one group. A block is the text of
one compound: it ends at the first blank, comma or combinator outside all brackets.
-/
namespace SelectorEngine
open Text

inductive Bracket where
  | round
  | square
  deriving DecidableEq, Repr

inductive Mode where
  | plain
  /-- Only blanks stand between here and an opening round bracket. -/
  | opened
  | quoted (quote : Char)
  | escaped (quote : Option Char)
  deriving DecidableEq, Repr

/-- The brackets that are open, innermost first, and the way to take the next character. -/
structure Nesting where
  brackets : List Bracket
  mode : Mode
  deriving DecidableEq, Repr

namespace Nesting

def outside : Nesting := ⟨[], .plain⟩

def inside : Bracket → Nesting
  | .round => ⟨[.round], .opened⟩
  | .square => ⟨[.square], .plain⟩

def close (b : Bracket) : List Bracket → Option Nesting
  | innermost :: outer => if innermost = b then some ⟨outer, .plain⟩ else none
  | [] => none

def advancePlain (brackets : List Bracket) (c : Char) : Option Nesting :=
  if c = '\\' then some ⟨brackets, .escaped none⟩
  else if isQuote c && brackets.head? == some .square then some ⟨brackets, .quoted c⟩
  else if c = '(' then some ⟨.round :: brackets, .opened⟩
  else if c = '[' then some ⟨.square :: brackets, .plain⟩
  else if c = ')' then close .round brackets
  else if c = ']' then close .square brackets
  else some ⟨brackets, .plain⟩

/-- The nesting after one more character. There is none after a closing bracket that does not
belong to the innermost open one. -/
def advance (n : Nesting) (c : Char) : Option Nesting :=
  match n.mode with
  | .plain => advancePlain n.brackets c
  | .opened =>
    if isBlank c then some n
    else if isQuote c then some ⟨n.brackets, .quoted c⟩
    else advancePlain n.brackets c
  | .quoted quote =>
    if c = '\\' then some ⟨n.brackets, .escaped (some quote)⟩
    else if c = quote then some ⟨n.brackets, .plain⟩
    else some n
  | .escaped none => some ⟨n.brackets, .plain⟩
  | .escaped (some quote) => some ⟨n.brackets, .quoted quote⟩

end Nesting

def scanGroup (n : Nesting) : List Char → Except Fault (List Char × List Char)
  | [] => .error .unterminated
  | c :: rest =>
    match n.advance c with
    | none => .error .unrecognized
    | some next =>
      if next.brackets.isEmpty then .ok ([], rest)
      else (scanGroup next rest).map fun (content, rest) => (c :: content, rest)

def readGroup (b : Bracket) (text : List Char) : Except Fault (List Char × List Char) :=
  scanGroup (.inside b) text

def isBoundary (c : Char) : Bool := isBlank c || c == ',' || (Combinator.ofChar? c).isSome

def scanBlock (n : Nesting) : List Char → Except Fault (List Char × List Char)
  | [] => if n = .outside then .ok ([], []) else .error .unterminated
  | c :: rest =>
    if n = .outside ∧ isBoundary c then .ok ([], c :: rest)
    else match n.advance c with
      | none => .error .unrecognized
      | some next => (scanBlock next rest).map fun (block, rest) => (c :: block, rest)

def readBlock (text : List Char) : Except Fault (List Char × List Char) :=
  scanBlock .outside text

end SelectorEngine
