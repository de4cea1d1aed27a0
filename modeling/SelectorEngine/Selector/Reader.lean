import SelectorEngine.Selector.Group
import SelectorEngine.Text.Letters

/-!
# Reading selectors

A text is read from left to right, and the first thing wrong with it is the error. The functions
take the reader of `:has()` and `:not()` arguments as a parameter `nested`; `readListWithin` ties
the knot, since an argument is shorter than the text that it stands in.
-/
namespace SelectorEngine
open Text

def readOperator : List Char → Except Fault (AttributeOperator × List Char)
  | [] => .error .unterminated
  | '=' :: rest => .ok (.equals, rest)
  | lead :: rest =>
    match AttributeOperator.ofLead? lead, rest with
    | some operator, '=' :: rest => .ok (operator, rest)
    | _, _ => .error .unrecognized

/-- A quoted string, or a name that may be empty and may have a number sign in front. -/
def readOperand : List Char → Except Fault (List Char × List Char)
  | '"' :: rest => readQuoted '"' rest
  | '\'' :: rest => readQuoted '\'' rest
  | '#' :: rest => (readName rest).map fun (name, rest) => ('#' :: name, rest)
  | text => readName text

def readAttribute (text : List Char) : Except Fault (AttributeTest × List Char) := do
  let (name, rest) ← readFullName (skipBlank text)
  match skipBlank rest with
  | ']' :: rest => return (⟨String.ofList name, none⟩, rest)
  | rest =>
    let (operator, rest) ← readOperator rest
    let (operand, rest) ← readOperand (skipBlank rest)
    match skipBlank rest with
    | ']' :: rest => return (⟨String.ofList name, some (operator, String.ofList operand)⟩, rest)
    | [] => .error .unterminated
    | _ :: _ => .error .unrecognized

def unquote (argument : List Char) : List Char :=
  let inner := (trim argument).tail
  match (trim argument).head?, inner.getLast? with
  | some opening, some closing =>
    if isQuote opening ∧ opening = closing then inner.dropLast else argument
  | _, _ => argument

def readIndex (argument : List Char) : Option Nat :=
  match trim argument with
  | '+' :: digits => readNumeral maxUnsigned digits
  | digits => readNumeral maxUnsigned digits

section Nested

variable {A : Type} (nested : List Char → Except SelectorError A)

/-- The simple selector that a keyword makes with its argument, or with none. Numbers that cannot
be read are a fault of the whole `block`. -/
def PseudoForm.toSimple (block : List Char) (keyword : String) (form : PseudoForm)
    (argument : Option (List Char)) : Except SelectorError (Simple A) :=
  let unreadable : SelectorError := Fault.unrecognized.within block
  match form, argument with
  | .child place, none => .ok (.child place)
  | .state kind, none => .ok (.pseudo kind)
  | .position place, none => .ok (.position place)
  | .child _, some _ | .state _, some _ | .position _, some _ =>
    .error (.unexpectedArgument keyword)
  | .nthChild, some text =>
    match AnPlusB.read text with
    | some formula => .ok (.child (.nth formula))
    | none => .error unreadable
  | .indexed place, some text =>
    match readIndex text with
    | some index => .ok (.position (place index))
    | none => .error unreadable
  | .contains, some text => .ok (.contains (String.ofList (unquote text)))
  | .has, some text => (nested (unquote text)).map .has
  | .not, some text => (nested (unquote text)).map .not
  | .nthChild, none | .indexed _, none | .contains, none | .has, none | .not, none =>
    .error (.missingArgument keyword)

def readArgument : List Char → Except Fault (Option (List Char) × List Char)
  | '(' :: rest => (readGroup .round rest).map fun (argument, rest) => (some argument, rest)
  | rest => .ok (none, rest)

def readPseudo (block : List Char) (text : List Char) :
    Except SelectorError (Simple A × List Char) := do
  let (name, rest) ← (readFullName text).mapError (Fault.within block)
  let (argument, rest) ← (readArgument rest).mapError (Fault.within block)
  let keyword := lowered (String.ofList name)
  match PseudoForm.ofKeyword? keyword with
  | none => .error (.unknownPseudoClass (String.ofList name))
  | some form => return (← form.toSimple nested block keyword argument, rest)

def readSimple (block : List Char) : Char → List Char → Except SelectorError (Simple A × List Char)
  | '#', rest => ((readFullName rest).mapError (Fault.within block)).map
      fun (name, rest) => (.id (String.ofList name), rest)
  | '.', rest => ((readFullName rest).mapError (Fault.within block)).map
      fun (name, rest) => (.className (String.ofList name), rest)
  | '[', rest => ((readAttribute rest).mapError (Fault.within block)).map
      fun (test, rest) => (.attr test, rest)
  | ':', rest => readPseudo nested block rest
  | _, _ => .error (Fault.unrecognized.within block)

/-- The simple selectors of a text. One is at least one character long, so that `limit` is enough
if it is the length of the text. -/
def readSimples (block : List Char) :
    (limit : Nat) → List Char → Except SelectorError (List (Simple A))
  | _, [] => .ok []
  | 0, _ :: _ => .error (Fault.unrecognized.within block)
  | limit + 1, c :: rest => do
    let (simple, rest) ← readSimple nested block c rest
    return simple :: (← readSimples block limit rest)

def readHead : List Char → Except Fault (List (Simple A) × List Char)
  | '*' :: rest => .ok ([.universal], rest)
  | text => (readName text).map fun (name, rest) =>
    (if name.isEmpty then [] else [.tag (String.ofList name)], rest)

def readCompound (block : List Char) : Except SelectorError (Compound A) := do
  let (head, rest) ← (readHead block).mapError (Fault.within block)
  let simples := head ++ (← readSimples nested block rest.length rest)
  if simples.isEmpty then .error (Fault.unrecognized.within block)
  else return ⟨String.ofList block, simples⟩

def isOpenEnd : Option (Part A) → Bool
  | some (.combinator _) => true
  | _ => false

/-- The parts of a branch of `source` up to a comma, and the text after the comma. A part is at
least one character long, so that one more than the length of the text is enough as `limit`. -/
def readParts (source : List Char) : (limit : Nat) → (previous : Option (Part A)) → List Char →
    Except SelectorError (List (Part A) × Option (List Char))
  | 0, _, _ => .error (Fault.unrecognized.within source)
  | limit + 1, previous, text =>
    match skipBlank text with
    | [] => if isOpenEnd previous then .error (Fault.unrecognized.within source) else .ok ([], none)
    | ',' :: rest =>
      if previous.isNone || isOpenEnd previous || (trim rest).isEmpty then
        .error (Fault.unrecognized.within source)
      else .ok ([], some (trim rest))
    | c :: rest =>
      match Combinator.ofChar? c with
      | some relation =>
        if isOpenEnd previous then .error (Fault.unrecognized.within source)
        else (readParts source limit (some (.combinator relation)) rest).map
          fun (parts, rest) => (.combinator relation :: parts, rest)
      | none => do
        let (block, rest) ← (readBlock (c :: rest)).mapError (Fault.within source)
        let compound ← readCompound nested block
        let (parts, rest) ← readParts source limit (some (.compound compound)) rest
        return (.compound compound :: parts, rest)

def readComplex (text : List Char) : Except SelectorError (Complex A) :=
  (readParts nested text (text.length + 1) none text).map
    fun (parts, rest) => ⟨parts, rest.map String.ofList⟩

def readBranches (source : List Char) :
    (limit : Nat) → List Char → Except SelectorError (List (Complex A))
  | 0, _ => .error (Fault.unrecognized.within source)
  | limit + 1, text => do
    let branch ← readComplex nested text
    if branch.parts.isEmpty then .error (Fault.unrecognized.within source)
    else match branch.rest with
      | none => return [branch]
      | some rest => return branch :: (← readBranches source limit rest.toList)

end Nested

/-- A list whose arguments are nested less than `depth` deep. -/
def readListWithin : (depth : Nat) → List Char → Except SelectorError SelectorList
  | 0, text => .error (Fault.unrecognized.within text)
  | depth + 1, text =>
    (readBranches (readListWithin depth) text (text.length + 1) text).map
      (.mk (String.ofList (trim text)))

def SelectorList.parse (selector : String) : Except SelectorError SelectorList :=
  readListWithin (selector.toList.length + 1) selector.toList

def Complex.parse (selector : String) : Except SelectorError (Complex SelectorList) :=
  readComplex (readListWithin selector.toList.length) selector.toList

def Compound.parse (block : String) : Except SelectorError (Compound SelectorList) :=
  readCompound (readListWithin block.toList.length) block.toList

end SelectorEngine
