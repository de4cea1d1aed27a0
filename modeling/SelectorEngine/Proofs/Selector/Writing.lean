import SelectorEngine.Proofs.Selector.Attributes
import SelectorEngine.Proofs.Selector.Formulas
import SelectorEngine.Proofs.Selector.Groups
import SelectorEngine.Proofs.Selector.Shapes
import SelectorEngine.Selector.Chain
import SelectorEngine.Selector.Display

/-! # Writing chains

Every chain can be written so that it is read back. A backslash stands before every character of a
name, and values stand in double quotes. -/
namespace SelectorEngine
open Text

variable {A : Type}

def spell (name : List Char) : List Char := name.flatMap fun c => ['\\', c]

def shield (text : List Char) : List Char :=
  text.flatMap fun c => if c = '"' ∨ c = '\\' then ['\\', c] else [c]

def AttributeTest.written (test : AttributeTest) : List Char :=
  '[' :: (spell test.name.toList ++ (match test.comparison with
    | none => []
    | some (operator, operand) =>
      operator.symbol.toList ++ '"' :: (shield operand.toList ++ ['"'])) ++
    [']'])

namespace Simple

/-- A simple selector as it is written in full. Those with a text or a selector as an argument are
left out. -/
def written : Simple A → List Char
  | universal => ['*']
  | tag name => spell name.toList
  | id name => '#' :: spell name.toList
  | className name => '.' :: spell name.toList
  | attr test => test.written
  | child place => place.display.toList
  | pseudo kind => ':' :: kind.keyword.toList
  | position place => place.display.toList
  | contains _ | has _ | not _ => []

def Writable : Simple A → Prop
  | universal | pseudo _ | child .first | child .last | child .only | position .first
  | position .last | position .even | position .odd => True
  | tag name | id name | className name => name ≠ ""
  | attr test => test.name ≠ ""
  | child (.nth formula) => formula.step.natAbs ≤ maxSigned ∧ formula.offset.natAbs ≤ maxSigned
  | position (.eq index) | position (.lt index) | position (.gt index) => index ≤ maxUnsigned
  | contains _ | has _ | not _ => False

def isHead : Simple A → Bool
  | universal | tag _ => true
  | _ => false

end Simple

namespace Compound

def written (simples : List (Simple A)) : Compound A :=
  ⟨String.ofList (simples.flatMap Simple.written), simples⟩

structure Writable (block : Compound A) : Prop where
  some_simple : block.simples ≠ []
  simples : ∀ simple ∈ block.simples, simple.Writable
  heads : ∀ simple ∈ block.simples.tail, simple.isHead = false

end Compound

namespace Part

def written : Part A → Part A
  | compound block => .compound (.written block.simples)
  | combinator relation => .combinator relation

def Writable : Part A → Prop
  | compound block => block.Writable
  | combinator relation => relation ≠ .descendant

end Part

namespace Complex

def written (parts : List (Part A)) : Complex A := ⟨parts.map Part.written, none⟩

/-- No two combinators meet, and none ends the chain. -/
structure Writable (parts : List (Part A)) : Prop where
  some_part : parts ≠ []
  alternating : (Chain.ofParts? parts).isSome = true
  parts : ∀ part ∈ parts, part.Writable

end Complex

theorem spells_spell (name : List Char) : Spells (spell name) name := by
  induction name with
  | nil => exact .nil
  | cons c name ih => exact .escape ih

theorem quotes_shield (text : List Char) : Quotes '"' (shield text) text := by
  induction text with
  | nil => exact .nil
  | cons c text ih =>
    rw [shield, List.flatMap_cons]
    split
    · exact .escape ih
    · next plain =>
      rw [not_or] at plain
      exact .char plain.1 plain.2 ih

theorem Passes.spell (name : List Char) : Passes .outside (spell name) .outside := by
  induction name with
  | nil => exact .nil
  | cons c name ih => exact .cons (by decide) rfl (.cons (fun ho => nomatch ho.1) rfl ih)

namespace Balanced

variable {b : Bracket}

theorem spell (name : List Char) : Balanced b (spell name) := by
  induction name with
  | nil => exact .nil
  | cons c name ih => exact .escape ih

theorem operator (operator : AttributeOperator) : Balanced b operator.symbol.toList := by
  have ordinary : operator.symbol.toList.all b.isOrdinary = true := by
    cases operator <;> cases b <;> decide
  exact of_ordinary (List.all_eq_true.mp ordinary)

end Balanced

theorem Passes.test (test : AttributeTest) : Passes .outside test.written .outside := by
  obtain ⟨name, comparison⟩ := test
  apply Balanced.passes
  apply Balanced.append (.spell _)
  cases comparison with
  | none => exact .nil
  | some comparison => exact .append (.operator _) (.string rfl (quotes_shield _) .nil)

theorem isArgument_formula {argument : List Char}
    (numeric : ∀ c ∈ argument, isFormulaChar c = true) :
    IsArgument argument := by
  have ordinary : ∀ c ∈ argument, Bracket.isOrdinary .round c = true := fun c hc =>
    isOrdinary_of_class (by decide) (numeric c hc)
  refine ⟨[], argument, .none ?_, .of_ordinary ordinary, rfl⟩
  rw [skipBlank_solid fun c hc => isBlank_of_isFormulaChar (numeric c hc)]
  intro c hc
  exact Nesting.isQuote_ordinary (by decide) (numeric c (List.mem_of_mem_head? hc))

section Names

variable {name text rest : List Char}

theorem readFullName_spell (hne : name ≠ []) (ends : EndsName rest) :
    readFullName (spell name ++ rest) = .ok (name, rest) :=
  readFullName_eq (readName_of_spells (spells_spell name) ends) hne

theorem skipBlank_spell (hne : name ≠ []) :
    skipBlank (spell name ++ rest) = spell name ++ rest := by
  obtain ⟨c, name, rfl⟩ := List.exists_cons_of_ne_nil hne
  exact skipBlank_cons (by decide) _

theorem readOperand_shield (text rest : List Char) :
    readOperand (skipBlank ('"' :: (shield text ++ '"' :: rest))) = .ok (text, rest) := by
  rw [skipBlank_cons (by decide), readOperand, readQuoted_of_quotes rfl (quotes_shield text)]

theorem readAttribute_written (test : AttributeTest) (hne : test.name ≠ "") (rest : List Char) :
    ∃ inner, test.written = '[' :: inner ∧ readAttribute (inner ++ rest) = .ok (test, rest) := by
  obtain ⟨name, comparison⟩ := test
  have named : name.toList ≠ [] := fun he => hne (String.toList_inj.mp he)
  have closing : skipBlank (']' :: rest) = ']' :: rest := skipBlank_cons (by decide) rest
  refine ⟨_, rfl, ?_⟩
  cases comparison with
  | none =>
    have text : spell name.toList ++ [] ++ [']'] ++ rest = spell name.toList ++ ']' :: rest := by
      simp
    have ends : EndsName (']' :: rest) := fun c hc => by
      obtain rfl := Option.some.inj hc
      decide
    change readAttribute (spell name.toList ++ [] ++ [']'] ++ rest) = _
    rw [text, readAttribute, skipBlank_spell named, readFullName_spell named ends]
    simp only [bind, Except.bind, closing, String.ofList_toList]
    rfl
  | some comparison =>
    obtain ⟨operator, operand⟩ := comparison
    obtain ⟨c, tail, symbol, ends, escape, solid, apart⟩ := operator.symbol_cons
    have text : spell name.toList ++
          (operator.symbol.toList ++ '"' :: (shield operand.toList ++ ['"'])) ++ [']'] ++ rest =
        spell name.toList ++ (operator.symbol.toList ++
          '"' :: (shield operand.toList ++ '"' :: (']' :: rest))) := by simp
    have compared :=
      readOperator_symbol operator ('"' :: (shield operand.toList ++ '"' :: (']' :: rest)))
    change readAttribute (spell name.toList ++ (operator.symbol.toList ++
      '"' :: (shield operand.toList ++ ['"'])) ++ [']'] ++ rest) = _
    rw [symbol, List.cons_append] at compared
    rw [text, readAttribute, skipBlank_spell named, symbol, List.cons_append,
      readFullName_spell named]
    · simp only [bind, Except.bind, skipBlank_cons solid]
      split
      · next he => exact absurd (List.cons.inj he).1 apart
      · simp only [compared, readOperand_shield, closing, String.ofList_toList]
        rfl
    · rintro d hd
      obtain rfl := Option.some.inj hd
      exact ⟨ends, escape⟩

end Names

end SelectorEngine
