import SelectorEngine.Selector.AnPlusB
import SelectorEngine.Text.Letters

/-!
# Selectors

A selector list is a list of branches between commas, a branch is a chain of compounds and
combinators, and a compound is a run of simple selectors that one element has to satisfy. The
arguments of `:has()` and `:not()` are selector lists again; every type below the list takes the
type of these arguments as a parameter, so that it also holds selectors whose arguments have
already been replaced by their meaning.
-/
namespace SelectorEngine

inductive AttributeOperator where
  | equals
  | notEquals
  | includes
  | dashMatch
  | startsWith
  | endsWith
  | substring
  deriving DecidableEq, Repr

structure AttributeTest where
  name : String
  comparison : Option (AttributeOperator × String) := none
  deriving DecidableEq, Repr

inductive ChildPosition where
  | first
  | last
  | only
  | nth (formula : AnPlusB)
  deriving DecidableEq, Repr

inductive PseudoClass where
  | enabled | disabled | checked | selected | parent | empty | header | text | radio | checkbox
  | file | password | submit | image | reset | button | input | focus
  deriving DecidableEq, Repr

/-- The place of a node in the list of candidates, counted from zero. -/
inductive Position where
  | first
  | last
  | even
  | odd
  | eq (index : Nat)
  | lt (index : Nat)
  | gt (index : Nat)
  deriving DecidableEq, Repr

def Position.holds (p : Position) (index length : Nat) : Bool :=
  match p with
  | first => index == 0
  | last => index + 1 == length
  | even => index % 2 == 0
  | odd => index % 2 == 1
  | eq n => index == n
  | lt n => index < n
  | gt n => n < index

/-- One condition on a node. `A` is the type of the arguments of `:has()` and `:not()`. -/
inductive Simple (A : Type) where
  | universal
  | tag (name : String)
  | id (name : String)
  | className (name : String)
  | attr (test : AttributeTest)
  | child (position : ChildPosition)
  | pseudo (kind : PseudoClass)
  | contains (text : String)
  | has (argument : A)
  | not (argument : A)
  | position (place : Position)
  deriving DecidableEq, Repr

structure Compound (A : Type) where
  source : String
  simples : List (Simple A)
  deriving DecidableEq, Repr

inductive Combinator where
  | descendant
  | child
  | adjacent
  | general
  deriving DecidableEq, Repr

def Combinator.isSibling : Combinator → Bool
  | descendant | child => false
  | adjacent | general => true

/-- A piece of a branch. Two compounds next to each other are related by the descendant
combinator, which is never a part. -/
inductive Part (A : Type) where
  | compound (block : Compound A)
  | combinator (relation : Combinator)
  deriving DecidableEq, Repr

/-- One branch and what is written after the comma that ends it. -/
structure Complex (A : Type) where
  parts : List (Part A)
  rest : Option String := none
  deriving DecidableEq, Repr

inductive SelectorList where
  | mk (source : String) (branches : List (Complex SelectorList))

namespace SelectorList

def source : SelectorList → String
  | mk source _ => source

def branches : SelectorList → List (Complex SelectorList)
  | mk _ branches => branches

end SelectorList

variable {A B : Type}

def Simple.map (f : A → B) : Simple A → Simple B
  | .universal => .universal
  | .tag name => .tag name
  | .id name => .id name
  | .className name => .className name
  | .attr test => .attr test
  | .child place => .child place
  | .pseudo kind => .pseudo kind
  | .contains text => .contains text
  | .has argument => .has (f argument)
  | .not argument => .not (f argument)
  | .position place => .position place

def Compound.map (f : A → B) (c : Compound A) : Compound B :=
  ⟨c.source, c.simples.map (Simple.map f)⟩

def Part.map (f : A → B) : Part A → Part B
  | .compound block => .compound (block.map f)
  | .combinator relation => .combinator relation

def Complex.map (f : A → B) (c : Complex A) : Complex B :=
  ⟨c.parts.map (Part.map f), c.rest⟩

section Fold

variable (f : String → List (Complex A) → A)

mutual

/-- The value of a list, given what a list is worth once its nested lists are replaced by their
own values. -/
def SelectorList.fold : SelectorList → A
  | .mk source branches => f source (foldBranches branches)

def foldBranches : List (Complex SelectorList) → List (Complex A)
  | [] => []
  | branch :: others => foldComplex branch :: foldBranches others

def foldComplex : Complex SelectorList → Complex A
  | ⟨parts, rest⟩ => ⟨foldParts parts, rest⟩

def foldParts : List (Part SelectorList) → List (Part A)
  | [] => []
  | part :: others => foldPart part :: foldParts others

def foldPart : Part SelectorList → Part A
  | .compound block => .compound (foldCompound block)
  | .combinator relation => .combinator relation

def foldCompound : Compound SelectorList → Compound A
  | ⟨source, simples⟩ => ⟨source, foldSimples simples⟩

def foldSimples : List (Simple SelectorList) → List (Simple A)
  | [] => []
  | simple :: others => foldSimple simple :: foldSimples others

def foldSimple : Simple SelectorList → Simple A
  | .universal => .universal
  | .tag name => .tag name
  | .id name => .id name
  | .className name => .className name
  | .attr test => .attr test
  | .child place => .child place
  | .pseudo kind => .pseudo kind
  | .contains text => .contains text
  | .has argument => .has argument.fold
  | .not argument => .not argument.fold
  | .position place => .position place

end

theorem foldSimple_eq (simple : Simple SelectorList) :
    foldSimple f simple = simple.map (SelectorList.fold f) := by
  cases simple <;> simp [foldSimple, Simple.map]

theorem foldCompound_eq (c : Compound SelectorList) :
    foldCompound f c = c.map (SelectorList.fold f) := by
  have simples (l : List (Simple SelectorList)) :
      foldSimples f l = l.map (Simple.map (SelectorList.fold f)) := by
    induction l with
    | nil => simp [foldSimples]
    | cons simple others ih => simp [foldSimples, foldSimple_eq, ih]
  cases c
  simp [foldCompound, Compound.map, simples]

theorem foldComplex_eq (c : Complex SelectorList) :
    foldComplex f c = c.map (SelectorList.fold f) := by
  have part (p : Part SelectorList) : foldPart f p = p.map (SelectorList.fold f) := by
    cases p <;> simp [foldPart, Part.map, foldCompound_eq]
  have parts (l : List (Part SelectorList)) :
      foldParts f l = l.map (Part.map (SelectorList.fold f)) := by
    induction l with
    | nil => simp [foldParts]
    | cons p others ih => simp [foldParts, part, ih]
  cases c
  simp [foldComplex, Complex.map, parts]

theorem SelectorList.fold_eq (list : SelectorList) :
    list.fold f = f list.source (list.branches.map (Complex.map (SelectorList.fold f))) := by
  have branches (l : List (Complex SelectorList)) :
      foldBranches f l = l.map (Complex.map (SelectorList.fold f)) := by
    induction l with
    | nil => simp [foldBranches]
    | cons branch others ih => simp [foldBranches, foldComplex_eq, ih]
  cases list
  simp [SelectorList.fold, SelectorList.source, SelectorList.branches, branches]

end Fold

def Simple.isPositional : Simple A → Bool
  | position _ => true
  | _ => false

def Simple.isPlain : Simple A → Bool
  | universal | tag _ | id _ | className _ | attr _ => true
  | _ => false

def Simple.hasPositional (argument : A → Bool) : Simple A → Bool
  | position _ => true
  | has list | not list => argument list
  | _ => false

def Compound.hasPositional (argument : A → Bool) (c : Compound A) : Bool :=
  c.simples.any (Simple.hasPositional argument)

def Part.hasPositional (argument : A → Bool) : Part A → Bool
  | compound block => block.hasPositional argument
  | combinator _ => false

def Complex.hasPositional (argument : A → Bool) (c : Complex A) : Bool :=
  c.parts.any (Part.hasPositional argument)

/-- Whether a branch of the list, or an argument at any depth, is positional. -/
def SelectorList.hasPositional : SelectorList → Bool :=
  SelectorList.fold fun _ branches => branches.any (Complex.hasPositional fun nested => nested)

def Compound.id? (c : Compound A) : Option String :=
  c.simples.findSome? fun
    | .id name => some name
    | _ => none

def wordTag? : List (Simple A) → Option String
  | [.tag name] => if name.toList.all Text.isWordChar then some name else none
  | _ => none

end SelectorEngine
