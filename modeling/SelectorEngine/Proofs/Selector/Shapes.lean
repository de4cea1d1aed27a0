import SelectorEngine.Engine.Delegate
import SelectorEngine.Proofs.Selector.Branches
import SelectorEngine.Proofs.Selector.Lexemes

/-! # Shapes are read as what they look like

A selector whose shape shows from its characters alone is read as one compound of one simple
selector, the one that the shape names. -/
namespace SelectorEngine
open Text

def isLabelChar (c : Char) : Bool := isWordChar c || c == '-'

/-- A character that neither ends a block nor opens or closes anything outside all brackets. -/
structure Inert (c : Char) : Prop where
  inside : isBoundary c = false
  stays : Nesting.outside.advance c = some .outside

variable {c : Char} {text name : List Char}

theorem isLabelChar_of_isWordChar (h : isWordChar c = true) : isLabelChar c = true := by
  rw [isLabelChar, h, Bool.true_or]

theorem Shape.isHyphenated_iff :
    isHyphenated name = true ↔ name ≠ [] ∧ ∀ c ∈ name, isLabelChar c = true := by
  rw [isHyphenated, Bool.and_eq_true, Bool.not_eq_true', List.isEmpty_eq_false_iff,
    List.all_eq_true]
  rfl

theorem isNameChar_of_isLabelChar (h : isLabelChar c = true) : isNameChar c = true := by
  rw [isLabelChar] at h
  rw [isNameChar, h, Bool.true_or]

theorem isBlank_of_isLabelChar (h : isLabelChar c = true) : isBlank c = false :=
  isBlank_eq_false (by decide) h

theorem inert_of_isLabelChar (h : isLabelChar c = true) : Inert c := by
  have apart {d : Char} (hd : isLabelChar d = false) : c ≠ d := ne_of_class h hd
  constructor
  · have comma : (c == ',') = false := beq_eq_false_iff_ne.mpr (apart (by decide))
    have relation : Combinator.ofChar? c = none := by
      unfold Combinator.ofChar?
      split
      · exact absurd rfl (apart (by decide))
      · exact absurd rfl (apart (by decide))
      · exact absurd rfl (apart (by decide))
      · rfl
    rw [isBoundary, isBlank_of_isLabelChar h, comma, relation]
    rfl
  · exact Nesting.advancePlain_ordinary (by decide) h

theorem inert_mark (h : c = '.' ∨ c = '#') : Inert c := by
  rcases h with rfl | rfl <;> constructor <;> decide

theorem Passes.inert (h : ∀ c ∈ text, Inert c) : Passes .outside text .outside := by
  induction text with
  | nil => exact .nil
  | cons c text ih =>
    obtain ⟨hc, ht⟩ := List.forall_mem_cons.mp h
    exact .cons (fun ho => by simp [hc.inside] at ho) hc.stays (ih ht)

theorem readComplex_block {A : Type} {nested : List Char → Except SelectorError A}
    {compound : Compound A} (h : ∀ c ∈ text, Inert c)
    (block : readCompound nested text = .ok compound) :
    readComplex nested text = .ok { parts := [.compound compound] } := by
  have yields : Yields nested none text [.compound compound] :=
    .block (List.forall_mem_nil _) (Passes.inert h).isBlock block
  rw [readComplex, readParts_yields_end yields (.inr (List.cons_ne_nil _ _)) (Nat.lt_succ_self _)]
  rfl

theorem parse_block {selector : String} {compound : Compound SelectorList}
    (h : ∀ c ∈ selector.toList, Inert c)
    (block : readCompound (readListWithin selector.toList.length) selector.toList = .ok compound) :
    SelectorList.parse selector = .ok (.mk selector [{ parts := [.compound compound] }]) := by
  have solid : ∀ c ∈ selector.toList, isBlank c = false := fun c hc =>
    isBlank_of_not_boundary (h c hc).inside
  rw [SelectorList.parse, readListWithin, readBranches, readComplex_block h block, trim_solid solid,
    String.ofList_toList]
  rfl

theorem spells_label (h : ∀ c ∈ name, isLabelChar c = true) : Spells name name := by
  induction name with
  | nil => exact .nil
  | cons c name ih =>
    obtain ⟨hc, hname⟩ := List.forall_mem_cons.mp h
    exact .char (isNameChar_of_isLabelChar hc) (ih hname)

theorem readName_label (h : ∀ c ∈ name, isLabelChar c = true) : readName name = .ok (name, []) := by
  have read := readName_of_spells (spells_label h) endsName_nil
  rwa [List.append_nil] at read

section Compounds

variable {A : Type} (nested : List Char → Except SelectorError A)

theorem readCompound_word (h : ∀ c ∈ name, isLabelChar c = true) (hne : name ≠ []) :
    readCompound nested name = .ok ⟨String.ofList name, [.tag (String.ofList name)]⟩ :=
  readCompound_iff.mpr (.intro (.tag (readFullName_eq (readName_label h) hne)) .nil (by simp))

theorem readCompound_mark {mark : Char} {simple : Simple A}
    (read : ReadsSimple nested mark name simple []) :
    readCompound nested (mark :: name) = .ok ⟨String.ofList (mark :: name), [simple]⟩ :=
  have simples : ReadsSimples nested (mark :: name) [simple] := .cons read .nil
  readCompound_iff.mpr (.intro simples.resumes.readsHead simples (List.cons_ne_nil _ _))

end Compounds

namespace Shape

def simple {A : Type} : Shape → Simple A
  | tag name => .tag name
  | className name => .className name
  | id name => .id name

def list (selector : String) (shape : Shape) : SelectorList :=
  .mk selector [{ parts := [.compound ⟨selector, [shape.simple]⟩] }]

theorem parse_word {selector : String} (word : isWord selector.toList = true) :
    SelectorList.parse selector = .ok ((tag selector).list selector) := by
  rw [isWord, Bool.and_eq_true, Bool.not_eq_true', List.isEmpty_eq_false_iff,
    List.all_eq_true] at word
  have labels : ∀ c ∈ selector.toList, isLabelChar c = true := fun c hc =>
    isLabelChar_of_isWordChar (word.2 c hc)
  refine parse_block (fun c hc => inert_of_isLabelChar (labels c hc)) ?_
  rw [readCompound_word _ labels word.1, String.ofList_toList]
  rfl

theorem parse_mark {selector : String} {mark : Char} (hm : mark = '.' ∨ mark = '#')
    (text : selector.toList = mark :: name) (hyphenated : isHyphenated name = true) {shape : Shape}
    (read : ∀ nested : List Char → Except SelectorError SelectorList,
      readFullName name = .ok (name, []) → ReadsSimple nested mark name shape.simple []) :
    SelectorList.parse selector = .ok (shape.list selector) := by
  obtain ⟨hne, labels⟩ := isHyphenated_iff.mp hyphenated
  have inert : ∀ c ∈ selector.toList, Inert c := by
    rw [text]
    exact List.forall_mem_cons.mpr ⟨inert_mark hm, fun c hc => inert_of_isLabelChar (labels c hc)⟩
  have source : String.ofList (mark :: name) = selector := by rw [← text, String.ofList_toList]
  refine parse_block inert ?_
  rw [text, readCompound_mark _ (read _ (readFullName_eq (readName_label labels) hne)), source]

/-- A shape that is found in a text is what the reader finds there. -/
theorem parse_eq {selector : String} {shape : Shape} (h : ofSelector? selector = some shape) :
    SelectorList.parse selector = .ok (shape.list selector) := by
  unfold ofSelector? at h
  split at h
  · next name text =>
    split at h
    · next hyphenated =>
      obtain rfl := Option.some.inj h
      exact parse_mark (.inl rfl) text hyphenated fun nested full => .className full
    · cases h
  · next name text =>
    split at h
    · next hyphenated =>
      obtain rfl := Option.some.inj h
      exact parse_mark (.inr rfl) text hyphenated fun nested full => .id full
    · cases h
  · split at h
    · next word =>
      obtain rfl := Option.some.inj h
      exact parse_word word
    · cases h

end Shape
end SelectorEngine
