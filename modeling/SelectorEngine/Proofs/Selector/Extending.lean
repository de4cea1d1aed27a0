import SelectorEngine.Proofs.Selector.Attributes
import SelectorEngine.Proofs.Selector.Branches
import SelectorEngine.Proofs.Selector.Roundtrip

/-! # Extending compounds

A compound is read as before when more simple selectors are written behind it, so that one more can
be written at the end of every branch that ends in a compound. -/
namespace SelectorEngine
open Text

variable {A : Type} {nested : List Char → Except SelectorError A} {simple : Simple A}
  {simples others : List (Simple A)} {text rest more name block : List Char}

theorem EndsName.append (h : EndsName rest) (ends : rest = [] → EndsName more) :
    EndsName (rest ++ more) := by
  cases rest with
  | nil => exact ends rfl
  | cons c rest => exact h

theorem readFullName_append (h : readFullName text = .ok (name, rest))
    (ends : rest = [] → EndsName more) :
    readFullName (text ++ more) = .ok (name, rest ++ more) := by
  obtain ⟨hne, spelling, hs, last, rfl⟩ := readFullName_iff.mp h
  exact readFullName_iff.mpr ⟨hne, spelling, hs, last.append ends, List.append_assoc ..⟩

section Resumes

variable (resumes : Resumes more)

include resumes

theorem readArgument_append {argument : Option (List Char)}
    (h : readArgument text = .ok (argument, rest)) :
    readArgument (text ++ more) = .ok (argument, rest ++ more) := by
  obtain ⟨contents, bare, rfl⟩ := readArgument_iff.mp h
  refine readArgument_iff.mpr ⟨contents, fun none => ?_, List.append_assoc ..⟩
  cases rest with
  | nil => exact fun opened => absurd (resumes '(' opened) (by decide)
  | cons c rest => exact bare none

theorem ReadsSimple.append {c : Char} (h : ReadsSimple nested c text simple rest) :
    ReadsSimple nested c (text ++ more) simple (rest ++ more) := by
  cases h with
  | id hn => exact .id (readFullName_append hn fun _ => resumes.endsName)
  | className hn => exact .className (readFullName_append hn fun _ => resumes.endsName)
  | attr ht => exact .attr (readAttribute_append ht more)
  | pseudo h =>
    obtain ⟨hn, found, ha, makes⟩ := h
    exact .pseudo (.intro (readFullName_append hn fun _ => resumes.endsName) found
      (readArgument_append resumes ha) makes)

theorem ReadsHead.append (h : ReadsHead text simples rest) :
    ReadsHead (text ++ more) simples (rest ++ more) := by
  cases h with
  | star => exact .star
  | tag hn => exact .tag (readFullName_append hn fun _ => resumes.endsName)
  | nothing ends unstarred =>
    refine .nothing (ends.append fun _ => resumes.endsName) ?_
    cases text with
    | nil => exact fun star => absurd (resumes '*' star) (by decide)
    | cons c text => exact unstarred

end Resumes

theorem ReadsSimples.append (h : ReadsSimples nested text simples)
    (behind : ReadsSimples nested more others) :
    ReadsSimples nested (text ++ more) (simples ++ others) := by
  induction h with
  | nil => exact behind
  | cons hs _ ih => exact .cons (hs.append behind.resumes) ih

theorem readCompound_append {compound : Compound A} (h : readCompound nested block = .ok compound)
    (behind : ReadsSimples nested more others) :
    readCompound nested (block ++ more) =
      .ok ⟨String.ofList (block ++ more), compound.simples ++ others⟩ := by
  obtain ⟨hh, hs, some_simple⟩ := readCompound_iff.mp h
  rw [List.append_assoc]
  refine readCompound_iff.mpr (.intro (hh.append behind.resumes) (hs.append behind) ?_)
  rw [← List.append_assoc]
  exact List.append_ne_nil_of_left_ne_nil some_simple _

theorem IsBlock.append {n : Nesting} (h : IsBlock n block) (hm : IsBlock .outside more) :
    IsBlock n (block ++ more) := by
  induction block generalizing n with
  | nil => exact IsBlock.nil_iff.mp h ▸ hm
  | cons c block ih =>
    obtain ⟨inside, next, ha, hb⟩ := IsBlock.cons_iff.mp h
    exact IsBlock.cons_iff.mpr ⟨inside, next, ha, ih hb⟩

theorem YieldsAll.yields {branch : Complex A} (h : YieldsAll nested text [branch]) :
    Yields nested none text branch.parts := by
  generalize hb : [branch] = branches at h
  cases h with
  | single yields =>
    obtain rfl := List.singleton_inj.mp hb
    exact yields
  | @comma _ others _ _ _ _ empty =>
    obtain ⟨-, rfl⟩ := List.cons.inj hb
    generalize trim others = text at empty
    cases empty

section Writable

variable (writable : ∀ simple ∈ others, simple.Writable)
  (behind : ∀ simple ∈ others, simple.isHead = false)

include writable behind

/-- Without the blanks at its end, the text of a branch goes on with simple selectors that are
written behind it. -/
theorem Yields.extend {previous : Option (Part A)} {parts before : List (Part A)}
    {compound : Compound A}
    (h : Yields nested previous text parts) (ends : parts = before ++ [.compound compound]) :
    ∃ kept blanks source, text = kept ++ blanks ∧ kept ≠ [] ∧ (∀ c ∈ blanks, isBlank c = true) ∧
      Yields nested previous (kept ++ others.flatMap Simple.written)
        (before ++ [.compound ⟨source, compound.simples ++ others⟩]) := by
  induction h generalizing before with
  | done => simp at ends
  | @combinator previous blanks c relation rest parts closed blank hc _ ih =>
    cases before with
    | nil => cases ends
    | cons part before =>
      obtain ⟨rfl, tail⟩ := List.cons.inj ends
      obtain ⟨kept, blanks', source, rfl, -, blank', yields⟩ := ih tail
      refine ⟨blanks ++ c :: kept, blanks', source, by simp, by simp, blank', ?_⟩
      rw [List.append_assoc]
      exact .combinator closed blank hc yields
  | @compound previous blanks block rest compound' parts blank hb stops hc hr ih =>
    have some_char : block ≠ [] := by
      rintro rfl
      cases hc
    cases before with
    | nil =>
      obtain ⟨same, rfl⟩ := List.cons.inj ends
      cases same
      cases hr with
      | done _ blank' =>
        refine ⟨blanks ++ block, rest, String.ofList (block ++ others.flatMap Simple.written),
          (List.append_assoc ..).symm, by simp [some_char], blank', ?_⟩
        rw [List.append_assoc]
        exact .block blank (hb.append (Passes.compound writable).isBlock)
          (readCompound_append hc (readsSimples_written writable behind))
    | cons part before =>
      obtain ⟨rfl, tail⟩ := List.cons.inj ends
      obtain ⟨kept, blanks', source, rfl, hne, blank', yields⟩ := ih tail
      refine ⟨blanks ++ (block ++ kept), blanks', source, by simp, by simp [hne], blank', ?_⟩
      rw [List.append_assoc, List.append_assoc]
      refine .compound blank hb ?_ hc yields
      -- What ended the block before ends it still.
      obtain ⟨c, kept, rfl⟩ := List.exists_cons_of_ne_nil hne
      exact stops

end Writable

/-- Behind a selector of one branch that ends in a compound, more simple selectors of this compound
can be written, once the blanks at its end are gone. -/
theorem SelectorList.parse_extended {selector : String} {list : SelectorList}
    {branch : Complex SelectorList} {before : List (Part SelectorList)}
    {compound : Compound SelectorList} {others : List (Simple SelectorList)}
    (writable : ∀ simple ∈ others, simple.Writable)
    (behind : ∀ simple ∈ others, simple.isHead = false) (read : parse selector = .ok list)
    (one : list.branches = [branch]) (ends : branch.parts = before ++ [.compound compound]) :
    ∃ kept blanks source extended, selector.toList = kept ++ blanks ∧
      (∀ c ∈ blanks, isBlank c = true) ∧
      parse (String.ofList (kept ++ others.flatMap Simple.written)) = .ok extended ∧
      extended.branches = [⟨before ++ [.compound ⟨source, compound.simples ++ others⟩], none⟩] := by
  let depth := selector.toList.length + (others.flatMap Simple.written).length
  have yields : YieldsAll (readListWithin depth) selector.toList [branch] :=
    (parse_iff (Nat.le_add_right _ _)).mp ⟨list, read, one⟩
  obtain ⟨kept, blanks, source, ht, -, blank, longer⟩ := yields.yields.extend writable behind ends
  have text := String.toList_ofList (l := kept ++ others.flatMap Simple.written)
  have deep : (String.ofList (kept ++ others.flatMap Simple.written)).toList.length ≤ depth := by
    rw [text, List.length_append]
    refine Nat.add_le_add_right ?_ _
    rw [ht, List.length_append]
    exact Nat.le_add_right _ _
  obtain ⟨extended, read', written⟩ := (parse_iff deep).mpr
    (.single (text ▸ longer) (List.append_ne_nil_of_right_ne_nil _ (List.cons_ne_nil _ _)))
  exact ⟨kept, blanks, source, extended, ht, blank, read', written⟩

end SelectorEngine
