import SelectorEngine.Proofs.Engine.FastPath
import SelectorEngine.Proofs.Selector.Roundtrip
import SelectorEngine.Proofs.Tree.Preorder

/-! # Selectors of one tag

With a backslash before every character, any name can be asked for. The index of tags and the test
of a node understand one name differently: a lone star, which is every tag to the index. -/
namespace SelectorEngine

def tagSelector (name : String) : String := String.ofList (spell name.toList)

section Selector

variable {name : String}

theorem parse_tagSelector (named : name ≠ "") :
    ∃ list, SelectorList.parse (tagSelector name) = .ok list ∧
      list.branches = [{ parts := [.compound ⟨tagSelector name, [.tag name]⟩] }] := by
  have writable : Compound.Writable (A := SelectorList) ⟨"", [.tag name]⟩ := by
    refine ⟨List.cons_ne_nil _ _, ?_, nofun⟩
    intro simple hs
    obtain rfl := List.mem_singleton.mp hs
    exact named
  have written : Compound.written (A := SelectorList) [.tag name] =
      ⟨tagSelector name, [.tag name]⟩ := by
    rw [Compound.written, List.flatMap_singleton]
    rfl
  obtain ⟨list, read, one⟩ := SelectorList.parse_compound writable
  rw [written] at read one
  exact ⟨list, read, one⟩

/-- No selector that starts with a backslash has a shape. -/
theorem Shape.ofSelector?_tagSelector (named : name ≠ "") :
    ofSelector? (tagSelector name) = none := by
  obtain ⟨c, letters, hn⟩ : ∃ c letters, name.toList = c :: letters :=
    List.exists_cons_of_ne_nil fun none => named (String.toList_inj.mp none)
  have text : (tagSelector name).toList = '\\' :: c :: spell letters := by
    rw [tagSelector, String.toList_ofList, hn]
    rfl
  rw [ofSelector?, text]
  rfl

end Selector

namespace Engine

variable {N : Type} [DecidableEq N] {e : Engine N} {selector : String}
  (fast : e.delegate = none ∨ e.delegate = some .byShape)
  (shapeless : Shape.ofSelector? selector = none)

include fast shapeless

theorem select_shapeless (context : N) :
    e.select selector context = { e with delegate := none }.select selector context := by
  refine select_delegate fun found _ answered => ?_
  rcases fast with alone | fast
  · rw [shortcut_alone alone] at answered
    cases answered
  · obtain ⟨-, shape, known, -⟩ := shape_of_shortcut fast answered
    rw [shapeless] at known
    cases known

theorem isMatch_shapeless (n : N) :
    e.isMatch n selector = { e with delegate := none }.isMatch n selector := by
  refine isMatch_delegate fun answer decided => ?_
  rcases fast with alone | fast
  · rw [delegatedMatch, alone] at decided
    cases decided
  · obtain ⟨-, -, shape, known, -⟩ := shape_of_delegatedMatch fast decided
    rw [shapeless] at known
    cases known

end Engine

namespace Tree

variable {t : Tree} {config : Config} {name : String}

theorem elementsByTag_eq (t : Tree) (scope : NodeId) (name : String) :
    t.elementsByTag scope name =
      (t.descendants scope).filter (if name = "*" then t.isElement else t.hasTag name) := by
  split
  · next star =>
    rw [star, elementsByTag_star]
  · next other =>
    have unlike : (name == "*") = false := beq_eq_false_iff_ne.mpr other
    rw [elementsByTag]
    simp only [unlike, Bool.false_or]
    rfl

namespace Linked

theorem select_tagSelector (h : t.Linked) (config : Config) (named : name ≠ "") :
    (⟨t.view, config, none⟩ : Engine NodeId).select (tagSelector name) root =
      .ok (t.elementsByTag root name) := by
  obtain ⟨list, read, one⟩ := parse_tagSelector named
  have single : list.chain? = some ⟨some [.tag name], []⟩ := by
    rw [SelectorList.chain?, one]
    rfl
  have meant : t.meant config ⟨some [.tag name], []⟩ = ⟨some [.tag name], []⟩ := rfl
  apply h.select_compound read single
  rw [meant, Setting.evaluateBackward_single, Setting.find, candidates_tag]
  rfl

theorem isMatch_tagSelector (h : t.Linked) (config : Config) (named : name ≠ "") (n : NodeId) :
    (⟨t.view, config, none⟩ : Engine NodeId).isMatch n (tagSelector name) =
      .ok (t.hasTag name n) := by
  obtain ⟨list, read, one⟩ := parse_tagSelector named
  rw [h.isMatch_single read one trivial n]
  exact congrArg Except.ok (satisfies_hasTag name)

end Linked

/-- The selector of a tag selects the elements below the document that have the tag, in document
order, and a node below the document passes its test if it is one of them. The name of one star is
the exception: every element is selected then, whereas the test asks for a tag that is a star. -/
theorem selections_by_tag (built : t.WellBuilt) (config : Config)
    {delegate : Option (Delegate NodeId)} (fast : delegate = none ∨ delegate = some .byShape)
    (named : name ≠ "") :
    (name ≠ "*" → ∃ found,
      (⟨t.view, config, delegate⟩ : Engine NodeId).select (tagSelector name) root = .ok found ∧
        found = (t.preorder root).filter (t.hasTag name) ∧
        ∀ n, t.Above root n →
          (⟨t.view, config, delegate⟩ : Engine NodeId).isMatch n (tagSelector name) =
            .ok (found.contains n)) ∧
    (name = "*" →
      (⟨t.view, config, delegate⟩ : Engine NodeId).select (tagSelector name) root =
        .ok ((t.preorder root).filter t.isElement)) ∧
    ∀ n, (⟨t.view, config, delegate⟩ : Engine NodeId).isMatch n (tagSelector name) =
      .ok (t.hasTag name n) := by
  have h := built.linked
  have shapeless := Shape.ofSelector?_tagSelector named
  have selected : (⟨t.view, config, delegate⟩ : Engine NodeId).select (tagSelector name) root =
      .ok ((t.preorder root).filter (if name = "*" then t.isElement else t.hasTag name)) := by
    rw [Engine.select_shapeless fast shapeless, h.select_tagSelector config named, elementsByTag_eq,
      h.descendants_eq]
  have tested : ∀ n, (⟨t.view, config, delegate⟩ : Engine NodeId).isMatch n (tagSelector name) =
      .ok (t.hasTag name n) := by
    intro n
    rw [Engine.isMatch_shapeless fast shapeless]
    exact h.isMatch_tagSelector config named n
  refine ⟨?_, ?_, tested⟩
  · intro other
    rw [if_neg other] at selected
    refine ⟨_, selected, rfl, ?_⟩
    intro n below
    rw [tested n, Except.ok.injEq, Bool.eq_iff_iff, List.contains_iff_mem, List.mem_filter,
      h.mem_preorder, and_iff_right below]
  · intro star
    rw [if_pos star] at selected
    exact selected

def starred : Blueprint where
  children := [.element "p" [] [.element "*" [] []]]

theorem selections_by_tag_starred :
    ("P" ≠ "" ∧ "P" ≠ "*" ∧
      (⟨starred.build.view, {}, none⟩ : Engine NodeId).select (tagSelector "P") root = .ok [1] ∧
      (⟨starred.build.view, {}, none⟩ : Engine NodeId).isMatch 1 (tagSelector "P") = .ok true ∧
      (⟨starred.build.view, {}, none⟩ : Engine NodeId).isMatch 2 (tagSelector "P") = .ok false) ∧
    "*" ≠ "" ∧
      (⟨starred.build.view, {}, some .byShape⟩ : Engine NodeId).select (tagSelector "*") root =
        .ok [1, 2] ∧
      (⟨starred.build.view, {}, some .byShape⟩ : Engine NodeId).isMatch 2 (tagSelector "*") =
        .ok true := by
  have built := starred.wellBuilt_build
  have below : starred.build.Above root 1 ∧ starred.build.Above root 2 :=
    ⟨built.linked.isBelow_iff.mp (by decide), built.linked.isBelow_iff.mp (by decide)⟩
  have paragraphs : (starred.build.preorder root).filter (starred.build.hasTag "P") = [1] := by
    decide +kernel
  have elements : (starred.build.preorder root).filter starred.build.isElement = [1, 2] := by
    decide +kernel
  obtain ⟨named, -, -⟩ := selections_by_tag built {} (.inl rfl) (show "P" ≠ "" by decide)
  obtain ⟨found, selected, rfl, tested⟩ := named (by decide)
  obtain ⟨-, all, tests⟩ := selections_by_tag built {} (.inr rfl) (show "*" ≠ "" by decide)
  rw [paragraphs] at selected tested
  refine ⟨⟨by decide, by decide, selected, tested 1 below.1, tested 2 below.2⟩, by decide, ?_, ?_⟩
  · rw [all rfl, elements]
  · rw [tests 2]
    decide +kernel

/-- The escaped star selects a paragraph, whereas the paragraph does not pass the test of it. -/
theorem star_selects_others :
    starred.build.WellBuilt ∧ tagSelector "*" = "\\*" ∧
      (⟨starred.build.view, {}, none⟩ : Engine NodeId).select "\\*" root = .ok [1, 2] ∧
      starred.build.tagName 1 = some "p" ∧
      (⟨starred.build.view, {}, none⟩ : Engine NodeId).isMatch 1 "\\*" = .ok false := by
  have built := starred.wellBuilt_build
  have spelled : tagSelector "*" = "\\*" := by decide
  have named : "*" ≠ "" := by decide
  have selected := built.linked.select_tagSelector {} named
  have tested := built.linked.isMatch_tagSelector {} named 1
  rw [spelled] at selected tested
  refine ⟨built, spelled, ?_, by decide +kernel, ?_⟩
  · rw [selected, elementsByTag_eq]
    decide +kernel
  · rw [tested]
    decide +kernel

end Tree
end SelectorEngine
