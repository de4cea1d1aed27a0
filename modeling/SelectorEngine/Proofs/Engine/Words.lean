import SelectorEngine.Proofs.Engine.ChildTests
import SelectorEngine.Proofs.Engine.Classes

/-! # Tests for a word

The test for a word of an attribute cuts the value at spaces and at nothing else. Every word that it
finds is one between white space of any kind, but where a tab or the end of a line stands beside a
word, the test misses it and the test for a class does not. -/
namespace SelectorEngine
open Text

namespace Tree

variable {t : Tree} {config : Config} {delegate : Option (Delegate NodeId)} {n : NodeId}
  {selector name word : String} {list : SelectorList} {cut white : Char → Bool}

/-- The attribute has a value, and the word is one of the pieces into which the value is cut. -/
def HasWord (t : Tree) (cut : Char → Bool) (n : NodeId) (name word : String) : Prop :=
  ∃ value, t.attr n name = some value ∧ word.toList ∈ pieces cut value.toList

/-- No white space but spaces stands in the attribute. -/
def Spaced (t : Tree) (white : Char → Bool) (n : NodeId) (name : String) : Prop :=
  ∀ value, t.attr n name = some value → ∀ c ∈ value.toList, white c = true → c = ' '

theorem HasWord.finer (finer : ∀ c, cut c = true → white c = true)
    (solid : ∀ c ∈ word.toList, white c = false) (h : t.HasWord cut n name word) :
    t.HasWord white n name word := by
  obtain ⟨value, hv, hw⟩ := h
  exact ⟨value, hv, mem_finer_pieces finer solid hw⟩

theorem Spaced.hasWord_iff (spaced : t.Spaced white n name) (space : cut ' ' = true)
    (within : ∀ c, cut c = true → white c = true) :
    t.HasWord cut n name word ↔ t.HasWord (· == ' ') n name word := by
  refine exists_congr fun value => and_congr_right fun hv => ?_
  have same : ∀ c ∈ value.toList, cut c = (c == ' ') := by
    intro c hc
    by_cases hs : c = ' '
    · rw [hs, space]
      rfl
    · have apart : cut c = false :=
        Bool.eq_false_iff.mpr fun hcut => hs (spaced value hv c hc (within c hcut))
      rw [apart, beq_eq_false_iff_ne.mpr hs]
  rw [pieces_congr same]

theorem satisfies_includes (free : ' ' ∉ word.toList) :
    (t.setting config).satisfies (.attr ⟨name, some (.includes, word)⟩) n = true ↔
      t.HasWord (· == ' ') n name word := by
  change (t.isElement n && AttributeTest.holds _ ((t.setting config).attrValue n name)) = true ↔ _
  rw [attrValue_eq, HasWord]
  cases hv : t.attr n name with
  | none => simp [AttributeTest.holds]
  | some value =>
    rw [isElement_of_attr hv, Bool.true_and]
    change occursIn (padded word.toList) (padded value.toList) = true ↔ _
    rw [occursIn_iff, padded_infix_iff free]
    simp

namespace Linked

theorem isMatch_includes (h : t.Linked) (config : Config)
    (fast : delegate = none ∨ delegate = some .byShape)
    (read : SelectorList.parse selector = .ok list)
    (asks : list.Asks (.attr ⟨name, some (.includes, word)⟩)) (n : NodeId) :
    (⟨t.view, config, delegate⟩ : Engine NodeId).isMatch n selector =
      .ok ((t.setting config).satisfies (.attr ⟨name, some (.includes, word)⟩) n) := by
  have unnamed (shape : Shape) :
      shape.simple ≠ (.attr ⟨name, some (.includes, word)⟩ : Simple SelectorList) := by
    intro named
    cases shape <;> cases named
  exact h.isMatch_asks config fast read asks unnamed trivial n

theorem isMatch_className (h : t.Linked) (config : Config)
    (fast : delegate = none ∨ delegate = some .byShape)
    (read : SelectorList.parse selector = .ok list) (asks : list.Asks (.className word))
    (named : word ≠ "") (free : ∀ c ∈ word.toList, isSeparator c = false) (n : NodeId) :
    ∃ cut verdict, (cut = isSpacing ∨ cut = isSeparator) ∧
      (⟨t.view, config, delegate⟩ : Engine NodeId).isMatch n selector = .ok verdict ∧
      (verdict = true ↔ t.HasWord cut n "class" word) := by
  have alone : (⟨t.view, config, none⟩ : Engine NodeId).isMatch n selector =
      .ok ((t.setting config).satisfies (.className word) n) := by
    obtain ⟨source, rest, one⟩ := asks
    exact h.isMatch_single read one trivial n
  by_cases decided : ∃ answer,
      (⟨t.view, config, delegate⟩ : Engine NodeId).delegatedMatch n selector = .ok (some answer)
  · obtain ⟨answer, decided⟩ := decided
    rcases fast with rfl | rfl
    · cases decided
    · refine ⟨isSeparator, answer, .inr rfl, by rw [Engine.isMatch, decided], ?_⟩
      obtain ⟨-, -, shape, known, told⟩ := Engine.shape_of_delegatedMatch rfl decided
      have simple := Shape.simple_of_asks read asks known
      cases shape with
      | tag | id => cases simple
      | className name =>
        cases simple
        obtain rfl := Option.some.inj told
        change _ ↔ ∃ value, _
        rw [← mem_classes named, ← List.contains_iff_mem, contains_classes]
        rfl
  · refine ⟨isSpacing, (t.setting config).satisfies (.className word) n, .inl rfl, ?_,
      satisfies_className free⟩
    rw [← alone]
    exact Engine.isMatch_delegate fun answer told => absurd ⟨answer, told⟩ decided

end Linked

/-- The test for a word of an attribute finds the words between spaces. Those are words between
white space too, whatever counts as white space, and all of them if the attribute has no white space
but spaces. What the test finds in a class list the test for a class finds, and the tests agree
about such a list. -/
theorem word_tests (built : t.WellBuilt) (config : Config)
    (fast : delegate = none ∨ delegate = some .byShape) (named : word ≠ "")
    (separates : ∀ c, isSeparator c = true → white c = true)
    (solid : ∀ c ∈ word.toList, white c = false)
    (read : SelectorList.parse selector = .ok list)
    (asks : list.Asks (.attr ⟨name, some (.includes, word)⟩)) (n : NodeId) :
    ∃ verdict, (⟨t.view, config, delegate⟩ : Engine NodeId).isMatch n selector = .ok verdict ∧
      (verdict = true ↔ t.HasWord (· == ' ') n name word) ∧
      (verdict = true → t.HasWord white n name word) ∧
      (t.Spaced white n name → (verdict = true ↔ t.HasWord white n name word)) ∧
      (name = "class" → ∀ dotted other, SelectorList.parse dotted = .ok other →
        other.Asks (.className word) →
          ∃ answer, (⟨t.view, config, delegate⟩ : Engine NodeId).isMatch n dotted = .ok answer ∧
            (verdict = true → answer = true) ∧ (t.Spaced white n name → answer = verdict)) := by
  have h := built.linked
  have space : white ' ' = true := separates ' ' rfl
  have spaces (c : Char) (hc : (c == ' ') = true) : white c = true := beq_iff_eq.mp hc ▸ space
  have free : ∀ c ∈ word.toList, isSeparator c = false := free_of_finer separates solid
  have found : (t.setting config).satisfies (.attr ⟨name, some (.includes, word)⟩) n = true ↔
      t.HasWord (· == ' ') n name word := satisfies_includes (not_mem_of_free free)
  refine ⟨_, h.isMatch_includes config fast read asks n, found, ?_, ?_, ?_⟩
  · exact fun hs => (found.mp hs).finer spaces solid
  · exact fun spaced => found.trans (spaced.hasWord_iff space fun _ => id).symm
  · rintro rfl dotted other read' asks'
    obtain ⟨cut, answer, cuts, hm, ha⟩ := h.isMatch_className config fast read' asks' named free n
    have space' : cut ' ' = true := by rcases cuts with rfl | rfl <;> rfl
    have within (c : Char) (hc : cut c = true) : isSeparator c = true := by
      rcases cuts with rfl | rfl
      · exact isSeparator_of_isSpacing c hc
      · exact hc
    refine ⟨answer, hm, ?_, ?_⟩
    · intro hs
      apply ha.mpr
      have finer (c : Char) (hc : (c == ' ') = true) : cut c = true := beq_iff_eq.mp hc ▸ space'
      exact (found.mp hs).finer finer (free_of_finer within free)
    · intro spaced
      rw [Bool.eq_iff_iff, found, ha]
      exact spaced.hasWord_iff space' fun c hc => separates c (within c hc)

def tabbed : Blueprint where
  children := [.element "p" [("class", "b a")] [], .element "p" [("class", "a\tb")] []]

def lettered : SelectorList :=
  .mk "[class~=a]"
    [{ parts := [.compound ⟨"[class~=a]", [.attr ⟨"class", some (.includes, "a")⟩]⟩] }]

theorem read_lettered : SelectorList.parse "[class~=a]" = .ok lettered := by cbv

theorem read_dotted : SelectorList.parse ".a" = .ok (Shape.list ".a" (.className "a")) :=
  Shape.parse_eq (by decide)

theorem word_tests_tabbed :
    tabbed.build.HasWord isBlank 1 "class" "a" ∧
      (⟨tabbed.build.view, {}, some .byShape⟩ : Engine NodeId).isMatch 1 "[class~=a]" = .ok true ∧
      (⟨tabbed.build.view, {}, some .byShape⟩ : Engine NodeId).isMatch 1 ".a" = .ok true := by
  have solid : ∀ c ∈ "a".toList, isBlank c = false := List.forall_mem_singleton.mpr (by decide)
  obtain ⟨verdict, hm, found, white, -, dotted⟩ := word_tests tabbed.wellBuilt_build {} (.inr rfl)
    (by decide) isBlank_of_isSeparator solid read_lettered ⟨_, _, rfl⟩ 1
  obtain rfl : verdict = true := found.mpr ⟨"b a", by decide +kernel, by decide⟩
  obtain ⟨answer, ha, follows, -⟩ := dotted rfl ".a" _ read_dotted ⟨_, _, rfl⟩
  exact ⟨white rfl, hm, follows rfl ▸ ha⟩

/-- The tab ends the first class, but not to the test for a word. -/
theorem word_tests_differ :
    tabbed.build.WellBuilt ∧ tabbed.build.isXml = false ∧ tabbed.build.isElement 2 = true ∧
      (SelectorList.parse "[class~=a]" = .ok lettered ∧
        SelectorList.parse ".a" = .ok (Shape.list ".a" (.className "a"))) ∧
      (∀ c ∈ "a".toList, isBlank c = false) ∧
      (tabbed.build.HasWord isBlank 2 "class" "a" ∧
        tabbed.build.HasWord isSeparator 2 "class" "a") ∧
      (⟨tabbed.build.view, {}, none⟩ : Engine NodeId).isMatch 2 "[class~=a]" = .ok false ∧
      (⟨tabbed.build.view, {}, none⟩ : Engine NodeId).isMatch 2 ".a" = .ok true := by
  have built := tabbed.wellBuilt_build
  have value : tabbed.build.attr 2 "class" = some "a\tb" := by decide +kernel
  refine ⟨built, by decide, by decide, ⟨read_lettered, read_dotted⟩,
    List.forall_mem_singleton.mpr (by decide),
    ⟨⟨_, value, by decide⟩, ⟨_, value, by decide⟩⟩, ?_, ?_⟩
  · rw [built.linked.isMatch_includes {} (.inl rfl) read_lettered ⟨_, _, rfl⟩]
    exact congrArg Except.ok (by decide +kernel)
  · have known : Shape.ofSelector? ".a" = some (.className "a") := by decide
    rw [built.linked.isMatch_shape {} known]
    exact congrArg Except.ok (by decide +kernel)

end Tree
end SelectorEngine
