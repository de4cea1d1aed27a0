import Mathlib
import SelectorEngine.Proofs.Engine.Answers
import SelectorEngine.Proofs.Matching.Backward
import SelectorEngine.Proofs.Tree.Blueprints

/-! # Selections and their witnesses

A selector of one branch without positional simple selectors selects the elements that its chain
holds of by way of the nearest elements. All of them have witnesses; where the combinators are
steady, all elements with witnesses are among them. -/
namespace SelectorEngine

namespace Tree

variable {t : Tree} {config : Config} {selector : String} {list : SelectorList}
  {chain : Chain SelectorList} {context : NodeId}

theorem Linked.select_answers (h : t.Linked) (ids : t.UniqueIds)
    (classless : config.classLookup = false) (read : SelectorList.parse selector = .ok list)
    (single : list.chain? = some chain) (free : list.hasPositional = false)
    (star : chain.All (· ≠ .tag "*")) (hc : t.IsContext context) :
    ∃ found marks, (⟨t.view, config, none⟩ : Engine NodeId).select selector context = .ok found ∧
      t.Answers config context (t.meant config chain) (found, marks) := by
  obtain ⟨found, marks, hf⟩ : ∃ found marks, (t.setting config).evaluateBackward
      (t.meant config chain) context none {} = (found, marks) := ⟨_, _, rfl⟩
  refine ⟨found, marks, ?_, ?_⟩
  · rw [h.select_single read single hc, free, Bool.and_false, if_neg Bool.false_ne_true, hf]
  · rw [← hf]
    exact h.answers_backward ids classless (meant_star star) (h.meant_local single free) hc
      (isSome_last?_meant read single) Marks.sound_empty

theorem Linked.mem_answers (h : t.Linked) {chain : Chain (Query NodeId)}
    {result : List NodeId × Marks NodeId} (hans : t.Answers config context chain result)
    (hh : chain.head.isSome = true) (n : NodeId) :
    n ∈ result.1 ↔ t.MatchesNearest config context chain n := by
  obtain ⟨_ | simples, links⟩ := chain
  · cases hh
  · exact (hans.mem_iff n).trans (and_iff_right_of_imp fun hm => h.above_of_matches hm.matches hh)

section Loss

variable {x y n : NodeId} {simples simples₁ simples₂ : List (Simple (Query NodeId))}
  {left right : Combinator}

theorem Linked.matches_pair (h : t.Linked) (hx : t.isBelow x context = true)
    (sx : (t.setting config).suits simples x = true)
    (hxy : x ∈ (t.setting config).leftward left y)
    (sy : (t.setting config).suits simples₁ y = true)
    (hyn : y ∈ (t.setting config).leftward right n)
    (sn : (t.setting config).suits simples₂ n = true) :
    t.Matches config context ⟨some simples, [⟨left, simples₁⟩, ⟨right, simples₂⟩]⟩ n := by
  have first : t.Matches config context ⟨some simples, []⟩ x := .first (h.isBelow_iff.mp hx) sx
  have second : t.Matches config context ⟨some simples, [] ++ [⟨left, simples₁⟩]⟩ y :=
    .link first ((h.mem_leftward fun _ => isElement_of_suits sy).mp hxy).2 sy
  have third :
      t.Matches config context ⟨some simples, [⟨left, simples₁⟩] ++ [⟨right, simples₂⟩]⟩ n :=
    .link second ((h.mem_leftward fun _ => isElement_of_suits sn).mp hyn).2 sn
  exact third

def letters (left right : Combinator) : Chain SelectorList :=
  ⟨some [.tag "a"], [⟨left, [.tag "b"]⟩, ⟨right, [.tag "c"]⟩]⟩

/-- In some tree an element with witnesses is not selected by a chain of the two combinators. -/
def Lossy (left right : Combinator) : Prop :=
  ∃ (t : Tree) (selector : String) (list : SelectorList) (found : List NodeId) (n : NodeId),
    t.WellBuilt ∧ t.UniqueIds ∧ SelectorList.parse selector = .ok list ∧
    list.chain? = some (letters left right) ∧ list.hasPositional = false ∧
    (⟨t.view, .allOff, none⟩ : Engine NodeId).select selector root = .ok found ∧
    t.Matches .allOff root (t.meant .allOff (letters left right)) n ∧ n ∉ found

def letterList (selector : String) (left right : Combinator) : SelectorList :=
  .mk selector [{ parts := [.compound ⟨"a", [.tag "a"]⟩] ++ written left ++
    [.compound ⟨"b", [.tag "b"]⟩] ++ written right ++ [.compound ⟨"c", [.tag "c"]⟩] }]
where
  written : Combinator → List (Part SelectorList)
    | .descendant => []
    | combinator => [.combinator combinator]

theorem chain?_letterList :
    (letterList selector left right).chain? = some (letters left right) := by
  cases left <;> cases right <;> rfl

theorem hasPositional_letterList : (letterList selector left right).hasPositional = false := by
  rw [SelectorList.hasPositional_eq]
  cases left <;> cases right <;> rfl

theorem lossy_of_run (b : Blueprint)
    (read : SelectorList.parse selector = .ok (letterList selector left right))
    (run : ((b.build.descendants root).filterMap fun n => b.build.attr n "id").Nodup ∧
      ((b.build.setting .allOff).evaluateBackward (b.build.meant .allOff (letters left right))
        root none {}).1 = [])
    (led : b.build.isBelow 1 root = true ∧
      (b.build.setting .allOff).suits [.tag "a"] 1 = true ∧
      1 ∈ (b.build.setting .allOff).leftward left 2 ∧
      (b.build.setting .allOff).suits [.tag "b"] 2 = true ∧
      2 ∈ (b.build.setting .allOff).leftward right 4 ∧
      (b.build.setting .allOff).suits [.tag "c"] 4 = true) : Lossy left right := by
  have h := b.wellBuilt_build.linked
  obtain ⟨hx, sx, hxy, sy, hyn, sn⟩ := led
  refine ⟨b.build, selector, _, [], 4, b.wellBuilt_build, h.uniqueIds run.1, read,
    chain?_letterList,
    hasPositional_letterList, ?_, h.matches_pair hx sx hxy sy hyn sn, List.not_mem_nil⟩
  rw [h.select_single read chain?_letterList (.inl rfl), hasPositional_letterList, Bool.and_false,
    if_neg Bool.false_ne_true, run.2]

def inside : Blueprint where
  children := [.element "a" [] [.element "b" [] [.element "b" [] [.element "c" [] []]]]]

def beside : Blueprint where
  children := [.element "a" [] [], .element "b" [] [.element "b" [] [.element "c" [] []]]]

def inRow : Blueprint where
  children := [.element "a" [] [], .element "b" [] [], .element "b" [] [], .element "c" [] []]

theorem lossy_child_descendant : Lossy .child .descendant := by
  have read : SelectorList.parse "a > b c" = .ok (letterList "a > b c" .child .descendant) := by cbv
  exact lossy_of_run inside read (by decide) (by decide)

theorem lossy_adjacent_descendant : Lossy .adjacent .descendant := by
  have read : SelectorList.parse "a + b c" = .ok (letterList "a + b c" .adjacent .descendant) := by
    cbv
  exact lossy_of_run beside read (by decide) (by decide)

theorem lossy_general_descendant : Lossy .general .descendant := by
  have read : SelectorList.parse "a ~ b c" = .ok (letterList "a ~ b c" .general .descendant) := by
    cbv
  exact lossy_of_run beside read (by decide) (by decide)

theorem lossy_adjacent_general : Lossy .adjacent .general := by
  have read : SelectorList.parse "a + b ~ c" = .ok (letterList "a + b ~ c" .adjacent .general) := by
    cbv
  exact lossy_of_run inRow read (by decide) (by decide)

theorem lossy_of_not_steady (h : ¬ left.Steady right) : Lossy left right := by
  cases left <;> cases right <;>
    first
    | exact absurd (by decide) h
    | exact lossy_child_descendant
    | exact lossy_adjacent_descendant
    | exact lossy_general_descendant
    | exact lossy_adjacent_general

end Loss

/-- A selector that starts with a compound selects, in document order, the elements that its chain
holds of by way of the nearest elements. -/
theorem select_nearest (built : t.WellBuilt) (ids : t.UniqueIds)
    (read : SelectorList.parse selector = .ok list) (single : list.chain? = some chain)
    (starts : chain.head.isSome = true) (free : list.hasPositional = false)
    (star : chain.All (· ≠ .tag "*")) (hc : t.IsContext context) :
    ∃ found, (⟨t.view, .allOff, none⟩ : Engine NodeId).select selector context = .ok found ∧
      found.Pairwise t.Precedes ∧
      ∀ n, n ∈ found ↔ t.MatchesNearest .allOff context (t.meant .allOff chain) n := by
  have h := built.linked
  have classless : Config.allOff.classLookup = false := rfl
  obtain ⟨found, marks, hsel, hans⟩ := h.select_answers ids classless read single free star hc
  have starts' : (t.meant .allOff chain).head.isSome = true := by
    rwa [meant, Chain.map, Option.isSome_map]
  exact ⟨found, hsel, hans.ordered, h.mem_answers hans starts'⟩

def article : Blueprint where
  children := [.element "article" [] [.element "div" [] [.element "div" [] [.element "p" [] []]]]]

def paragraphs : SelectorList :=
  .mk "article > div p" [{ parts := [.compound ⟨"article", [.tag "article"]⟩, .combinator .child,
    .compound ⟨"div", [.tag "div"]⟩, .compound ⟨"p", [.tag "p"]⟩] }]

def paragraphChain : Chain SelectorList :=
  ⟨some [.tag "article"], [⟨.child, [.tag "div"]⟩, ⟨.descendant, [.tag "p"]⟩]⟩

theorem read_paragraphs : SelectorList.parse "article > div p" = .ok paragraphs := by cbv

theorem uniqueIds_article : article.build.UniqueIds :=
  article.wellBuilt_build.linked.uniqueIds (by decide)

theorem select_nearest_paragraphs :
    ∃ found, (⟨article.build.view, .allOff, none⟩ : Engine NodeId).select "article > div p" root =
        .ok found ∧
      found.Pairwise article.build.Precedes ∧
      ∀ n, n ∈ found ↔ article.build.MatchesNearest .allOff root
        (article.build.meant .allOff paragraphChain) n :=
  select_nearest article.wellBuilt_build uniqueIds_article read_paragraphs rfl rfl (by cbv)
    (by simp [Chain.All, Chain.simples, paragraphChain]) (.inl rfl)

def starList : SelectorList := .mk "\\*" [{ parts := [.compound ⟨"\\*", [.tag "*"]⟩] }]

/-- A selection is not what has witnesses. The paragraph has some, the article and the outer
division, but the nearest division is the inner one. An escaped star finds every element, whatever
the element is called. -/
theorem selection_not_exact :
    article.build.WellBuilt ∧ article.build.UniqueIds ∧
      (SelectorList.parse "article > div p" = .ok paragraphs ∧
        paragraphs.chain? = some paragraphChain ∧ paragraphChain.head.isSome = true ∧
        paragraphs.hasPositional = false ∧
        article.build.Matches .allOff root (article.build.meant .allOff paragraphChain) 4 ∧
        (⟨article.build.view, .allOff, none⟩ : Engine NodeId).select "article > div p" root =
          .ok []) ∧
      (SelectorList.parse "\\*" = .ok starList ∧ starList.chain? = some ⟨some [.tag "*"], []⟩ ∧
        starList.hasPositional = false ∧
        ¬ article.build.Matches .allOff root (article.build.meant .allOff ⟨some [.tag "*"], []⟩) 1 ∧
        (⟨article.build.view, .allOff, none⟩ : Engine NodeId).select "\\*" root =
          .ok [1, 2, 3, 4]) := by
  have h := article.wellBuilt_build.linked
  refine ⟨article.wellBuilt_build, uniqueIds_article, ?paragraph, ?star⟩
  case paragraph =>
    have free : paragraphs.hasPositional = false := by cbv
    have single : paragraphs.chain? = some paragraphChain := rfl
    have run : ((article.build.setting .allOff).evaluateBackward
        (article.build.meant .allOff paragraphChain) root none {}).1 = [] := by decide
    refine ⟨read_paragraphs, single, rfl, free, ?_, ?_⟩
    · exact h.matches_pair (x := 1) (y := 2) (by decide) (by decide)
        (by decide) (by decide) (by decide) (by decide)
    · rw [h.select_single read_paragraphs single (.inl rfl), free, Bool.and_false,
        if_neg Bool.false_ne_true, run]
  case star =>
    have read : SelectorList.parse "\\*" = .ok starList := by cbv
    have free : starList.hasPositional = false := by cbv
    have single : starList.chain? = some ⟨some [.tag "*"], []⟩ := rfl
    have run : ((article.build.setting .allOff).evaluateBackward
        (article.build.meant .allOff ⟨some [.tag "*"], []⟩) root none {}).1 = [1, 2, 3, 4] := by
      decide
    have unsuited : (article.build.setting .allOff).suits [.tag "*"] 1 = false := by decide
    refine ⟨read, single, free, fun hm => ?_, ?_⟩
    · have hs : (article.build.setting .allOff).suits [.tag "*"] 1 = true := (Led.first_iff.mp hm).2
      rw [unsuited] at hs
      cases hs
    · rw [h.select_single read single (.inl rfl), free, Bool.and_false,
        if_neg Bool.false_ne_true, run]

/-- Every selected element has witnesses. In a chain that starts with a compound and whose
combinators are steady, every element with witnesses is selected; no more combinators than these
can be allowed. -/
theorem select_witnesses (built : t.WellBuilt) (ids : t.UniqueIds)
    (classless : config.classLookup = false) (read : SelectorList.parse selector = .ok list)
    (single : list.chain? = some chain) (free : list.hasPositional = false)
    (star : chain.All (· ≠ .tag "*")) (hc : t.IsContext context) :
    (∃ found, (⟨t.view, config, none⟩ : Engine NodeId).select selector context = .ok found ∧
      (∀ n ∈ found, t.Matches config context (t.meant config chain) n) ∧
      (chain.head.isSome = true → chain.Steady →
        ∀ n, t.Matches config context (t.meant config chain) n → n ∈ found)) ∧
    ∀ left right, ¬ Combinator.Steady left right → Lossy left right := by
  have h := built.linked
  obtain ⟨found, marks, hsel, hans⟩ := h.select_answers ids classless read single free star hc
  refine ⟨⟨found, hsel, fun n hn => ((hans.mem_iff n).mp hn).2.matches,
    fun starts steady n hm => ?_⟩, fun left right => lossy_of_not_steady⟩
  have starts' : (t.meant config chain).head.isSome = true := by
    rwa [meant, Chain.map, Option.isSome_map]
  exact (h.mem_answers hans starts' n).mpr (h.matchesNearest_of_matches (meant_steady steady) hm)

def childList : SelectorList :=
  .mk "div > p" [{ parts := [.compound ⟨"div", [.tag "div"]⟩, .combinator .child,
    .compound ⟨"p", [.tag "p"]⟩] }]

def childChain : Chain SelectorList := ⟨some [.tag "div"], [⟨.child, [.tag "p"]⟩]⟩

theorem read_childList : SelectorList.parse "div > p" = .ok childList := by cbv

theorem select_witnesses_child :
    (∃ found, (⟨article.build.view, { classLookup := false }, none⟩ : Engine NodeId).select
        "div > p" root = .ok found ∧
      (∀ n ∈ found, article.build.Matches { classLookup := false } root
        (article.build.meant { classLookup := false } childChain) n) ∧
      (childChain.head.isSome = true → childChain.Steady →
        ∀ n, article.build.Matches { classLookup := false } root
          (article.build.meant { classLookup := false } childChain) n → n ∈ found)) ∧
    ∀ left right, ¬ Combinator.Steady left right → Lossy left right :=
  select_witnesses article.wellBuilt_build uniqueIds_article rfl read_childList rfl (by cbv)
    (by simp [Chain.All, Chain.simples, childChain]) (.inl rfl)

end Tree
end SelectorEngine
