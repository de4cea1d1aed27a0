import Mathlib
import SelectorEngine.Proofs.Engine.Answers
import SelectorEngine.Proofs.Matching.Forward
import SelectorEngine.Proofs.Tree.Blueprints

/-! # Selections that count

A chain with a positional simple selector starts from what its first compound selects alone. From
there every link leads from one list of nodes to the next, and the last list is the selection. -/
namespace SelectorEngine.Tree

variable {t : Tree} {config : Config} {selector : String} {list : SelectorList}
  {chain : Chain SelectorList} {context : NodeId}

theorem select_start (built : t.WellBuilt) (read : SelectorList.parse selector = .ok list)
    {simples : List (Simple SelectorList)} (single : list.chain? = some ⟨some simples, []⟩)
    (starts : chain.head = some simples) (hc : t.IsContext context) :
    (⟨t.view, config, none⟩ : Engine NodeId).select selector context =
      .ok (t.startOf config context (t.meant config chain)) := by
  have hs : t.startOf config context (t.meant config chain) =
      ((t.setting config).evaluateBackward
        (t.meant config ⟨some simples, []⟩) context none {}).1 := by
    rw [startOf, meant, Chain.map, starts]
    rfl
  rw [built.linked.select_single read single hc, hs]
  rfl

/-- Each link gathers in document order what suits the plain part of its compound and is related to
a node that was found before, and filters the whole list by the rest of the compound. -/
theorem select_positional (built : t.WellBuilt) (ids : t.UniqueIds)
    (classless : config.classLookup = false) (read : SelectorList.parse selector = .ok list)
    (single : list.chain? = some chain) (several : chain.links ≠ [])
    (counts : list.hasPositional = true) (star : chain.All (· ≠ .tag "*"))
    (hc : t.IsContext context) (element : chain.head = none → t.isElement context = true) :
    (⟨t.view, config, none⟩ : Engine NodeId).select selector context =
      .ok ((t.meant config chain).links.foldl (t.advance config)
        (t.startOf config context (t.meant config chain))) := by
  have h := built.linked
  have element' : (t.meant config chain).head = none → t.isElement context = true := by
    rw [meant, Chain.map, Option.map_eq_none_iff]
    exact element
  have forward : (!chain.links.isEmpty && list.hasPositional) = true := by
    rw [counts, Bool.and_true, Bool.not_eq_true', List.isEmpty_eq_false_iff]
    exact several
  rw [h.select_single read single hc, if_pos forward,
    h.evaluateForward_eq ids classless (meant_star star) (h.meant_faithful single) hc element']

def columns : Blueprint where
  children := [.element "div" [] [.element "p" [] []],
    .element "div" [] [.element "p" [] [], .element "p" [] []]]

def laterParagraphs : SelectorList :=
  .mk "div > p:not(:first)" [{ parts := [.compound ⟨"div", [.tag "div"]⟩, .combinator .child,
    .compound ⟨"p:not(:first)", [.tag "p", .not .foremost]⟩] }]

def laterChain : Chain SelectorList :=
  ⟨some [.tag "div"], [⟨.child, [.tag "p", .not .foremost]⟩]⟩

theorem read_laterParagraphs : SelectorList.parse "div > p:not(:first)" = .ok laterParagraphs := by
  cbv

theorem uniqueIds_columns : columns.build.UniqueIds :=
  columns.wellBuilt_build.linked.uniqueIds (by decide)

theorem select_positional_columns :
    (⟨columns.build.view, .allOff, none⟩ : Engine NodeId).select "div > p:not(:first)" root =
      .ok ((columns.build.meant .allOff laterChain).links.foldl (columns.build.advance .allOff)
        (columns.build.startOf .allOff root (columns.build.meant .allOff laterChain))) :=
  select_positional columns.wellBuilt_build uniqueIds_columns rfl read_laterParagraphs rfl
    (by simp [laterChain]) (by cbv) (by simp [Chain.All, Chain.simples, laterChain]) (.inl rfl)
    (by simp [laterChain])

end SelectorEngine.Tree
