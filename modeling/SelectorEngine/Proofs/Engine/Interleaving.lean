import SelectorEngine.Proofs.Engine.Slices
import SelectorEngine.Proofs.Matching.Interleaving
import SelectorEngine.Proofs.Selector.Heads

/-! # Interleaving in a selector

It does not matter where in a compound a positional simple selector is written, only in which order
the positional ones and in which order the others are. -/
namespace SelectorEngine

/-- Selectors whose branches differ in nothing but how positional and other simple selectors are
mixed in their compounds. -/
def SelectorList.Interleaved (list other : SelectorList) : Prop :=
  List.Forall₂ Complex.Interleaved list.branches other.branches

namespace Tree

variable {t : Tree} {selector text : String} {list other : SelectorList} {context : NodeId}

theorem Linked.flatMap_interleaved (h : t.Linked) (config : Config) (context : NodeId)
    (seed : Option (List NodeId)) {branches others : List (Complex SelectorList)}
    (mixed : List.Forall₂ Complex.Interleaved branches others)
    (heads : ∀ branch ∈ branches, branch.Headed) (heads' : ∀ branch ∈ others, branch.Headed) :
    (branches.flatMap fun branch => (t.setting config).evaluateBranch
        (branch.map (SelectorList.query t.view config)) context seed) =
      others.flatMap fun branch => (t.setting config).evaluateBranch
        (branch.map (SelectorList.query t.view config)) context seed := by
  induction mixed with
  | nil => rfl
  | cons first _ ih =>
    obtain ⟨head, heads⟩ := List.forall_mem_cons.mp heads
    obtain ⟨head', heads'⟩ := List.forall_mem_cons.mp heads'
    rw [List.flatMap_cons, List.flatMap_cons, ih heads heads', h.evaluateBranch_unmarked,
      h.evaluateBranch_unmarked]
    exact congrArg (· ++ _)
      (Setting.answerBranch_interleaved (first.map _) (head.map _) (head'.map _) context seed)

/-- Selectors that mix their positional simple selectors with the others in two ways select the
same, out of a seed as well as without one. -/
theorem selections_interleaved (built : t.WellBuilt) (config : Config)
    (read : SelectorList.parse selector = .ok list) (read' : SelectorList.parse text = .ok other)
    (mixed : list.Interleaved other) (valid : t.view.isContext context = true) :
    ∃ found : Option (List NodeId) → List NodeId,
      (⟨t.view, config, none⟩ : Engine NodeId).select selector context = .ok (found none) ∧
      (⟨t.view, config, none⟩ : Engine NodeId).select text context = .ok (found none) ∧
      ∀ seed,
        (⟨t.view, config, none⟩ : Engine NodeId).selectFrom selector context seed =
          .ok (found (some seed)) ∧
        (⟨t.view, config, none⟩ : Engine NodeId).selectFrom text context seed =
          .ok (found (some seed)) := by
  have same (seed : Option (List NodeId)) :
      settle t.view other.branches.length (other.found t.view config context seed) =
        settle t.view list.branches.length (list.found t.view config context seed) := by
    rw [mixed.length_eq, SelectorList.found, SelectorList.found, gather, gather, if_pos valid,
      if_pos valid, List.flatMap_map, List.flatMap_map]
    exact congrArg _ (built.linked.flatMap_interleaved config context seed mixed
      (SelectorList.headed_of_parse read) (SelectorList.headed_of_parse read')).symm
  refine ⟨fun seed => settle t.view list.branches.length (list.found t.view config context seed),
    Engine.select_read valid read rfl, ?_, fun seed => ⟨Engine.selectFrom_read valid read seed, ?_⟩⟩
  · exact (Engine.select_read valid read' rfl).trans (congrArg Except.ok (same none))
  · exact (Engine.selectFrom_read valid read' seed).trans (congrArg Except.ok (same (some seed)))

def mixedParagraphs : SelectorList :=
  .mk "div > p:gt(0):not(:first)" [{ parts := [.compound ⟨"div", [.tag "div"]⟩, .combinator .child,
    .compound ⟨"p:gt(0):not(:first)", [.tag "p", .position (.gt 0), .not .foremost]⟩] }]

theorem selections_interleaved_columns :
    ∃ found : Option (List NodeId) → List NodeId,
      (⟨columns.build.view, {}, none⟩ : Engine NodeId).select "div > p:not(:first):gt(0)" root =
        .ok (found none) ∧
      (⟨columns.build.view, {}, none⟩ : Engine NodeId).select "div > p:gt(0):not(:first)" root =
        .ok (found none) ∧
      (⟨columns.build.view, {}, none⟩ : Engine NodeId).selectFrom "div > p:gt(0):not(:first)" root
        [5, 4, 2] = .ok (found (some [5, 4, 2])) := by
  have read : SelectorList.parse "div > p:gt(0):not(:first)" = .ok mixedParagraphs := by cbv
  have mixed : slicedParagraphs.Interleaved mixedParagraphs :=
    .cons (.cons (.compound ⟨rfl, rfl⟩)
      (.cons (.combinator .child) (.cons (.compound ⟨rfl, rfl⟩) .nil))) .nil
  obtain ⟨found, first, second, seeded⟩ := selections_interleaved columns.wellBuilt_build {}
    read_slicedParagraphs read mixed columns.wellBuilt_build.linked.isContext_root
  exact ⟨found, first, second, (seeded [5, 4, 2]).2⟩

end Tree
end SelectorEngine
