import Mathlib
import SelectorEngine.Proofs.Engine.Answers
import SelectorEngine.Proofs.Tree.Blueprints

/-! # Seeds

Without positional simple selectors the verdict on a node of a seed is the one it gets alone. -/
namespace SelectorEngine

def Engine.selectsAlone {N : Type} [DecidableEq N] (e : Engine N) (selector : String)
    (context n : N) : Bool :=
  match e.selectFrom selector context [n] with
  | .ok found => !found.isEmpty
  | .error _ => false

namespace Tree

variable {t : Tree}

theorem selectFrom_selects (h : t.Linked) (config : Config) (delegate : Option (Delegate NodeId))
    {selector : String} {list : SelectorList} {branch : Complex SelectorList}
    (read : SelectorList.parse selector = .ok list) (one : list.branches = [branch])
    (free : list.hasPositional = false) {context : NodeId} (valid : t.view.isContext context = true)
    (seed : List NodeId) :
    (⟨t.view, config, delegate⟩ : Engine NodeId).selectFrom selector context seed =
      .ok (seed.filter ((t.setting config).selects (branch.map (SelectorList.query t.view config))
        context)) := by
  have hfree := SelectorList.free_branch free (one ▸ List.mem_singleton_self branch)
  rw [Engine.selectFrom_read valid read, SelectorList.found_single one valid]
  congr 1
  exact h.evaluateBranch_seed config hfree context seed

/-- A seed is filtered by the verdict that each of its nodes gets alone. -/
theorem selectFrom_eq_filter (built : t.WellBuilt) (config : Config)
    (delegate : Option (Delegate NodeId)) {selector : String} {list : SelectorList}
    (read : SelectorList.parse selector = .ok list) (one : list.branches.length = 1)
    (free : list.hasPositional = false) {context : NodeId} (valid : t.view.isContext context = true)
    (seed : List NodeId) :
    (⟨t.view, config, delegate⟩ : Engine NodeId).selectFrom selector context seed =
      .ok (seed.filter
        ((⟨t.view, config, delegate⟩ : Engine NodeId).selectsAlone selector context)) := by
  obtain ⟨branch, hb⟩ := List.length_eq_one_iff.mp one
  have each := selectFrom_selects built.linked config delegate read hb free valid
  rw [each]
  congr 1
  refine List.filter_congr fun n _ => ?_
  rw [Engine.selectsAlone, each]
  cases hs : (t.setting config).selects
    (branch.map (SelectorList.query t.view config)) context n <;>
    simp [hs]

def shopping : Blueprint where
  children := [.element "ul" []
    [.element "li" [] [], .element "li" [("class", "done")] [], .element "li" [] [.text "tea"]]]

def undone : SelectorList :=
  .mk "ul > li:not(.done, b)" [{ parts := [
    .compound ⟨"ul", [.tag "ul"]⟩,
    .combinator .child,
    .compound ⟨"li:not(.done, b)", [.tag "li", .not (.mk ".done, b" [
      { parts := [.compound ⟨".done", [.className "done"]⟩], rest := some "b" },
      { parts := [.compound ⟨"b", [.tag "b"]⟩] }])]⟩] }]

theorem read_undone : SelectorList.parse "ul > li:not(.done, b)" = .ok undone := by cbv

theorem selectFrom_undone :
    (⟨shopping.build.view, {}, none⟩ : Engine NodeId).selectFrom "ul > li:not(.done, b)" 1
        [4, 2, 3, 5, 4] =
      .ok ([4, 2, 3, 5, 4].filter ((⟨shopping.build.view, {}, none⟩ : Engine NodeId).selectsAlone
        "ul > li:not(.done, b)" 1)) :=
  selectFrom_eq_filter shopping.wellBuilt_build {} none read_undone rfl (by cbv) (by cbv)
    [4, 2, 3, 5, 4]

end Tree
end SelectorEngine
