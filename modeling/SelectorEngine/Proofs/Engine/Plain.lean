import Mathlib
import SelectorEngine.Proofs.Engine.Answers
import SelectorEngine.Proofs.Matching.Indices
import SelectorEngine.Proofs.Tree.Blueprints
import SelectorEngine.Proofs.View.Plain

/-! # Selecting in the plain view

With all switches off, and as long as no node has the focus, the links and the contents of the nodes
alone lead to the answers that the tree leads to with all it has. -/
namespace SelectorEngine.Tree

variable {t : Tree} {list : SelectorList}

/-- No index, and no switch that would allow one. -/
def unindexed : Indices NodeId where
  config := .allOff
  elementsByName := fun _ _ => none
  elementsByClass := fun _ _ => none
  placement := fun _ _ => none

namespace Linked

theorem plainView_reindex (h : t.Linked) (unfocused : t.focused = none) (xml : Bool) :
    t.plainView = ((⟨t.view, .allOff, xml⟩ : Setting NodeId).reindex unindexed).view := by
  rw [h.plainView_eq unfocused]
  rfl

theorem compares_plain (h : t.Linked) (unfocused : t.focused = none) (xml : Bool) :
    (⟨t.view, .allOff, xml⟩ : Setting NodeId).Compares unindexed := by
  intro a b
  rw [← h.plainView_reindex unfocused]
  exact h.compare_plain a b

theorem evaluateBranch_plain (h : t.Linked) (unfocused : t.focused = none)
    (branch : Complex SelectorList) (context : NodeId) (seed : Option (List NodeId)) :
    ((t.setting .allOff).reindex unindexed).evaluateBranch
        (branch.map (SelectorList.query t.view .allOff)) context seed =
      (t.setting .allOff).evaluateBranch (branch.map (SelectorList.query t.view .allOff)) context
        seed := by
  have finds (simples : List (Simple (Query NodeId))) :
      (t.setting .allOff).Finds unindexed simples :=
    Setting.finds_unindexed rfl rfl simples
  exact Setting.evaluateBranch_reindex (h.regular .allOff) (h.compares_plain unfocused t.isXml)
    (SelectorList.sane_branch .allOff h.outline_linked h.isContext_root branch)
    (fun simples _ => finds simples) (fun simples _ => finds (Setting.plainPart simples))
    context seed

theorem query_plain (h : t.Linked) (unfocused : t.focused = none) (list : SelectorList) :
    list.query t.plainView .allOff = list.query t.view .allOff := by
  induction list using SelectorList.induction with
  | step list ih =>
    have branches : list.branches.map (Complex.map (SelectorList.query t.plainView .allOff)) =
        list.branches.map (Complex.map (SelectorList.query t.view .allOff)) :=
      List.map_congr_left fun branch hb => Complex.map_congr fun nested hn => ih branch hb nested hn
    rw [SelectorList.query_eq, SelectorList.query_eq, branches,
      h.plainView_reindex unfocused t.isXml]
    refine Query.ofBranches_reindex t.isXml (h.compares_plain unfocused t.isXml)
      fun branch hb context seed => ?_
    obtain ⟨written, -, rfl⟩ := List.mem_map.mp hb
    exact h.evaluateBranch_plain unfocused written context seed

theorem found_plain (h : t.Linked) (unfocused : t.focused = none) (list : SelectorList)
    (context : NodeId) (seed : Option (List NodeId)) :
    list.found t.plainView .allOff context seed = list.found t.view .allOff context seed := by
  rw [SelectorList.found, SelectorList.found, funext (h.query_plain unfocused),
    h.plainView_reindex unfocused t.isXml]
  refine gather_reindex (fun branch hb context seed => ?_) t.isXml context seed
  obtain ⟨written, -, rfl⟩ := List.mem_map.mp hb
  exact h.evaluateBranch_plain unfocused written context seed

theorem settle_plain (h : t.Linked) (unfocused : t.focused = none) (count : Nat)
    (nodes : List NodeId) : settle t.plainView count nodes = settle t.view count nodes := by
  rw [h.plainView_reindex unfocused t.isXml]
  exact settle_reindex (h.compares_plain unfocused t.isXml) count nodes

end Linked

theorem selectInto_plain (h : t.Linked) (unfocused : t.focused = none) (selector : String)
    (context : NodeId) (results : List NodeId) (seed : Option (List NodeId)) :
    (⟨t.plainView, .allOff, none⟩ : Engine NodeId).selectInto selector context results seed =
      (⟨t.view, .allOff, none⟩ : Engine NodeId).selectInto selector context results seed := by
  have read :
      (⟨t.plainView, .allOff, none⟩ : Engine NodeId).selectRead selector context results seed =
        (⟨t.view, .allOff, none⟩ : Engine NodeId).selectRead selector context results seed := by
    rw [Engine.selectRead, Engine.selectRead]
    cases SelectorList.parse selector with
    | error error => rfl
    | ok list =>
      dsimp only
      rw [h.found_plain unfocused, h.settle_plain unfocused]
  have idle : (⟨t.plainView, .allOff, none⟩ : Engine NodeId).isIdle selector context =
      (⟨t.view, .allOff, none⟩ : Engine NodeId).isIdle selector context := rfl
  rw [Engine.selectInto, Engine.selectInto, idle]
  split
  · rfl
  · exact read

/-- The answers of the tree are those of its plain view, in the same order and with the same errors,
below every context and out of every seed. -/
theorem select_plain (built : t.WellBuilt) (unfocused : t.focused = none) (selector : String)
    (context : NodeId) :
    (⟨t.plainView, .allOff, none⟩ : Engine NodeId).select selector context =
        (⟨t.view, .allOff, none⟩ : Engine NodeId).select selector context ∧
      ∀ seed : List NodeId,
        (⟨t.plainView, .allOff, none⟩ : Engine NodeId).selectFrom selector context seed =
          (⟨t.view, .allOff, none⟩ : Engine NodeId).selectFrom selector context seed := by
  constructor
  · rw [Engine.select, Engine.select, selectInto_plain built.linked unfocused]
  · intro seed
    rw [Engine.selectFrom, Engine.selectFrom, selectInto_plain built.linked unfocused]

def notes : Blueprint where
  children := [.element "p" [] [.text "see below"],
    .element "p" [] [.element "b" [] [.text "be"], .text "low"]]

theorem select_plain_notes :
    (⟨notes.build.plainView, .allOff, none⟩ : Engine NodeId).select "b, p:contains(below)" root =
        (⟨notes.build.view, .allOff, none⟩ : Engine NodeId).select "b, p:contains(below)" root ∧
      ∀ seed : List NodeId,
        (⟨notes.build.plainView, .allOff, none⟩ : Engine NodeId).selectFrom "b, p:contains(below)"
            root seed =
          (⟨notes.build.view, .allOff, none⟩ : Engine NodeId).selectFrom "b, p:contains(below)"
            root seed :=
  select_plain notes.wellBuilt_build rfl "b, p:contains(below)" root

end SelectorEngine.Tree
