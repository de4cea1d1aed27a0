import Mathlib
import SelectorEngine.Proofs.Engine.Answers
import SelectorEngine.Proofs.Matching.Containment
import SelectorEngine.Proofs.Tree.Blueprints

/-! # The shape of a selection

Whatever route a selection takes, it is a list of elements in document order, and it lies below the
context or, behind a sibling combinator, beside it. -/
namespace SelectorEngine

namespace Tree

variable {t : Tree} {config : Config} {selector : String} {list : SelectorList} {context : NodeId}

theorem shape_sublist {shape : Shape} {found : List NodeId}
    (answered : shape.query t.view context = some found) :
    found.Sublist ((t.descendants context).filter t.isElement) := by
  cases shape with
  | tag name =>
    obtain rfl := Option.some.inj answered
    exact elementsByTag_sublist name
  | className name =>
    change (if t.isXml = true then none else some (t.elementsByClass context name)) = some found
      at answered
    split at answered
    · cases answered
    · obtain rfl := Option.some.inj answered
      exact elementsByClass_sublist name
  | id name =>
    rw [Shape.query] at answered
    split at answered
    · obtain rfl := Option.some.inj answered
      exact elementById_sublist name
    · cases answered

theorem shortcut_sublist {delegate : Option (Delegate NodeId)}
    (fast : delegate = none ∨ delegate = some .byShape) {found : List NodeId}
    (answered : (⟨t.view, config, delegate⟩ : Engine NodeId).shortcut selector context =
      some found) :
    found.Sublist ((t.descendants context).filter t.isElement) := by
  rcases fast with rfl | rfl
  · cases answered
  · obtain ⟨-, shape, -, query⟩ := Engine.shape_of_shortcut rfl answered
    exact shape_sublist query

namespace Linked

theorem enclosed_meant (h : t.Linked) (config : Config)
    (read : SelectorList.parse selector = .ok list)
    {branch : Complex SelectorList} (hb : branch ∈ list.branches) (context : NodeId) :
    ∃ chain, Chain.ofParts? (branch.map (SelectorList.query t.view config)).parts = some chain ∧
      t.Enclosed (t.place chain context) ((t.setting config).evaluateBranch
        (branch.map (SelectorList.query t.view config)) context none) := by
  obtain ⟨chain, parts, -⟩ := exists_meant t config read hb
  rw [h.evaluateBranch_unmarked]
  exact ⟨chain, parts, h.enclosed_branch parts context⟩

variable {n : NodeId}

theorem mem_settled (h : t.Linked) (read : SelectorList.parse selector = .ok list)
    (valid : t.view.isContext context = true)
    (hn : n ∈ (list.query t.view config).answer context none) :
    t.isElement n = true ∧ (t.Above context n ∨ ∃ branch ∈ list.branches,
      branch.beginsBeside = true ∧
      n ∈ (t.setting config).evaluateBranch (branch.map (SelectorList.query t.view config)) context
        none ∧
      ∃ p, t.parent context = some p ∧ t.Above p n) := by
  obtain ⟨branch, hb, hn⟩ := (SelectorList.mem_answer valid list none n).mp hn
  change n ∈ (t.setting config).evaluateBranch _ context none at hn
  obtain ⟨chain, parts, enclosed⟩ := h.enclosed_meant config read hb context
  obtain ⟨he, ha⟩ := enclosed.inside n hn
  refine ⟨he, ?_⟩
  rcases inside_of_place parts ha with below | ⟨beside, p, hp, ha⟩
  · exact .inl below
  · rw [Complex.beginsBeside_map] at beside
    exact .inr ⟨branch, hb, beside, hn, p, hp, ha⟩

theorem ordered_settled (h : t.Linked) (read : SelectorList.parse selector = .ok list)
    (valid : t.view.isContext context = true) :
    ((list.query t.view config).answer context none).Pairwise t.Precedes := by
  rw [SelectorList.answer_query, if_pos valid, settle]
  split
  · exact h.orderedBy.pairwise_arrange _
  · next few =>
    rw [SelectorList.found, gather, if_pos valid, List.flatMap_map]
    rcases hb : list.branches with _ | ⟨branch, _ | ⟨other, branches⟩⟩
    · exact .nil
    · obtain ⟨chain, -, enclosed⟩ :=
        h.enclosed_meant config read (hb ▸ List.mem_singleton_self branch) context
      rw [List.flatMap_singleton]
      exact enclosed.ordered
    · rw [hb] at few
      exact absurd (by simp) few

end Linked

/-- A selection without a seed lists elements in document order, none of them twice. Each is below
the context, or it comes from a branch that begins with a sibling combinator and is below the parent
of the context. -/
theorem select_enclosed (built : t.WellBuilt) (config : Config)
    {delegate : Option (Delegate NodeId)} (fast : delegate = none ∨ delegate = some .byShape)
    (read : SelectorList.parse selector = .ok list)
    (hc : context = root ∨ t.isElement context = true) :
    ∃ found, (⟨t.view, config, delegate⟩ : Engine NodeId).select selector context = .ok found ∧
      (∀ n ∈ found, t.isElement n = true) ∧ found.Pairwise t.Precedes ∧ found.Nodup ∧
      ∀ n ∈ found, t.Above context n ∨ ∃ branch ∈ list.branches,
        branch.beginsBeside = true ∧
        n ∈ (t.setting config).evaluateBranch
          (branch.map (SelectorList.query t.view config)) context
          none ∧
        ∃ p, t.parent context = some p ∧ t.Above p n := by
  have h := built.linked
  have valid : t.view.isContext context = true := by
    rcases hc with rfl | hc
    · exact h.isContext_root
    · exact Bool.or_eq_true_iff.mpr (.inl hc)
  have ordered : ((list.query t.view config).answer context none).Pairwise t.Precedes :=
    h.ordered_settled read valid
  rw [Engine.select_eq valid read]
  cases answered : (⟨t.view, config, delegate⟩ : Engine NodeId).shortcut selector context with
  | none =>
    refine ⟨_, rfl, ?_, ordered, nodup_of_precedes ordered, ?_⟩
    · intro n hn
      exact (h.mem_settled read valid hn).1
    · intro n hn
      exact (h.mem_settled read valid hn).2
  | some found =>
    have enclosed := h.enclosed_elements context (shortcut_sublist fast answered)
    refine ⟨found, rfl, ?_, enclosed.ordered, nodup_of_precedes enclosed.ordered, ?_⟩
    · intro n hn
      exact (enclosed.inside n hn).1
    · intro n hn
      exact .inl (enclosed.inside n hn).2

def agenda : Blueprint where
  children := [.element "ol" [] [.element "li" [] [], .element "li" [] [], .element "li" [] [],
    .element "li" [] [.element "b" [] []]]]

def agendaList : SelectorList :=
  .mk "~ li:odd, ol b" [
    { parts := [.combinator .general, .compound ⟨"li:odd", [.tag "li", .position .odd]⟩],
      rest := some "ol b" },
    { parts := [.compound ⟨"ol", [.tag "ol"]⟩, .compound ⟨"b", [.tag "b"]⟩] }]

theorem read_agenda : SelectorList.parse "~ li:odd, ol b" = .ok agendaList := by cbv

theorem select_enclosed_agenda :
    ∃ found, (⟨agenda.build.view, {}, some .byShape⟩ : Engine NodeId).select "~ li:odd, ol b" 2 =
        .ok found ∧
      (∀ n ∈ found, agenda.build.isElement n = true) ∧ found.Pairwise agenda.build.Precedes ∧
      found.Nodup ∧
      ∀ n ∈ found, agenda.build.Above 2 n ∨ ∃ branch ∈ agendaList.branches,
        branch.beginsBeside = true ∧
        n ∈ (agenda.build.setting {}).evaluateBranch
          (branch.map (SelectorList.query agenda.build.view {})) 2 none ∧
        ∃ p, agenda.build.parent 2 = some p ∧ agenda.build.Above p n :=
  select_enclosed agenda.wellBuilt_build {} (.inr rfl) read_agenda (.inr (by decide))

end Tree
end SelectorEngine
