import Mathlib
import SelectorEngine.Proofs.Engine.Containment
import SelectorEngine.Proofs.Engine.FastPath
import SelectorEngine.Proofs.Matching.Elements

/-! # Selections of elements

Below a context nothing but elements is found. Out of a seed the engine also selects other nodes,
where the selector does not look at what it is given. -/
namespace SelectorEngine

variable {selector : String} {list : SelectorList}

namespace Engine

theorem isMatch_other {N : Type} [DecidableEq N] {e : Engine N}
    (fast : e.delegate = none ∨ e.delegate = some .byShape) {n : N}
    (he : e.view.isElement n = false) :
    e.isMatch n selector = (e.filter selector [n]).map (!·.isEmpty) := by
  rw [isMatch]
  split
  · next answer decided =>
    rcases fast with alone | fast
    · rw [delegatedMatch, alone] at decided
      cases decided
    · obtain ⟨-, element, -⟩ := shape_of_delegatedMatch fast decided
      exact absurd element (he ▸ Bool.false_ne_true)
  · rfl

end Engine

namespace Tree

variable {t : Tree} {config : Config} {delegate : Option (Delegate NodeId)} {context : NodeId}

namespace Linked

theorem select_elements (h : t.Linked) (fast : delegate = none ∨ delegate = some .byShape)
    (read : SelectorList.parse selector = .ok list) (valid : t.view.isContext context = true) :
    ∃ found, (⟨t.view, config, delegate⟩ : Engine NodeId).select selector context = .ok found ∧
      ∀ n ∈ found, t.isElement n = true := by
  rw [Engine.select_eq valid read]
  refine ⟨_, rfl, fun n hn => ?_⟩
  cases answered : (⟨t.view, config, delegate⟩ : Engine NodeId).shortcut selector context with
  | none =>
    rw [answered] at hn
    exact (h.mem_settled read valid hn).1
  | some found =>
    rw [answered] at hn
    exact ((h.enclosed_elements context (shortcut_sublist fast answered)).inside n hn).1

/-- Out of a seed the selected nodes are nodes of it, and the form of the selector says which of the
nodes that are no elements are among them. -/
theorem selectFrom_takes (h : t.Linked) (config : Config) (delegate : Option (Delegate NodeId))
    (read : SelectorList.parse selector = .ok list) (valid : t.view.isContext context = true)
    (seed : List NodeId) :
    ∃ found, (⟨t.view, config, delegate⟩ : Engine NodeId).selectFrom selector context seed =
        .ok found ∧
      found ⊆ seed ∧ (list.stance = some false → ∀ n ∈ found, t.isElement n = true) ∧
      (list.stance = some true → ∀ n ∈ seed, t.isElement n = false → n ∈ found) := by
  have root : t.view.isContext t.view.documentRoot = true := h.isContext_root
  have within : (list.query t.view config).answer context (some seed) ⊆ seed :=
    list.answer_subset h.outline_linked root valid rfl seed
  have takes : t.view.Obeys (fun seed => (list.query t.view config).answer context (some seed))
      list.stance := list.obeys_answer h.outline_linked root valid rfl
  refine ⟨(list.query t.view config).answer context (some seed), ?_, within, ?_, ?_⟩
  · rw [Engine.selectFrom_read valid read, SelectorList.answer_query, if_pos valid]
  · intro rejects
    exact (takes false rejects).elements within
  · intro accepts n hn he
    exact (takes true accepts seed n hn he).mpr rfl

end Linked

/-- Nothing but elements is found below a context. A selector whose form rejects all other nodes
selects none of them out of a seed, and one whose form accepts them selects every one. -/
theorem selections_elements (built : t.WellBuilt) (config : Config)
    (delegate : Option (Delegate NodeId)) (fast : delegate = none ∨ delegate = some .byShape)
    (read : SelectorList.parse selector = .ok list) :
    (∀ context, t.view.isContext context = true →
      ∃ found, (⟨t.view, config, delegate⟩ : Engine NodeId).select selector context = .ok found ∧
        ∀ n ∈ found, t.isElement n = true) ∧
    (list.stance = some false →
      (∀ context, t.view.isContext context = true → ∀ seed,
        ∃ found, (⟨t.view, config, delegate⟩ : Engine NodeId).selectFrom selector context seed =
            .ok found ∧
          found ⊆ seed ∧ ∀ n ∈ found, t.isElement n = true) ∧
      (∀ nodes,
        ∃ found, (⟨t.view, config, delegate⟩ : Engine NodeId).filter selector nodes = .ok found ∧
          found ⊆ nodes ∧ ∀ n ∈ found, t.isElement n = true) ∧
      ∀ n, t.isElement n = false →
        (⟨t.view, config, delegate⟩ : Engine NodeId).isMatch n selector = .ok false) ∧
    (list.stance = some true → ∀ n, t.isElement n = false →
      (∀ context, t.view.isContext context = true → ∀ seed, n ∈ seed →
        ∃ found, (⟨t.view, config, delegate⟩ : Engine NodeId).selectFrom selector context seed =
            .ok found ∧ n ∈ found) ∧
      (⟨t.view, config, delegate⟩ : Engine NodeId).isMatch n selector = .ok true) := by
  have h := built.linked
  have root : t.view.isContext t.view.documentRoot = true := h.isContext_root
  refine ⟨fun context valid => h.select_elements fast read valid, ?_, ?_⟩
  · intro rejects
    have seeded (context : NodeId) (valid : t.view.isContext context = true) (seed : List NodeId) :
        ∃ found, (⟨t.view, config, delegate⟩ : Engine NodeId).selectFrom selector context seed =
            .ok found ∧
          found ⊆ seed ∧ ∀ n ∈ found, t.isElement n = true := by
      obtain ⟨found, run, within, elements, -⟩ := h.selectFrom_takes config delegate read valid seed
      exact ⟨found, run, within, elements rejects⟩
    refine ⟨seeded, seeded _ root, ?_⟩
    intro n he
    obtain ⟨found, run, within, elements⟩ := seeded _ root [n]
    have nothing : found = [] := by
      rw [List.eq_nil_iff_forall_not_mem]
      intro m hm
      obtain rfl := List.mem_singleton.mp (within hm)
      exact Bool.false_ne_true (he.symm.trans (elements m hm))
    rw [Engine.isMatch_other fast he, Engine.filter, run, nothing]
    rfl
  · intro accepts n he
    have seeded (context : NodeId) (valid : t.view.isContext context = true) (seed : List NodeId)
        (hn : n ∈ seed) :
        ∃ found, (⟨t.view, config, delegate⟩ : Engine NodeId).selectFrom selector context seed =
            .ok found ∧ n ∈ found := by
      obtain ⟨found, run, -, -, others⟩ := h.selectFrom_takes config delegate read valid seed
      exact ⟨found, run, others accepts n hn he⟩
    refine ⟨seeded, ?_⟩
    obtain ⟨found, run, hn⟩ := seeded _ root [n] (List.mem_singleton_self n)
    rw [Engine.isMatch_other fast he, Engine.filter, run]
    cases found with
    | nil => cases hn
    | cons m others => rfl

def jotting : Blueprint where
  children := [.element "p" [] [.text "x"], .comment "note"]

def doubly : SelectorList :=
  .mk ":not(:not(.a)), p > :first" [
    { parts := [.compound ⟨":not(:not(.a))", [.not (.mk ":not(.a)" [
        { parts := [.compound ⟨":not(.a)", [.not (Shape.list ".a" (.className "a"))]⟩] }])]⟩],
      rest := some "p > :first" },
    { parts := [.compound ⟨"p", [.tag "p"]⟩, .combinator .child,
        .compound ⟨":first", [.position .first]⟩] }]

def unclassed : SelectorList :=
  .mk ":not(.a)" [{ parts := [.compound ⟨":not(.a)", [.not (Shape.list ".a" (.className "a"))]⟩] }]

theorem read_doubly : SelectorList.parse ":not(:not(.a)), p > :first" = .ok doubly := by cbv

theorem read_unclassed : SelectorList.parse ":not(.a)" = .ok unclassed := by cbv

theorem selections_elements_jotting :
    (∃ found, (⟨jotting.build.view, {}, some .byShape⟩ : Engine NodeId).select
        ":not(:not(.a)), p > :first" 1 = .ok found ∧
        ∀ n ∈ found, jotting.build.isElement n = true) ∧
    (∃ found, (⟨jotting.build.view, {}, some .byShape⟩ : Engine NodeId).filter
        ":not(:not(.a)), p > :first" [3, 1, 7, 2] = .ok found ∧ found ⊆ [3, 1, 7, 2] ∧
      ∀ n ∈ found, jotting.build.isElement n = true) ∧
    (⟨jotting.build.view, {}, some .byShape⟩ : Engine NodeId).isMatch 3
      ":not(:not(.a)), p > :first" = .ok false ∧
    (⟨jotting.build.view, {}, none⟩ : Engine NodeId).isMatch 3 ":not(.a)" = .ok true := by
  have rejects : doubly.stance = some false := by cbv
  have accepts : unclassed.stance = some true := by cbv
  obtain ⟨found, nothing, -⟩ :=
    selections_elements jotting.wellBuilt_build {} (some .byShape) (.inr rfl) read_doubly
  obtain ⟨-, filtered, tested⟩ := nothing rejects
  obtain ⟨-, -, every⟩ :=
    selections_elements jotting.wellBuilt_build {} none (.inl rfl) read_unclassed
  exact ⟨found 1 (by decide), filtered [3, 1, 7, 2], tested 3 (by decide),
    (every accepts 3 (by decide)).2⟩

theorem read_foremost : SelectorList.parse ":first" = .ok .foremost := by cbv

theorem others_selected :
    jotting.build.isElement 2 = false ∧ jotting.build.isElement 3 = false ∧
      (⟨jotting.build.view, {}, none⟩ : Engine NodeId).filter ":not(.a)" [2, 3] = .ok [2, 3] ∧
      (⟨jotting.build.view, {}, none⟩ : Engine NodeId).isMatch 3 ":not(.a)" = .ok true ∧
      (⟨jotting.build.view, {}, none⟩ : Engine NodeId).selectFrom ":first" root [2] = .ok [2] := by
  have filtered (nodes : List NodeId) :
      (⟨jotting.build.view, {}, none⟩ : Engine NodeId).filter ":not(.a)" nodes =
        .ok (settle jotting.build.view unclassed.branches.length
          (unclassed.found jotting.build.view {} root (some nodes))) :=
    Engine.selectFrom_read (by decide) read_unclassed nodes
  refine ⟨by decide, by decide, ?_, ?_, ?_⟩
  · rw [filtered]
    decide +kernel
  · rw [Engine.isMatch_other (.inl rfl) (by decide), filtered]
    decide +kernel
  · rw [Engine.selectFrom_read (by decide) read_foremost]
    decide +kernel

end Tree
end SelectorEngine
