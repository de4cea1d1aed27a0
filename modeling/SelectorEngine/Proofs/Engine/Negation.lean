import Mathlib
import SelectorEngine.Proofs.Engine.Answers
import SelectorEngine.Proofs.Matching.Negation
import SelectorEngine.Proofs.Selector.Negations
import SelectorEngine.Proofs.Tree.Blueprints

/-! # Negations of whole selectors

Out of a seed, the negation of a selector selects what the selector does not select. Where the
argument is not negated in place, it is evaluated on its own from the document root, and so it is
the kind of document there that counts. -/
namespace SelectorEngine

variable {N : Type} [DecidableEq N] {view : TreeView N} {config : Config} {list : SelectorList}
  {context : N}

namespace Setting

variable {s : Setting N}

theorem filterEach_congr {s' : Setting N} {simples : List (Simple (Query N))}
    (same : ∀ simple ∈ simples, s.verdicts simple = s'.verdicts simple) (nodes : List N)
    (m : Marks N) : s.filterEach simples nodes m = s'.filterEach simples nodes m := by
  induction simples generalizing nodes m with
  | nil => rfl
  | cons simple simples ih =>
    obtain ⟨first, others⟩ := List.forall_mem_cons.mp same
    rw [filterEach, filterEach, first]
    exact ih others _ _

end Setting

namespace SelectorList

/-- The node below which the argument of a negation is evaluated. -/
def origin (list : SelectorList) (view : TreeView N) (context : N) : N :=
  if (single? list.branches).isSome then context else view.documentRoot

omit [DecidableEq N] in
theorem isContext_origin (root : view.isContext view.documentRoot = true)
    (valid : view.isContext context = true) : view.isContext (list.origin view context) = true := by
  rw [origin]
  split
  · exact valid
  · exact root

theorem answer_single {branch : Complex SelectorList} (one : list.branches = [branch])
    (valid : view.isContext context = true) (seed : Option (List N)) :
    (list.query view config).answer context seed =
      (⟨view, config, view.isXml context⟩ : Setting N).evaluateBranch
        (branch.map (query view config)) context seed := by
  rw [answer_query, if_pos valid, found_single one valid]

theorem keep_not (linked : view.toOutline.Linked) (valid : view.isContext context = true)
    (seed : List N) :
    keep seed ((⟨view, config, view.isXml context⟩ : Setting N).verdicts
        (.not (list.query view config)) seed false {}).1 =
      seed.filter (· ∉ (list.query view config).answer (list.origin view context) (some seed)) := by
  cases hs : single? list.branches with
  | none =>
    have place : list.origin view context = view.documentRoot := by
      rw [origin, hs]
      rfl
    have inPlace : (list.query view config).inPlace = none := by
      rw [inPlace_query, hs]
      rfl
    rw [Setting.verdicts_not_none inPlace, Setting.keep_map, place]
    refine List.filter_congr fun n _ => ?_
    simp
  | some simple =>
    have place : list.origin view context = context := by
      rw [origin, hs]
      rfl
    obtain ⟨hp, source, rest, one⟩ := single?_eq_some hs
    have inPlace : (list.query view config).inPlace = some fun xml =>
        (⟨view, config, xml⟩ : Setting N).verdicts (simple.map (query view config)) := inPlace_eq hs
    -- In place the argument gets the verdicts of the simple selector, each of them turned around.
    obtain ⟨f, opposite⟩ := list.flips linked _ inPlace (view.isXml context) seed
    have answer : (list.query view config).answer context (some seed) = seed.filter f := by
      have verdicts := opposite false {} Marks.sound_empty
      simp only [Bool.xor_false] at verdicts
      rw [answer_single one valid, ← Setting.keep_map, ← verdicts]
      exact Setting.evaluateBranch_verdicts ((Simple.isPositional_map _ simple).trans hp)
        source rest context seed
    have kept := opposite true {} Marks.sound_empty
    rw [Setting.verdicts_not_some inPlace, Bool.not_false, kept, Setting.keep_map, place, answer]
    refine List.filter_congr fun n hn => ?_
    cases hf : f n <;> simp [hn, hf]

theorem answer_kind {compound : Compound SelectorList}
    (one : list.branches.map (·.parts) = [[.compound compound]]) {other : N}
    (valid : view.isContext context = true) (valid' : view.isContext other = true)
    (alike : view.isXml context = view.isXml other ∨
      ∀ simple ∈ compound.simples, simple.readsKind SelectorList.readsKind = false)
    (seed : List N) :
    (list.query view config).answer context (some seed) =
      (list.query view config).answer other (some seed) := by
  obtain ⟨branch, hb, parts⟩ := List.map_eq_singleton_iff.mp one
  obtain ⟨_, rest⟩ := branch
  obtain rfl := parts
  have same : ∀ simple ∈ compound.simples.map (Simple.map (query view config)),
      (⟨view, config, view.isXml context⟩ : Setting N).verdicts simple =
        (⟨view, config, view.isXml other⟩ : Setting N).verdicts simple := by
    intro simple hs
    rcases alike with kind | free
    · rw [kind]
    · obtain ⟨written, hw, rfl⟩ := List.mem_map.mp hs
      exact Setting.verdicts_kind (free written hw) _ _
  rw [answer_single hb valid, answer_single hb valid']
  refine congrArg Prod.fst (Setting.filterEach_congr (fun simple hs => same simple ?_) seed {})
  exact (Setting.mem_evaluationOrder _).mp hs

end SelectorList

namespace Engine

/-- Out of a seed a negation selects whatever its argument does not select below the node where it
is evaluated. A compound selects the same below the context of the negation, unless this belongs to
a document of another kind and the compound reads the kind. -/
theorem selectFrom_negation (linked : view.toOutline.Linked)
    (root : view.isContext view.documentRoot = true) (config : Config)
    (delegate : Option (Delegate N)) {selector : String}
    (read : SelectorList.parse selector = .ok list)
    (valid : view.isContext context = true) (seed : List N) :
    ∃ found, (⟨view, config, delegate⟩ : Engine N).selectFrom selector
        (list.origin view context) seed = .ok found ∧
      (⟨view, config, delegate⟩ : Engine N).selectFrom (":not(" ++ selector ++ ")") context seed =
        .ok (seed.filter (· ∉ found)) ∧
      ∀ parts : Compound SelectorList, list.branches.map (·.parts) = [[.compound parts]] →
        (view.isXml context = view.isXml view.documentRoot ∨
          ∀ simple ∈ parts.simples, simple.readsKind SelectorList.readsKind = false) →
        (⟨view, config, delegate⟩ : Engine N).selectFrom selector context seed = .ok found := by
  have selected {other : N} (valid' : view.isContext other = true) :
      (⟨view, config, delegate⟩ : Engine N).selectFrom selector other seed =
        .ok ((list.query view config).answer other (some seed)) := by
    rw [selectFrom_read valid' read, SelectorList.answer_query, if_pos valid']
  have valid' := list.isContext_origin root valid
  obtain ⟨negated, source, read', one⟩ := SelectorList.parse_negation read
  refine ⟨(list.query view config).answer (list.origin view context) (some seed),
    selected valid', ?_, ?_⟩
  · rw [selectFrom_read valid read', SelectorList.found_single one valid,
      ← list.keep_not linked valid]
    exact congrArg Except.ok (Setting.evaluateBranch_verdicts rfl source none context seed)
  · intro compound single alike
    rw [selected valid]
    refine congrArg Except.ok (SelectorList.answer_kind single valid valid' ?_ seed)
    rw [SelectorList.origin]
    split
    · exact .inl rfl
    · exact alike

end Engine

namespace Tree

def island : Blueprint where
  children := [.element "xml" [] [.element "DIV" [] []]]

/-- The view in which an `xml` element makes itself and what is below it XML. -/
def islandView : TreeView NodeId :=
  { island.build.plainView with
    isXml := fun n => (n :: island.build.ancestors n).any fun m =>
      island.build.tagName m == some "xml" }

theorem linked_islandView : islandView.toOutline.Linked :=
  have h := island.wellBuilt_build.linked.outline_linked
  ⟨h.ancestors_short, h.earlier_short, h.child_iff, h.nodup⟩

def firstborn : SelectorList :=
  .mk "*:first-child" [{ parts := [.compound ⟨"*:first-child", [.universal, .child .first]⟩] }]

theorem read_firstborn : SelectorList.parse "*:first-child" = .ok firstborn := by cbv

theorem selectFrom_negation_firstborn :
    ∃ found, (⟨islandView, {}, none⟩ : Engine NodeId).selectFrom "*:first-child" 0 [2, 1, 2] =
        .ok found ∧
      (⟨islandView, {}, none⟩ : Engine NodeId).selectFrom ":not(*:first-child)" 1 [2, 1, 2] =
        .ok ([2, 1, 2].filter (· ∉ found)) ∧
      (⟨islandView, {}, none⟩ : Engine NodeId).selectFrom "*:first-child" 1 [2, 1, 2] =
        .ok found := by
  have valid : islandView.isContext 1 = true := by decide
  obtain ⟨found, own, negation, compound⟩ :=
    Engine.selectFrom_negation linked_islandView (by decide) {} none read_firstborn valid [2, 1, 2]
  have free : ∀ simple ∈ ([.universal, .child .first] : List (Simple SelectorList)),
      simple.readsKind SelectorList.readsKind = false := by decide
  exact ⟨found, own, negation, compound _ rfl (.inr free)⟩

def noDiv : SelectorList :=
  .mk ":not(div)" [{ parts := [.compound ⟨":not(div)",
    [.not (Shape.list "div" (.tag "div"))]⟩] }]

/-- Inside the piece of XML the element is called `DIV` and no `div`. Where the argument of the
negation is evaluated it is one, so that neither the selector nor its negation selects it. -/
theorem negation_not_complement :
    islandView.toOutline.Linked ∧ islandView.isContext islandView.documentRoot = true ∧
      islandView.isContext 1 = true ∧ islandView.isElement 2 = true ∧
      (⟨islandView, {}, none⟩ : Engine NodeId).selectFrom "div" 1 [2] = .ok [] ∧
      (⟨islandView, {}, none⟩ : Engine NodeId).selectFrom ":not(div)" 1 [2] = .ok [] := by
  have read : SelectorList.parse "div" = .ok (Shape.list "div" (.tag "div")) :=
    Shape.parse_eq (by decide)
  have read' : SelectorList.parse ":not(div)" = .ok noDiv := by cbv
  refine ⟨linked_islandView, by decide, by decide, by decide, ?_, ?_⟩
  · rw [Engine.selectFrom_read (by decide) read]
    decide +kernel
  · rw [Engine.selectFrom_read (by decide) read']
    decide +kernel

end Tree
end SelectorEngine
