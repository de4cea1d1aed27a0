import Mathlib
import SelectorEngine.Proofs.Engine.Containment
import SelectorEngine.Proofs.Selector.Shapes
import SelectorEngine.Selector.Display

/-! # Merging answers

The answers of several branches are arranged together with the results so far, and how a list is
arranged depends on its nodes alone. So neither the order nor the number of times in which answers
arrive shows in the result. -/
namespace SelectorEngine

namespace Engine

variable {N : Type} [DecidableEq N] {e : Engine N} {selector : String} {list : SelectorList}
  {context : N} {seed : Option (List N)} {found : List N}

theorem selectInto_idle (idle : e.isIdle selector context = true) (results : List N)
    (seed : Option (List N)) : e.selectInto selector context results seed = ⟨results, none⟩ := by
  rw [selectInto, if_pos idle]

theorem selectInto_delegated (busy : e.isIdle selector context = false)
    (answered : e.delegated selector context seed = .ok (some found)) (results : List N) :
    e.selectInto selector context results seed = ⟨results ++ found, none⟩ := by
  rw [selectInto, busy, answered]
  rfl

theorem selectInto_declined (busy : e.isIdle selector context = false)
    (declined : ∀ found, e.delegated selector context seed ≠ .ok (some found)) (results : List N) :
    e.selectInto selector context results seed = e.selectRead selector context results seed := by
  rw [selectInto, busy]
  rcases answer : e.delegated selector context seed with error | _ | found
  · rfl
  · rfl
  · exact absurd answer (declined found)

omit [DecidableEq N] in
theorem single_of_delegated (fast : e.delegate = none ∨ e.delegate = some .byShape)
    (answered : e.delegated selector context seed = .ok (some found)) :
    ∃ list, SelectorList.parse selector = .ok list ∧ list.branches.length = 1 := by
  rcases fast with none_there | fast
  · rw [delegated, none_there] at answered
    cases answered
  · cases seed with
    | some seed =>
      rw [delegated_seed] at answered
      cases answered
    | none =>
      have short : e.shortcut selector context = some found := by
        rw [shortcut, answered]
        rfl
      obtain ⟨-, shape, known, -⟩ := shape_of_shortcut fast short
      exact ⟨_, Shape.parse_eq known, rfl⟩

end Engine

def Complex.alone (branch : Complex SelectorList) : SelectorList :=
  .mk branch.display [{ branch with rest := none }]

theorem Complex.mem_alone {N : Type} [DecidableEq N] {view : TreeView N} {config : Config}
    {branch other : Complex SelectorList} (same : branch.parts = other.parts) {context : N}
    (valid : view.isContext context = true) (seed : Option (List N)) (n : N) :
    n ∈ (branch.alone.query view config).answer context seed ↔
      n ∈ (⟨view, config, view.isXml context⟩ : Setting N).evaluateBranch
        (other.map (SelectorList.query view config)) context seed := by
  have one : branch.alone.branches = [{ branch with rest := none }] := rfl
  rw [SelectorList.mem_answer valid, one]
  simp only [List.mem_singleton, exists_eq_left, Setting.evaluateBranch, Complex.map, same]

theorem Complex.mem_alone_of_parts {N : Type} [DecidableEq N] {view : TreeView N} {config : Config}
    {branches others : List (Complex SelectorList)} {context : N}
    (valid : view.isContext context = true)
    (within : ∀ parts, parts ∈ branches.map (·.parts) → parts ∈ others.map (·.parts))
    {seed : Option (List N)} {n : N}
    (hn : n ∈ branches.flatMap fun branch => (branch.alone.query view config).answer context seed) :
    n ∈ others.flatMap fun branch => (branch.alone.query view config).answer context seed := by
  obtain ⟨branch, hb, hn⟩ := List.mem_flatMap.mp hn
  obtain ⟨other, ho, same⟩ := List.mem_map.mp (within _ (List.mem_map_of_mem hb))
  refine List.mem_flatMap.mpr ⟨other, ho, ?_⟩
  rw [mem_alone same valid, ← mem_alone rfl valid]
  exact hn

namespace Tree

variable {t : Tree} {config : Config} {context : NodeId}

namespace Linked

/-- Arranging the answers before they are added to the results so far changes nothing. -/
theorem settle_append_settle (h : t.Linked) (count : Nat) (results found : List NodeId) :
    settle t.view count (results ++ settle t.view count found) =
      settle t.view count (results ++ found) := by
  by_cases several : 1 < count
  · rw [settle, settle, settle, if_pos several, if_pos several, if_pos several]
    refine h.arrange_congr fun n => ?_
    rw [List.mem_append, List.mem_append, TreeView.mem_arrange]
  · rw [settle, settle, settle, if_neg several, if_neg several, if_neg several]

theorem selectInto_busy (h : t.Linked) {delegate : Option (Delegate NodeId)}
    (fast : delegate = none ∨ delegate = some .byShape) {selector : String}
    (busy : (⟨t.view, config, delegate⟩ : Engine NodeId).isIdle selector context = false)
    (results : List NodeId) (seed : Option (List NodeId)) :
    let e : Engine NodeId := ⟨t.view, config, delegate⟩
    (∀ error, SelectorList.parse selector = .error error →
      e.selectInto selector context results seed = ⟨results, some error⟩) ∧
    ∀ list, SelectorList.parse selector = .ok list →
      e.selectInto selector context results seed = ⟨settle t.view list.branches.length
        (results ++ (e.selectInto selector context [] seed).results), none⟩ := by
  intro e
  by_cases answered : ∃ found, e.delegated selector context seed = .ok (some found)
  · obtain ⟨found, answered⟩ := answered
    obtain ⟨list, read, one⟩ := Engine.single_of_delegated fast answered
    constructor
    · intro error failed
      cases read.symm.trans failed
    · intro list' read'
      obtain rfl := Except.ok.inj (read.symm.trans read')
      rw [Engine.selectInto_delegated busy answered, Engine.selectInto_delegated busy answered, one]
      rfl
  · have declined := not_exists.mp answered
    rw [Engine.selectInto_declined busy declined, Engine.selectInto_declined busy declined]
    constructor
    · intro error failed
      rw [Engine.selectRead, failed]
    · intro list read
      simp only [Engine.selectRead, read, List.nil_append]
      rw [h.settle_append_settle]

theorem answer_eq_arrange (h : t.Linked) {selector : String} {list : SelectorList}
    (read : SelectorList.parse selector = .ok list) (valid : t.view.isContext context = true) :
    (list.query t.view config).answer context none = t.view.arrange (list.branches.flatMap
      fun branch => (branch.alone.query t.view config).answer context none) := by
  refine h.eq_arrange (h.ordered_settled read valid) fun n => ?_
  rw [SelectorList.mem_answer valid, List.mem_flatMap]
  exact exists_congr fun branch => and_congr_right fun _ =>
    (Complex.mem_alone rfl valid none n).symm

end Linked

/-- A selection that fails leaves the results so far as they are, and so does one that is idle. Any
other adds what it selects on its own, and with several branches it arranges the whole. -/
theorem selectInto_accumulates (built : t.WellBuilt) (config : Config)
    {delegate : Option (Delegate NodeId)} (fast : delegate = none ∨ delegate = some .byShape)
    (selector : String) (context : NodeId) (results : List NodeId) (seed : Option (List NodeId)) :
    let e : Engine NodeId := ⟨t.view, config, delegate⟩
    (∀ error, (e.selectInto selector context results seed).error = some error →
      (e.selectInto selector context results seed).results = results) ∧
    (t.view.isContext context = false ∨ Text.trim selector.toList = [] →
      e.selectInto selector context results seed = ⟨results, none⟩) ∧
    (t.view.isContext context = true → Text.trim selector.toList ≠ [] →
      (∀ error, SelectorList.parse selector = .error error →
        e.selectInto selector context results seed = ⟨results, some error⟩) ∧
      ∀ list, SelectorList.parse selector = .ok list →
        e.selectInto selector context results seed = ⟨
          let found := (e.selectInto selector context [] seed).results
          if 1 < list.branches.length then t.view.arrange (results ++ found) else results ++ found,
          none⟩) := by
  intro e
  have idle (skipped : t.view.isContext context = false ∨ Text.trim selector.toList = []) :
      e.selectInto selector context results seed = ⟨results, none⟩ := by
    refine Engine.selectInto_idle ?_ results seed
    rw [Engine.isIdle, Bool.or_eq_true, Bool.not_eq_true', List.isEmpty_iff]
    exact skipped
  have busy (valid : t.view.isContext context = true) (written : Text.trim selector.toList ≠ []) :
      e.isIdle selector context = false := by
    rw [Engine.isIdle, Bool.or_eq_false_iff, Bool.not_eq_false', List.isEmpty_eq_false_iff]
    exact ⟨valid, written⟩
  refine ⟨?_, idle, fun valid written => built.linked.selectInto_busy fast (busy valid written) _ _⟩
  intro error failed
  by_cases skipped : t.view.isContext context = false ∨ Text.trim selector.toList = []
  · rw [idle skipped]
  · rw [not_or, Bool.not_eq_false] at skipped
    obtain ⟨rejected, accepted⟩ :=
      built.linked.selectInto_busy fast (busy skipped.1 skipped.2) results seed
    cases read : SelectorList.parse selector with
    | error _ => rw [rejected _ read]
    | ok list =>
      rw [accepted list read] at failed
      cases failed

def dinner : Blueprint where
  children := [.element "ol" []
    [.element "li" [] [.text "soup"], .element "li" [] [.element "b" [] [.element "i" [] []]]]]

def marks : SelectorList :=
  .mk "i, b" [{ parts := [.compound ⟨"i", [.tag "i"]⟩], rest := some "b" },
    { parts := [.compound ⟨"b", [.tag "b"]⟩] }]

theorem read_marks : SelectorList.parse "i, b" = .ok marks := by cbv

theorem selectInto_accumulates_dinner :
    (⟨dinner.build.view, {}, some .byShape⟩ : Engine NodeId).selectInto "i, b" root [6, 2, 6] none =
      ⟨dinner.build.view.arrange ([6, 2, 6] ++
        ((⟨dinner.build.view, {}, some .byShape⟩ : Engine NodeId).selectInto
          "i, b" root [] none).results),
        none⟩ := by
  obtain ⟨-, -, busy⟩ := selectInto_accumulates dinner.wellBuilt_build {} (.inr rfl) "i, b" root
    [6, 2, 6] none
  exact (busy (by decide) (by decide)).2 marks read_marks

/-- Two lists with the same branches, in whatever order and however often each of them stands there,
select the same: what the branches select one by one, in document order and without repeats. -/
theorem select_union (built : t.WellBuilt) (config : Config) {a b : String}
    {list other : SelectorList} (read : SelectorList.parse a = .ok list)
    (read' : SelectorList.parse b = .ok other)
    (same : ∀ parts, parts ∈ list.branches.map (·.parts) ↔ parts ∈ other.branches.map (·.parts))
    (hc : context = root ∨ t.isElement context = true) :
    ∃ found, (⟨t.view, config, none⟩ : Engine NodeId).select a context = .ok found ∧
      (⟨t.view, config, none⟩ : Engine NodeId).select b context = .ok found ∧
      found = t.view.arrange (list.branches.flatMap fun branch =>
        (branch.alone.query t.view config).answer context none) ∧
      (∀ n, n ∈ found ↔ ∃ branch ∈ list.branches,
        n ∈ (branch.alone.query t.view config).answer context none) ∧
      found.Pairwise t.Precedes ∧ found.Nodup := by
  have h := built.linked
  have valid : t.view.isContext context = true := h.isContext_of hc
  have alone (selector : String) :
      (⟨t.view, config, none⟩ : Engine NodeId).shortcut selector context = none :=
    Engine.shortcut_alone rfl selector context
  have ordered : ((list.query t.view config).answer context none).Pairwise t.Precedes :=
    h.ordered_settled read valid
  -- The answer depends on the branches only as a set, because it is arranged in the end.
  have equal : (list.query t.view config).answer context none =
      (other.query t.view config).answer context none := by
    rw [h.answer_eq_arrange read valid, h.answer_eq_arrange read' valid]
    exact h.arrange_congr fun n => ⟨Complex.mem_alone_of_parts valid (fun parts => (same parts).mp),
      Complex.mem_alone_of_parts valid (fun parts => (same parts).mpr)⟩
  refine ⟨(list.query t.view config).answer context none, ?_, ?_, h.answer_eq_arrange read valid,
    ?_, ordered, nodup_of_precedes ordered⟩
  · rw [Engine.select_eq valid read, alone]
    rfl
  · rw [Engine.select_eq valid read', alone, equal]
    rfl
  · intro n
    rw [h.answer_eq_arrange read valid, TreeView.mem_arrange, List.mem_flatMap]

def marksAgain : SelectorList :=
  .mk "b, i, b" [{ parts := [.compound ⟨"b", [.tag "b"]⟩], rest := some "i, b" },
    { parts := [.compound ⟨"i", [.tag "i"]⟩], rest := some "b" },
    { parts := [.compound ⟨"b", [.tag "b"]⟩] }]

theorem read_marksAgain : SelectorList.parse "b, i, b" = .ok marksAgain := by cbv

theorem select_union_marks :
    ∃ found, (⟨dinner.build.view, {}, none⟩ : Engine NodeId).select "i, b" 4 = .ok found ∧
      (⟨dinner.build.view, {}, none⟩ : Engine NodeId).select "b, i, b" 4 = .ok found ∧
      found = dinner.build.view.arrange (marks.branches.flatMap fun branch =>
        (branch.alone.query dinner.build.view {}).answer 4 none) ∧
      (∀ n, n ∈ found ↔ ∃ branch ∈ marks.branches,
        n ∈ (branch.alone.query dinner.build.view {}).answer 4 none) ∧
      found.Pairwise dinner.build.Precedes ∧ found.Nodup := by
  refine select_union dinner.wellBuilt_build {} read_marks read_marksAgain ?_ (.inr (by decide))
  intro parts
  simp only [marks, marksAgain, SelectorList.branches, List.map_cons, List.map_nil, List.mem_cons,
    List.not_mem_nil, or_false]
  tauto

end Tree
end SelectorEngine
