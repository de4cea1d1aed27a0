import Mathlib
import SelectorEngine.Proofs.Engine.Answers
import SelectorEngine.Proofs.Tree.Blueprints

/-! # Searching and testing

A search looks candidates up and may start from an identifier; a test filters one node. Without
positional simple selectors both say the same of every element of the document. -/
namespace SelectorEngine

theorem Engine.isMatch_read {N : Type} [DecidableEq N] {e : Engine N} {selector : String}
    {list : SelectorList} (native : e.config.nativeQuery = false)
    (valid : e.view.isContext e.view.documentRoot = true)
    (read : SelectorList.parse selector = .ok list) (n : N) :
    e.isMatch n selector = .ok
      (!((list.query e.view e.config).answer e.view.documentRoot (some [n])).isEmpty) := by
  have declined : e.delegatedMatch n selector = .ok none := by
    rw [delegatedMatch, native]
    cases e.delegate <;> rfl
  rw [isMatch, declined, filter, selectFrom_read valid read, SelectorList.answer_query,
    if_pos valid]
  rfl

namespace Tree

variable {t : Tree} {config : Config} {selector : String} {list : SelectorList} {n : NodeId}

theorem star_branch {branch : Complex SelectorList}
    (star : ∀ simple ∈ branch.simples, simple ≠ .tag "*") :
    ∀ simple ∈ (branch.map (SelectorList.query t.view config)).simples, simple ≠ .tag "*" := by
  intro simple hs
  rw [Complex.simples_map] at hs
  obtain ⟨written, hw, rfl⟩ := List.mem_map.mp hs
  exact Simple.map_ne_star _ (star written hw)

namespace Linked

theorem scope_root (h : t.Linked) (chain : Chain (Query NodeId)) :
    (t.setting config).scope chain root = root := by
  have top : (t.setting config).view.parent root = none := h.root_top
  unfold Setting.scope
  split
  · rw [top, Option.getD_none, ite_self]
  · rfl

theorem mem_evaluateBranch (h : t.Linked) (ids : t.UniqueIds)
    (classless : config.classLookup = false)
    {branch : Complex (Query NodeId)} {chain : Chain (Query NodeId)}
    (parts : Chain.ofParts? branch.parts = some chain) (last : chain.last?.isSome = true)
    (free : branch.hasPositional Query.positional = false)
    (star : ∀ simple ∈ branch.simples, simple ≠ .tag "*")
    (hl : ∀ simple ∈ branch.simples, simple.Local t.view) (he : t.isElement n = true)
    (hn : t.Above root n) :
    n ∈ (t.setting config).evaluateBranch branch root none ↔
      (t.setting config).selects branch root n = true := by
  have simples : chain.simples = branch.simples := Chain.simples_ofParts? parts
  have hpos : chain.hasPositional Query.positional = false := by
    rw [Chain.hasPositional_eq, simples, ← Complex.hasPositional_eq, free]
  have hstar : chain.All (· ≠ .tag "*") := by
    rw [Chain.All, simples]
    exact star
  have hlocal : chain.All (Simple.Local t.view) := by
    rw [Chain.All, simples]
    exact hl
  have backward : (t.setting config).evaluateBranch branch root none =
      ((t.setting config).evaluateBackward chain root none {}).1 := by
    rw [Setting.evaluateBranch, parts]
    simp only [hpos, Bool.and_false, Bool.false_eq_true, if_false]
  have found := h.answers_backward ids classless hstar hlocal (.inl rfl) last Marks.sound_empty
  obtain ⟨simples, hlast⟩ := Option.isSome_iff_exists.mp last
  have hscope : t.Above ((t.setting config).scope chain root) n := (h.scope_root chain).symm ▸ hn
  have suits : (t.setting config).suits simples n = (t.setting config).admits simples n := by
    change (t.isElement n && _) = _
    rw [he, Bool.true_and]
  rw [backward, found.mem_iff, and_iff_right hscope, ← h.suits_holds_iff (.inl rfl) hlast hscope,
    suits, ← Bool.and_eq_true, Setting.selects, parts, Option.any_some, Setting.chooses, hlast,
    Option.any_some]

theorem mem_answer_seed (h : t.Linked) (free : list.hasPositional = false) {m : NodeId}
    (hm : m ∈ (list.query t.view config).answer root (some [n])) : m = n := by
  rw [SelectorList.mem_answer h.isContext_root] at hm
  obtain ⟨branch, hb, hm⟩ := hm
  change m ∈ (t.setting config).evaluateBranch _ root _ at hm
  rw [h.evaluateBranch_seed config (SelectorList.free_branch free hb), List.mem_filter] at hm
  exact List.mem_singleton.mp hm.1

theorem mem_answer_root (h : t.Linked) (ids : t.UniqueIds) (classless : config.classLookup = false)
    (read : SelectorList.parse selector = .ok list) (free : list.hasPositional = false)
    (star : ∀ branch ∈ list.branches, ∀ simple ∈ branch.simples, simple ≠ .tag "*")
    (he : t.isElement n = true) (hn : t.Above root n) :
    n ∈ (list.query t.view config).answer root none ↔
      n ∈ (list.query t.view config).answer root (some [n]) := by
  rw [SelectorList.mem_answer h.isContext_root, SelectorList.mem_answer h.isContext_root]
  refine exists_congr fun branch => and_congr_right fun hb => ?_
  have hfree := SelectorList.free_branch free hb
  have hpos :
      (branch.map (SelectorList.query t.view config)).hasPositional Query.positional = false :=
    (SelectorList.hasPositional_branch branch).trans hfree
  obtain ⟨chain, parts, last⟩ := exists_meant t config read hb
  change n ∈ (t.setting config).evaluateBranch _ root none ↔
    n ∈ (t.setting config).evaluateBranch _ root (some [n])
  rw [h.mem_evaluateBranch ids classless parts last hpos (star_branch (star branch hb))
    (SelectorList.local_branch h.outline_linked h.isContext_root hfree) he hn,
    h.evaluateBranch_seed config hfree, List.mem_filter, and_iff_right (List.mem_singleton_self n)]

end Linked

/-- A search from the document finds an element of it exactly if the element passes the test. -/
theorem isMatch_eq_contains (built : t.WellBuilt) (ids : t.UniqueIds)
    (delegate : Option (Delegate NodeId)) (native : config.nativeQuery = false)
    (classless : config.classLookup = false) (read : SelectorList.parse selector = .ok list)
    (free : list.hasPositional = false)
    (star : ∀ branch ∈ list.branches, ∀ simple ∈ branch.simples, simple ≠ .tag "*") :
    ∃ found, (⟨t.view, config, delegate⟩ : Engine NodeId).select selector root = .ok found ∧
      ∀ n, t.isElement n = true → t.Above root n →
        (⟨t.view, config, delegate⟩ : Engine NodeId).isMatch n selector =
          .ok (found.contains n) := by
  have h := built.linked
  have valid : t.view.isContext root = true := h.isContext_root
  have declined : (⟨t.view, config, delegate⟩ : Engine NodeId).shortcut selector root = none :=
    Engine.shortcut_native native selector root
  refine ⟨(list.query t.view config).answer root none, ?_, ?_⟩
  · rw [Engine.select_eq valid read, declined]
    rfl
  · intro n he hn
    rw [Engine.isMatch_read native valid read]
    congr 1
    rw [Bool.eq_iff_iff, List.contains_iff_mem,
      h.mem_answer_root ids classless read free star he hn, Bool.not_eq_true',
      List.isEmpty_eq_false_iff_exists_mem]
    constructor
    · rintro ⟨m, hm⟩
      exact h.mem_answer_seed free hm ▸ hm
    · intro hm
      exact ⟨n, hm⟩

def illustrated : Blueprint where
  children :=
    [.element "main" [("id", "top")] [.element "p" [] [.text "look"], .element "img" [] []]]

def illustrations : SelectorList :=
  .mk "#top > p + img, :not(main)" [
    { parts := [.compound ⟨"#top", [.id "top"]⟩, .combinator .child, .compound ⟨"p", [.tag "p"]⟩,
        .combinator .adjacent, .compound ⟨"img", [.tag "img"]⟩], rest := some ":not(main)" },
    { parts := [.compound ⟨":not(main)", [.not (.mk "main" [
        { parts := [.compound ⟨"main", [.tag "main"]⟩] }])]⟩] }]

theorem read_illustrations :
    SelectorList.parse "#top > p + img, :not(main)" = .ok illustrations := by cbv

theorem uniqueIds_illustrated : illustrated.build.UniqueIds :=
  illustrated.wellBuilt_build.linked.uniqueIds (by decide)

theorem isMatch_eq_contains_illustrations :
    ∃ found, (⟨illustrated.build.view, .allOff, none⟩ : Engine NodeId).select
        "#top > p + img, :not(main)" root = .ok found ∧
      ∀ n, illustrated.build.isElement n = true → illustrated.build.Above root n →
        (⟨illustrated.build.view, .allOff, none⟩ : Engine NodeId).isMatch n
          "#top > p + img, :not(main)" = .ok (found.contains n) :=
  isMatch_eq_contains illustrated.wellBuilt_build uniqueIds_illustrated none rfl rfl
    read_illustrations
    (by cbv)
    (by simp [illustrations, SelectorList.branches, Complex.simples, Part.simples, forall_and])

end Tree
end SelectorEngine
