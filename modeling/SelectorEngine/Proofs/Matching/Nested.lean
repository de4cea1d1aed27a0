import SelectorEngine.Matching.Meaning
import SelectorEngine.Proofs.Matching.Chains
import SelectorEngine.Proofs.View.Arranging

/-! # Lists as arguments

By induction on the depth of its arguments, a list says the same in place as where it is evaluated
on its own, and a list without a positional simple selector says it of each node alone. -/
namespace SelectorEngine

variable {N : Type} [DecidableEq N] {view : TreeView N} {config : Config}

theorem Complex.not_mem_simples_map {A B : Type} {f : A → B} {c : Complex A} {b : B} :
    .not b ∈ (c.map f).simples ↔ ∃ a, .not a ∈ c.simples ∧ f a = b := by
  rw [Complex.simples_map, List.mem_map]
  constructor
  · rintro ⟨simple, hs, he⟩
    cases simple <;> cases he
    exact ⟨_, hs, rfl⟩
  · rintro ⟨a, ha, rfl⟩
    exact ⟨.not a, ha, rfl⟩

namespace SelectorList

theorem query_eq (list : SelectorList) : list.query view config =
    Query.ofBranches view config (list.branches.map (Complex.map (query view config))) := by
  rw [query, fold_eq]

theorem hasPositional_eq (list : SelectorList) :
    list.hasPositional = list.branches.any (Complex.hasPositional hasPositional) := by
  rw [hasPositional, fold_eq, Complex.any_hasPositional_map]

theorem positional_query (list : SelectorList) :
    (list.query view config).positional = list.hasPositional :=
  fold_fusion Query.positional
    (fun _ branches => (Complex.any_hasPositional_map Query.positional branches).symm) list

/-- What `:first` is read as, where a node is judged by the nodes in front of it. -/
def foremost : SelectorList :=
  .mk ":first" [{ parts := [.compound ⟨":first", [.position .first]⟩] }]

end SelectorList

namespace Setting

variable {s : Setting N} {m : Marks N}

def selects (s : Setting N) (branch : Complex (Query N)) (context n : N) : Bool :=
  (Chain.ofParts? branch.parts).any (s.chooses · context n)

theorem evaluateBranch_seed (reg : s.Regular) {branch : Complex (Query N)}
    (hl : ∀ simple ∈ branch.simples, simple.Local s.view)
    (hp : branch.hasPositional Query.positional = false) (context : N) (seed : List N) :
    s.evaluateBranch branch context (some seed) = seed.filter (s.selects branch context) := by
  cases hc : Chain.ofParts? branch.parts with
  | none =>
    have hs : s.selects branch context = fun _ => false := by
      funext n
      rw [selects, hc]
      rfl
    rw [evaluateBranch, hc, hs, List.filter_false]
  | some chain =>
    have hsimples : chain.simples = branch.simples := Chain.simples_ofParts? hc
    have hpos : chain.hasPositional Query.positional = false := by
      rw [Chain.hasPositional_eq, hsimples, ← Complex.hasPositional_eq, hp]
    have hall : chain.All (Simple.Local s.view) := by
      rw [Chain.All, hsimples]
      exact hl
    have hs : s.selects branch context = s.chooses chain context := by
      funext n
      rw [selects, hc, Option.any_some]
    rw [evaluateBranch, hc, hs]
    simp only [hpos, Bool.and_false, Bool.false_eq_true, if_false]
    exact (evaluateBackward_seed reg Marks.sound_empty hall context seed).1

theorem outcomes_map {simple : Simple (Query N)} (hp : simple.isPositional = false)
    (nodes : List N) :
    ∃ f : N → Bool, s.outcomes simple nodes = nodes.map f := by
  cases simple with
  | position => cases hp
  | _ => exact ⟨_, rfl⟩

theorem evaluateBranch_single (reg : s.Regular) {simple : Simple (Query N)}
    (hp : simple.isPositional = false) (hq : ∀ q, simple = .not q → q.Faithful s.view)
    (source : String) (rest : Option String) (context : N) (seed : List N) :
    s.evaluateBranch ⟨[.compound ⟨source, [simple]⟩], rest⟩ context (some seed) =
      keep seed (s.outcomes simple seed) := by
  have hqs : ∀ q, .not q ∈ [simple] → q.Faithful s.view :=
    fun q hm => hq q (List.mem_singleton.mp hm).symm
  obtain ⟨hf, -⟩ := filter_eq reg Marks.sound_empty hqs seed
  have he : evaluationOrder [simple] = [simple] := by simp [evaluationOrder, hp]
  rw [he] at hf
  exact hf

end Setting

theorem single?_eq_some {A : Type} {branches : List (Complex A)} {simple : Simple A}
    (h : single? branches = some simple) : simple.isPositional = false ∧
      ∃ source rest, branches = [⟨[.compound ⟨source, [simple]⟩], rest⟩] := by
  unfold single? at h
  split at h
  · split at h
    · cases h
    · cases h
    · cases h
    · next hp =>
      cases h
      refine ⟨?_, _, _, rfl⟩
      cases simple with
      | position place => exact (hp place rfl).elim
      | _ => rfl
  · cases h

omit [DecidableEq N] in
theorem regular_of_view (linked : view.toOutline.Linked)
    (root : view.isContext view.documentRoot = true) (config : Config) :
    (⟨view, config, view.isXml view.documentRoot⟩ : Setting N).Regular :=
  ⟨linked, rfl, root⟩

theorem Query.answer_single (linked : view.toOutline.Linked)
    (root : view.isContext view.documentRoot = true) {simple : Simple (Query N)}
    (hp : simple.isPositional = false) (hq : ∀ q, simple = .not q → q.Faithful view)
    (source : String) (rest : Option String) (seed : List N) :
    (ofBranches view config [⟨[.compound ⟨source, [simple]⟩], rest⟩]).answer view.documentRoot
        (some seed) =
      keep seed
        ((⟨view, config, view.isXml view.documentRoot⟩ : Setting N).outcomes simple seed) := by
  rw [← Setting.evaluateBranch_single (regular_of_view linked root config) hp hq source rest
    view.documentRoot seed]
  simp [ofBranches, gather, settle, root]

namespace SelectorList

theorem faithful (linked : view.toOutline.Linked) (root : view.isContext view.documentRoot = true)
    (list : SelectorList) : (list.query view config).Faithful view := by
  induction list using SelectorList.induction with
  | step list ih =>
    rw [query_eq]
    intro inPlace hplace nodes negate m hm
    obtain ⟨simple, hs, rfl⟩ := Option.map_eq_some_iff.mp hplace
    obtain ⟨hp, source, rest, hb⟩ := single?_eq_some hs
    have hq : ∀ q, simple = .not q → q.Faithful view := by
      rintro q rfl
      have hm : (⟨[.compound ⟨source, [.not q]⟩], rest⟩ : Complex (Query N)) ∈
          list.branches.map (Complex.map (query view config)) := hb ▸ List.mem_singleton_self _
      obtain ⟨branch, hbranch, he⟩ := List.mem_map.mp hm
      have hn : .not q ∈ (branch.map (query view config)).simples := by
        rw [he]
        exact List.mem_singleton_self _
      obtain ⟨nested, hnested, rfl⟩ := Complex.not_mem_simples_map.mp hn
      exact ih branch hbranch nested (.inr hnested)
    obtain ⟨hv, hf⟩ := Setting.verdicts_eq (regular_of_view linked root config) hm hq nodes negate
    refine ⟨hv.trans ?_, hf⟩
    rw [hb, Query.answer_single linked root hp hq]
    obtain ⟨f, ho⟩ := Setting.outcomes_map
      (s := ⟨view, config, view.isXml view.documentRoot⟩) hp nodes
    rw [ho, Setting.keep_map, List.map_map]
    refine List.map_congr_left fun n hn => ?_
    simp [hn]

theorem faithful_branch (linked : view.toOutline.Linked)
    (root : view.isContext view.documentRoot = true) (branch : Complex SelectorList) :
    ∀ q, .not q ∈ (branch.map (query view config)).simples → q.Faithful view := by
  intro q hq
  obtain ⟨nested, -, rfl⟩ := Complex.not_mem_simples_map.mp hq
  exact faithful linked root nested

theorem hasPositional_branch (branch : Complex SelectorList) :
    (branch.map (query view config)).hasPositional Query.positional =
      branch.hasPositional hasPositional := by
  rw [Complex.hasPositional_map]
  congr 1
  funext list
  exact list.positional_query

/-- Arguments that say something of each node alone make a branch that does so. -/
theorem local_of_nested (linked : view.toOutline.Linked)
    (root : view.isContext view.documentRoot = true) {branch : Complex SelectorList}
    (hp : branch.hasPositional hasPositional = false)
    (hn : ∀ nested, .not nested ∈ branch.simples → nested.hasPositional = false →
      (nested.query view config).Pointwise view) :
    ∀ simple ∈ (branch.map (query view config)).simples, simple.Local view := by
  rw [Complex.hasPositional_eq, List.any_eq_false] at hp
  intro simple hs
  rw [Complex.simples_map] at hs
  obtain ⟨written, hw, rfl⟩ := List.mem_map.mp hs
  have hfree := Bool.not_eq_true _ ▸ hp written hw
  cases written with
  | position place => cases hfree
  | not nested => exact ⟨faithful linked root nested, hn nested hw hfree⟩
  | _ => trivial

theorem mem_answer {context : N} (hc : view.isContext context = true) (list : SelectorList)
    (seed : Option (List N)) (n : N) :
    n ∈ (list.query view config).answer context seed ↔ ∃ branch ∈ list.branches,
      n ∈ (⟨view, config, view.isXml context⟩ : Setting N).evaluateBranch
        (branch.map (query view config)) context seed := by
  have settled (count : Nat) (nodes : List N) : n ∈ settle view count nodes ↔ n ∈ nodes := by
    rw [settle]
    split
    · exact TreeView.mem_arrange nodes
    · rfl
  rw [answer_query, if_pos hc, settled, found, gather, if_pos hc, List.flatMap_map,
    List.mem_flatMap]

theorem pointwise (linked : view.toOutline.Linked) (root : view.isContext view.documentRoot = true)
    (list : SelectorList) (hp : list.hasPositional = false) :
    (list.query view config).Pointwise view := by
  induction list using SelectorList.induction with
  | step list ih =>
    rw [hasPositional_eq, List.any_eq_false] at hp
    have each (seed : List N) (branch) (hb : branch ∈ list.branches) :
        (⟨view, config, view.isXml view.documentRoot⟩ : Setting N).evaluateBranch
            (branch.map (query view config)) view.documentRoot (some seed) =
          seed.filter ((⟨view, config, view.isXml view.documentRoot⟩ : Setting N).selects
            (branch.map (query view config)) view.documentRoot) := by
      have hfree : branch.hasPositional hasPositional = false := Bool.not_eq_true _ ▸ hp branch hb
      exact Setting.evaluateBranch_seed (regular_of_view linked root config)
        (local_of_nested linked root hfree fun nested hn => ih branch hb nested (.inr hn))
        ((hasPositional_branch branch).trans hfree) view.documentRoot seed
    intro seed n hn
    rw [mem_answer root, mem_answer root]
    refine exists_congr fun branch => and_congr_right fun hb => ?_
    rw [each seed branch hb, each [n] branch hb, List.mem_filter, List.mem_filter]
    simp [hn]

theorem local_branch (linked : view.toOutline.Linked)
    (root : view.isContext view.documentRoot = true) {branch : Complex SelectorList}
    (hp : branch.hasPositional hasPositional = false) :
    ∀ simple ∈ (branch.map (query view config)).simples, simple.Local view :=
  local_of_nested linked root hp fun nested _ => pointwise linked root nested

end SelectorList
end SelectorEngine
