import SelectorEngine.Proofs.Matching.Unmarked

/-! # Where answers lie

Without a seed the answer of a branch is a list of elements in document order. All of them lie below
the context, or below its parent if the branch begins with a sibling combinator. -/
namespace SelectorEngine

open Setting (fragmentChain)

def Complex.beginsBeside {A : Type} (branch : Complex A) : Bool :=
  match branch.parts with
  | .combinator relation :: _ => relation.isSibling
  | _ => false

theorem Complex.beginsBeside_map {A B : Type} (f : A → B) (branch : Complex A) :
    (branch.map f).beginsBeside = branch.beginsBeside := by
  obtain ⟨_ | ⟨part, parts⟩, rest⟩ := branch
  · rfl
  · cases part <;> rfl

namespace Tree

/-- Elements below a scope, in document order. -/
structure Enclosed (t : Tree) (scope : NodeId) (nodes : List NodeId) : Prop where
  inside : ∀ n ∈ nodes, t.isElement n = true ∧ t.Above scope n
  ordered : nodes.Pairwise t.Precedes

/-- The node that everything a chain finds from a context lies below. -/
def place (t : Tree) (chain : Chain (Query NodeId)) (context : NodeId) : NodeId :=
  match chain with
  | ⟨none, link :: _⟩ =>
    if link.combinator.isSibling then (t.parent context).getD context else context
  | _ => context

variable {t : Tree} {config : Config} {n r scope inner context : NodeId}
  {nodes others roots : List NodeId}
  {chain : Chain (Query NodeId)} {link : Link (Query NodeId)} {links : List (Link (Query NodeId))}

theorem Enclosed.sublist (h : t.Enclosed scope nodes) (hs : others.Sublist nodes) :
    t.Enclosed scope others where
  inside n hn := h.inside n (hs.subset hn)
  ordered := h.ordered.sublist hs

theorem Enclosed.widen (h : t.Enclosed inner nodes) (hs : scope = inner ∨ t.Above scope inner) :
    t.Enclosed scope nodes where
  inside n hn := by
    obtain ⟨he, ha⟩ := h.inside n hn
    rcases hs with rfl | hs
    · exact ⟨he, ha⟩
    · exact ⟨he, hs.trans ha⟩
  ordered := h.ordered

theorem nodup_of_precedes (h : nodes.Pairwise t.Precedes) : nodes.Nodup := by
  refine h.imp ?_
  rintro a b hab rfl
  exact t.not_precedes_self a hab

theorem place_above (chain : Chain (Query NodeId)) (context : NodeId) :
    t.place chain context = context ∨ t.Above (t.place chain context) context := by
  unfold place
  split
  · split
    · cases hp : t.parent context with
      | none => exact .inl rfl
      | some p => exact .inr (.parent hp)
    · exact .inl rfl
  · exact .inl rfl

theorem place_scope (chain : Chain (Query NodeId)) (context : NodeId) :
    t.place chain context = (t.setting config).scope chain context ∨
      t.Above (t.place chain context) ((t.setting config).scope chain context) := by
  have wide := place_above (t := t) chain context
  obtain ⟨_ | first, _ | ⟨link, _ | ⟨next, links⟩⟩⟩ := chain
  · exact wide
  · exact .inl rfl
  all_goals exact wide

theorem inside_of_place {branch : Complex (Query NodeId)}
    (parts : Chain.ofParts? branch.parts = some chain) (hn : t.Above (t.place chain context) n) :
    t.Above context n ∨
      branch.beginsBeside = true ∧ ∃ p, t.parent context = some p ∧ t.Above p n := by
  obtain ⟨_ | ⟨part, others⟩, rest⟩ := branch
  · cases parts
    exact .inl hn
  cases part with
  | compound block =>
    obtain ⟨links, -, rfl⟩ := Option.map_eq_some_iff.mp parts
    exact .inl hn
  | combinator relation =>
    obtain ⟨links, hlinks, rfl⟩ := Option.map_eq_some_iff.mp parts
    unfold linksOf? at hlinks
    rcases others with _ | ⟨next, others⟩
    · cases hlinks
    cases next with
    | combinator => cases hlinks
    | compound block =>
      obtain ⟨links, -, rfl⟩ := Option.map_eq_some_iff.mp hlinks
      by_cases sibling : relation.isSibling = true
      · cases hp : t.parent context with
        | none =>
          simp only [place, sibling, hp, if_true, Option.getD_none] at hn
          exact .inl hn
        | some p =>
          simp only [place, sibling, hp, if_true, Option.getD_some] at hn
          exact .inr ⟨sibling, p, rfl, hn⟩
      · simp only [place, sibling] at hn
        exact .inl hn

theorem place_fragment (r : NodeId) (links : List (Link (Query NodeId))) :
    t.place (fragmentChain link none) r = t.place ⟨none, link :: links⟩ r := by
  obtain ⟨combinator, simples⟩ := link
  cases combinator <;> rfl

theorem scope_fragment (hr : t.Above scope r) :
    scope = t.place (fragmentChain link none) r ∨
      t.Above scope (t.place (fragmentChain link none) r) := by
  obtain ⟨p, hp, hs⟩ := above_iff.mp hr
  rw [place_fragment r [], place]
  split
  · rw [hp]
    exact hs
  · exact .inr hr

namespace Linked

theorem enclosed_elements (h : t.Linked) (scope : NodeId)
    (hs : nodes.Sublist ((t.descendants scope).filter t.isElement)) : t.Enclosed scope nodes where
  inside n hn := by
    obtain ⟨hd, he⟩ := List.mem_filter.mp (hs.subset hn)
    exact ⟨he, h.mem_descendants.mp hd⟩
  ordered := ((h.pairwise_descendants scope).filter _).sublist hs

theorem enclosed_search (h : t.Linked) (config : Config) (simples : List (Simple (Query NodeId)))
    (scope : NodeId) :
    t.Enclosed scope ((t.setting config).search simples scope) :=
  h.enclosed_elements scope
    ((Setting.sift_sublist _ _).trans (candidates_sublist config simples scope))

theorem enclosed_within (h : t.Linked) (config : Config) (chain : Chain (Query NodeId))
    (context : NodeId) :
    t.Enclosed ((t.setting config).scope chain context)
      ((t.setting config).answerWithin chain context none) := by
  rw [Setting.answerWithin]
  cases chain.last? with
  | none => exact ⟨fun n hn => (List.not_mem_nil hn).elim, .nil⟩
  | some last => exact (h.enclosed_search config last _).sublist List.filter_sublist

theorem enclosed_backward (h : t.Linked) (chain : Chain (Query NodeId)) (context : NodeId) :
    t.Enclosed (t.place chain context) ((t.setting config).answerBackward chain context none) := by
  rw [Setting.answerBackward]
  by_cases hn : (t.setting config).narrows chain context none = true
  · obtain ⟨-, -, first, link, links, rfl, -, sibling⟩ := Setting.of_narrows hn
    have found := h.enclosed_search config first context
    rw [if_pos hn, Option.getD_some]
    generalize (t.setting config).search first context = result at found ⊢
    cases result with
    | nil => exact ⟨fun n hn => (List.not_mem_nil hn).elim, .nil⟩
    | cons element others =>
      have below := (found.inside element List.mem_cons_self).2
      have inner := h.enclosed_within config (Chain.dropHead ⟨some first, link :: links⟩) element
      rw [scope_dropHead sibling] at inner
      exact inner.widen (.inr below)
  · rw [if_neg hn]
    exact (h.enclosed_within config chain context).widen (place_scope chain context)

theorem enclosed_fragment (h : t.Linked) (each : ∀ r ∈ roots,
      t.Enclosed scope ((t.setting config).answerBackward (fragmentChain link none) r none)) :
    t.Enclosed scope ((t.setting config).answerFragment link none roots) := by
  suffices found : t.Enclosed scope ((t.setting config).reach link none roots) from
    found.sublist (Setting.sift_sublist _ _)
  have inside : ∀ n ∈ roots.flatMap fun r =>
      (t.setting config).answerBackward (fragmentChain link none) r none,
      t.isElement n = true ∧ t.Above scope n := by
    intro n hn
    obtain ⟨r, hr, hn⟩ := List.mem_flatMap.mp hn
    exact (each r hr).inside n hn
  rw [Setting.reach]
  split
  · exact ⟨fun n hn => inside n ((TreeView.mem_arrange _).mp hn), h.orderedBy.pairwise_arrange _⟩
  · next few =>
    -- From one root at most, what is found is in order without being arranged.
    refine ⟨inside, ?_⟩
    rcases roots with _ | ⟨r, _ | ⟨r', roots⟩⟩
    · exact .nil
    · simpa using (each r (List.mem_singleton_self r)).ordered
    · exact absurd (by simp) few

theorem enclosed_links (h : t.Linked) (hr : t.Enclosed scope roots) :
    t.Enclosed scope ((t.setting config).answerLinks none links roots) := by
  induction links generalizing roots with
  | nil => exact hr
  | cons link links ih =>
    have each : ∀ r ∈ roots,
        t.Enclosed scope ((t.setting config).answerBackward (fragmentChain link none) r none) :=
      fun r hmem => (h.enclosed_backward _ r).widen (scope_fragment (hr.inside r hmem).2)
    rw [Setting.answerLinks, ite_self]
    exact ih (h.enclosed_fragment each)

theorem enclosed_forward (h : t.Linked) (chain : Chain (Query NodeId)) (several : chain.links ≠ [])
    (context : NodeId) :
    t.Enclosed (t.place chain context) ((t.setting config).answerForward chain context none) := by
  obtain ⟨_ | first, _ | ⟨link, links⟩⟩ := chain
  · exact absurd rfl several
  · have each : ∀ r ∈ [context], t.Enclosed (t.place ⟨none, link :: links⟩ context)
        ((t.setting config).answerBackward (fragmentChain link none) r none) := by
      intro r hr
      obtain rfl := List.mem_singleton.mp hr
      rw [← place_fragment r links]
      exact h.enclosed_backward _ r
    rw [Setting.answerForward, Setting.answerLinks, ite_self]
    exact h.enclosed_links (h.enclosed_fragment each)
  · exact absurd rfl several
  · exact h.enclosed_links (h.enclosed_search config first context)

/-- The answer of a branch, wherever its context stands in the tree. -/
theorem enclosed_branch (h : t.Linked) {branch : Complex (Query NodeId)}
    (parts : Chain.ofParts? branch.parts = some chain) (context : NodeId) :
    t.Enclosed (t.place chain context) ((t.setting config).answerBranch branch context none) := by
  rw [Setting.answerBranch, parts]
  dsimp only
  split
  · next forward =>
    have several : chain.links ≠ [] := by
      rw [Bool.and_eq_true, Bool.not_eq_true', List.isEmpty_eq_false_iff] at forward
      exact forward.1
    exact h.enclosed_forward chain several context
  · exact h.enclosed_backward chain context

end Linked
end Tree
end SelectorEngine
