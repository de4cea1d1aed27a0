import SelectorEngine.Proofs.Matching.Search
import SelectorEngine.Proofs.Tree.DocumentOrder

/-! # The nearest node that fits

One step from right to left leads to the nearest of the related nodes that fit, so that a chain is
followed along the nearest nodes. -/
namespace SelectorEngine.Tree

variable {t : Tree} {config : Config} {a b c n context : NodeId} {combinator : Combinator}

/-- Of the nodes with `P` on the left of `b`, the node `a` is the one that the others are left
of. -/
structure Nearest (t : Tree) (P : NodeId → Bool) (combinator : Combinator) (a b : NodeId) :
    Prop where
  holds : P a = true
  related : t.Related combinator a b
  nearest : ∀ c, P c = true → t.Related combinator c b → c = a ∨ t.Related combinator c a

namespace Linked

theorem general_of_adjacent (hr : t.Related .adjacent a b) : t.Related .general a b := by
  obtain ⟨p, hp⟩ := hr
  exact ⟨p, hp.sublist.trans List.filter_sublist⟩

theorem related_asymm (h : t.Linked) (hr : t.Related combinator a b) :
    ¬ t.Related combinator b a := by
  have siblings : ∀ {a b}, t.Related .general a b → ¬ t.Related .general b a := by
    rintro a b ⟨p, hp⟩ ⟨q, hq⟩
    obtain rfl := h.children_unique (hp.subset List.mem_cons_self) (hq.subset (by simp))
    have hd := h.nodup p
    have hb := childBefore_of_sublist hd hq
    rw [childBefore_asymm (childBefore_of_sublist hd hp)] at hb
    cases hb
  cases combinator with
  | descendant => exact h.above_asymm hr
  | child => exact fun hr' => h.above_asymm (.parent hr) (.parent hr')
  | adjacent => exact fun hr' => siblings (general_of_adjacent hr) (general_of_adjacent hr')
  | general => exact siblings hr

theorem mem_leftward (h : t.Linked) (hb : combinator = .adjacent → t.isElement b = true) :
    a ∈ (t.setting config).leftward combinator b ↔
      t.isElement a = true ∧ t.Related combinator a b := by
  cases combinator with
  | descendant =>
    change a ∈ (t.ancestors b).filter t.isElement ↔ _
    rw [List.mem_filter, h.mem_ancestors, and_comm]
    rfl
  | child =>
    change a ∈ ((t.parent b).filter t.isElement).toList ↔ _
    rw [Option.mem_toList, Option.filter_eq_some_iff, and_comm]
    rfl
  | adjacent =>
    change a ∈ ((t.view.previousElement b).filter t.isElement).toList ↔ _
    rw [Option.mem_toList, Option.filter_eq_some_iff, h.previousElement_eq (hb rfl),
      and_comm]
  | general =>
    change a ∈ (t.outline.earlierSiblings b).filter t.isElement ↔ _
    rw [List.mem_filter, h.mem_earlierSiblings, and_comm]
    rfl

theorem pairwise_leftward (h : t.Linked) (config : Config) (combinator : Combinator) (b : NodeId) :
    ((t.setting config).leftward combinator b).Pairwise
      (Function.swap (t.Related combinator)) := by
  have single : ∀ o : Option NodeId, o.toList.Pairwise (Function.swap (t.Related combinator)) := by
    intro o
    cases o <;> simp
  cases combinator with
  | descendant => exact (h.pairwise_ancestors b).filter _
  | child => exact single _
  | adjacent => exact single _
  | general => exact (h.pairwise_earlierSiblings b).filter _

theorem nearest_eq (h : t.Linked) {P : NodeId → Bool} (ha : t.Nearest P combinator a n)
    (hb : t.Nearest P combinator b n) : a = b := by
  rcases ha.nearest b hb.holds hb.related with rfl | hba
  · rfl
  · rcases hb.nearest a ha.holds ha.related with rfl | hab
    · rfl
    · exact absurd hab (h.related_asymm hba)

theorem find?_leftward (h : t.Linked) {P : NodeId → Bool}
    (element : ∀ n, P n = true → t.isElement n = true)
    (hb : combinator = .adjacent → t.isElement b = true) :
    ((t.setting config).leftward combinator b).find? P = some a ↔ t.Nearest P combinator a b := by
  have first : ∀ a, ((t.setting config).leftward combinator b).find? P = some a →
      t.Nearest P combinator a b := by
    intro a ha
    obtain ⟨hP, before, after, hs, hbefore⟩ := List.find?_eq_some_iff_append.mp ha
    have mem : ∀ c, P c = true → t.Related combinator c b → c ∈ before ++ a :: after :=
      fun c hc hr => hs ▸ (h.mem_leftward hb).mpr ⟨element c hc, hr⟩
    have hpair := h.pairwise_leftward config combinator b
    have hm : a ∈ (t.setting config).leftward combinator b := by simp [hs]
    refine ⟨hP, ((h.mem_leftward hb).mp hm).2, fun c hc hr => ?_⟩
    rcases List.mem_append.mp (mem c hc hr) with hx | hx
    · have := hbefore c hx
      simp [hc] at this
    · rcases List.mem_cons.mp hx with rfl | hx
      · exact .inl rfl
      · rw [hs] at hpair
        exact .inr ((List.pairwise_cons.mp (List.pairwise_append.mp hpair).2.1).1 c hx)
  refine ⟨first a, fun hn => ?_⟩
  have hm : a ∈ (t.setting config).leftward combinator b :=
    (h.mem_leftward hb).mpr ⟨element a hn.holds, hn.related⟩
  obtain ⟨a', ha'⟩ := Option.isSome_iff_exists.mp (List.find?_isSome.mpr ⟨a, hm, hn.holds⟩)
  exact h.nearest_eq (first a' ha') hn ▸ ha'

theorem find?_leftward_eq_none (h : t.Linked) {P : NodeId → Bool}
    (element : ∀ n, P n = true → t.isElement n = true)
    (hb : combinator = .adjacent → t.isElement b = true) :
    ((t.setting config).leftward combinator b).find? P = none ↔
      ∀ a, t.Related combinator a b → P a = false := by
  rw [List.find?_eq_none]
  constructor
  · intro none a hr
    rw [← Bool.not_eq_true]
    intro ha
    exact none a ((h.mem_leftward hb).mpr ⟨element a ha, hr⟩) ha
  · intro none a hm ha
    rw [none a ((h.mem_leftward hb).mp hm).2] at ha
    cases ha

end Linked
end SelectorEngine.Tree
