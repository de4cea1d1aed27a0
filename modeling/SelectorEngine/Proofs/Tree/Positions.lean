import SelectorEngine.Proofs.Tree.Blueprints
import SelectorEngine.Proofs.View.Arranging

/-! # Where one node stands to another

A placement says on which side of a node another one is, whether one of them is below the other, and
whether they stand in different trees. Seen from the other node it is the same with the sides
exchanged. -/
namespace SelectorEngine

def Placement.mirrored (p : Placement) : Placement :=
  { p with
    preceding := p.following
    following := p.preceding
    contains := p.containedBy
    containedBy := p.contains }

namespace Tree

variable {t : Tree} {a b c n p r s : NodeId} {xs ys : List NodeId}

def IsTop (t : Tree) (r n : NodeId) : Prop := t.parent r = none ∧ (n = r ∨ t.Above r n)

theorem preceding_placementBelow (t : Tree) (p : NodeId) (xs ys : List NodeId) :
    (t.placementBelow p xs ys).preceding = !(t.placementBelow p xs ys).following := by
  induction xs generalizing p ys with
  | nil => rfl
  | cons x xs ih =>
    cases ys with
    | nil => rfl
    | cons y ys =>
      rw [placementBelow]
      split
      · exact ih x ys
      · split <;> rfl

theorem disconnected_placementBelow (t : Tree) (p : NodeId) (xs ys : List NodeId) :
    (t.placementBelow p xs ys).disconnected = false ∧
      (t.placementBelow p xs ys).implementationSpecific = false := by
  induction xs generalizing p ys with
  | nil => exact ⟨rfl, rfl⟩
  | cons x xs ih =>
    cases ys with
    | nil => exact ⟨rfl, rfl⟩
    | cons y ys =>
      rw [placementBelow]
      split
      · exact ih x ys
      · split <;> exact ⟨rfl, rfl⟩

theorem containedBy_placementBelow :
    (t.placementBelow p xs ys).containedBy = true ↔ xs <+: ys := by
  induction xs generalizing p ys with
  | nil => simp [placementBelow]
  | cons x xs ih =>
    cases ys with
    | nil => simp [placementBelow]
    | cons y ys =>
      rw [placementBelow, List.cons_prefix_cons]
      split
      · next same => rw [ih, and_iff_right same]
      · next other => split <;> simp [other]

theorem contains_placementBelow :
    (t.placementBelow p xs ys).contains = true ↔ ys <+: xs ∧ ys ≠ xs := by
  induction xs generalizing p ys with
  | nil => simp [placementBelow, List.prefix_nil]
  | cons x xs ih =>
    cases ys with
    | nil => simp [placementBelow]
    | cons y ys =>
      rw [placementBelow, List.cons_prefix_cons]
      split
      · next same => simp [ih, same]
      · next other => split <;> simp [Ne.symm other]

theorem placement_same_top (hne : a ≠ b) (ht : t.top a = t.top b) :
    t.placement a b = t.placementBelow (t.top a) (t.path a).tail (t.path b).tail := by
  have hb := path_eq_top_cons t b
  rw [← ht] at hb
  exact placement_of_path hne (l := []) (path_eq_top_cons t a) hb

theorem placement_other_top (ht : t.top a ≠ t.top b) :
    t.placement a b =
      { disconnected := true, implementationSpecific := true,
        following := t.top a < t.top b, preceding := !(t.top a < t.top b) } := by
  have hne : a ≠ b := fun he => ht (congrArg t.top he)
  rw [placement, if_neg hne, path_eq_top_cons t a, path_eq_top_cons t b]
  exact if_neg ht

theorem preceding_placement (hne : a ≠ b) :
    (t.placement a b).preceding = !(t.placement a b).following := by
  by_cases ht : t.top a = t.top b
  · rw [placement_same_top hne ht]
    exact preceding_placementBelow ..
  · rw [placement_other_top ht]

theorem disconnected_placement :
    (t.placement a b).disconnected = decide (t.top a ≠ t.top b) ∧
      (t.placement a b).implementationSpecific = decide (t.top a ≠ t.top b) := by
  by_cases hne : a = b
  · simp [hne, placement]
  · by_cases ht : t.top a = t.top b
    · rw [placement_same_top hne ht]
      simpa [ht] using disconnected_placementBelow ..
    · rw [placement_other_top ht]
      simp [ht]

/-- Paths with one top go on from each other as their tails do. -/
theorem tail_prefix_iff (ht : t.top a = t.top b) :
    (t.path a).tail <+: (t.path b).tail ↔ t.path a <+: t.path b := by
  rw [path_eq_top_cons t a, path_eq_top_cons t b, ht, List.cons_prefix_cons, List.tail_cons,
    List.tail_cons, and_iff_right rfl]

theorem containedBy_placement (hne : a ≠ b) :
    (t.placement a b).containedBy = true ↔ t.path a <+: t.path b := by
  by_cases ht : t.top a = t.top b
  · rw [placement_same_top hne ht, containedBy_placementBelow, tail_prefix_iff ht]
  · rw [placement_other_top ht]
    refine iff_of_false Bool.false_ne_true fun hp => ht ?_
    rw [path_eq_top_cons t a, path_eq_top_cons t b, List.cons_prefix_cons] at hp
    exact hp.1

theorem contains_placement (hne : a ≠ b) :
    (t.placement a b).contains = true ↔ t.path b <+: t.path a := by
  by_cases ht : t.top a = t.top b
  · have other : (t.path b).tail ≠ (t.path a).tail := fun he =>
      hne (path_injective (by rw [path_eq_top_cons t a, path_eq_top_cons t b, ht, he]))
    rw [placement_same_top hne ht, contains_placementBelow, and_iff_left other,
      tail_prefix_iff ht.symm]
  · rw [placement_other_top ht]
    refine iff_of_false Bool.false_ne_true fun hp => ht ?_
    rw [path_eq_top_cons t a, path_eq_top_cons t b, List.cons_prefix_cons] at hp
    exact hp.1.symm

namespace Linked

theorem path_prefix_iff (h : t.Linked) (hne : a ≠ b) : t.path a <+: t.path b ↔ t.Above a b := by
  constructor
  · rintro ⟨rest, hp⟩
    have ha : a ∈ t.path b := by
      rw [← hp]
      exact List.mem_append_left _ (List.mem_of_getLast? (getLast_path t a))
    rw [path, List.mem_append, List.mem_reverse, h.mem_ancestors, List.mem_singleton] at ha
    exact ha.resolve_right hne
  · intro ha
    obtain ⟨m, rest, hp⟩ := h.path_below ha
    exact ⟨m :: rest, hp.symm⟩

theorem isTop_top (h : t.Linked) (n : NodeId) : t.IsTop (t.top n) n := by
  refine ⟨?_, h.top_above n⟩
  induction n using h.induction_up with
  | step n ih =>
    cases hn : t.parent n with
    | none =>
      rw [top, path_top hn]
      exact hn
    | some p =>
      rw [h.top_parent hn]
      exact ih p hn

theorem isTop_iff (h : t.Linked) : t.IsTop r n ↔ r = t.top n := by
  constructor
  · rintro ⟨hr, rfl | above⟩
    · rw [top, path_top hr]
      rfl
    · obtain ⟨m, rest, hp⟩ := h.path_below above
      rw [top, hp, path_top hr]
      rfl
  · rintro rfl
    exact h.isTop_top n

theorem containedBy_iff (h : t.Linked) :
    (t.placement a b).containedBy = true ↔ t.Above a b := by
  by_cases hne : a = b
  · subst hne
    simpa [placement] using h.not_above_self a
  · rw [containedBy_placement hne, h.path_prefix_iff hne]

theorem contains_iff (h : t.Linked) : (t.placement a b).contains = true ↔ t.Above b a := by
  by_cases hne : a = b
  · subst hne
    simpa [placement] using h.not_above_self a
  · rw [contains_placement hne, h.path_prefix_iff (Ne.symm hne)]

theorem following_mirrored (h : t.Linked) (hne : a ≠ b) :
    (t.placement b a).following = !(t.placement a b).following := by
  rcases h.precedes_total hne with hab | hba
  · have other : (t.placement b a).following = false := Bool.eq_false_iff.mpr (precedes_asymm hab)
    rw [other, show (t.placement a b).following = true from hab]
    rfl
  · have other : (t.placement a b).following = false := Bool.eq_false_iff.mpr (precedes_asymm hba)
    rw [other]
    exact hba

theorem placement_mirrored (h : t.Linked) (a b : NodeId) :
    t.placement b a = (t.placement a b).mirrored := by
  by_cases hne : a = b
  · simp [hne, placement, Placement.mirrored]
  · have sides := h.following_mirrored hne
    have above : (t.placement b a).contains = (t.placement a b).containedBy := by
      rw [Bool.eq_iff_iff, h.contains_iff, h.containedBy_iff]
    have below : (t.placement b a).containedBy = (t.placement a b).contains := by
      rw [Bool.eq_iff_iff, h.contains_iff, h.containedBy_iff]
    have apart : (t.placement b a).disconnected = (t.placement a b).disconnected := by
      rw [disconnected_placement.1, disconnected_placement.1]
      exact decide_eq_decide.mpr ne_comm
    have apart' :
        (t.placement b a).implementationSpecific = (t.placement a b).implementationSpecific := by
      rw [disconnected_placement.2, disconnected_placement.2]
      exact decide_eq_decide.mpr ne_comm
    have before : (t.placement b a).preceding = (t.placement a b).following := by
      rw [preceding_placement (Ne.symm hne), sides, Bool.not_not]
    have before' : (t.placement b a).following = (t.placement a b).preceding := by
      rw [preceding_placement hne, sides]
    calc t.placement b a
        = ⟨(t.placement b a).disconnected, (t.placement b a).preceding,
            (t.placement b a).following, (t.placement b a).contains,
            (t.placement b a).containedBy, (t.placement b a).implementationSpecific⟩ := rfl
      _ = (t.placement a b).mirrored := by
        rw [apart, before, before', above, below, apart']
        rfl

theorem precedes_iff_sublist (h : t.Linked) (ha : t.IsTop r a) (hb : t.IsTop r b) :
    t.Precedes a b ↔ [a, b].Sublist (r :: t.preorder r) := by
  have whole := h.pairwise_whole r
  have listed : ∀ {n}, t.IsTop r n → n ∈ r :: t.preorder r := fun hn => by
    rw [List.mem_cons, h.mem_preorder]
    exact hn.2
  constructor
  · intro hab
    refine sublist_of_precedes (by simpa using hab) whole fun n hn => ?_
    rw [List.mem_pair] at hn
    rcases hn with rfl | rfl
    · exact listed ha
    · exact listed hb
  · exact fun hs => List.pairwise_iff_forall_sublist.mp whole hs

theorem isSame_iff (h : t.Linked) : (t.placement a b).isSame = true ↔ a = b := by
  rw [Placement.isSame, beq_iff_eq]
  constructor
  · intro same
    by_contra hne
    rcases h.precedes_total hne with hab | hba
    · rw [Precedes, same] at hab
      cases hab
    · rw [Precedes, h.following_mirrored hne, ← preceding_placement hne, same] at hba
      cases hba
  · rintro rfl
    exact if_pos rfl

theorem compare_lt_trans (h : t.Linked) (hab : t.view.compare a b = .lt)
    (hbc : t.view.compare b c = .lt) : t.view.compare a c = .lt := by
  rw [h.orderedBy.lt_iff] at hab hbc ⊢
  exact h.precedes_trans hab hbc

theorem compare_ne_gt_iff (h : t.Linked) : t.view.compare a b ≠ .gt ↔ a = b ∨ t.Precedes a b := by
  by_cases he : a = b
  · simp [he, TreeView.compare]
  · rw [← h.orderedBy.lt_iff, or_iff_right he, TreeView.compare, if_neg he]
    change (if (t.placement a b).following = true then Ordering.lt else .gt) ≠ .gt ↔
      (if (t.placement a b).following = true then Ordering.lt else .gt) = .lt
    split <;> simp

theorem compare_le_trans (h : t.Linked) (hab : t.view.compare a b ≠ .gt)
    (hbc : t.view.compare b c ≠ .gt) : t.view.compare a c ≠ .gt := by
  rw [h.compare_ne_gt_iff] at hab hbc ⊢
  rcases hab with rfl | hab
  · exact hbc
  · rcases hbc with rfl | hbc
    · exact .inr hab
    · exact .inr (h.precedes_trans hab hbc)

end Linked

/-- Any two nodes have one order, seen from both of them. In one tree it is the order of the text,
and it is transitive across all trees. -/
theorem placement_order (built : t.WellBuilt) (a b c : NodeId) :
    ((t.placement a b).isSame = true ↔ a = b) ∧
    (a ≠ b → (t.placement a b).preceding = !(t.placement a b).following) ∧
    t.placement b a = (t.placement a b).mirrored ∧
    ((t.placement a b).containedBy = true ↔ t.isBelow b a = true) ∧
    (∃! r, t.IsTop r a) ∧
    (∀ r s, t.IsTop r a → t.IsTop s b → ((t.placement a b).disconnected = true ↔ r ≠ s)) ∧
    (∀ r, t.IsTop r a → t.IsTop r b →
      ((t.placement a b).following = true ↔ [a, b].Sublist (r :: t.preorder r))) ∧
    (t.view.compare a b = .lt → t.view.compare b c = .lt → t.view.compare a c = .lt) ∧
    (t.view.compare a b ≠ .gt → t.view.compare b c ≠ .gt → t.view.compare a c ≠ .gt) := by
  have h := built.linked
  refine ⟨h.isSame_iff, preceding_placement, h.placement_mirrored a b, ?below, ?one, ?apart, ?text,
    h.compare_lt_trans, h.compare_le_trans⟩
  case below => rw [h.containedBy_iff, h.isBelow_iff]
  case one => exact ⟨t.top a, h.isTop_top a, fun r hr => h.isTop_iff.mp hr⟩
  case apart =>
    intro r s hr hs
    rw [disconnected_placement.1, decide_eq_true_iff, h.isTop_iff.mp hr, h.isTop_iff.mp hs]
  case text => exact fun r => h.precedes_iff_sublist

def chapter : Blueprint where
  children := [.element "section" [] [.element "p" [] []], .element "h2" [] []]

def draft : Tree := (chapter.build.alloc (.text "later")).2

theorem wellBuilt_draft : draft.WellBuilt := .alloc _ chapter.wellBuilt_build

theorem placement_order_draft :
    (draft.placement 2 3).following = true ∧ (draft.placement 2 4).disconnected = true ∧
      draft.view.compare 2 4 = .lt := by
  obtain ⟨-, -, -, -, -, -, text, -, -⟩ := placement_order wellBuilt_draft 2 3 4
  obtain ⟨-, -, -, -, -, apart, -, -, -⟩ := placement_order wellBuilt_draft 2 4 4
  obtain ⟨-, -, -, -, -, -, -, trans, -⟩ := placement_order wellBuilt_draft 2 3 4
  have linked := wellBuilt_draft.linked
  exact ⟨(text root (linked.isTop_iff.mpr (by decide)) (linked.isTop_iff.mpr (by decide))).mpr
      (by decide),
    (apart root 4 (linked.isTop_iff.mpr (by decide)) (linked.isTop_iff.mpr (by decide))).mpr
      (by decide),
    trans (by decide) (by decide)⟩

end Tree
end SelectorEngine
