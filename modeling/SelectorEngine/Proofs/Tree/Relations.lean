import SelectorEngine.Matching.NodeTest
import SelectorEngine.Proofs.Tree.Preorder
import SelectorEngine.Proofs.View.Links

/-! # The relations behind the combinators

Each combinator relates a node to others on its left. The nodes that one relates to a third lie on
one line: of any two, one is related to the other. -/
namespace SelectorEngine.Tree

variable {t : Tree} {a b c n p scope : NodeId} {combinator : Combinator}

/-- A combinator with `a` on its left relates `a` to `b`. -/
def Related (t : Tree) (combinator : Combinator) (a b : NodeId) : Prop :=
  match combinator with
  | .descendant => t.Above a b
  | .child => t.parent b = some a
  | .adjacent => ∃ p, [a, b] <:+: (t.children p).filter t.isElement
  | .general => ∃ p, [a, b].Sublist (t.children p)

def Attached (t : Tree) (n : NodeId) : Prop := n = root ∨ t.Above root n

theorem Attached.above (h : t.Attached scope) (hn : t.Above scope n) : t.Above root n := by
  rcases h with rfl | h
  · exact hn
  · exact h.trans hn

theorem Above.of_parent_eq (ha : t.Above c a) (he : t.parent a = t.parent b) : t.Above c b := by
  rw [above_iff] at ha ⊢
  rwa [← he]

theorem above_of_inward (inward : combinator.isSibling = false) (hr : t.Related combinator a b) :
    t.Above a b := by
  cases combinator with
  | descendant => exact hr
  | child => exact .parent hr
  | adjacent => cases inward
  | general => cases inward

theorem isElement_of_isDocument (h : t.isDocument n = true) : t.isElement n = false := by
  rw [isDocument] at h
  rw [isElement]
  split at h
  · next hn => rw [hn]
  · cases h

namespace Linked

theorem parent_adjacent (h : t.Linked) (hr : t.Related .adjacent a b) :
    t.parent a = t.parent b := by
  obtain ⟨p, hp⟩ := hr
  obtain ⟨ha, hb⟩ := mem_of_infix_pair hp
  rw [(h.child_iff p a).mp (List.mem_of_mem_filter ha),
    (h.child_iff p b).mp (List.mem_of_mem_filter hb)]

theorem parent_general (h : t.Linked) (hr : t.Related .general a b) : t.parent a = t.parent b := by
  obtain ⟨p, hp⟩ := hr
  rw [(h.child_iff p a).mp (hp.subset (by simp)), (h.child_iff p b).mp (hp.subset (by simp))]

theorem above_of_related (h : t.Linked) (hr : t.Related combinator a b) (hc : t.Above c a) :
    t.Above c b := by
  cases combinator with
  | descendant => exact hc.trans hr
  | child => exact hc.trans (.parent hr)
  | adjacent => exact hc.of_parent_eq (h.parent_adjacent hr)
  | general => exact hc.of_parent_eq (h.parent_general hr)

theorem isElement_root (h : t.Linked) : t.isElement root = false :=
  isElement_of_isDocument h.root_document

theorem above_root_of_above (h : t.Linked) (hb : t.Above root b) (ha : t.Above a b)
    (he : t.isElement a = true) : t.Above root a := by
  rcases h.above_linear ha hb with rfl | har | hra
  · rw [h.isElement_root] at he
    cases he
  · exact absurd har (not_above_of_top h.root_top)
  · exact hra

theorem attached_left (h : t.Linked) (hr : t.Related combinator a b) (hb : t.Above root b)
    (he : t.isElement a = true) : t.Above root a := by
  cases combinator with
  | descendant => exact h.above_root_of_above hb hr he
  | child => exact h.above_root_of_above hb (.parent hr) he
  | adjacent => exact hb.of_parent_eq (h.parent_adjacent hr).symm
  | general => exact hb.of_parent_eq (h.parent_general hr).symm

theorem pairwise_ancestors (h : t.Linked) (n : NodeId) :
    (t.ancestors n).Pairwise fun a c => t.Above c a := by
  induction n using h.induction_up with
  | step n ih =>
    cases hn : t.parent n with
    | none => simp [ancestors_top hn]
    | some p =>
      rw [h.ancestors_parent hn]
      exact .cons (fun c hc => h.mem_ancestors.mp hc) (ih p hn)

theorem pairwise_earlierSiblings (h : t.Linked) (n : NodeId) :
    (t.outline.earlierSiblings n).Pairwise (Function.swap (t.Related .general)) := by
  cases hn : t.parent n with
  | none => simp [h.earlierSiblings_top hn]
  | some p =>
    obtain ⟨before, after, hp⟩ := h.exists_split hn
    rw [h.earlierSiblings_eq hp, List.pairwise_reverse, List.pairwise_iff_forall_sublist]
    exact fun {a b} hab => ⟨p, hp ▸ hab.trans (List.sublist_append_left _ _)⟩

theorem previousElement_eq (h : t.Linked) (he : t.isElement b = true) :
    t.view.previousElement b = some a ↔ t.Related .adjacent a b := by
  rw [TreeView.previousElement]
  change (t.outline.earlierSiblings b).find? t.isElement = some a ↔ _
  cases hb : t.parent b with
  | none =>
    rw [h.earlierSiblings_top hb]
    simp only [List.find?_nil, reduceCtorEq, false_iff]
    rintro ⟨p, hp⟩
    exact h.not_mem_children hb (List.mem_of_mem_filter (mem_of_infix_pair hp).2)
  | some p =>
    obtain ⟨before, after, hp⟩ := h.exists_split hb
    have hd := (h.nodup p).filter t.isElement
    have hs : (t.children p).filter t.isElement =
        before.filter t.isElement ++ b :: after.filter t.isElement := by
      rw [hp, List.filter_append, List.filter_cons_of_pos he]
    rw [h.earlierSiblings_eq hp, ← List.getLast?_filter, ← infix_pair_iff_last (hs ▸ hd), ← hs]
    constructor
    · exact fun ha => ⟨p, ha⟩
    · rintro ⟨q, hq⟩
      have hq' := List.mem_of_mem_filter (mem_of_infix_pair hq).2
      rwa [← h.children_unique hq' ((h.child_iff p b).mpr hb)]

end Linked
end SelectorEngine.Tree
