import Mathlib.Data.List.TakeWhile
import SelectorEngine.Proofs.Tree.Depictions

/-! # Edits of links

Attaching and detaching change links and nothing else, so that a tree with all its links as they
were is the tree as it was. Where a node is attached, the children before its place and those from
there on become its earlier and its later siblings. -/
namespace SelectorEngine.Tree

variable {t u v w : Tree} {parent child n : NodeId} {place : Option NodeId}
  {before after : List NodeId}

namespace Linked

theorem nextSibling_of_last (h : t.Linked) (hp : t.children parent = before ++ after)
    (last : before.getLast? = some n) : t.nextSibling n = after.head? := by
  obtain ⟨front, rfl⟩ := List.getLast?_eq_some_iff.mp last
  have kept : t.children parent = front ++ n :: after := by rw [hp]; simp
  exact h.nextSibling_eq kept

theorem previousSibling_of_first (h : t.Linked) (hp : t.children parent = before ++ after)
    (first : after.head? = some n) : t.previousSibling n = before.getLast? := by
  obtain ⟨back, rfl⟩ := List.head?_eq_some_iff.mp first
  exact h.previousSibling_eq hp

theorem previousSibling_of_behind (h : t.Linked) (hp : t.children parent = before ++ child :: after)
    (first : after.head? = some n) : t.previousSibling n = some child := by
  have behind : t.children parent = (before ++ [child]) ++ after := by rw [hp]; simp
  rw [h.previousSibling_of_first behind first, List.getLast?_concat]

end Linked

/-- The tree `u` has the nodes of `t`, but links of its own. -/
structure Relinked (t u : Tree) : Prop where
  size : u.size = t.size
  kind : u.kind = t.kind
  focused : u.focused = t.focused
  content : ∀ n, u.content n = t.content n

namespace Relinked

theorem refl (t : Tree) : Relinked t t := ⟨rfl, rfl, rfl, fun _ => rfl⟩

theorem symm (h : Relinked t u) : Relinked u t :=
  ⟨h.size.symm, h.kind.symm, h.focused.symm, fun n => (h.content n).symm⟩

theorem trans (h : Relinked t u) (k : Relinked u v) : Relinked t v :=
  ⟨k.size.trans h.size, k.kind.trans h.kind, k.focused.trans h.focused,
    fun n => (k.content n).trans (h.content n)⟩

theorem update (h : Relinked t u) (n : NodeId) {change : Node → Node}
    (keeps : ∀ node, (change node).kind = node.kind) : Relinked t (u.update n change) :=
  h.trans ⟨size_update .., rfl, rfl, fun m => content_update_of n m keeps⟩

theorem setParent (h : Relinked t u) (n : NodeId) (link : Option NodeId) :
    Relinked t (u.setParent n link) := h.update n fun _ => rfl

theorem setNext (h : Relinked t u) (n : NodeId) (link : Option NodeId) :
    Relinked t (u.setNext n link) := h.update n fun _ => rfl

theorem setPrevious (h : Relinked t u) (n : NodeId) (link : Option NodeId) :
    Relinked t (u.setPrevious n link) := h.update n fun _ => rfl

theorem changeChildren (h : Relinked t u) (n : NodeId) (change : List NodeId → List NodeId) :
    Relinked t (u.changeChildren n change) := h.update n fun _ => rfl

theorem linkBehind (h : Relinked t u) (last : Option NodeId) (n : NodeId) :
    Relinked t (u.linkBehind last n) := by
  cases last with
  | none => exact h
  | some last => exact (h.setNext last _).setPrevious n _

theorem linkBefore (h : Relinked t u) (n reference : NodeId) (last : Option NodeId) :
    Relinked t (u.linkBefore n reference last) := by
  have linked := ((h.setPrevious n last).setNext n (some reference)).setPrevious reference (some n)
  cases last with
  | none => exact linked
  | some last => exact linked.setNext last _

theorem bridge (h : Relinked t u) (last first : Option NodeId) :
    Relinked t (u.bridge last first) := by
  cases last with
  | none =>
    cases first with
    | none => exact h
    | some first => exact h.setPrevious first _
  | some last =>
    cases first with
    | none => exact h.setNext last _
    | some first => exact (h.setNext last _).setPrevious first _

theorem of_appendChild (ha : t.appendChild parent child = some u) : Relinked t u := by
  rw [appendChild] at ha
  split at ha
  · obtain rfl := Option.some.inj ha
    exact (((refl t).changeChildren parent _).setParent child _).linkBehind _ child
  · cases ha

theorem of_insertBefore {reference : NodeId}
    (hi : t.insertBefore parent child reference = some u) : Relinked t u := by
  rw [insertBefore] at hi
  split at hi
  · exact of_appendChild hi
  · split at hi
    · obtain rfl := Option.some.inj hi
      exact (((refl t).changeChildren parent _).setParent child _).linkBefore child reference _
    · cases hi

theorem of_removeChild (hr : t.removeChild parent child = some u) : Relinked t u := by
  rw [removeChild] at hr
  split at hr
  · split at hr
    · obtain rfl := Option.some.inj hr
      rw [Linked.cut_eq]
      exact (((((refl t).changeChildren parent _).setParent child _).setNext child _).setPrevious
        child _).bridge _ _
    · obtain rfl := Option.some.inj hr
      exact refl t
  · cases hr

theorem eq (h : Relinked t u) (children : ∀ n, u.children n = t.children n)
    (parent : ∀ n, u.parent n = t.parent n) (next : ∀ n, u.nextSibling n = t.nextSibling n)
    (previous : ∀ n, u.previousSibling n = t.previousSibling n) : u = t := by
  have node : ∀ n, u.node? n = t.node? n := by
    intro n
    by_cases hn : n < t.size
    · obtain ⟨old, ho⟩ := exists_node? hn
      obtain ⟨new, hw⟩ := exists_node? (h.size ▸ hn : n < u.size)
      have hk := h.content n
      have hc := children n
      have hp := parent n
      have hs := next n
      have hb := previous n
      simp only [Tree.content, Tree.children, Tree.parent, nextSibling, previousSibling, ho, hw,
        Option.map_some, Option.getD_some, Option.bind_some, Option.some.injEq] at hk hc hp hs hb
      cases old
      cases new
      simp_all
    · rw [node?_eq_none (Nat.le_of_not_lt hn), node?_eq_none (h.size ▸ Nat.le_of_not_lt hn)]
  have nodes : u.nodes = t.nodes := Array.ext_getElem? node
  calc u = ⟨u.nodes, u.kind, u.focused⟩ := rfl
    _ = t := by rw [nodes, h.kind, h.focused]

end Relinked

/-- Attaches `child` to `parent` before a node, or as the last child where no node is given. -/
def attachBefore (t : Tree) (parent child : NodeId) : (place : Option NodeId) → Option Tree
  | none => t.appendChild parent child
  | some reference => t.insertBefore parent child reference

def beforePlace (place : Option NodeId) (nodes : List NodeId) : List NodeId :=
  nodes.takeWhile fun n => some n ≠ place

def fromPlace (place : Option NodeId) (nodes : List NodeId) : List NodeId :=
  nodes.dropWhile fun n => some n ≠ place

theorem beforePlace_append_fromPlace (place : Option NodeId) (nodes : List NodeId) :
    beforePlace place nodes ++ fromPlace place nodes = nodes := List.takeWhile_append_dropWhile

theorem fromPlace_eq_cons {reference : NodeId} {nodes : List NodeId}
    (h : fromPlace place nodes = reference :: after) : place = some reference := by
  have hn := List.head?_dropWhile_not (fun n => decide (some n ≠ place)) nodes
  rw [show nodes.dropWhile (fun n => decide (some n ≠ place)) = reference :: after from h] at hn
  simp only [List.head?_cons, decide_eq_false_iff_not, not_not] at hn
  exact hn.symm

theorem beforePlace_eq {nodes : List NodeId} (h : fromPlace place nodes = []) :
    beforePlace place nodes = nodes := by
  conv_rhs => rw [← beforePlace_append_fromPlace place nodes, h, List.append_nil]

/-- A list without repetitions is cut at the place of any of its nodes, and at its end. -/
theorem cut_at_head (hd : (before ++ after).Nodup) :
    beforePlace after.head? (before ++ after) = before ∧
      fromPlace after.head? (before ++ after) = after := by
  cases after with
  | nil =>
    have other : ∀ n ∈ before, decide (some n ≠ none) = true := fun n _ => by simp
    rw [List.append_nil, List.head?_nil]
    exact ⟨List.takeWhile_eq_self_iff.mpr other, List.dropWhile_eq_nil_iff.mpr other⟩
  | cons reference after =>
    rw [List.nodup_middle, List.nodup_cons, List.mem_append, not_or] at hd
    have other : ∀ n ∈ before, decide (some n ≠ some reference) = true := by
      intro n hn
      simpa using fun he : n = reference => hd.1.1 (he ▸ hn)
    rw [beforePlace, fromPlace, List.head?_cons, List.takeWhile_append_of_pos other,
      List.dropWhile_append_of_pos other]
    simp

theorem attachBefore_last (h : fromPlace place (t.children parent) = []) :
    t.attachBefore parent child place = t.appendChild parent child := by
  cases place with
  | none => rfl
  | some reference =>
    have absent : reference ∉ t.children parent := by
      intro hr
      rw [← beforePlace_eq h] at hr
      simpa using List.mem_takeWhile_imp hr
    rw [attachBefore, insertBefore, List.idxOf?_eq_none_iff.mpr absent]

theorem attachBefore_isSome (hp : parent < t.size) (hc : child < t.size) (place : Option NodeId) :
    ∃ u, t.attachBefore parent child place = some u := by
  cases place with
  | none => exact appendChild_isSome hp hc
  | some reference => exact insertBefore_isSome hp hc reference

theorem size_of_attachBefore (hu : t.attachBefore parent child place = some u) :
    parent < t.size ∧ child < t.size := by
  cases place with
  | none => exact size_of_appendChild hu
  | some reference => exact size_of_insertBefore hu

theorem Relinked.of_attachBefore (hu : t.attachBefore parent child place = some u) :
    Relinked t u := by
  cases place with
  | none => exact of_appendChild hu
  | some reference => exact of_insertBefore hu

theorem WellBuilt.attachBefore (built : t.WellBuilt) (ok : t.Attachable parent child)
    (hu : t.attachBefore parent child place = some u) : u.WellBuilt := by
  cases place with
  | none => exact built.appendChild ok hu
  | some reference => exact built.insertBefore ok hu

/-- Attaching before a place comes down to one of the two edits: at the end of the children where
the place is none of them, and before the child at the place otherwise. -/
theorem attachBefore_cases (hu : t.attachBefore parent child place = some u) :
    (beforePlace place (t.children parent) = t.children parent ∧
      fromPlace place (t.children parent) = [] ∧ u = t.attachLast parent child) ∨
    ∃ reference after, fromPlace place (t.children parent) = reference :: after ∧
      t.children parent = beforePlace place (t.children parent) ++ reference :: after ∧
      t.insertBefore parent child reference = some u := by
  have sizes := size_of_attachBefore hu
  cases hf : fromPlace place (t.children parent) with
  | nil =>
    rw [attachBefore_last hf, appendChild, if_pos sizes, Option.some.injEq] at hu
    exact .inl ⟨beforePlace_eq hf, rfl, hu.symm⟩
  | cons reference after =>
    obtain rfl := fromPlace_eq_cons hf
    refine .inr ⟨reference, after, rfl, ?_, hu⟩
    rw [← hf, beforePlace_append_fromPlace]

namespace Linked

theorem spliced_attachBefore (h : t.Linked)
    (hu : t.attachBefore parent child place = some u) :
    Spliced t u parent child (beforePlace place (t.children parent))
      (fromPlace place (t.children parent)) := by
  obtain ⟨hp, hc⟩ := size_of_attachBefore hu
  obtain ⟨hb, hf, rfl⟩ | ⟨reference, after, hf, cut, hi⟩ := attachBefore_cases hu
  · rw [hb, hf]
    exact h.spliced_attachLast hp hc
  · rw [hf]
    exact h.spliced_insertBefore hc cut hi

theorem grafted_attachBefore (h : t.Linked) (ok : t.Attachable parent child)
    (hu : t.attachBefore parent child place = some u) :
    Grafted t u parent child (beforePlace place (t.children parent))
      (fromPlace place (t.children parent)) := by
  obtain ⟨hp, hc⟩ := size_of_attachBefore hu
  obtain ⟨hb, hf, rfl⟩ | ⟨reference, after, hf, cut, hi⟩ := attachBefore_cases hu
  · rw [hb, hf]
    exact h.grafted_attachLast ok hp hc
  · rw [hf]
    exact h.grafted_insertBefore ok hc cut hi

theorem attachable_of_parent (h' : w.Linked)
    (freed : ∀ n, w.parent n = if n = child then none else t.parent n) (hroot : child ≠ root)
    (hne : child ≠ parent) (apart : ¬ t.Above child parent) : w.Attachable parent child := by
  refine ⟨hroot, by rw [freed, if_pos rfl], hne, ?_⟩
  have kept : ∀ a n, w.parent n = some a → t.parent n = some a := by
    intro a n hn
    rw [freed] at hn
    split at hn
    · cases hn
    · exact hn
  rw [Bool.eq_false_iff, Ne, h'.isBelow_iff]
  exact fun above => apart (Relation.TransGen.mono kept child parent above)

end Linked
end SelectorEngine.Tree
