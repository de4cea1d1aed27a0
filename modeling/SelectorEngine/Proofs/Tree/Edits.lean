import Mathlib.Data.List.Nodup
import SelectorEngine.Tree.Edit

/-! # What an edit changes

The links after an edit in terms of the links before it. An edit that has a result either puts one
child between its new siblings or takes one child out from between them. -/
namespace SelectorEngine.Tree

variable {t u : Tree}

theorem node?_update (t : Tree) (n : NodeId) (change : Node → Node) (m : NodeId) :
    (t.update n change).node? m = if n = m then (t.node? m).map change else t.node? m := by
  simp [update, node?, Array.getElem?_modify]

theorem size_update (t : Tree) (n : NodeId) (change : Node → Node) :
    (t.update n change).size = t.size := by
  simp [update, size]

theorem update_update (t : Tree) (n : NodeId) (change change' : Node → Node) :
    (t.update n change).update n change' = t.update n fun node => change' (change node) := by
  simp only [update, mk.injEq, and_self, and_true]
  refine Array.ext_getElem? fun m => ?_
  simp only [Array.getElem?_modify]
  split <;> simp [Function.comp_def]

theorem node?_alloc (t : Tree) (kind : NodeKind) (m : NodeId) :
    (t.alloc kind).2.node? m = if m = t.size then some { kind } else t.node? m := by
  simp only [alloc, node?, size, Array.getElem?_push]
  rfl

theorem size_alloc (t : Tree) (kind : NodeKind) : (t.alloc kind).2.size = t.size + 1 := by
  simp [alloc, size]

theorem node?_eq_none {n : NodeId} (h : t.size ≤ n) : t.node? n = none := by
  simpa [node?, size] using h

theorem exists_node? {n : NodeId} (h : n < t.size) : ∃ node, t.node? n = some node :=
  ⟨t.nodes[n], Array.getElem?_eq_getElem h⟩

theorem lt_size_of_parent {n p : NodeId} (h : t.parent n = some p) : n < t.size := by
  by_contra hn
  simp [parent, node?_eq_none (Nat.le_of_not_lt hn)] at h

theorem lt_size_of_mem_children {n p : NodeId} (h : n ∈ t.children p) : p < t.size := by
  by_contra hp
  simp [children, node?_eq_none (Nat.le_of_not_lt hp)] at h

section Links

variable (n m : NodeId) (v : Option NodeId) (change : List NodeId → List NodeId)

@[simp] theorem size_setParent : (t.setParent n v).size = t.size := size_update ..
@[simp] theorem size_setNext : (t.setNext n v).size = t.size := size_update ..
@[simp] theorem size_setPrevious : (t.setPrevious n v).size = t.size := size_update ..
@[simp] theorem size_changeChildren : (t.changeChildren n change).size = t.size := size_update ..

theorem parent_update_of {change : Node → Node}
    (keeps : ∀ node, (change node).parent = node.parent) :
    (t.update n change).parent m = t.parent m := by
  rw [parent, node?_update]
  split <;> cases h : t.node? m <;> simp [parent, h, keeps]

theorem children_update_of {change : Node → Node}
    (keeps : ∀ node, (change node).children = node.children) :
    (t.update n change).children m = t.children m := by
  rw [children, node?_update]
  split <;> cases h : t.node? m <;> simp [children, h, keeps]

theorem nextSibling_update_of {change : Node → Node}
    (keeps : ∀ node, (change node).nextSibling = node.nextSibling) :
    (t.update n change).nextSibling m = t.nextSibling m := by
  rw [nextSibling, node?_update]
  split <;> cases h : t.node? m <;> simp [nextSibling, h, keeps]

theorem previousSibling_update_of {change : Node → Node}
    (keeps : ∀ node, (change node).previousSibling = node.previousSibling) :
    (t.update n change).previousSibling m = t.previousSibling m := by
  rw [previousSibling, node?_update]
  split <;> cases h : t.node? m <;> simp [previousSibling, h, keeps]

theorem isDocument_iff : t.isDocument m = true ↔ (t.node? m).map (·.kind) = some .document := by
  rw [isDocument]
  split
  · next h => simp [h]
  · next h =>
    simp only [Bool.false_eq_true, Option.map_eq_some_iff, not_exists, not_and, false_iff]
    rintro ⟨kind, parent, children, next, previous⟩ hm rfl
    exact h _ _ _ _ hm

theorem isDocument_update_of {change : Node → Node}
    (keeps : ∀ node, (change node).kind = node.kind) :
    (t.update n change).isDocument m = t.isDocument m := by
  rw [Bool.eq_iff_iff, isDocument_iff, isDocument_iff, node?_update]
  split <;> cases h : t.node? m <;> simp [keeps]

@[simp] theorem parent_setNext : (t.setNext n v).parent m = t.parent m :=
  parent_update_of n m fun _ => rfl
@[simp] theorem parent_setPrevious : (t.setPrevious n v).parent m = t.parent m :=
  parent_update_of n m fun _ => rfl
@[simp] theorem parent_changeChildren : (t.changeChildren n change).parent m = t.parent m :=
  parent_update_of n m fun _ => rfl
@[simp] theorem children_setParent : (t.setParent n v).children m = t.children m :=
  children_update_of n m fun _ => rfl
@[simp] theorem children_setNext : (t.setNext n v).children m = t.children m :=
  children_update_of n m fun _ => rfl
@[simp] theorem children_setPrevious : (t.setPrevious n v).children m = t.children m :=
  children_update_of n m fun _ => rfl
@[simp] theorem nextSibling_setParent : (t.setParent n v).nextSibling m = t.nextSibling m :=
  nextSibling_update_of n m fun _ => rfl
@[simp] theorem nextSibling_setPrevious : (t.setPrevious n v).nextSibling m = t.nextSibling m :=
  nextSibling_update_of n m fun _ => rfl
@[simp] theorem nextSibling_changeChildren :
    (t.changeChildren n change).nextSibling m = t.nextSibling m :=
  nextSibling_update_of n m fun _ => rfl
@[simp] theorem previousSibling_setParent :
    (t.setParent n v).previousSibling m = t.previousSibling m :=
  previousSibling_update_of n m fun _ => rfl
@[simp] theorem previousSibling_setNext : (t.setNext n v).previousSibling m = t.previousSibling m :=
  previousSibling_update_of n m fun _ => rfl
@[simp] theorem previousSibling_changeChildren :
    (t.changeChildren n change).previousSibling m = t.previousSibling m :=
  previousSibling_update_of n m fun _ => rfl
@[simp] theorem isDocument_setParent : (t.setParent n v).isDocument m = t.isDocument m :=
  isDocument_update_of n m fun _ => rfl
@[simp] theorem isDocument_setNext : (t.setNext n v).isDocument m = t.isDocument m :=
  isDocument_update_of n m fun _ => rfl
@[simp] theorem isDocument_setPrevious : (t.setPrevious n v).isDocument m = t.isDocument m :=
  isDocument_update_of n m fun _ => rfl
@[simp] theorem isDocument_changeChildren :
    (t.changeChildren n change).isDocument m = t.isDocument m :=
  isDocument_update_of n m fun _ => rfl

variable {n}

theorem parent_setParent (h : n < t.size) :
    (t.setParent n v).parent m = if m = n then v else t.parent m := by
  obtain ⟨node, hn⟩ := exists_node? h
  rw [parent, setParent, node?_update]
  by_cases hm : m = n
  · subst hm; simp [hn]
  · simp [hm, Ne.symm hm, parent]

theorem nextSibling_setNext (h : n < t.size) :
    (t.setNext n v).nextSibling m = if m = n then v else t.nextSibling m := by
  obtain ⟨node, hn⟩ := exists_node? h
  rw [nextSibling, setNext, node?_update]
  by_cases hm : m = n
  · subst hm; simp [hn]
  · simp [hm, Ne.symm hm, nextSibling]

theorem previousSibling_setPrevious (h : n < t.size) :
    (t.setPrevious n v).previousSibling m = if m = n then v else t.previousSibling m := by
  obtain ⟨node, hn⟩ := exists_node? h
  rw [previousSibling, setPrevious, node?_update]
  by_cases hm : m = n
  · subst hm; simp [hn]
  · simp [hm, Ne.symm hm, previousSibling]

theorem children_changeChildren (h : n < t.size) :
    (t.changeChildren n change).children m =
      if m = n then change (t.children n) else t.children m := by
  obtain ⟨node, hn⟩ := exists_node? h
  rw [children, changeChildren, node?_update]
  by_cases hm : m = n
  · subst hm; simp [hn, children]
  · simp [hm, Ne.symm hm, children]

end Links

section Bridge

variable {before after : Option NodeId} (n : NodeId)

@[simp] theorem parent_bridge : (t.bridge before after).parent n = t.parent n := by
  cases before <;> cases after <;> simp [bridge]

@[simp] theorem children_bridge : (t.bridge before after).children n = t.children n := by
  cases before <;> cases after <;> simp [bridge]

@[simp] theorem isDocument_bridge : (t.bridge before after).isDocument n = t.isDocument n := by
  cases before <;> cases after <;> simp [bridge]

theorem nextSibling_bridge (h : ∀ b ∈ before, b < t.size) :
    (t.bridge before after).nextSibling n = if before = some n then after else t.nextSibling n := by
  cases before with
  | none => cases after <;> simp [bridge]
  | some b =>
    have hb := h b rfl
    cases after <;> simp [bridge, nextSibling_setNext, hb, eq_comm (a := b)]

theorem previousSibling_bridge (h : ∀ a ∈ after, a < t.size) :
    (t.bridge before after).previousSibling n =
      if after = some n then before else t.previousSibling n := by
  cases after with
  | none => cases before <;> simp [bridge]
  | some a =>
    have ha := h a rfl
    cases before <;> simp [bridge, previousSibling_setPrevious, ha, eq_comm (a := a)]

end Bridge
end SelectorEngine.Tree
