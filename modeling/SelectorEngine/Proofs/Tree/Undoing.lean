import SelectorEngine.Proofs.Tree.Relinking

/-! # Edits that undo each other

A child that is taken out and attached again before its old next sibling leaves no trace, and
neither does a node that is attached anywhere and taken out again. -/
namespace SelectorEngine.Tree

variable {t u v w : Tree} {parent child : NodeId} {before after : List NodeId}

namespace Linked

/-- A child that is put back between its old siblings gets the old links, and so do they. -/
theorem eq_of_pruned_grafted (h : t.Linked) (g : Pruned t w parent child before after)
    (k : Grafted w v parent child before after) (same : Relinked t v) : v = t := by
  have held : t.parent child = some parent := (h.child_iff parent child).mp (by simp [g.kept])
  refine same.eq (fun p => ?children) (fun n => ?parent) (fun n => ?next) fun n => ?previous
  case children =>
    rw [k.children, g.children]
    split
    · next hp => rw [hp, g.kept]
    · rfl
  case parent =>
    rw [k.parent, g.parent]
    split
    · next hn => rw [hn, held]
    · rfl
  case next =>
    rw [k.next, g.next]
    split
    · next hn => rw [hn, h.nextSibling_eq g.kept]
    · split
      · next last => rw [h.nextSibling_of_last g.kept last, List.head?_cons]
      · rfl
  case previous =>
    rw [k.previous, g.previous]
    split
    · next hn => rw [hn, h.previousSibling_eq g.kept]
    · split
      · next first => rw [h.previousSibling_of_behind g.kept first]
      · rfl

theorem eq_of_grafted_pruned (h : t.Linked) (top : t.parent child = none)
    (g : Grafted t u parent child before after) (k : Pruned u v parent child before after)
    (same : Relinked t v) : v = t := by
  refine same.eq (fun p => ?children) (fun n => ?parent) (fun n => ?next) fun n => ?previous
  case children =>
    rw [k.children, g.children]
    split
    · next hp => rw [hp, g.kept]
    · rfl
  case parent =>
    rw [k.parent, g.parent]
    split
    · next hn => rw [hn, top]
    · rfl
  case next =>
    rw [k.next, g.next]
    split
    · next hn => rw [hn, h.nextSibling_eq_none top]
    · split
      · next last => rw [h.nextSibling_of_last g.kept last]
      · rfl
  case previous =>
    rw [k.previous, g.previous]
    split
    · next hn => rw [hn, h.previousSibling_eq_none top]
    · split
      · next first => rw [h.previousSibling_of_first g.kept first]
      · rfl

theorem pruned_of_grafted (h : u.Linked) (g : Grafted t u parent child before after)
    (hv : u.removeChild parent child = some v) : Pruned u v parent child before after := by
  have listed : u.children parent = before ++ child :: after := by rw [g.children, if_pos rfl]
  have hd := h.nodup parent
  rw [listed, List.nodup_middle, List.nodup_cons, List.mem_append, not_or] at hd
  obtain ⟨front, back, k⟩ := h.pruned_removeChild (by rw [listed]; simp) hv
  obtain ⟨rfl, -, rfl⟩ :=
    (List.append_cons_inj_of_notMem hd.1.1 hd.1.2).mp (listed.symm.trans k.kept)
  exact k

end Linked

namespace WellBuilt

theorem put_back (built : t.WellBuilt) (hc : child ∈ t.children parent) :
    (t.removeChild parent child).bind (·.attachBefore parent child (t.nextSibling child)) =
      some t := by
  have h := built.linked
  have hp : parent < t.size := lt_size_of_mem_children hc
  have held : t.parent child = some parent := (h.child_iff parent child).mp hc
  have apart : ¬ t.Above child parent := h.above_asymm (.parent held)
  have hne : child ≠ parent := fun he => h.not_above_self parent (.parent (he ▸ held))
  have hroot : child ≠ root := by
    rintro rfl
    rw [h.root_top] at held
    cases held
  obtain ⟨w, hw⟩ := removeChild_isSome hp child
  obtain ⟨before, after, g⟩ := h.pruned_removeChild hc hw
  have same := Relinked.of_removeChild hw
  have h' := h.linked_of_pruned g
  have ok : w.Attachable parent child := h'.attachable_of_parent g.parent hroot hne apart
  obtain ⟨v, hv⟩ := attachBefore_isSome (same.size ▸ hp)
    (same.size ▸ lt_size_of_parent held) (t.nextSibling child)
  have k := h'.grafted_attachBefore ok hv
  -- The old next sibling marks the cut between the children that are left.
  have hd := h'.nodup parent
  rw [g.children, if_pos rfl] at k hd
  rw [h.nextSibling_eq g.kept, (cut_at_head hd).1, (cut_at_head hd).2] at k
  rw [hw, Option.bind_some, hv, h.eq_of_pruned_grafted g k (same.trans (.of_attachBefore hv))]

theorem taken_out (built : t.WellBuilt) (hp : parent < t.size) (hc : child < t.size)
    (ok : t.Attachable parent child) (place : Option NodeId) :
    (t.attachBefore parent child place).bind (·.removeChild parent child) = some t := by
  have h := built.linked
  obtain ⟨u, hu⟩ := attachBefore_isSome hp hc place
  have same := Relinked.of_attachBefore hu
  have g := h.grafted_attachBefore ok hu
  obtain ⟨v, hv⟩ := removeChild_isSome (same.size ▸ hp) child
  have k := (built.attachBefore ok hu).linked.pruned_of_grafted g hv
  rw [hu, Option.bind_some, hv, h.eq_of_grafted_pruned ok.2.1 g k (same.trans (.of_removeChild hv))]

end WellBuilt

/-- Taking a child out and attaching it again before its old next sibling, or as the last child
where it had none, gives the same tree. So does attaching a detached node anywhere and taking it
out. -/
theorem edits_undone (built : t.WellBuilt) (p c : NodeId) :
    (c ∈ t.children p →
      (t.removeChild p c).bind (·.attachBefore p c (t.nextSibling c)) = some t) ∧
    (p < t.size → c < t.size → t.Attachable p c → ∀ place : Option NodeId,
      (t.attachBefore p c place).bind (·.removeChild p c) = some t) := by
  constructor
  · intro hc
    exact built.put_back hc
  · intro hp hc ok place
    exact built.taken_out hp hc ok place

def groceries : Tree :=
  ((Blueprint.build { children := [.element "ul" [] [.element "li" [] [], .text "and",
    .element "li" [] []]] }).alloc (.element "li" [])).2

theorem wellBuilt_groceries : groceries.WellBuilt := .alloc _ (Blueprint.wellBuilt_build _)

theorem edits_undone_groceries :
    (groceries.removeChild 1 3).bind (·.attachBefore 1 3 (groceries.nextSibling 3)) =
        some groceries ∧
      (groceries.attachBefore 1 5 (some 4)).bind (·.removeChild 1 5) = some groceries :=
  ⟨(edits_undone wellBuilt_groceries 1 3).1 (by decide),
    (edits_undone wellBuilt_groceries 1 5).2 (by decide) (by decide) (by decide) (some 4)⟩

end SelectorEngine.Tree
