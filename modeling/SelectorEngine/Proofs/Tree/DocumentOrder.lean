import Mathlib.Data.List.Basic
import SelectorEngine.Proofs.Tree.Preorder
import SelectorEngine.Tree.Placement

/-! # Document order

One node precedes another when the other is placed behind it. In a linked tree this is a strict
total order of all nodes, and the walk through everything below a node follows it. -/
namespace SelectorEngine.Tree

variable {t : Tree} {a b c n p : NodeId}

def Precedes (t : Tree) (a b : NodeId) : Prop := (t.placement a b).following = true

instance (t : Tree) (a b : NodeId) : Decidable (t.Precedes a b) :=
  inferInstanceAs (Decidable (_ = _))

theorem not_precedes_self (t : Tree) (n : NodeId) : ¬ t.Precedes n n := by
  simp [Precedes, placement]

theorem path_top (hn : t.parent n = none) : t.path n = [n] := by
  simp [path, Linked.ancestors_top hn]

theorem path_ne_nil (t : Tree) (n : NodeId) : t.path n ≠ [] := by simp [path]

theorem getLast_path (t : Tree) (n : NodeId) : (t.path n).getLast? = some n := by simp [path]

theorem path_injective (h : t.path a = t.path b) : a = b := by
  have hl := congrArg List.getLast? h
  rwa [getLast_path, getLast_path, Option.some.injEq] at hl

theorem Linked.path_parent (h : t.Linked) (hn : t.parent n = some p) :
    t.path n = t.path p ++ [n] := by
  simp [path, h.ancestors_parent hn]

theorem Linked.path_below (h : t.Linked) (ha : t.Above a n) :
    ∃ m rest, t.path n = t.path a ++ m :: rest := by
  induction ha with
  | single hp => exact ⟨_, [], h.path_parent hp⟩
  | tail _ hp ih =>
    obtain ⟨m, rest, ih⟩ := ih
    exact ⟨m, rest ++ [_], by rw [h.path_parent hp, ih, List.append_assoc, List.cons_append]⟩

theorem placementBelow_append (t : Tree) (p q : NodeId) (l xs ys : List NodeId) :
    t.placementBelow q (l ++ p :: xs) (l ++ p :: ys) = t.placementBelow p xs ys := by
  induction l generalizing q with
  | nil => simp [placementBelow]
  | cons x l ih => simp [placementBelow, ih]

theorem placement_of_path (hne : a ≠ b) {l xs ys : List NodeId} (ha : t.path a = l ++ p :: xs)
    (hb : t.path b = l ++ p :: ys) : t.placement a b = t.placementBelow p xs ys := by
  rw [placement, if_neg hne, ha, hb]
  cases l with
  | nil => simp
  | cons x l => simp [placementBelow_append]

theorem childBefore_of_sublist {children : List NodeId} (hd : children.Nodup)
    (h : [a, b].Sublist children) : childBefore children a b = true := by
  obtain ⟨x, y, z, rfl⟩ := pair_sublist_iff.mp h
  have ha : a ∉ x := by grind
  have hb : b ∉ x ++ a :: y := by grind
  rw [childBefore, idxOf?_append_cons hb, List.append_assoc, List.cons_append,
    idxOf?_append_cons ha]
  simp

theorem childBefore_asymm {children : List NodeId} (h : childBefore children a b = true) :
    childBefore children b a = false := by
  unfold childBefore at *
  cases ha : children.idxOf? a <;> cases hb : children.idxOf? b <;> simp_all
  omega

theorem placementBelow_asymm {ours theirs : List NodeId} (hne : ours ≠ theirs)
    (h : (t.placementBelow p ours theirs).following = true) :
    (t.placementBelow p theirs ours).following = false := by
  induction ours generalizing p theirs with
  | nil =>
    cases theirs with
    | nil => exact absurd rfl hne
    | cons y ys => rfl
  | cons x xs ih =>
    cases theirs with
    | nil => cases h
    | cons y ys =>
      simp only [placementBelow] at h ⊢
      by_cases he : x = y
      · subst he
        rw [if_pos rfl] at h ⊢
        exact ih (fun e => hne (by rw [e])) h
      · rw [if_neg he] at h
        rw [if_neg (Ne.symm he)]
        by_cases hb : childBefore (t.children p) x y = true
        · rw [childBefore_asymm hb]
          rfl
        · rw [if_neg hb] at h
          cases h

namespace Linked

theorem precedes_below (h : t.Linked) (ha : t.Above a n) : t.Precedes a n := by
  obtain ⟨m, rest, hp⟩ := h.path_below ha
  have hne : a ≠ n := fun e => h.not_above_self n (e ▸ ha)
  have hl : t.path a = (t.ancestors a).reverse ++ [a] := rfl
  have hn : t.path n = (t.ancestors a).reverse ++ a :: m :: rest := by rw [hp, hl]; simp
  rw [Precedes, placement_of_path hne hl hn]
  rfl

theorem path_inside (h : t.Linked) {c x : NodeId} (hc : t.parent c = some p)
    (hx : x = c ∨ t.Above c x) : ∃ rest, t.path x = (t.ancestors p).reverse ++ p :: c :: rest := by
  have hpath := h.path_parent hc
  rw [path] at hpath
  rcases hx with rfl | hx
  · exact ⟨[], by rw [path, hpath, path]; simp⟩
  · obtain ⟨m, rest, hm⟩ := h.path_below hx
    exact ⟨m :: rest, by rw [hm, path, hpath, path]; simp⟩

theorem precedes_of_children (h : t.Linked) {c d x y : NodeId} (hs : [c, d].Sublist (t.children p))
    (hx : x = c ∨ t.Above c x) (hy : y = d ∨ t.Above d y) : t.Precedes x y := by
  have hc := (h.child_iff p c).mp (hs.subset (by simp))
  have hd := (h.child_iff p d).mp (hs.subset (by simp))
  have hne : c ≠ d := List.pairwise_iff_forall_sublist.mp (h.nodup p) hs
  obtain ⟨xs, hxs⟩ := h.path_inside hc hx
  obtain ⟨ys, hys⟩ := h.path_inside hd hy
  have hxy : x ≠ y := fun e => h.not_above_two_children hc hd hne hx (e ▸ hy)
  rw [Precedes, placement_of_path hxy hxs hys, placementBelow, if_neg hne,
    if_pos (childBefore_of_sublist (h.nodup p) hs)]

theorem pairwise_preorder (h : t.Linked) (n : NodeId) : (t.preorder n).Pairwise t.Precedes := by
  induction n using h.induction_down with
  | step n ih =>
    rw [h.preorder_eq, List.pairwise_flatMap]
    constructor
    · intro c hc
      exact .cons (fun m hm => h.precedes_below (h.mem_preorder.mp hm)) (ih c hc)
    · refine List.pairwise_iff_forall_sublist.mpr fun {c d} hs x hx y hy => ?_
      rw [List.mem_cons, h.mem_preorder] at hx hy
      exact h.precedes_of_children hs hx hy

theorem pairwise_descendants (h : t.Linked) (n : NodeId) : (t.descendants n).Pairwise t.Precedes :=
  h.descendants_eq n ▸ h.pairwise_preorder n

end Linked

/-- The topmost node above a node, or the node itself. -/
def top (t : Tree) (n : NodeId) : NodeId := (t.path n).headD n

theorem path_eq_top_cons (t : Tree) (n : NodeId) : t.path n = t.top n :: (t.path n).tail := by
  unfold top
  cases hp : t.path n with
  | nil => exact absurd hp (t.path_ne_nil n)
  | cons m rest => rfl

theorem precedes_of_top_lt (h : t.top a < t.top b) : t.Precedes a b := by
  have hne : a ≠ b := by
    rintro rfl
    exact Nat.lt_irrefl _ h
  rw [Precedes, placement, if_neg hne, path_eq_top_cons t a, path_eq_top_cons t b]
  simp [h, h.ne]

theorem precedes_iff (hne : a ≠ b) (ht : t.top a = t.top b) :
    t.Precedes a b ↔
      (t.placementBelow (t.top a) (t.path a).tail (t.path b).tail).following = true := by
  have hb := path_eq_top_cons t b
  rw [← ht] at hb
  rw [Precedes, placement_of_path hne (l := []) (path_eq_top_cons t a) hb]

theorem top_le_of_precedes (h : t.Precedes a b) : t.top a ≤ t.top b := by
  by_contra hlt
  have hne : a ≠ b := by
    rintro rfl
    exact hlt (Nat.le_refl _)
  have hlt := Nat.lt_of_not_le hlt
  rw [Precedes, placement, if_neg hne, path_eq_top_cons t a, path_eq_top_cons t b] at h
  simp [hlt.ne', Nat.lt_asymm hlt] at h

theorem precedes_asymm (h : t.Precedes a b) : ¬ t.Precedes b a := by
  intro k
  have ht : t.top a = t.top b := Nat.le_antisymm (top_le_of_precedes h) (top_le_of_precedes k)
  have hne : a ≠ b := by
    rintro rfl
    exact t.not_precedes_self a h
  have htail : (t.path a).tail ≠ (t.path b).tail := fun e =>
    hne (path_injective (by rw [path_eq_top_cons t a, path_eq_top_cons t b, ht, e]))
  rw [precedes_iff hne ht] at h
  rw [precedes_iff hne.symm ht.symm, ← ht, placementBelow_asymm htail h] at k
  cases k

theorem idxOf_lt_iff {L : List NodeId} (hp : L.Pairwise t.Precedes) (ha : a ∈ L) (hb : b ∈ L) :
    t.Precedes a b ↔ L.idxOf a < L.idxOf b := by
  have hi := List.idxOf_lt_length_of_mem ha
  have hj := List.idxOf_lt_length_of_mem hb
  have at_index := List.pairwise_iff_getElem.mp hp
  constructor
  · intro h
    by_contra hlt
    rcases Nat.lt_or_eq_of_le (Nat.le_of_not_lt hlt) with hji | he
    · have k := at_index _ _ hj hi hji
      rw [List.getElem_idxOf, List.getElem_idxOf] at k
      exact precedes_asymm h k
    · rw [List.idxOf_inj hb] at he
      exact t.not_precedes_self b (he ▸ h)
  · intro hlt
    have k := at_index _ _ hi hj hlt
    rwa [List.getElem_idxOf, List.getElem_idxOf] at k

namespace Linked

theorem top_parent (h : t.Linked) (hn : t.parent n = some p) : t.top n = t.top p := by
  rw [top, h.path_parent hn, top, path_eq_top_cons t p]
  rfl

theorem top_above (h : t.Linked) (n : NodeId) : n = t.top n ∨ t.Above (t.top n) n := by
  induction n using h.induction_up with
  | step n ih =>
    cases hn : t.parent n with
    | none =>
      refine .inl ?_
      rw [top, path_top hn]
      rfl
    | some p =>
      rw [h.top_parent hn, above_iff]
      exact .inr ⟨p, hn, (ih p hn).imp Eq.symm id⟩

theorem pairwise_whole (h : t.Linked) (n : NodeId) : (n :: t.preorder n).Pairwise t.Precedes :=
  .cons (fun _ hm => h.precedes_below (h.mem_preorder.mp hm)) (h.pairwise_preorder n)

theorem mem_whole (h : t.Linked) (n : NodeId) : n ∈ t.top n :: t.preorder (t.top n) := by
  rw [List.mem_cons, h.mem_preorder]
  exact h.top_above n

theorem precedes_total (h : t.Linked) (hne : a ≠ b) : t.Precedes a b ∨ t.Precedes b a := by
  rcases Nat.lt_trichotomy (t.top a) (t.top b) with hlt | ht | hlt
  · exact .inl (precedes_of_top_lt hlt)
  · have hb := h.mem_whole b
    rw [← ht] at hb
    have hp := (h.pairwise_whole (t.top a)).imp
      fun {x y} hxy => (.inl hxy : t.Precedes x y ∨ t.Precedes y x)
    have : Std.Symm fun x y => t.Precedes x y ∨ t.Precedes y x := ⟨fun _ _ => Or.symm⟩
    exact hp.forall (h.mem_whole a) hb hne
  · exact .inr (precedes_of_top_lt hlt)

theorem precedes_trans (h : t.Linked) (hab : t.Precedes a b) (hbc : t.Precedes b c) :
    t.Precedes a c := by
  have htab := top_le_of_precedes hab
  have htbc := top_le_of_precedes hbc
  rcases Nat.lt_or_eq_of_le (htab.trans htbc) with hlt | he
  · exact precedes_of_top_lt hlt
  · have ha := h.mem_whole a
    have hb := h.mem_whole b
    have hc := h.mem_whole c
    rw [← he] at hc
    rw [show t.top b = t.top a from Nat.le_antisymm (htbc.trans he.ge) htab] at hb
    have hp := h.pairwise_whole (t.top a)
    rw [idxOf_lt_iff hp ha hb] at hab
    rw [idxOf_lt_iff hp hb hc] at hbc
    exact (idxOf_lt_iff hp ha hc).mpr (hab.trans hbc)

/-- Two lists in document order are the same if they have the same nodes. -/
theorem eq_of_precedes {xs ys : List NodeId} (hx : xs.Pairwise t.Precedes)
    (hy : ys.Pairwise t.Precedes) (hm : ∀ n, n ∈ xs ↔ n ∈ ys) : xs = ys := by
  have nodup : ∀ {l : List NodeId}, l.Pairwise t.Precedes → l.Nodup := fun hl =>
    hl.imp fun {a b} (hab : t.Precedes a b) (he : a = b) => t.not_precedes_self b (he ▸ hab)
  exact List.Perm.eq_of_pairwise (fun _ _ _ _ hab hba => absurd hba (precedes_asymm hab)) hx hy
    ((List.perm_ext_iff_of_nodup (nodup hx) (nodup hy)).mpr hm)

end Linked

theorem sublist_of_precedes {xs ys : List NodeId} (hx : xs.Pairwise t.Precedes)
    (hy : ys.Pairwise t.Precedes) (hm : ∀ n ∈ xs, n ∈ ys) : xs.Sublist ys := by
  have he : xs = ys.filter (· ∈ xs) := by
    refine Linked.eq_of_precedes hx (hy.filter _) fun n => ?_
    rw [List.mem_filter, decide_eq_true_iff]
    exact ⟨fun hn => ⟨hm n hn, hn⟩, And.right⟩
  rw [he]
  exact List.filter_sublist

end SelectorEngine.Tree
