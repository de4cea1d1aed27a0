import Mathlib.Data.List.Basic
import SelectorEngine.Proofs.Tree.Ancestors
import SelectorEngine.View.Document

/-! # The walks of a view

Through the outline of a linked tree the siblings of a node and the children of its parent are read
off the list of children. -/
namespace SelectorEngine

/-- The links that a view walks along agree, and every walk along them ends. -/
structure Outline.Linked {N : Type} (o : Outline N) : Prop where
  ancestors_short : ∀ n, (o.ancestors n).length < o.bound
  earlier_short : ∀ n, (o.earlierSiblings n).length < o.bound
  child_iff : ∀ p n, n ∈ o.children p ↔ o.parent n = some p
  nodup : ∀ p, (o.children p).Nodup

namespace Tree

variable {t : Tree} {p n : NodeId} {before after : List NodeId}

namespace Linked

theorem length_children_le (h : t.Linked) (p : NodeId) : (t.children p).length ≤ t.size :=
  length_le_of_nodup (h.nodup p) fun n hn => lt_size_of_parent ((h.child_iff p n).mp hn)

theorem walk_later (h : t.Linked) {k : Nat} (before : List NodeId)
    (hp : t.children p = before ++ after)
    (hk : after.length < k) : walk t.nextSibling k after.head? = after := by
  induction after generalizing before k with
  | nil => simp
  | cons n after ih =>
    obtain ⟨k, rfl⟩ : ∃ j, k = j + 1 := ⟨k - 1, by omega⟩
    rw [List.head?_cons, walk_some, h.nextSibling_eq hp,
      ih (before ++ [n]) (by simp [hp]) (by simpa using hk)]

theorem walk_earlier (h : t.Linked) {k : Nat} (hp : t.children p = before.reverse ++ after)
    (hk : before.length < k) : walk t.previousSibling k before.head? = before := by
  induction before generalizing after k with
  | nil => simp
  | cons n before ih =>
    have hn : t.children p = before.reverse ++ n :: after := by simp [hp]
    obtain ⟨k, rfl⟩ : ∃ j, k = j + 1 := ⟨k - 1, by omega⟩
    rw [List.head?_cons, walk_some, h.previousSibling_eq hn, List.getLast?_reverse,
      ih hn (by simpa using hk)]

theorem outline_children (h : t.Linked) (p : NodeId) : t.outline.children p = t.children p :=
  h.walk_later [] rfl (Nat.lt_succ_of_le (h.length_children_le p))

theorem laterSiblings_eq (h : t.Linked) (hp : t.children p = before ++ n :: after) :
    t.outline.laterSiblings n = after := by
  have hl := h.length_children_le p
  rw [hp, List.length_append, List.length_cons] at hl
  have hk : after.length < t.bound := by rw [bound]; omega
  have hw := h.walk_later (p := p) (before ++ [n]) (by simp [hp]) hk
  rwa [← h.nextSibling_eq hp] at hw

theorem earlierSiblings_eq (h : t.Linked) (hp : t.children p = before ++ n :: after) :
    t.outline.earlierSiblings n = before.reverse := by
  have hl := h.length_children_le p
  rw [hp, List.length_append, List.length_cons] at hl
  have hk : before.reverse.length < t.bound := by rw [List.length_reverse, bound]; omega
  have hp' : t.children p = before.reverse.reverse ++ n :: after := by simp [hp]
  have hw := h.walk_earlier hp' hk
  rwa [List.head?_reverse, ← h.previousSibling_eq hp] at hw

theorem earlierSiblings_top (h : t.Linked) (hn : t.parent n = none) :
    t.outline.earlierSiblings n = [] := by
  have hp : t.outline.previousSibling n = none := h.previousSibling_eq_none hn
  rw [Outline.earlierSiblings, hp, walk_none]

theorem exists_split (h : t.Linked) (hn : t.parent n = some p) :
    ∃ before after, t.children p = before ++ n :: after :=
  List.append_of_mem ((h.child_iff p n).mpr hn)

theorem mem_earlierSiblings (h : t.Linked) {a n : NodeId} :
    a ∈ t.outline.earlierSiblings n ↔ ∃ p, [a, n].Sublist (t.children p) := by
  cases hn : t.parent n with
  | none =>
    rw [h.earlierSiblings_top hn]
    simp only [List.not_mem_nil, false_iff, not_exists]
    exact fun p hp => h.not_mem_children hn (hp.subset (by simp))
  | some p =>
    obtain ⟨before, after, hp⟩ := h.exists_split hn
    rw [h.earlierSiblings_eq hp, List.mem_reverse]
    constructor
    · intro ha
      obtain ⟨x, y, rfl⟩ := List.append_of_mem ha
      exact ⟨p, pair_sublist_iff.mpr ⟨x, y, after, hp⟩⟩
    · rintro ⟨q, hq⟩
      obtain rfl := h.children_unique (hq.subset (by simp)) ((h.child_iff p n).mpr hn)
      obtain ⟨x, y, z, hs⟩ := pair_sublist_iff.mp hq
      have hd := h.nodup q
      rw [hp, List.nodup_middle, List.nodup_cons, List.mem_append, not_or] at hd
      have hx := (List.append_cons_inj_of_notMem hd.1.1 hd.1.2).mp (hp.symm.trans hs)
      simp [hx.1]

theorem outline_linked (h : t.Linked) : t.outline.Linked where
  ancestors_short := h.ancestors_short
  earlier_short n := by
    cases hn : t.parent n with
    | none => rw [h.earlierSiblings_top hn]; exact Nat.succ_pos _
    | some p =>
      obtain ⟨before, after, hp⟩ := h.exists_split hn
      have hl := h.length_children_le p
      rw [hp, List.length_append] at hl
      rw [h.earlierSiblings_eq hp, List.length_reverse]
      exact Nat.lt_succ_of_le (by omega)
  child_iff p n := by
    rw [h.outline_children]
    exact h.child_iff p n
  nodup p := by
    rw [h.outline_children]
    exact h.nodup p

end Linked
end Tree
end SelectorEngine
