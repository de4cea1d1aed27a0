import Mathlib.Data.List.Infix
import SelectorEngine.Proofs.Tree.Edits

/-! # Trees whose links agree

The parents, the lists of children and the links between siblings tell the same story, and no node
is above itself. -/
namespace SelectorEngine

section Pairs

variable {α : Type} {a b c : α} {l r : List α}

theorem infix_pair_cons : [a, b] <:+: c :: l ↔ (a = c ∧ l.head? = some b) ∨ [a, b] <:+: l := by
  rw [List.infix_cons_iff, List.cons_prefix_cons]
  cases l with
  | nil => simp
  | cons d l => simp [List.cons_prefix_cons, eq_comm (a := b)]

theorem infix_pair_append :
    [a, b] <:+: l ++ r ↔
      [a, b] <:+: l ∨ [a, b] <:+: r ∨ (l.getLast? = some a ∧ r.head? = some b) := by
  induction l with
  | nil => simp
  | cons x l ih =>
    rw [List.cons_append, infix_pair_cons, ih, infix_pair_cons]
    cases l with
    | nil => simp [eq_comm (a := a), or_comm]
    | cons y l => simp [List.getLast?_cons_cons, or_assoc]

theorem mem_of_infix_pair (h : [a, b] <:+: l) : a ∈ l ∧ b ∈ l :=
  ⟨h.mem (by simp), h.mem (by simp)⟩

theorem infix_pair_iff_head (h : (l ++ a :: r).Nodup) :
    [a, b] <:+: l ++ a :: r ↔ r.head? = some b := by
  rw [infix_pair_append, infix_pair_cons]
  constructor
  · rintro (hl | (hr | hr) | hl)
    · exact absurd (mem_of_infix_pair hl).1 (by grind)
    · exact hr.2
    · exact absurd (mem_of_infix_pair hr).1 (by grind)
    · exact absurd (List.mem_of_getLast? hl.1) (by grind)
  · exact fun hr => .inr (.inl (.inl ⟨rfl, hr⟩))

theorem infix_pair_iff_last (h : (l ++ b :: r).Nodup) :
    [a, b] <:+: l ++ b :: r ↔ l.getLast? = some a := by
  rw [infix_pair_append, infix_pair_cons]
  constructor
  · rintro (hl | (hr | hr) | hl)
    · exact absurd (mem_of_infix_pair hl).2 (by grind)
    · exact absurd (List.mem_of_head? hr.2) (by grind)
    · exact absurd (mem_of_infix_pair hr).2 (by grind)
    · exact hl.1
  · exact fun hl => .inr (.inr ⟨hl, rfl⟩)

theorem idxOf?_append_cons [DecidableEq α] (h : a ∉ l) :
    (l ++ a :: r).idxOf? a = some l.length := by
  induction l with
  | nil => simp [List.idxOf?_cons]
  | cons x l ih =>
    rw [List.mem_cons, not_or] at h
    simp [List.idxOf?_cons, Ne.symm h.1, ih h.2]

theorem pair_sublist_iff : [a, b].Sublist l ↔ ∃ x y z, l = x ++ a :: y ++ b :: z := by
  constructor
  · intro h
    obtain ⟨l₁, l₂, rfl, ha, hb⟩ := List.cons_sublist_iff.mp h
    obtain ⟨x, y, rfl⟩ := List.append_of_mem ha
    obtain ⟨y', z, rfl⟩ := List.append_of_mem (List.singleton_sublist.mp hb)
    exact ⟨x, y ++ y', z, by simp⟩
  · rintro ⟨x, y, z, rfl⟩
    rw [List.append_assoc, List.cons_append]
    exact ((List.singleton_sublist.mpr (by simp)).cons_cons a).trans (List.sublist_append_right x _)

end Pairs

namespace Tree

variable {t : Tree}

structure Linked (t : Tree) : Prop where
  root_document : t.isDocument root = true
  root_top : t.parent root = none
  child_iff : ∀ p n, n ∈ t.children p ↔ t.parent n = some p
  nodup : ∀ p, (t.children p).Nodup
  next_iff : ∀ a b, t.nextSibling a = some b ↔ ∃ p, [a, b] <:+: t.children p
  previous_iff : ∀ a b, t.previousSibling b = some a ↔ ∃ p, [a, b] <:+: t.children p
  ranked : ∃ rank : NodeId → Nat, ∀ p n, t.parent n = some p → rank p < rank n

namespace Linked

theorem not_mem_children (h : t.Linked) {p n : NodeId} (hn : t.parent n = none) :
    n ∉ t.children p := by
  simp [h.child_iff, hn]

theorem nextSibling_eq_none (h : t.Linked) {n : NodeId} (hn : t.parent n = none) :
    t.nextSibling n = none := by
  rw [Option.eq_none_iff_forall_ne_some]
  intro b hb
  obtain ⟨p, hp⟩ := (h.next_iff n b).mp hb
  exact h.not_mem_children hn (mem_of_infix_pair hp).1

theorem previousSibling_eq_none (h : t.Linked) {n : NodeId} (hn : t.parent n = none) :
    t.previousSibling n = none := by
  rw [Option.eq_none_iff_forall_ne_some]
  intro a ha
  obtain ⟨p, hp⟩ := (h.previous_iff a n).mp ha
  exact h.not_mem_children hn (mem_of_infix_pair hp).2

theorem children_unique (h : t.Linked) {p q n : NodeId} (hp : n ∈ t.children p)
    (hq : n ∈ t.children q) : p = q := by
  rw [h.child_iff] at hp hq
  exact Option.some.inj (hp.symm.trans hq)

theorem nextSibling_eq (h : t.Linked) {p n : NodeId} {before after : List NodeId}
    (hp : t.children p = before ++ n :: after) : t.nextSibling n = after.head? := by
  have hn : n ∈ t.children p := by simp [hp]
  ext b
  rw [h.next_iff, ← infix_pair_iff_head (hp ▸ h.nodup p), ← hp]
  constructor
  · rintro ⟨q, hq⟩
    rwa [h.children_unique hn (mem_of_infix_pair hq).1]
  · exact fun hb => ⟨p, hb⟩

theorem previousSibling_eq (h : t.Linked) {p n : NodeId} {before after : List NodeId}
    (hp : t.children p = before ++ n :: after) : t.previousSibling n = before.getLast? := by
  have hn : n ∈ t.children p := by simp [hp]
  ext a
  rw [h.previous_iff, ← infix_pair_iff_last (hp ▸ h.nodup p), ← hp]
  constructor
  · rintro ⟨q, hq⟩
    rwa [h.children_unique hn (mem_of_infix_pair hq).2]
  · exact fun ha => ⟨p, ha⟩

end Linked
end Tree
end SelectorEngine
