import Mathlib.Logic.Relation
import SelectorEngine.Proofs.Tree.Links
import SelectorEngine.Proofs.Walk
import SelectorEngine.Tree.Traversal

/-! # The nodes above a node

In a linked tree the walk along the parents ends at a node without one, and it has met exactly the
nodes above its start. -/
namespace SelectorEngine.Tree

variable {t : Tree}

/-- The node `a` lies above `n`, one or more parents up. -/
def Above (t : Tree) : NodeId → NodeId → Prop :=
  Relation.TransGen fun parent child => t.parent child = some parent

theorem Above.parent {p n : NodeId} (h : t.parent n = some p) : t.Above p n := .single h

theorem Above.trans {a b n : NodeId} (h : t.Above a b) (k : t.Above b n) : t.Above a n :=
  Relation.TransGen.trans h k

theorem above_iff {a n : NodeId} :
    t.Above a n ↔ ∃ p, t.parent n = some p ∧ (a = p ∨ t.Above a p) := by
  constructor
  · intro h
    cases h with
    | single h => exact ⟨a, h, .inl rfl⟩
    | tail h hp => exact ⟨_, hp, .inr h⟩
  · rintro ⟨p, hp, rfl | h⟩
    · exact .parent hp
    · exact .tail h hp

theorem not_above_of_top {a n : NodeId} (h : t.parent n = none) : ¬ t.Above a n := by
  rw [above_iff, h]
  rintro ⟨p, hp, -⟩
  cases hp

namespace Linked

theorem lt_size (h : t.Linked) {p n : NodeId} (hp : t.parent n = some p) : p < t.size :=
  lt_size_of_mem_children ((h.child_iff p n).mpr hp)

theorem ancestors_short (h : t.Linked) (n : NodeId) : (t.ancestors n).length < t.bound := by
  obtain ⟨rank, hr⟩ := h.ranked
  have hp : (t.ancestors n).Pairwise fun a b => rank b < rank a :=
    walk_pairwise rank fun n p hn => hr p n hn
  have hd : (t.ancestors n).Nodup := hp.imp fun {a b} hab he => by simp [he] at hab
  have hs : ∀ m ∈ t.ancestors n, m < t.size :=
    mem_of_mem_walk (fun p hn => h.lt_size hn) fun n p hn => h.lt_size hn
  exact Nat.lt_succ_of_le (length_le_of_nodup hd hs)

theorem ancestors_top {n : NodeId} (hn : t.parent n = none) : t.ancestors n = [] := by
  simp [ancestors, hn]

theorem ancestors_parent (h : t.Linked) {n p : NodeId} (hn : t.parent n = some p) :
    t.ancestors n = p :: t.ancestors p :=
  walk_step (h.ancestors_short n) hn (h.ancestors_short p)

/-- What holds of a node whenever it holds of its parent holds of every node. -/
theorem induction_up (h : t.Linked) {P : NodeId → Prop}
    (step : ∀ n, (∀ p, t.parent n = some p → P p) → P n) (n : NodeId) : P n := by
  obtain ⟨rank, hr⟩ := h.ranked
  induction hk : rank n using Nat.strong_induction_on generalizing n with
  | _ k ih => exact step n fun p hp => ih (rank p) (hk ▸ hr p n hp) p rfl

theorem mem_ancestors (h : t.Linked) {a n : NodeId} : a ∈ t.ancestors n ↔ t.Above a n := by
  induction n using h.induction_up with
  | step n ih =>
    rw [above_iff]
    cases hn : t.parent n with
    | none => simp [ancestors_top hn]
    | some p => simp [h.ancestors_parent hn, ih p hn]

theorem isBelow_iff (h : t.Linked) {a n : NodeId} : t.isBelow n a = true ↔ t.Above a n := by
  rw [isBelow, List.contains_iff_mem, h.mem_ancestors]

theorem rank_lt {rank : NodeId → Nat} (hr : ∀ p n, t.parent n = some p → rank p < rank n)
    {a n : NodeId} (h : t.Above a n) : rank a < rank n := by
  induction h with
  | single hp => exact hr _ _ hp
  | tail _ hp ih => exact ih.trans (hr _ _ hp)

theorem not_above_self (h : t.Linked) (n : NodeId) : ¬ t.Above n n := by
  obtain ⟨rank, hr⟩ := h.ranked
  exact fun hn => absurd (rank_lt hr hn) (Nat.lt_irrefl _)

theorem above_asymm (h : t.Linked) {a n : NodeId} (ha : t.Above a n) : ¬ t.Above n a :=
  fun hn => h.not_above_self a (ha.trans hn)

theorem above_linear (h : t.Linked) {a b n : NodeId} (ha : t.Above a n) (hb : t.Above b n) :
    a = b ∨ t.Above a b ∨ t.Above b a := by
  induction n using h.induction_up with
  | step n ih =>
    obtain ⟨p, hp, ha⟩ := above_iff.mp ha
    obtain ⟨q, hq, hb⟩ := above_iff.mp hb
    obtain rfl : p = q := Option.some.inj (hp.symm.trans hq)
    rcases ha with rfl | ha <;> rcases hb with rfl | hb
    · exact .inl rfl
    · exact .inr (.inr hb)
    · exact .inr (.inl ha)
    · exact ih p hp ha hb

theorem induction_down (h : t.Linked) {P : NodeId → Prop}
    (step : ∀ n, (∀ c ∈ t.children n, P c) → P n) (n : NodeId) : P n := by
  induction hk : t.bound - (t.ancestors n).length using Nat.strong_induction_on generalizing n with
  | _ k ih =>
    refine step n fun c hc => ih _ ?_ c rfl
    have hn := h.ancestors_parent ((h.child_iff n c).mp hc)
    have hs := h.ancestors_short c
    rw [hn, List.length_cons] at hs ⊢
    omega

end Linked
end SelectorEngine.Tree
