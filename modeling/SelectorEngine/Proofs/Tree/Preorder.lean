import SelectorEngine.Proofs.Tree.Ancestors

/-! # The nodes below a node

The walk through everything below a node meets each child and then what lies below that child. So
it lists the nodes below its scope, each of them once. -/
namespace SelectorEngine.Tree

variable {t : Tree}

def subtree (t : Tree) : (depth : Nat) → NodeId → List NodeId
  | 0, _ => []
  | depth + 1, n => (t.children n).flatMap fun c => c :: t.subtree depth c

def preorder (t : Tree) (n : NodeId) : List NodeId := t.subtree t.size n

/-- Where a walk below `scope` goes on after everything below `n`. -/
def following (t : Tree) (scope n : NodeId) : Option NodeId :=
  ((n :: t.ancestors n).takeWhile (· ≠ scope)).findSome? t.nextSibling

theorem above_iff_child {a n : NodeId} :
    t.Above a n ↔ ∃ c, t.parent c = some a ∧ (n = c ∨ t.Above c n) := by
  constructor
  · intro h
    induction h with
    | single h => exact ⟨_, h, .inl rfl⟩
    | tail _ hp ih =>
      obtain ⟨c, hc, rfl | h⟩ := ih
      · exact ⟨_, hc, .inr (.parent hp)⟩
      · exact ⟨c, hc, .inr (h.tail hp)⟩
  · rintro ⟨c, hc, rfl | h⟩
    · exact .parent hc
    · exact (Above.parent hc).trans h

theorem Above.lt_size {a n : NodeId} (h : t.Above a n) : n < t.size := by
  obtain ⟨p, hp, -⟩ := above_iff.mp h
  exact lt_size_of_parent hp

namespace Linked

theorem length_ancestors_child (h : t.Linked) {c n : NodeId} (hc : c ∈ t.children n) :
    (t.ancestors c).length = (t.ancestors n).length + 1 := by
  rw [h.ancestors_parent ((h.child_iff n c).mp hc), List.length_cons]

theorem subtree_succ (h : t.Linked) {depth : Nat} {n : NodeId}
    (hd : t.size ≤ depth + (t.ancestors n).length) :
    t.subtree (depth + 1) n = t.subtree depth n := by
  induction depth generalizing n with
  | zero =>
    have hn : t.children n = [] := List.eq_nil_iff_forall_not_mem.mpr fun c hc => by
      have hl := h.length_ancestors_child hc
      have hs := Nat.le_of_lt_succ (h.ancestors_short c)
      omega
    simp [subtree, hn]
  | succ depth ih =>
    rw [subtree, subtree]
    refine List.flatMap_congr fun c hc => ?_
    rw [ih (by have hl := h.length_ancestors_child hc; omega)]

theorem preorder_eq (h : t.Linked) (n : NodeId) :
    t.preorder n = (t.children n).flatMap fun c => c :: t.preorder c := by
  rw [preorder, ← h.subtree_succ (Nat.le_add_right _ _), subtree]
  rfl

theorem mem_preorder (h : t.Linked) {a n : NodeId} : n ∈ t.preorder a ↔ t.Above a n := by
  induction a using h.induction_down generalizing n with
  | step a ih =>
    rw [h.preorder_eq, List.mem_flatMap, above_iff_child]
    refine exists_congr fun c => ?_
    rw [h.child_iff, List.mem_cons]
    refine and_congr_right fun hc => ?_
    rw [ih c ((h.child_iff a c).mpr hc)]

theorem not_above_two_children (h : t.Linked) {p c d n : NodeId} (hc : t.parent c = some p)
    (hd : t.parent d = some p) (hne : c ≠ d) (hcn : n = c ∨ t.Above c n) :
    ¬ (n = d ∨ t.Above d n) := by
  have apart : ∀ {x y : NodeId}, t.parent x = some p → t.parent y = some p → ¬ t.Above x y := by
    intro x y hx hy hxy
    obtain ⟨q, hq, hxq⟩ := above_iff.mp hxy
    obtain rfl : p = q := Option.some.inj (hy.symm.trans hq)
    have hpx := Above.parent hx
    rcases hxq with rfl | hxq
    · exact h.not_above_self _ hpx
    · exact h.above_asymm hpx hxq
  rintro (rfl | hdn)
  · rcases hcn with rfl | hcn
    · exact hne rfl
    · exact apart hc hd hcn
  · rcases hcn with rfl | hcn
    · exact apart hd hc hdn
    · rcases h.above_linear hcn hdn with he | hcd | hdc
      · exact hne he
      · exact apart hc hd hcd
      · exact apart hd hc hdc

theorem nodup_preorder (h : t.Linked) (n : NodeId) : (t.preorder n).Nodup := by
  induction n using h.induction_down with
  | step n ih =>
    rw [h.preorder_eq, List.nodup_flatMap]
    refine ⟨fun c hc => List.nodup_cons.mpr ⟨?_, ih c hc⟩, ?_⟩
    · rw [h.mem_preorder]
      exact h.not_above_self c
    · refine (h.nodup n).imp_of_mem fun {c d} hc hd hne => ?_
      rw [h.child_iff] at hc hd
      intro x hxc hxd
      rw [List.mem_cons, h.mem_preorder] at hxc hxd
      exact h.not_above_two_children hc hd hne hxc hxd

theorem length_preorder_le (h : t.Linked) (n : NodeId) : (t.preorder n).length ≤ t.size :=
  length_le_of_nodup (h.nodup_preorder n) fun _ hm => Above.lt_size (h.mem_preorder.mp hm)

theorem following_scope (scope : NodeId) : t.following scope scope = none := by
  simp [following]

theorem following_child (h : t.Linked) {scope p n : NodeId} {before after : List NodeId}
    (hne : n ≠ scope) (hp : t.children p = before ++ n :: after) :
    t.following scope n = after.head?.or (t.following scope p) := by
  have hn : t.parent n = some p := (h.child_iff p n).mp (by simp [hp])
  rw [following, List.takeWhile_cons_of_pos (by simpa using hne), List.findSome?_cons,
    h.nextSibling_eq hp, h.ancestors_parent hn]
  cases after.head? <;> rfl

theorem walk_preorder (h : t.Linked) {scope n : NodeId} (hs : n = scope ∨ t.Above scope n)
    (k : Nat) :
    walk (t.successor scope) ((t.preorder n).length + k) (t.successor scope n) =
      t.preorder n ++ walk (t.successor scope) k (t.following scope n) := by
  induction n using h.induction_down generalizing k with
  | step n ih =>
    have inner : ∀ c ∈ t.children n, c ≠ scope ∧ t.Above scope c := fun c hc => by
      have hp := Above.parent ((h.child_iff n c).mp hc)
      have ha : t.Above scope c := hs.elim (fun e => e ▸ hp) fun ha => ha.trans hp
      exact ⟨fun e => h.not_above_self c (e ▸ ha), ha⟩
    -- The children that are left are walked one after the other.
    have rest : ∀ after before, t.children n = before ++ after → ∀ k,
        walk (t.successor scope) ((after.flatMap fun c => c :: t.preorder c).length + k)
            (after.head?.or (t.following scope n)) =
          (after.flatMap fun c => c :: t.preorder c) ++
            walk (t.successor scope) k (t.following scope n) := by
      intro after
      induction after with
      | nil => intro before _ k; simp
      | cons c after iha =>
        intro before hp k
        have hc : c ∈ t.children n := by simp [hp]
        obtain ⟨hne, ha⟩ := inner c hc
        have hk : ((c :: after).flatMap fun c => c :: t.preorder c).length + k =
            (t.preorder c).length +
              ((after.flatMap fun c => c :: t.preorder c).length + k) + 1 := by
          simp only [List.flatMap_cons, List.length_append, List.length_cons]
          omega
        rw [hk, List.head?_cons, Option.some_or, walk_some, ih c hc (.inr ha),
          h.following_child hne hp, iha (before ++ [c]) (by simp [hp])]
        simp
    have hn : t.successor scope n = (t.children n).head?.or (t.following scope n) := by
      rw [successor, firstChild]
      cases (t.children n).head? <;> rfl
    rw [hn, h.preorder_eq n]
    exact rest (t.children n) [] rfl k

theorem descendants_eq (h : t.Linked) (n : NodeId) : t.descendants n = t.preorder n := by
  have hk : t.bound = (t.preorder n).length + (t.bound - (t.preorder n).length) := by
    have := h.length_preorder_le n
    rw [bound]
    omega
  have hn : t.successor n n = t.firstChild n := by
    have hf := following_scope (t := t) n
    rw [following] at hf
    rw [successor, hf]
    cases t.firstChild n <;> rfl
  have hw := h.walk_preorder (.inl (Eq.refl n)) (t.bound - (t.preorder n).length)
  rwa [← hk, hn, following_scope, walk_none, List.append_nil] at hw

theorem mem_descendants (h : t.Linked) {a n : NodeId} : n ∈ t.descendants a ↔ t.Above a n := by
  rw [h.descendants_eq, h.mem_preorder]

end Linked
end SelectorEngine.Tree
