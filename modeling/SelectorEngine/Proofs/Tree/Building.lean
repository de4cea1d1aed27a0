import SelectorEngine.Proofs.Tree.Ancestors

/-! # Well-built trees

A tree is well built when each edit attached only a detached node other than the document, and never
below itself. Every such tree is linked. -/
namespace SelectorEngine.Tree

variable {t u : Tree}

/-- A node may be attached to `parent` if it is detached, not the document, and not above it. -/
def Attachable (t : Tree) (parent child : NodeId) : Prop :=
  child ≠ root ∧ t.parent child = none ∧ child ≠ parent ∧ t.isBelow parent child = false

instance (t : Tree) (parent child : NodeId) : Decidable (t.Attachable parent child) :=
  inferInstanceAs (Decidable (_ ≠ _ ∧ _ = _ ∧ _ ≠ _ ∧ _ = _))

inductive WellBuilt : Tree → Prop where
  | empty (kind : DocumentKind) : WellBuilt (Tree.empty kind)
  | alloc {t : Tree} (kind : NodeKind) : WellBuilt t → WellBuilt (t.alloc kind).2
  | append {t u : Tree} {parent kind n} : WellBuilt t → parent < t.size →
      t.append parent kind = some (n, u) → WellBuilt u
  | appendChild {t u : Tree} {parent child} : WellBuilt t → t.Attachable parent child →
      t.appendChild parent child = some u → WellBuilt u
  | insertBefore {t u : Tree} {parent child reference} : WellBuilt t → t.Attachable parent child →
      t.insertBefore parent child reference = some u → WellBuilt u
  | removeChild {t u : Tree} {parent child} : WellBuilt t →
      t.removeChild parent child = some u → WellBuilt u
  | focus {t : Tree} (n : Option NodeId) : WellBuilt t → WellBuilt (t.focus n)

/-- The tree `u` is the tree `t` with `child` put between `before` and `after`, wherever else the
links of `child` lead. -/
structure Spliced (t u : Tree) (parent child : NodeId) (before after : List NodeId) : Prop where
  children : ∀ p, u.children p = if p = parent then before ++ child :: after else t.children p
  parent : ∀ n, u.parent n = if n = child then some parent else t.parent n
  last : ∀ n, before.getLast? = some n → u.nextSibling n = some child
  next : ∀ n, n ≠ child → before.getLast? ≠ some n → u.nextSibling n = t.nextSibling n
  first : ∀ n, n ≠ child → after.head? = some n → u.previousSibling n = some child
  previous : ∀ n, n ≠ child → after.head? ≠ some n → u.previousSibling n = t.previousSibling n

/-- The tree `u` is the tree `t` with `child` put below `parent`, between `before` and `after`. -/
structure Grafted (t u : Tree) (parent child : NodeId) (before after : List NodeId) : Prop where
  kept : t.children parent = before ++ after
  children : ∀ p, u.children p = if p = parent then before ++ child :: after else t.children p
  parent : ∀ n, u.parent n = if n = child then some parent else t.parent n
  next : ∀ n, u.nextSibling n =
    if n = child then after.head? else if before.getLast? = some n then some child
      else t.nextSibling n
  previous : ∀ n, u.previousSibling n =
    if n = child then before.getLast? else if after.head? = some n then some child
      else t.previousSibling n
  document : u.isDocument root = t.isDocument root

structure Pruned (t u : Tree) (parent child : NodeId) (before after : List NodeId) : Prop where
  kept : t.children parent = before ++ child :: after
  children : ∀ p, u.children p = if p = parent then before ++ after else t.children p
  parent : ∀ n, u.parent n = if n = child then none else t.parent n
  next : ∀ n, u.nextSibling n =
    if n = child then none else if before.getLast? = some n then after.head? else t.nextSibling n
  previous : ∀ n, u.previousSibling n =
    if n = child then none else if after.head? = some n then before.getLast?
      else t.previousSibling n
  document : u.isDocument root = t.isDocument root

/-- If the child leads to its neighbours, all the links around it are known. -/
theorem Spliced.grafted {parent child : NodeId} {before after : List NodeId}
    (s : Spliced t u parent child before after) (kept : t.children parent = before ++ after)
    (next : u.nextSibling child = after.head?)
    (previous : u.previousSibling child = before.getLast?)
    (document : u.isDocument root = t.isDocument root) :
    Grafted t u parent child before after := by
  refine ⟨kept, s.children, s.parent, fun n => ?_, fun n => ?_, document⟩
  · by_cases hn : n = child
    · rw [if_pos hn, hn, next]
    · by_cases last : before.getLast? = some n
      · rw [if_neg hn, if_pos last, s.last n last]
      · rw [if_neg hn, if_neg last, s.next n hn last]
  · by_cases hn : n = child
    · rw [if_pos hn, hn, previous]
    · by_cases first : after.head? = some n
      · rw [if_neg hn, if_pos first, s.first n hn first]
      · rw [if_neg hn, if_neg first, s.previous n hn first]

namespace Linked

section Attached

variable {parent child : NodeId} {before after : List NodeId}

theorem Attachable.not_above (h : t.Linked) (ok : t.Attachable parent child) :
    ¬ t.Above child parent := by
  rw [← h.isBelow_iff, ok.2.2.2]
  exact Bool.false_ne_true

/-- The nodes below the attached one are lifted above the rank of its new parent. -/
theorem ranked_of_grafted (h : t.Linked) (ok : t.Attachable parent child)
    (g : Grafted t u parent child before after) :
    ∃ rank : NodeId → Nat, ∀ p n, u.parent n = some p → rank p < rank n := by
  classical
  obtain ⟨rank, hr⟩ := h.ranked
  let moved n := n = child ∨ t.Above child n
  refine ⟨fun n => if moved n then rank n + rank parent + 1 else rank n, fun p n hp => ?_⟩
  rw [g.parent] at hp
  by_cases hn : n = child
  · rw [if_pos hn, Option.some.injEq] at hp
    subst hn hp
    have hpm : ¬ moved parent := by
      rintro (hc | hc)
      · exact ok.2.2.1 hc.symm
      · exact Attachable.not_above h ok hc
    have hnm : moved n := .inl rfl
    simp only [if_neg hpm, if_pos hnm]
    omega
  · rw [if_neg hn] at hp
    have hlt := hr p n hp
    have hmoved : moved p ↔ moved n := by
      simp only [moved, hn, false_or, above_iff (n := n), hp, Option.some.injEq, exists_eq_left']
      simp only [eq_comm]
    by_cases hpm : moved p
    · simp only [if_pos hpm, if_pos (hmoved.mp hpm)]
      omega
    · simp only [if_neg hpm, if_neg (mt hmoved.mpr hpm)]
      exact hlt

theorem grafted_child_iff (h : t.Linked) (ok : t.Attachable parent child)
    (g : Grafted t u parent child before after) (p n : NodeId) :
    n ∈ u.children p ↔ u.parent n = some p := by
  have hfresh : child ∉ t.children p := h.not_mem_children ok.2.1
  rw [g.children, g.parent]
  by_cases hn : n = child <;> by_cases hp : p = parent
  · simp [hn, hp]
  · simp [hn, hp, hfresh, Ne.symm hp]
  · subst hp
    rw [if_pos rfl, if_neg hn, ← h.child_iff, g.kept]
    simp [hn]
  · rw [if_neg hp, if_neg hn, h.child_iff]

theorem grafted_nodup (h : t.Linked) (ok : t.Attachable parent child)
    (g : Grafted t u parent child before after) : (before ++ child :: after).Nodup := by
  have hd := h.nodup parent
  have hc := h.not_mem_children (p := parent) ok.2.1
  rw [g.kept] at hd hc
  exact List.nodup_middle.mpr (List.nodup_cons.mpr ⟨hc, hd⟩)

theorem exists_pair_left {children : NodeId → List NodeId} {p a b : NodeId}
    (unique : ∀ q, a ∈ children q → q = p) :
    (∃ q, [a, b] <:+: children q) ↔ [a, b] <:+: children p := by
  constructor
  · rintro ⟨q, hq⟩
    rwa [← unique q (mem_of_infix_pair hq).1]
  · exact fun hp => ⟨p, hp⟩

theorem exists_pair_right {children : NodeId → List NodeId} {p a b : NodeId}
    (unique : ∀ q, b ∈ children q → q = p) :
    (∃ q, [a, b] <:+: children q) ↔ [a, b] <:+: children p := by
  constructor
  · rintro ⟨q, hq⟩
    rwa [← unique q (mem_of_infix_pair hq).2]
  · exact fun hp => ⟨p, hp⟩

theorem grafted_unique (h : t.Linked) (ok : t.Attachable parent child)
    (g : Grafted t u parent child before after) {n : NodeId} (hn : n ∈ before ++ child :: after)
    (q : NodeId) (hq : n ∈ u.children q) : q = parent := by
  have hp : n ∈ u.children parent := by rwa [g.children, if_pos rfl]
  rw [grafted_child_iff h ok g] at hp hq
  exact Option.some.inj (hq.symm.trans hp)

theorem grafted_next_iff (h : t.Linked) (ok : t.Attachable parent child)
    (g : Grafted t u parent child before after) (a b : NodeId) :
    u.nextSibling a = some b ↔ ∃ p, [a, b] <:+: u.children p := by
  have hd := grafted_nodup h ok g
  rw [g.next]
  split
  · next ha =>
    subst ha
    rw [exists_pair_left (grafted_unique h ok g (by simp)), g.children, if_pos rfl,
      infix_pair_iff_head hd]
  · next ha =>
    split
    · next hl =>
      obtain ⟨front, rfl⟩ := List.getLast?_eq_some_iff.mp hl
      rw [exists_pair_left (grafted_unique h ok g (by simp)), g.children, if_pos rfl,
        List.append_assoc, List.singleton_append, infix_pair_iff_head (by simpa using hd)]
      rfl
    · next hl =>
      rw [h.next_iff]
      refine exists_congr fun p => ?_
      rw [g.children]
      split
      · next hp => simp [hp, g.kept, infix_pair_append, infix_pair_cons, ha, hl]
      · rfl

theorem grafted_previous_iff (h : t.Linked) (ok : t.Attachable parent child)
    (g : Grafted t u parent child before after) (a b : NodeId) :
    u.previousSibling b = some a ↔ ∃ p, [a, b] <:+: u.children p := by
  have hd := grafted_nodup h ok g
  rw [g.previous]
  split
  · next hb =>
    subst hb
    rw [exists_pair_right (grafted_unique h ok g (by simp)), g.children, if_pos rfl,
      infix_pair_iff_last hd]
  · next hb =>
    split
    · next hl =>
      obtain ⟨rest, rfl⟩ := List.head?_eq_some_iff.mp hl
      rw [exists_pair_right (grafted_unique h ok g (by simp)), g.children, if_pos rfl,
        List.append_cons, infix_pair_iff_last (by simpa using hd), List.getLast?_concat]
    · next hl =>
      rw [h.previous_iff]
      refine exists_congr fun p => ?_
      rw [g.children]
      split
      · next hp => simp [hp, g.kept, infix_pair_append, infix_pair_cons, hl, Ne.symm hb]
      · rfl

theorem linked_of_grafted (h : t.Linked) (ok : t.Attachable parent child)
    (g : Grafted t u parent child before after) : u.Linked where
  root_document := g.document.trans h.root_document
  root_top := by rw [g.parent, if_neg ok.1.symm, h.root_top]
  child_iff := grafted_child_iff h ok g
  nodup := by
    intro p
    rw [g.children]
    split
    · exact grafted_nodup h ok g
    · exact h.nodup p
  next_iff := grafted_next_iff h ok g
  previous_iff := grafted_previous_iff h ok g
  ranked := ranked_of_grafted h ok g

end Attached

section Detached

variable {parent child : NodeId} {before after : List NodeId}

theorem pruned_unique (h : t.Linked) (g : Pruned t u parent child before after) {n : NodeId}
    (hn : n ∈ before ++ after) (q : NodeId) (hq : n ∈ u.children q) : q = parent := by
  rw [g.children] at hq
  split at hq
  · assumption
  · exact h.children_unique hq (by rw [g.kept]; grind)

theorem pruned_child_iff (h : t.Linked) (g : Pruned t u parent child before after) (p n : NodeId) :
    n ∈ u.children p ↔ u.parent n = some p := by
  have hd := h.nodup parent
  rw [g.kept, List.nodup_middle, List.nodup_cons] at hd
  rw [g.children, g.parent]
  by_cases hn : n = child <;> by_cases hp : p = parent
  · simpa [hn, hp] using hd.1
  · subst hn
    rw [if_neg hp, if_pos rfl]
    have hc : n ∉ t.children p := fun hc => hp (h.children_unique hc (by simp [g.kept]))
    simp [hc]
  · subst hp
    rw [if_pos rfl, if_neg hn, ← h.child_iff, g.kept]
    simp [hn]
  · rw [if_neg hp, if_neg hn, h.child_iff]

theorem pruned_top (h : t.Linked) (g : Pruned t u parent child before after) (p : NodeId) :
    child ∉ u.children p := by
  rw [pruned_child_iff h g, g.parent, if_pos rfl]
  simp

theorem pruned_nodup (h : t.Linked) (g : Pruned t u parent child before after) (p : NodeId) :
    (u.children p).Nodup := by
  rw [g.children]
  split
  · have hd := h.nodup parent
    rw [g.kept, List.nodup_middle, List.nodup_cons] at hd
    exact hd.2
  · exact h.nodup p

theorem pruned_next_iff (h : t.Linked) (g : Pruned t u parent child before after) (a b : NodeId) :
    u.nextSibling a = some b ↔ ∃ p, [a, b] <:+: u.children p := by
  have hd := pruned_nodup h g parent
  rw [g.children, if_pos rfl] at hd
  rw [g.next]
  split
  · next ha =>
    subst ha
    simp only [reduceCtorEq, false_iff, not_exists]
    exact fun p hp => pruned_top h g p (mem_of_infix_pair hp).1
  · next ha =>
    split
    · next hl =>
      obtain ⟨front, rfl⟩ := List.getLast?_eq_some_iff.mp hl
      rw [exists_pair_left (pruned_unique h g (by simp)), g.children, if_pos rfl,
        List.append_assoc, List.singleton_append, infix_pair_iff_head (by simpa using hd)]
    · next hl =>
      rw [h.next_iff]
      refine exists_congr fun p => ?_
      rw [g.children]
      split
      · next hp => simp [hp, g.kept, infix_pair_append, infix_pair_cons, ha, hl]
      · rfl

theorem pruned_previous_iff (h : t.Linked) (g : Pruned t u parent child before after)
    (a b : NodeId) : u.previousSibling b = some a ↔ ∃ p, [a, b] <:+: u.children p := by
  have hd := pruned_nodup h g parent
  rw [g.children, if_pos rfl] at hd
  rw [g.previous]
  split
  · next hb =>
    subst hb
    simp only [reduceCtorEq, false_iff, not_exists]
    exact fun p hp => pruned_top h g p (mem_of_infix_pair hp).2
  · next hb =>
    split
    · next hl =>
      obtain ⟨rest, rfl⟩ := List.head?_eq_some_iff.mp hl
      rw [exists_pair_right (pruned_unique h g (by simp)), g.children, if_pos rfl,
        infix_pair_iff_last (by simpa using hd)]
    · next hl =>
      rw [h.previous_iff]
      refine exists_congr fun p => ?_
      rw [g.children]
      split
      · next hp => simp [hp, g.kept, infix_pair_append, infix_pair_cons, hl, Ne.symm hb]
      · rfl

theorem linked_of_pruned (h : t.Linked) (g : Pruned t u parent child before after) : u.Linked where
  root_document := g.document.trans h.root_document
  root_top := by
    rw [g.parent]
    split
    · rfl
    · exact h.root_top
  child_iff := pruned_child_iff h g
  nodup := pruned_nodup h g
  next_iff := pruned_next_iff h g
  previous_iff := pruned_previous_iff h g
  ranked := by
    obtain ⟨rank, hr⟩ := h.ranked
    refine ⟨rank, fun p n hp => hr p n ?_⟩
    rw [g.parent] at hp
    split at hp
    · cases hp
    · exact hp

end Detached

theorem spliced_attachLast (h : t.Linked) {parent child : NodeId}
    (hp : parent < t.size) (hc : child < t.size) :
    Spliced t (t.attachLast parent child) parent child (t.children parent) [] := by
  unfold attachLast linkBehind
  cases hl : (t.children parent).getLast? with
  | none =>
    refine ⟨fun n => ?_, fun n => ?_, fun n hn => ?_, fun n _ _ => ?_, fun n _ hn => ?_,
      fun n _ _ => ?_⟩
    · simp [children_changeChildren, hp]
    · simp [parent_setParent, hc]
    · simp [hl] at hn
    · simp
    · cases hn
    · simp
  | some last =>
    have hlast : last < t.size :=
      lt_size_of_parent ((h.child_iff parent last).mp (List.mem_of_getLast? hl))
    refine ⟨fun n => ?_, fun n => ?_, fun n hn => ?_, fun n _ other => ?_, fun n _ hn => ?_,
      fun n hn _ => ?_⟩
    · simp [children_changeChildren, hp]
    · simp [parent_setParent, hc]
    · obtain rfl : last = n := Option.some.inj (hl.symm.trans hn)
      simp [nextSibling_setNext, hlast]
    · have hne : n ≠ last := fun he => other (he ▸ hl)
      simp [nextSibling_setNext, hlast, hne]
    · cases hn
    · simp [previousSibling_setPrevious, hc, hn]

theorem grafted_attachLast (h : t.Linked) {parent child : NodeId} (ok : t.Attachable parent child)
    (hp : parent < t.size) (hc : child < t.size) :
    Grafted t (t.attachLast parent child) parent child (t.children parent) [] := by
  have hnext := h.nextSibling_eq_none ok.2.1
  have hprevious := h.previousSibling_eq_none ok.2.1
  refine (h.spliced_attachLast hp hc).grafted (by simp) ?next ?previous ?document
  all_goals
    unfold attachLast linkBehind
    cases hl : (t.children parent).getLast? with
    | none => simp [hnext, hprevious]
    | some last =>
      have hmem := List.mem_of_getLast? hl
      have hlast : last < t.size := lt_size_of_parent ((h.child_iff parent last).mp hmem)
      have hne : child ≠ last := fun he => h.not_mem_children ok.2.1 (he ▸ hmem)
      simp [nextSibling_setNext, previousSibling_setPrevious, hc, hlast, hne, hnext]

theorem insertIdx_length {α : Type} (l r : List α) (a : α) :
    (l ++ r).insertIdx l.length a = l ++ a :: r := by
  induction l with
  | nil => rfl
  | cons x l ih => simpa [List.insertIdx_succ_cons] using ih

theorem insertBefore_eq (h : t.Linked) {parent child reference : NodeId}
    {before after : List NodeId}
    (hc : child < t.size) (hp : t.children parent = before ++ reference :: after) :
    t.insertBefore parent child reference =
      some (t |>.changeChildren parent (·.insertIdx before.length child)
        |>.setParent child (some parent)
        |>.linkBefore child reference before.getLast?) := by
  have hd := h.nodup parent
  rw [hp, List.nodup_middle, List.nodup_cons, List.mem_append, not_or] at hd
  rw [insertBefore, hp, idxOf?_append_cons hd.1.1, h.previousSibling_eq hp]
  exact if_pos hc

theorem spliced_insertBefore (h : t.Linked) {parent child reference : NodeId}
    {before after : List NodeId} (hc : child < t.size)
    (hp : t.children parent = before ++ reference :: after)
    (hi : t.insertBefore parent child reference = some u) :
    Spliced t u parent child before (reference :: after) := by
  have hparent : parent < t.size := lt_size_of_mem_children (n := reference) (by simp [hp])
  have hreference : reference < t.size :=
    lt_size_of_parent ((h.child_iff parent _).mp (by simp [hp]))
  rw [insertBefore_eq h hc hp, Option.some.injEq] at hi
  subst hi
  unfold linkBefore
  cases hl : before.getLast? with
  | none =>
    refine ⟨fun n => ?_, fun n => ?_, fun n hn => ?_, fun n hn _ => ?_, fun n hn first => ?_,
      fun n hn other => ?_⟩
    · simp [children_changeChildren, hparent, hp, insertIdx_length]
    · simp [parent_setParent, hc]
    · simp [hl] at hn
    · simp [nextSibling_setNext, hc, hn]
    · obtain rfl := Option.some.inj first
      simp [previousSibling_setPrevious, hreference]
    · have hnr : n ≠ reference := fun he => other (congrArg some he.symm)
      simp [previousSibling_setPrevious, hc, hreference, hn, hnr]
  | some last =>
    have hlast : last < t.size := lt_size_of_parent
      ((h.child_iff parent last).mp (by simp [hp, List.mem_of_getLast? hl]))
    refine ⟨fun n => ?_, fun n => ?_, fun n hn => ?_, fun n hn other => ?_, fun n hn first => ?_,
      fun n hn other => ?_⟩
    · simp [children_changeChildren, hparent, hp, insertIdx_length]
    · simp [parent_setParent, hc]
    · obtain rfl : last = n := Option.some.inj (hl.symm.trans hn)
      simp [nextSibling_setNext, hlast]
    · have hnl : n ≠ last := fun he => other (he ▸ hl)
      simp [nextSibling_setNext, hc, hlast, hn, hnl]
    · obtain rfl := Option.some.inj first
      simp [previousSibling_setPrevious, hreference]
    · have hnr : n ≠ reference := fun he => other (congrArg some he.symm)
      simp [previousSibling_setPrevious, hc, hreference, hn, hnr]

theorem grafted_insertBefore (h : t.Linked) {parent child reference : NodeId}
    {before after : List NodeId} (ok : t.Attachable parent child) (hc : child < t.size)
    (hp : t.children parent = before ++ reference :: after)
    (hi : t.insertBefore parent child reference = some u) :
    Grafted t u parent child before (reference :: after) := by
  have spliced := h.spliced_insertBefore hc hp hi
  rw [insertBefore_eq h hc hp, Option.some.injEq] at hi
  subst hi
  have member (n : NodeId) (hn : n ∈ before ++ reference :: after) : n < t.size ∧ child ≠ n :=
    ⟨lt_size_of_parent ((h.child_iff parent n).mp (hp ▸ hn)),
      fun he => h.not_mem_children ok.2.1 (p := parent) (hp ▸ he ▸ hn)⟩
  obtain ⟨hreference, hne⟩ := member reference (by simp)
  refine spliced.grafted hp ?next ?previous ?document
  all_goals
    unfold linkBefore
    cases hl : before.getLast? with
    | none => simp [nextSibling_setNext, previousSibling_setPrevious, hc, hreference, hne]
    | some last =>
      obtain ⟨hlast, hne'⟩ := member last (by simp [List.mem_of_getLast? hl])
      simp [nextSibling_setNext, previousSibling_setPrevious, hc, hreference, hlast, hne, hne']

theorem cut_eq (t : Tree) (n : NodeId) :
    t.update n (fun node =>
        { node with parent := none, nextSibling := none, previousSibling := none }) =
      (t |>.setParent n none |>.setNext n none |>.setPrevious n none) := by
  simp only [setParent, setNext, setPrevious, update_update]

theorem removeChild_eq (h : t.Linked) {parent child : NodeId} {before after : List NodeId}
    (hp : t.children parent = before ++ child :: after) :
    t.removeChild parent child =
      some (t |>.changeChildren parent (·.erase child)
        |>.setParent child none |>.setNext child none |>.setPrevious child none
        |>.bridge before.getLast? after.head?) := by
  have hc : child ∈ t.children parent := by simp [hp]
  rw [removeChild, if_pos (lt_size_of_mem_children hc), if_pos hc, cut_eq, h.nextSibling_eq hp,
    h.previousSibling_eq hp]

theorem pruned_removeChild (h : t.Linked) {parent child : NodeId}
    (hc : child ∈ t.children parent) (hr : t.removeChild parent child = some u) :
    ∃ before after, Pruned t u parent child before after := by
  obtain ⟨before, after, hb, hp, he⟩ := List.exists_erase_eq hc
  have hparent : parent < t.size := lt_size_of_mem_children hc
  have inside : ∀ n ∈ t.children parent, n < t.size := fun n hn =>
    lt_size_of_parent ((h.child_iff parent n).mp hn)
  have hchild := inside child hc
  have hlast : ∀ last ∈ before.getLast?, last < t.size ∧ last ≠ child := fun last hl =>
    ⟨inside last (by simp [hp, List.mem_of_getLast? hl]),
      fun e => hb (e ▸ List.mem_of_getLast? hl)⟩
  have hfirst : ∀ first ∈ after.head?, first < t.size ∧ first ≠ child := by
    intro first hf
    have hd := h.nodup parent
    rw [hp, List.nodup_middle, List.nodup_cons] at hd
    exact ⟨inside first (by simp [hp, List.mem_of_head? hf]),
      fun e => hd.1 (by simp [← e, List.mem_of_head? hf])⟩
  refine ⟨before, after, ?_⟩
  rw [removeChild_eq h hp, Option.some.injEq] at hr
  subst hr
  refine ⟨hp, ?_, ?_, ?_, ?_, by simp⟩ <;> intro n
  · simp [children_changeChildren, hparent, he]
  · simp [parent_setParent, hchild]
  · rw [nextSibling_bridge n fun last hl => by simpa using (hlast last hl).1]
    by_cases hn : n = child
    · subst hn
      have hl : before.getLast? ≠ some n := fun hl => (hlast n hl).2 rfl
      simp [nextSibling_setNext, hchild, hl]
    · simp [nextSibling_setNext, hchild, hn]
  · rw [previousSibling_bridge n fun first hf => by simpa using (hfirst first hf).1]
    by_cases hn : n = child
    · subst hn
      have hf : after.head? ≠ some n := fun hf => (hfirst n hf).2 rfl
      simp [previousSibling_setPrevious, hchild, hf]
    · simp [previousSibling_setPrevious, hchild, hn]

theorem linked_appendChild (h : t.Linked) {parent child : NodeId} (ok : t.Attachable parent child)
    (ha : t.appendChild parent child = some u) : u.Linked := by
  rw [appendChild] at ha
  split at ha
  · next hs =>
    rw [Option.some.injEq] at ha
    exact ha ▸ linked_of_grafted h ok (grafted_attachLast h ok hs.1 hs.2)
  · cases ha

theorem linked_insertBefore (h : t.Linked) {parent child reference : NodeId}
    (ok : t.Attachable parent child) (hi : t.insertBefore parent child reference = some u) :
    u.Linked := by
  by_cases hr : reference ∈ t.children parent
  · obtain ⟨before, after, hp⟩ := List.append_of_mem hr
    by_cases hc : child < t.size
    · exact linked_of_grafted h ok (grafted_insertBefore h ok hc hp hi)
    · obtain ⟨index, hx⟩ := Option.isSome_iff_exists.mp (List.isSome_idxOf?.mpr hr)
      rw [insertBefore, hx] at hi
      simp [hc] at hi
  · rw [insertBefore, List.idxOf?_eq_none_iff.mpr hr] at hi
    exact linked_appendChild h ok hi

theorem linked_removeChild (h : t.Linked) {parent child : NodeId}
    (hr : t.removeChild parent child = some u) : u.Linked := by
  by_cases hc : child ∈ t.children parent
  · obtain ⟨before, after, hg⟩ := pruned_removeChild h hc hr
    exact linked_of_pruned h hg
  · rw [removeChild, if_neg hc] at hr
    split at hr
    · rw [Option.some.injEq] at hr
      exact hr ▸ h
    · cases hr

theorem node?_empty (kind : DocumentKind) (n : NodeId) :
    (Tree.empty kind).node? n = if n = root then some { kind := .document } else none := by
  cases n <;> simp [Tree.empty, node?, root]

theorem linked_empty (kind : DocumentKind) : (Tree.empty kind).Linked where
  root_document := rfl
  root_top := rfl
  child_iff p n := by
    rw [children, parent, node?_empty, node?_empty]
    split <;> split <;> simp
  nodup p := by
    rw [children, node?_empty]
    split <;> simp
  next_iff a b := by
    have hc : ∀ p, (Tree.empty kind).children p = [] := fun p => by
      rw [children, node?_empty]
      split <;> rfl
    rw [nextSibling, node?_empty]
    split <;> simp [hc]
  previous_iff a b := by
    have hc : ∀ p, (Tree.empty kind).children p = [] := fun p => by
      rw [children, node?_empty]
      split <;> rfl
    rw [previousSibling, node?_empty]
    split <;> simp [hc]
  ranked := by
    refine ⟨id, fun p n hp => ?_⟩
    rw [parent, node?_empty] at hp
    split at hp <;> simp at hp

theorem root_lt_size (h : t.Linked) : root < t.size := by
  by_contra hs
  have hd := h.root_document
  rw [isDocument, node?_eq_none (Nat.le_of_not_lt hs)] at hd
  cases hd

theorem linked_alloc (h : t.Linked) (kind : NodeKind) : (t.alloc kind).2.Linked := by
  have hs : t.node? t.size = none := node?_eq_none (Nat.le_refl _)
  have hparent : ∀ n, (t.alloc kind).2.parent n = t.parent n := fun n => by
    rw [parent, node?_alloc, parent]
    split <;> simp_all
  have hchildren : ∀ n, (t.alloc kind).2.children n = t.children n := fun n => by
    rw [children, node?_alloc, children]
    split <;> simp_all
  have hnext : ∀ n, (t.alloc kind).2.nextSibling n = t.nextSibling n := fun n => by
    rw [nextSibling, node?_alloc, nextSibling]
    split <;> simp_all
  have hprevious : ∀ n, (t.alloc kind).2.previousSibling n = t.previousSibling n := fun n => by
    rw [previousSibling, node?_alloc, previousSibling]
    split <;> simp_all
  have hdocument : (t.alloc kind).2.isDocument root = t.isDocument root := by
    rw [isDocument, node?_alloc, if_neg h.root_lt_size.ne, isDocument]
  exact ⟨hdocument.trans h.root_document, (hparent _).trans h.root_top,
    by simpa only [hparent, hchildren] using h.child_iff, by simpa only [hchildren] using h.nodup,
    by simpa only [hnext, hchildren] using h.next_iff,
    by simpa only [hprevious, hchildren] using h.previous_iff,
    by simpa only [hparent] using h.ranked⟩

theorem Above.exists_child {a n : NodeId} (h : t.Above a n) : ∃ c, t.parent c = some a := by
  induction h with
  | single hp => exact ⟨_, hp⟩
  | tail _ _ ih => exact ih

theorem attachable_alloc (h : t.Linked) {parent : NodeId} (hp : parent < t.size) (kind : NodeKind) :
    (t.alloc kind).2.Attachable parent t.size := by
  have hs : t.node? t.size = none := node?_eq_none (Nat.le_refl _)
  have hu := h.linked_alloc kind
  have htop : (t.alloc kind).2.parent t.size = none := by
    rw [Tree.parent, node?_alloc, if_pos rfl]; rfl
  have hleaf : (t.alloc kind).2.children t.size = [] := by
    rw [children, node?_alloc, if_pos rfl]; rfl
  refine ⟨h.root_lt_size.ne', htop, hp.ne', ?_⟩
  rw [Bool.eq_false_iff, Ne, hu.isBelow_iff]
  intro ha
  obtain ⟨c, hc⟩ := Above.exists_child ha
  rw [← hu.child_iff, hleaf] at hc
  cases hc

end Linked

theorem WellBuilt.linked (h : t.WellBuilt) : t.Linked := by
  induction h with
  | empty kind => exact Linked.linked_empty kind
  | alloc kind _ ih => exact ih.linked_alloc kind
  | @append t u parent kind n _ hp ha ih =>
    obtain ⟨v, hv, he⟩ := Option.map_eq_some_iff.mp ha
    obtain ⟨-, rfl⟩ := Prod.mk.inj he
    exact (ih.linked_alloc kind).linked_appendChild (ih.attachable_alloc hp kind) hv
  | appendChild _ ok ha ih => exact ih.linked_appendChild ok ha
  | insertBefore _ ok hi ih => exact ih.linked_insertBefore ok hi
  | removeChild _ hr ih => exact ih.linked_removeChild hr
  | focus _ _ ih => exact ⟨ih.root_document, ih.root_top, ih.child_iff, ih.nodup, ih.next_iff,
      ih.previous_iff, ih.ranked⟩

end SelectorEngine.Tree
