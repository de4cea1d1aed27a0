import SelectorEngine.Proofs.Tree.Relinking

/-! # Attaching what is attached already

An edit that attaches a node does not take it from the parent it has. So the node is moved if and
only if it was detached. Otherwise the old parent still lists it and the old siblings still lead to
it, and all that the edit does elsewhere is what it would do after the node was taken out. -/
namespace SelectorEngine.Tree

variable {t u v w : Tree} {parent child n p : NodeId} {place : Option NodeId}
  {nodes before after : List NodeId}

def release (t : Tree) (n : NodeId) : Option Tree :=
  match t.parent n with
  | none => some t
  | some p => t.removeChild p n

/-- The tree `w` is the tree `t` without the links to and from the place of `child`. -/
structure Released (t w : Tree) (child : NodeId) : Prop where
  nodes : Relinked t w
  children : ∀ p, w.children p = (t.children p).filter (· ≠ child)
  parent : ∀ n, w.parent n = if n = child then none else t.parent n
  next : ∀ n, n ≠ child → t.nextSibling n ≠ some child → w.nextSibling n = t.nextSibling n
  previous : ∀ n, n ≠ child → t.previousSibling n ≠ some child →
    w.previousSibling n = t.previousSibling n

/-- The tree `u` is the tree `v`, into which `child` has been moved, but for the place that `child`
has in `t` and is still linked to. -/
structure Leftover (t u v : Tree) (child : NodeId) : Prop where
  nodes : Relinked v u
  parent : ∀ n, u.parent n = v.parent n
  children : ∀ p, t.parent child ≠ some p → u.children p = v.children p
  listed : ∀ p, t.parent child = some p →
    ∃ front back, u.children p = front ++ child :: back ∧ v.children p = front ++ back
  next : ∀ n, n ≠ child → u.nextSibling n =
    if t.nextSibling n = some child then some child else v.nextSibling n
  previous : ∀ n, n ≠ child → u.previousSibling n =
    if t.previousSibling n = some child then some child else v.previousSibling n

theorem filter_eq_of_not_mem (h : child ∉ nodes) : nodes.filter (· ≠ child) = nodes := by
  refine List.filter_eq_self.mpr fun n hn => ?_
  simpa using fun he : n = child => h (he ▸ hn)

theorem filter_middle (h : child ∉ before ++ after) :
    (before ++ child :: after).filter (· ≠ child) = before ++ after := by
  rw [List.filter_append, List.filter_cons_of_neg (by simp), ← List.filter_append,
    filter_eq_of_not_mem h]

theorem beforePlace_filter (other : place ≠ some child) (nodes : List NodeId) :
    beforePlace place (nodes.filter (· ≠ child)) =
      (beforePlace place nodes).filter (· ≠ child) := by
  induction nodes with
  | nil => rfl
  | cons n nodes ih =>
    by_cases hn : n = child
    · subst hn
      have passed : beforePlace place (n :: nodes) = n :: beforePlace place nodes :=
        List.takeWhile_cons_of_pos (by simpa using Ne.symm other)
      rw [passed, List.filter_cons_of_neg (by simp), List.filter_cons_of_neg (by simp), ih]
    · rw [List.filter_cons_of_pos (by simpa using hn)]
      by_cases here : some n = place
      · simp [beforePlace, here]
      · have passed : ∀ others, beforePlace place (n :: others) = n :: beforePlace place others :=
          fun _ => List.takeWhile_cons_of_pos (by simpa using here)
        rw [passed, passed, List.filter_cons_of_pos (by simpa using hn), ih]

theorem fromPlace_filter (other : place ≠ some child) (nodes : List NodeId) :
    fromPlace place (nodes.filter (· ≠ child)) = (fromPlace place nodes).filter (· ≠ child) := by
  have whole := congrArg (List.filter (· ≠ child)) (beforePlace_append_fromPlace place nodes)
  rw [List.filter_append, ← beforePlace_filter other] at whole
  exact List.append_cancel_left ((beforePlace_append_fromPlace place _).trans whole.symm)

namespace Linked

theorem filter_children (h : t.Linked) (other : t.parent child ≠ some p) :
    (t.children p).filter (· ≠ child) = t.children p :=
  filter_eq_of_not_mem fun hn => other ((h.child_iff p child).mp hn)

theorem released_of_pruned (h : t.Linked) (g : Pruned t w parent child before after)
    (same : Relinked t w) : Released t w child := by
  have held : t.parent child = some parent := (h.child_iff parent child).mp (by simp [g.kept])
  refine ⟨same, fun p => ?children, g.parent, fun n hn other => ?next, fun n hn other => ?previous⟩
  case children =>
    rw [g.children]
    by_cases hp : p = parent
    · have hd := h.nodup parent
      rw [g.kept, List.nodup_middle, List.nodup_cons] at hd
      rw [if_pos hp, hp, g.kept, filter_middle hd.1]
    · have other : t.parent child ≠ some p := fun he => hp (Option.some.inj (he.symm.trans held))
      rw [if_neg hp, h.filter_children other]
  case next =>
    rw [g.next, if_neg hn, if_neg]
    intro last
    exact other (h.nextSibling_of_last g.kept last)
  case previous =>
    rw [g.previous, if_neg hn, if_neg]
    intro first
    exact other (h.previousSibling_of_behind g.kept first)

theorem exists_released (h : t.Linked) (built : t.WellBuilt) (child : NodeId) :
    ∃ w, t.release child = some w ∧ w.WellBuilt ∧ Released t w child := by
  rw [release]
  cases held : t.parent child with
  | none =>
    refine ⟨t, rfl, built, .refl t, fun p => ?_, fun n => ?_, fun _ _ _ => rfl, fun _ _ _ => rfl⟩
    · rw [h.filter_children (by simp [held])]
    · split
      · next hn => rw [hn, held]
      · rfl
  | some p =>
    obtain ⟨w, hw⟩ := removeChild_isSome (h.lt_size held) child
    obtain ⟨before, after, g⟩ := h.pruned_removeChild ((h.child_iff p child).mpr held) hw
    exact ⟨w, hw, built.removeChild hw, h.released_of_pruned g (.of_removeChild hw)⟩

theorem getLast_filter_iff (h : t.Linked) (hp : t.children parent = before ++ after)
    (hn : n ≠ child) (free : t.nextSibling n ≠ some child) :
    (before.filter (· ≠ child)).getLast? = some n ↔ before.getLast? = some n := by
  rcases List.eq_nil_or_concat before with rfl | ⟨front, last, rfl⟩
  · rfl
  rw [List.concat_eq_append, List.filter_append, List.getLast?_concat]
  by_cases hl : last = child
  · subst hl
    rw [List.filter_cons_of_neg (by simp), List.filter_nil, List.append_nil]
    refine iff_of_false (fun found => ?_) fun he => hn (Option.some.inj he).symm
    have kept : t.children parent = front ++ last :: after := by rw [hp]; simp
    have hd := h.nodup parent
    rw [kept, List.nodup_middle, List.nodup_cons, List.mem_append, not_or] at hd
    rw [filter_eq_of_not_mem hd.1.1] at found
    exact free (h.nextSibling_of_last kept found)
  · rw [List.filter_cons_of_pos (by simpa using hl), List.filter_nil, List.getLast?_concat]

theorem head_filter_iff (h : t.Linked) (hp : t.children parent = before ++ after)
    (hn : n ≠ child) (free : t.previousSibling n ≠ some child) :
    (after.filter (· ≠ child)).head? = some n ↔ after.head? = some n := by
  cases after with
  | nil => rfl
  | cons first back =>
    rw [List.head?_cons]
    by_cases hf : first = child
    · subst hf
      rw [List.filter_cons_of_neg (by simp)]
      refine iff_of_false (fun found => ?_) fun he => hn (Option.some.inj he).symm
      have hd := h.nodup parent
      rw [hp, List.nodup_middle, List.nodup_cons, List.mem_append, not_or] at hd
      rw [filter_eq_of_not_mem hd.1.2] at found
      exact free (h.previousSibling_of_behind hp found)
    · rw [List.filter_cons_of_pos (by simpa using hf), List.head?_cons]

/-- Where the child is still listed, it stands once more than if it had been taken out. -/
theorem exists_listed (h : t.Linked) (held : t.parent child = some p) (before after : List NodeId)
    (hp : t.children p = before ++ after) :
    ∃ front back, before ++ child :: after = front ++ child :: back ∧
      before.filter (· ≠ child) ++ child :: after.filter (· ≠ child) = front ++ back := by
  have hd := h.nodup p
  have hc : child ∈ before ++ after := hp ▸ (h.child_iff p child).mpr held
  rw [hp] at hd
  rcases List.mem_append.mp hc with hc | hc
  · obtain ⟨x, y, rfl⟩ := List.append_of_mem hc
    rw [List.append_assoc, List.cons_append, List.nodup_middle, List.nodup_cons,
      ← List.append_assoc, List.mem_append, not_or] at hd
    refine ⟨x, y ++ child :: after, by simp, ?_⟩
    rw [filter_middle hd.1.1, filter_eq_of_not_mem hd.1.2, List.append_assoc]
  · obtain ⟨x, y, rfl⟩ := List.append_of_mem hc
    rw [← List.append_assoc, List.nodup_middle, List.nodup_cons, List.append_assoc,
      List.mem_append, not_or] at hd
    refine ⟨before ++ child :: x, y, by simp, ?_⟩
    rw [filter_middle hd.1.2, filter_eq_of_not_mem hd.1.1, List.append_assoc]
    rfl

theorem leftover (h : t.Linked) (h' : w.Linked) (r : Released t w child)
    (other : place ≠ some child) (hu : t.attachBefore parent child place = some u)
    (hv : w.attachBefore parent child place = some v) : Leftover t u v child := by
  have x := h.spliced_attachBefore hu
  have y := h'.spliced_attachBefore hv
  have cut := (beforePlace_append_fromPlace place (t.children parent)).symm
  rw [r.children, beforePlace_filter other, fromPlace_filter other] at y
  refine ⟨((r.nodes.trans (.of_attachBefore hv)).symm).trans (.of_attachBefore hu),
    fun n => ?parent, fun p hp => ?children, fun p hp => ?listed, fun n hn => ?next,
    fun n hn => ?previous⟩
  case parent =>
    rw [x.parent, y.parent, r.parent]
    split <;> rfl
  case children =>
    rw [x.children, y.children]
    split
    · next he =>
      have same := h.filter_children (he ▸ hp)
      rw [← beforePlace_filter other, ← fromPlace_filter other, same]
    · rw [r.children, h.filter_children hp]
  case listed =>
    rw [x.children, y.children]
    split
    · next he => exact h.exists_listed hp _ _ (he ▸ cut)
    · rw [r.children]
      obtain ⟨front, back, kept⟩ := List.append_of_mem ((h.child_iff p child).mpr hp)
      have hd := h.nodup p
      rw [kept, List.nodup_middle, List.nodup_cons] at hd
      exact ⟨front, back, kept, kept ▸ filter_middle hd.1⟩
  -- Only what led to `child` in `t` still leads there; all else is as after the release.
  case next =>
    by_cases last : (beforePlace place (t.children parent)).getLast? = some n
    · rw [x.last n last]
      split
      · rfl
      · next free => exact (y.last n ((h.getLast_filter_iff cut hn free).mpr last)).symm
    · rw [x.next n hn last]
      split
      · assumption
      · next free =>
        have last' := mt (h.getLast_filter_iff cut hn free).mp last
        rw [y.next n hn last', r.next n hn free]
  case previous =>
    by_cases first : (fromPlace place (t.children parent)).head? = some n
    · rw [x.first n hn first]
      split
      · rfl
      · next free => exact (y.first n hn ((h.head_filter_iff cut hn free).mpr first)).symm
    · rw [x.previous n hn first]
      split
      · assumption
      · next free =>
        have first' := mt (h.head_filter_iff cut hn free).mp first
        rw [y.previous n hn first', r.previous n hn free]

theorem nextSibling_attachBefore_self (h : t.Linked) (held : t.parent child = some parent)
    (hu : t.attachBefore parent child (t.nextSibling child) = some u) :
    u.nextSibling child = some child := by
  obtain ⟨before, after, hp⟩ := List.append_of_mem ((h.child_iff parent child).mpr held)
  have split : t.children parent = (before ++ [child]) ++ after := by rw [hp]; simp
  refine (h.spliced_attachBefore hu).last child ?_
  rw [h.nextSibling_eq hp, split, (cut_at_head (split ▸ h.nodup parent)).1, List.getLast?_concat]

end Linked

theorem Leftover.count (k : Leftover t u v child) (p : NodeId) :
    (u.children p).count child =
      (v.children p).count child + if t.parent child = some p then 1 else 0 := by
  split
  · next held =>
    obtain ⟨front, back, hu, hv⟩ := k.listed p held
    rw [hu, hv, List.count_append, List.count_append, List.count_cons_self, Nat.add_assoc]
  · next other => rw [k.children p other, Nat.add_zero]

/-- A node that is attached is moved if and only if it was detached. Otherwise its old place is all
that is left over: the old parent lists it besides the new one, and what led to it still does. -/
theorem attachBefore_moves_iff (built : t.WellBuilt) (hp : parent < t.size) (hc : child < t.size)
    (hroot : child ≠ root) (hne : child ≠ parent) (apart : t.isBelow parent child = false)
    (other : place ≠ some child) :
    ∃ u v, t.attachBefore parent child place = some u ∧
      (t.release child).bind (·.attachBefore parent child place) = some v ∧ v.WellBuilt ∧
      (u = v ↔ t.parent child = none) ∧ Leftover t u v child ∧
      (∀ p, (v.children p).count child = if p = parent then 1 else 0) ∧
      (∀ p, (u.children p).count child =
        (if p = parent then 1 else 0) + if t.parent child = some p then 1 else 0) ∧
      (t.parent child = some parent → t.nextSibling child = place →
        u.nextSibling child = some child) := by
  have h := built.linked
  obtain ⟨w, hw, built', r⟩ := h.exists_released built child
  have ok : w.Attachable parent child := built'.linked.attachable_of_parent r.parent hroot hne
    (by rwa [← h.isBelow_iff, Bool.not_eq_true])
  obtain ⟨u, hu⟩ := attachBefore_isSome hp hc place
  obtain ⟨v, hv⟩ := attachBefore_isSome (r.nodes.size ▸ hp) (r.nodes.size ▸ hc) place
  have moved := built'.attachBefore ok hv
  have k := h.leftover built'.linked r other hu hv
  have once : ∀ p, (v.children p).count child = if p = parent then 1 else 0 := by
    intro p
    have held : v.parent child = some parent := by
      rw [← k.parent, (h.spliced_attachBefore hu).parent, if_pos rfl]
    simp [List.Nodup.count (moved.linked.nodup p), moved.linked.child_iff, held, eq_comm]
  refine ⟨u, v, hu, by rw [hw, Option.bind_some, hv], moved,
    ⟨fun same => ?moved, fun top => ?still⟩, k, once, fun p => by rw [k.count, once], ?looped⟩
  case moved =>
    cases held : t.parent child with
    | none => rfl
    | some q =>
      have more := k.count q
      rw [same, held, if_pos rfl] at more
      omega
  case still =>
    rw [release, top] at hw
    obtain rfl := Option.some.inj hw
    exact Option.some.inj (hu.symm.trans hv)
  case looped =>
    rintro held rfl
    exact h.nextSibling_attachBefore_self held hu

def shelves : Blueprint where
  children := [.element "ul" [] [.element "li" [] [], .element "li" [] []], .element "ol" [] []]

theorem attachBefore_moves_iff_shelves :
    ∃ u v, shelves.build.attachBefore 4 2 none = some u ∧
      (shelves.build.release 2).bind (·.attachBefore 4 2 none) = some v ∧ u ≠ v ∧
      (u.children 1).count 2 = 1 ∧ (u.children 4).count 2 = 1 ∧ (v.children 1).count 2 = 0 := by
  obtain ⟨u, v, hu, hv, -, same, -, once, twice, -⟩ :=
    attachBefore_moves_iff shelves.wellBuilt_build (by decide : 4 < shelves.build.size)
      (by decide : 2 < shelves.build.size) (by decide) (by decide) (by decide)
      (by decide : none ≠ some 2)
  exact ⟨u, v, hu, hv, mt same.mp (by decide), twice 1, twice 4, once 1⟩

/-- An item of the first list that is appended to the second one stays in the first one too, and an
item that is put before the item before it is listed twice and leads back to it. -/
theorem attached_not_moved :
    shelves.build.WellBuilt ∧
      (shelves.build.parent 2 = some 1 ∧ 2 ≠ root ∧ 2 ≠ 4 ∧ shelves.build.isBelow 4 2 = false) ∧
      (shelves.build.appendChild 4 2).map (fun u => (u.children 1, u.children 4)) =
        some ([2, 3], [2]) ∧
      ((shelves.build.removeChild 1 2).bind (·.appendChild 4 2)).map
          (fun u => (u.children 1, u.children 4)) = some ([3], [2]) ∧
      (shelves.build.parent 3 = some 1 ∧ 3 ≠ root ∧ 3 ≠ 1 ∧ shelves.build.isBelow 1 3 = false) ∧
      (shelves.build.insertBefore 1 3 2).map (fun u => (u.children 1, u.nextSibling 2)) =
        some ([3, 2, 3], some 3) ∧
      ((shelves.build.removeChild 1 3).bind (·.insertBefore 1 3 2)).map
          (fun u => (u.children 1, u.nextSibling 2)) = some ([3, 2], none) :=
  ⟨shelves.wellBuilt_build, by decide, by decide, by decide, by decide, by decide, by decide⟩

end SelectorEngine.Tree
