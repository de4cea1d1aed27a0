import Mathlib.Logic.Function.Iterate
import SelectorEngine.Proofs.Tree.Building

/-! # Runs of edits

A run carries out one edit after the other. An edit is enabled in a tree if its nodes are in the
tree and what it attaches may be attached. A run of enabled edits from a document without children
has a result, whatever their order, and leaves the links of every node consistent. The trees that
such runs lead to are those that are well built. -/
namespace SelectorEngine

inductive Edit where
  | alloc (kind : NodeKind)
  | append (parent : NodeId) (kind : NodeKind)
  | appendChild (parent child : NodeId)
  | insertBefore (parent child reference : NodeId)
  | removeChild (parent child : NodeId)
  | focus (n : Option NodeId)
  deriving DecidableEq, Repr

namespace Edit

def apply (t : Tree) : Edit → Option Tree
  | alloc kind => some (t.alloc kind).2
  | append parent kind => (t.append parent kind).map (·.2)
  | appendChild parent child => t.appendChild parent child
  | insertBefore parent child reference => t.insertBefore parent child reference
  | removeChild parent child => t.removeChild parent child
  | focus n => some (t.focus n)

def Enabled (t : Tree) : Edit → Prop
  | alloc _ => True
  | append parent _ => parent < t.size
  | appendChild parent child => (parent < t.size ∧ child < t.size) ∧ t.Attachable parent child
  | insertBefore parent child _ => (parent < t.size ∧ child < t.size) ∧ t.Attachable parent child
  | removeChild parent _ => parent < t.size
  | focus _ => True

instance (t : Tree) (e : Edit) : Decidable (e.Enabled t) :=
  match e with
  | alloc _ => .isTrue trivial
  | append parent _ => inferInstanceAs (Decidable (parent < t.size))
  | appendChild parent child =>
    inferInstanceAs (Decidable ((parent < t.size ∧ child < t.size) ∧ t.Attachable parent child))
  | insertBefore parent child _ =>
    inferInstanceAs (Decidable ((parent < t.size ∧ child < t.size) ∧ t.Attachable parent child))
  | removeChild parent _ => inferInstanceAs (Decidable (parent < t.size))
  | focus _ => .isTrue trivial

end Edit

namespace Tree

variable {t u v : Tree} {edits later : List Edit} {e : Edit}

def run (t : Tree) (edits : List Edit) : Option Tree := edits.foldlM Edit.apply t

/-- Every edit of the run is enabled when its turn comes. -/
def Admits (t : Tree) : List Edit → Prop
  | [] => True
  | e :: edits => e.Enabled t ∧ ∀ u ∈ e.apply t, Admits u edits

instance decidableAdmits : (t : Tree) → (edits : List Edit) → Decidable (t.Admits edits)
  | _, [] => .isTrue trivial
  | t, e :: edits =>
    have : DecidablePred fun u => Admits u edits := fun u => decidableAdmits u edits
    inferInstanceAs (Decidable (e.Enabled t ∧ ∀ u ∈ e.apply t, Admits u edits))

/-- What holds of the links of a tree at all times. -/
structure Consistent (t : Tree) : Prop where
  nodup : ∀ p, (t.children p).Nodup
  child_iff : ∀ p c, c ∈ t.children p ↔ t.parent c = some p
  consecutive : ∀ p a b, [a, b] <:+: t.children p →
    t.nextSibling a = some b ∧ t.previousSibling b = some a
  first : ∀ p c, (t.children p).head? = some c → t.previousSibling c = none
  last : ∀ p c, (t.children p).getLast? = some c → t.nextSibling c = none
  detached : ∀ n, t.parent n = none → t.previousSibling n = none ∧ t.nextSibling n = none
  ends : ∀ n, ∃ k, (·.bind t.parent)^[k] (some n) = none

theorem Linked.consistent (h : t.Linked) : t.Consistent where
  nodup := h.nodup
  child_iff := h.child_iff
  consecutive p a b hp := ⟨(h.next_iff a b).mpr ⟨p, hp⟩, (h.previous_iff a b).mpr ⟨p, hp⟩⟩
  first p c hc := by
    obtain ⟨after, hp⟩ := List.head?_eq_some_iff.mp hc
    have hp : t.children p = [] ++ c :: after := hp
    rw [h.previousSibling_eq hp, List.getLast?_nil]
  last p c hc := by
    obtain ⟨before, hp⟩ := List.getLast?_eq_some_iff.mp hc
    rw [h.nextSibling_eq hp, List.head?_nil]
  detached n hn := ⟨h.previousSibling_eq_none hn, h.nextSibling_eq_none hn⟩
  ends n := by
    induction n using h.induction_up with
    | step n ih =>
      cases hn : t.parent n with
      | none => exact ⟨1, hn⟩
      | some p =>
        obtain ⟨k, hk⟩ := ih p hn
        refine ⟨k + 1, ?_⟩
        rwa [Function.iterate_succ_apply, Option.bind_some, hn]

theorem appendChild_isSome {parent child : NodeId} (hp : parent < t.size) (hc : child < t.size) :
    ∃ u, t.appendChild parent child = some u :=
  ⟨_, if_pos ⟨hp, hc⟩⟩

theorem append_isSome {parent : NodeId} (hp : parent < t.size) (kind : NodeKind) :
    ∃ u, t.append parent kind = some u := by
  have hn : t.size < (t.alloc kind).2.size := by
    rw [size_alloc]
    exact Nat.lt_succ_self _
  obtain ⟨u, hu⟩ := appendChild_isSome (Nat.lt_trans hp hn) hn
  exact ⟨(t.size, u), congrArg (Option.map (t.size, ·)) hu⟩

theorem insertBefore_isSome {parent child : NodeId} (hp : parent < t.size) (hc : child < t.size)
    (reference : NodeId) : ∃ u, t.insertBefore parent child reference = some u := by
  rw [insertBefore]
  split
  · exact appendChild_isSome hp hc
  · exact ⟨_, if_pos hc⟩

theorem removeChild_isSome {parent : NodeId} (hp : parent < t.size) (child : NodeId) :
    ∃ u, t.removeChild parent child = some u := by
  rw [removeChild, if_pos hp]
  split
  · exact ⟨_, rfl⟩
  · exact ⟨t, rfl⟩

theorem apply_isSome (ok : e.Enabled t) : ∃ u, e.apply t = some u := by
  cases e with
  | alloc kind => exact ⟨_, rfl⟩
  | append parent kind =>
    obtain ⟨u, hu⟩ := append_isSome ok kind
    exact ⟨u.2, Option.map_eq_some_iff.mpr ⟨u, hu, rfl⟩⟩
  | appendChild parent child => exact appendChild_isSome ok.1.1 ok.1.2
  | insertBefore parent child reference => exact insertBefore_isSome ok.1.1 ok.1.2 reference
  | removeChild parent child => exact removeChild_isSome ok child
  | focus n => exact ⟨_, rfl⟩

theorem wellBuilt_apply (built : t.WellBuilt) (ok : e.Enabled t) (hu : e.apply t = some u) :
    u.WellBuilt := by
  cases e with
  | alloc kind =>
    obtain rfl := Option.some.inj hu
    exact built.alloc kind
  | append parent kind =>
    obtain ⟨⟨n, v⟩, ha, rfl⟩ := Option.map_eq_some_iff.mp hu
    exact built.append ok ha
  | appendChild parent child => exact built.appendChild ok.2 hu
  | insertBefore parent child reference => exact built.insertBefore ok.2 hu
  | removeChild parent child => exact built.removeChild hu
  | focus n =>
    obtain rfl := Option.some.inj hu
    exact built.focus n

theorem run_wellBuilt (built : t.WellBuilt) (ok : t.Admits edits) :
    ∃ u, t.run edits = some u ∧ u.WellBuilt := by
  induction edits generalizing t with
  | nil => exact ⟨t, rfl, built⟩
  | cons e edits ih =>
    obtain ⟨u, hu⟩ := apply_isSome ok.1
    obtain ⟨v, hv, built'⟩ := ih (wellBuilt_apply built ok.1 hu) (ok.2 u hu)
    refine ⟨v, ?_, built'⟩
    rw [run, List.foldlM_cons, hu]
    exact hv

theorem run_append (hu : t.run edits = some u) : t.run (edits ++ later) = u.run later := by
  rw [run, List.foldlM_append, ← run, hu]
  rfl

theorem admits_append (ok : t.Admits edits) (hu : t.run edits = some u) (ok' : u.Admits later) :
    t.Admits (edits ++ later) := by
  induction edits generalizing t with
  | nil =>
    obtain rfl := Option.some.inj hu
    exact ok'
  | cons e edits ih =>
    refine ⟨ok.1, fun v hv => ih (ok.2 v hv) ?_⟩
    rwa [run, List.foldlM_cons, hv] at hu

def Reached (t : Tree) : Prop :=
  ∃ kind edits, (Tree.empty kind).Admits edits ∧ (Tree.empty kind).run edits = some t

theorem Reached.step (h : t.Reached) (ok : e.Enabled t) (hu : e.apply t = some u) : u.Reached := by
  obtain ⟨kind, edits, admits, made⟩ := h
  refine ⟨kind, edits ++ [e], admits_append admits made ⟨ok, fun _ _ => trivial⟩, ?_⟩
  rw [run_append made, run, List.foldlM_cons, hu]
  rfl

theorem size_of_appendChild {parent child : NodeId} (ha : t.appendChild parent child = some u) :
    parent < t.size ∧ child < t.size := by
  by_contra hs
  rw [appendChild, if_neg hs] at ha
  cases ha

theorem size_of_insertBefore {parent child reference : NodeId}
    (hi : t.insertBefore parent child reference = some u) : parent < t.size ∧ child < t.size := by
  rw [insertBefore] at hi
  split at hi
  · exact size_of_appendChild hi
  · next index found =>
    split at hi
    · next hc =>
      have hr : reference ∈ t.children parent :=
        List.isSome_idxOf?.mp (Option.isSome_iff_exists.mpr ⟨index, found⟩)
      exact ⟨lt_size_of_mem_children hr, hc⟩
    · cases hi

theorem size_of_removeChild {parent child : NodeId} (hr : t.removeChild parent child = some u) :
    parent < t.size := by
  by_contra hp
  rw [removeChild, if_neg hp] at hr
  cases hr

/-- The well-built trees are those that runs of enabled edits lead to. -/
theorem wellBuilt_iff_reached : t.WellBuilt ↔ t.Reached := by
  constructor
  · intro built
    induction built with
    | empty kind => exact ⟨kind, [], trivial, rfl⟩
    | alloc kind _ ih => exact ih.step (e := .alloc kind) trivial rfl
    | @append t u parent kind n _ hp ha ih =>
      exact ih.step (e := .append parent kind) hp
        (Option.map_eq_some_iff.mpr ⟨(n, u), ha, rfl⟩)
    | @appendChild t u parent child _ ok ha ih =>
      exact ih.step (e := .appendChild parent child) ⟨size_of_appendChild ha, ok⟩ ha
    | @insertBefore t u parent child reference _ ok hi ih =>
      exact ih.step (e := .insertBefore parent child reference) ⟨size_of_insertBefore hi, ok⟩ hi
    | @removeChild t u parent child _ hr ih =>
      exact ih.step (e := .removeChild parent child) (size_of_removeChild hr) hr
    | focus n _ ih => exact ih.step (e := .focus n) trivial rfl
  · rintro ⟨kind, edits, admits, made⟩
    obtain ⟨u, hu, built⟩ := run_wellBuilt (.empty kind) admits
    rw [made, Option.some.injEq] at hu
    exact hu ▸ built

/-- Every run of enabled edits from a document without children has a result, and its links are
consistent. -/
theorem run_consistent (kind : DocumentKind) (ok : (Tree.empty kind).Admits edits) :
    ∃ t, (Tree.empty kind).run edits = some t ∧ t.Consistent := by
  obtain ⟨t, made, built⟩ := run_wellBuilt (.empty kind) ok
  exact ⟨t, made, built.linked.consistent⟩

def reordering : List Edit :=
  [.append 0 (.element "ul" []), .append 1 (.element "li" []), .append 1 (.element "li" []),
    .append 1 (.text "end"), .removeChild 1 3, .focus (some 3), .insertBefore 1 3 2]

theorem run_consistent_reordering :
    ∃ t, (Tree.empty .html).run reordering = some t ∧ t.Consistent :=
  run_consistent .html (by decide)

example : ((Tree.empty .html).run reordering).map (·.children 1) = some [3, 2, 4] := by decide

end Tree
end SelectorEngine
