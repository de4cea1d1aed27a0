import Mathlib.Data.List.Basic
import SelectorEngine.Proofs.Tree.Blueprints
import SelectorEngine.Proofs.Tree.Preorder

/-! # Iterating over what lies below a node

The iteration keeps no stack. From a node without children it climbs along the parents, until it
meets the node below which it started or a node with a next sibling. In a well-built tree it ends
below every node, and what it yields is the recursive listing of the children. -/
namespace SelectorEngine.Tree

variable {t : Tree} {scope p n m : NodeId} {start next next' : Option NodeId}
  {nodes yielded yielded' : List NodeId}

/-- The climb from a node ends at a next sibling, or nowhere. -/
inductive Climbs (t : Tree) (scope : NodeId) : NodeId → Option NodeId → Prop where
  | scope : Climbs t scope scope none
  | sibling {n m : NodeId} : n ≠ scope → t.nextSibling n = some m → Climbs t scope n (some m)
  | top {n : NodeId} : n ≠ scope → t.nextSibling n = none → t.parent n = none →
      Climbs t scope n none
  | up {n p : NodeId} {next : Option NodeId} : n ≠ scope → t.nextSibling n = none →
      t.parent n = some p → Climbs t scope p next → Climbs t scope n next

/-- The nodes that the iteration below `scope` yields from a node on, until it ends. -/
inductive Iterates (t : Tree) (scope : NodeId) : Option NodeId → List NodeId → Prop where
  | done : Iterates t scope none []
  | down {n c : NodeId} {yielded : List NodeId} : t.firstChild n = some c →
      Iterates t scope (some c) yielded → Iterates t scope (some n) (n :: yielded)
  | onward {n : NodeId} {next : Option NodeId} {yielded : List NodeId} : t.firstChild n = none →
      Climbs t scope n next → Iterates t scope next yielded →
      Iterates t scope (some n) (n :: yielded)

/-- The recursive listing of some nodes. Each of them is followed by the listing of its children. -/
inductive Listing (t : Tree) : List NodeId → List NodeId → Prop where
  | nil : Listing t [] []
  | cons {c : NodeId} {nodes below others : List NodeId} : Listing t (t.children c) below →
      Listing t nodes others → Listing t (c :: nodes) (c :: (below ++ others))

theorem Climbs.unique (h : t.Climbs scope n next) (k : t.Climbs scope n next') : next = next' := by
  induction h with
  | scope =>
    cases k with
    | scope => rfl
    | sibling hne => exact absurd rfl hne
    | top hne => rfl
    | up hne => exact absurd rfl hne
  | sibling hne hs =>
    cases k with
    | scope => exact absurd rfl hne
    | sibling _ hs' => rw [← hs, hs']
    | top _ hs' => simp [hs] at hs'
    | up _ hs' => simp [hs] at hs'
  | top hne hs hp =>
    cases k with
    | scope => rfl
    | sibling _ hs' => simp [hs] at hs'
    | top => rfl
    | up _ _ hp' => simp [hp] at hp'
  | up hne hs hp _ ih =>
    cases k with
    | scope => exact absurd rfl hne
    | sibling _ hs' => simp [hs] at hs'
    | top _ _ hp' => simp [hp] at hp'
    | up _ _ hp' hk =>
      obtain rfl := Option.some.inj (hp.symm.trans hp')
      exact ih hk

theorem Iterates.unique (h : t.Iterates scope start yielded) (k : t.Iterates scope start yielded') :
    yielded = yielded' := by
  induction h generalizing yielded' with
  | done =>
    cases k
    rfl
  | down hc _ ih =>
    cases k with
    | down hc' hk =>
      obtain rfl := Option.some.inj (hc.symm.trans hc')
      rw [ih hk]
    | onward hc' => simp [hc] at hc'
  | onward hc climb _ ih =>
    cases k with
    | down hc' => simp [hc] at hc'
    | onward _ climb' hk =>
      obtain rfl := climb.unique climb'
      rw [ih hk]

theorem Listing.unique (h : t.Listing nodes yielded) (k : t.Listing nodes yielded') :
    yielded = yielded' := by
  induction h generalizing yielded' with
  | nil =>
    cases k
    rfl
  | cons _ _ ihBelow ihOthers =>
    cases k with
    | cons hb ho => rw [ihBelow hb, ihOthers ho]

namespace Linked

theorem following_step (h : t.Linked) (hne : n ≠ scope) :
    t.following scope n = (t.nextSibling n).or ((t.parent n).bind (t.following scope)) := by
  rw [following, List.takeWhile_cons_of_pos (by simpa using hne), List.findSome?_cons]
  cases t.nextSibling n with
  | some m => rfl
  | none =>
    cases hp : t.parent n with
    | none => simp [ancestors_top hp]
    | some p =>
      rw [h.ancestors_parent hp]
      rfl

theorem climbs_following (h : t.Linked) (scope n : NodeId) :
    t.Climbs scope n (t.following scope n) := by
  induction n using h.induction_up with
  | step n ih =>
    by_cases hne : n = scope
    · subst hne
      rw [following_scope]
      exact .scope
    · rw [h.following_step hne]
      cases hs : t.nextSibling n with
      | some m => exact .sibling hne hs
      | none =>
        cases hp : t.parent n with
        | none => exact .top hne hs hp
        | some p => exact .up hne hs hp (ih p hp)

theorem iterates_walk (h : t.Linked) (scope : NodeId) {limit : Nat}
    (short : (walk (t.successor scope) limit start).length < limit) :
    t.Iterates scope start (walk (t.successor scope) limit start) := by
  induction limit generalizing start with
  | zero => exact absurd short (Nat.not_lt_zero _)
  | succ limit ih =>
    cases start with
    | none =>
      rw [walk_none]
      exact .done
    | some n =>
      rw [walk_some, List.length_cons, Nat.add_lt_add_iff_right] at short
      have rest := ih short
      rw [walk_some]
      cases hc : t.firstChild n with
      | some c =>
        have down : t.successor scope n = some c := by rw [successor, hc]; rfl
        rw [down] at rest ⊢
        exact .down hc rest
      | none =>
        have onward : t.successor scope n = t.following scope n := by rw [successor, hc]; rfl
        rw [onward] at rest ⊢
        exact .onward hc (h.climbs_following scope n) rest

theorem iterates_descendants (h : t.Linked) (scope : NodeId) :
    t.Iterates scope (t.firstChild scope) (t.descendants scope) := by
  refine h.iterates_walk scope (Nat.lt_succ_of_le ?_)
  change (t.descendants scope).length ≤ t.size
  rw [h.descendants_eq]
  exact h.length_preorder_le scope

theorem listing_flatMap (below : ∀ c ∈ nodes, t.Listing (t.children c) (t.preorder c)) :
    t.Listing nodes (nodes.flatMap fun c => c :: t.preorder c) := by
  induction nodes with
  | nil => exact .nil
  | cons c nodes ih =>
    obtain ⟨first, others⟩ := List.forall_mem_cons.mp below
    exact .cons first (ih others)

theorem listing_preorder (h : t.Linked) (n : NodeId) : t.Listing (t.children n) (t.preorder n) := by
  induction n using h.induction_down with
  | step n ih =>
    rw [h.preorder_eq]
    exact listing_flatMap ih

theorem disjoint_siblings (h : t.Linked) {before after : List NodeId}
    (hp : t.children p = before ++ n :: after) (hm : m ∈ after) :
    (t.descendants n).Disjoint (m :: t.descendants m) := by
  have hd := h.nodup p
  rw [hp, List.nodup_middle, List.nodup_cons] at hd
  have hne : n ≠ m := fun he => hd.1 (List.mem_append_right before (he ▸ hm))
  have hn : t.parent n = some p := (h.child_iff p n).mp (by simp [hp])
  have hm : t.parent m = some p := (h.child_iff p m).mp (by simp [hp, hm])
  intro x hxn hxm
  rw [List.mem_cons, h.mem_descendants] at hxm
  rw [h.mem_descendants] at hxn
  exact h.not_above_two_children hn hm hne (.inr hxn) hxm

end Linked

/-- Below every node the iteration ends, and it yields the listing of the children: every node below
the start once, and none of its siblings nor what lies below them. -/
theorem descendants_listing (built : t.WellBuilt) (s : NodeId) :
    (∀ yielded, t.Iterates s (t.firstChild s) yielded ↔ yielded = t.descendants s) ∧
    (∀ yielded, t.Listing (t.children s) yielded ↔ yielded = t.descendants s) ∧
    (t.descendants s).Nodup ∧
    (∀ n, n ∈ t.descendants s ↔ t.Above s n) ∧ s ∉ t.descendants s ∧
    (∀ p before after, t.children p = before ++ s :: after → ∀ m ∈ after,
      (t.descendants s).Disjoint (m :: t.descendants m)) := by
  have h := built.linked
  have listed := h.listing_preorder s
  rw [← h.descendants_eq] at listed
  refine ⟨fun yielded => ⟨fun k => k.unique (h.iterates_descendants s), ?_⟩,
    fun yielded => ⟨fun k => k.unique listed, ?_⟩, ?once, fun n => h.mem_descendants, ?self,
    fun p before after hp m hm => h.disjoint_siblings hp hm⟩
  · rintro rfl
    exact h.iterates_descendants s
  · rintro rfl
    exact listed
  case once =>
    rw [h.descendants_eq]
    exact h.nodup_preorder s
  case self =>
    rw [h.mem_descendants]
    exact h.not_above_self s

def courses : Blueprint where
  children := [.element "ul" [] [.element "li" [] [.element "b" [] [.text "tea"]],
    .element "li" [] []]]

theorem descendants_listing_courses :
    courses.build.Iterates 2 (some 3) [3, 4] ∧ courses.build.Listing [2, 5] [2, 3, 4, 5] ∧
      [3, 4].Disjoint [5] := by
  obtain ⟨iterated, -, -, -, -, apart⟩ := descendants_listing courses.wellBuilt_build 2
  obtain ⟨-, listed, -⟩ := descendants_listing courses.wellBuilt_build 1
  exact ⟨(iterated [3, 4]).mpr (by decide), (listed [2, 3, 4, 5]).mpr (by decide),
    apart 1 [] [5] (by decide) 5 (by decide)⟩

end SelectorEngine.Tree
