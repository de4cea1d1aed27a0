import SelectorEngine.Proofs.Matching.Evaluation
import SelectorEngine.Proofs.Matching.Negation
import SelectorEngine.Proofs.Tree.Blueprints

/-! # Tests of places among siblings

Whatever an evaluation has counted before, a test of a place counts the element siblings of a
node. -/
namespace SelectorEngine

def ChildPosition.holdsAt (k m : Nat) : ChildPosition → Bool
  | first => k == 1
  | last => m == 0
  | only => k == 1 && m == 0
  | nth formula => formula.holds k

/-- A test of a place, turned around by every negation in place around it. -/
inductive ChildTest : Simple SelectorList → ChildPosition → Bool → Prop where
  | child (place : ChildPosition) : ChildTest (.child place) place false
  | not {list : SelectorList} {simple : Simple SelectorList} {place : ChildPosition}
      {turned : Bool} :
      single? list.branches = some simple → ChildTest simple place turned →
      ChildTest (.not list) place (!turned)

theorem AnPlusB.holds_everywhere (place : Int) : (⟨1, 0⟩ : AnPlusB).holds place = true := by
  simp [holds]

namespace Tree

variable {t : Tree} {config : Config} {e p : NodeId} {before after : List NodeId}

namespace Linked

theorem place?_eq (h : t.Linked) (hp : t.children p = before ++ e :: after)
    (he : t.isElement e = true) : t.outline.place? e = some (before.countP t.isElement + 1) := by
  have parent : t.outline.parent e = some p := (h.child_iff p e).mp (hp ▸ by simp)
  have fresh : e ∉ before.filter t.isElement := by
    have distinct := h.nodup p
    rw [hp, List.nodup_middle, List.nodup_cons, List.mem_append, not_or] at distinct
    exact fun hm => distinct.1.1 (List.mem_of_mem_filter hm)
  have elements : t.outline.elementChildren p =
      before.filter t.isElement ++ e :: after.filter t.isElement := by
    rw [Outline.elementChildren, h.outline_children, hp]
    exact List.filter_append .. |>.trans (congrArg _ (List.filter_cons_of_pos he))
  rw [Outline.place?, parent, Option.map_some, elements, List.idxOf_append_of_notMem fresh,
    List.idxOf_cons_self, List.countP_eq_length_filter, Nat.add_zero]

theorem isNone_previousElement (h : t.Linked) (hp : t.children p = before ++ e :: after) :
    (t.view.previousElement e).isNone = (before.countP t.isElement + 1 == 1) := by
  have earlier : t.view.earlierSiblings e = before.reverse := h.earlierSiblings_eq hp
  rw [TreeView.previousElement, earlier, Bool.eq_iff_iff, Option.isNone_iff_eq_none, beq_iff_eq,
    Nat.add_eq_right, List.find?_eq_none, List.countP_eq_zero]
  exact forall_congr' fun n => imp_congr_left List.mem_reverse

theorem isNone_nextElement (h : t.Linked) (hp : t.children p = before ++ e :: after) :
    (t.view.nextElement e).isNone = (after.countP t.isElement == 0) := by
  have later : t.view.laterSiblings e = after := h.laterSiblings_eq hp
  rw [TreeView.nextElement, later, Bool.eq_iff_iff, Option.isNone_iff_eq_none, beq_iff_eq,
    List.find?_eq_none, List.countP_eq_zero]
  rfl

theorem satisfies_child (h : t.Linked) (hp : t.children p = before ++ e :: after)
    (he : t.isElement e = true) (place : ChildPosition) :
    (t.setting config).satisfies (.child place) e =
      place.holdsAt (before.countP t.isElement + 1) (after.countP t.isElement) := by
  have first := h.isNone_previousElement hp
  have last := h.isNone_nextElement hp
  -- All places but those of a formula are found along the links.
  have linked : ∀ place : ChildPosition, (t.isElement e && t.view.isAtPlace e place) =
      t.view.isAtPlace e place := fun place => by rw [he, Bool.true_and]
  cases place with
  | nth formula =>
    have counted : t.view.place? e = some (before.countP t.isElement + 1) := h.place?_eq hp he
    have stands : (t.setting config).stands formula e = (t.isElement e &&
        (formula == ⟨1, 0⟩ || (t.view.place? e).any fun place => formula.holds place)) := rfl
    refine stands.trans ?_
    rw [he, counted, Bool.true_and]
    change (formula == ⟨1, 0⟩ || formula.holds _) = formula.holds _
    by_cases everywhere : formula = ⟨1, 0⟩
    · rw [everywhere, AnPlusB.holds_everywhere, Bool.or_true]
    · rw [beq_eq_false_iff_ne.mpr everywhere, Bool.false_or]
  | first => exact (linked .first).trans first
  | last => exact (linked .last).trans last
  | only => exact (linked .only).trans (congrArg₂ (· && ·) first last)

/-- By induction on the negations around it, a test of a place gives the verdicts of the place,
turned around as often as there are negations. -/
theorem verdicts_childTest (h : t.Linked) {m : Marks NodeId} (hm : m.Sound t.view.toOutline)
    {simple : Simple SelectorList} {place : ChildPosition} {turned : Bool}
    (test : ChildTest simple place turned) (nodes : List NodeId) (negate : Bool) :
    ((t.setting config).verdicts (simple.map (SelectorList.query t.view config)) nodes negate m).1 =
      nodes.map fun n => (t.setting config).satisfies (.child place) n ^^ turned ^^ negate := by
  induction test generalizing negate with
  | child place =>
    have apart : ∀ q, (.child place : Simple (Query NodeId)) = .not q → q.Faithful t.view := nofun
    refine (Setting.verdicts_eq (h.regular config) hm apart nodes negate).1.trans ?_
    simp [Setting.outcomes]
  | @not list simple place turned single _ ih =>
    rw [Simple.map, Setting.verdicts_not_some (SelectorList.inPlace_eq single)]
    refine (ih (!negate)).trans (List.map_congr_left fun n _ => ?_)
    cases turned <;> cases negate <;> simp

end Linked

/-- At any moment of an evaluation, and whatever else stands in the list, a test of a place says of
an element with a parent how many element siblings are before and after it. -/
theorem child_tests_counted (built : t.WellBuilt) (config : Config) {m : Marks NodeId}
    (run : Marks.Leads (t.setting config) {} m) {simple : Simple SelectorList}
    {place : ChildPosition}
    {turned : Bool} (test : ChildTest simple place turned) (nodes : List NodeId) (negate : Bool)
    {i : Nat} (listed : nodes[i]? = some e) (he : t.isElement e = true) (hp : t.parent e = some p) :
    ∃ before after, t.children p = before ++ e :: after ∧
      ((t.setting config).verdicts
        (simple.map (SelectorList.query t.view config)) nodes negate m).1[i]? =
        some (place.holdsAt (before.countP t.isElement + 1) (after.countP t.isElement) ^^
          turned ^^ negate) := by
  have h := built.linked
  obtain ⟨before, after, split⟩ := h.exists_split hp
  refine ⟨before, after, split, ?_⟩
  have sound := (run.sound (h.regular config) Marks.sound_empty).1
  rw [h.verdicts_childTest sound test, List.getElem?_map, listed, Option.map_some,
    h.satisfies_child split he]

def purchases : Blueprint where
  children := [.element "ul" [] [.element "li" [] [], .text "and", .element "li" [] []],
    .element "ol" [] [.element "li" [] []]]

def secondChild : SelectorList :=
  .mk ":nth-child(2)" [{ parts := [.compound ⟨":nth-child(2)", [.child (.nth ⟨0, 2⟩)]⟩] }]

/-- After a test for odd places, a negation asks for places other than the second one. -/
theorem child_tests_counted_purchases :
    ∃ before after, purchases.build.children 1 = before ++ 4 :: after ∧
      ((purchases.build.setting {}).verdicts
          (.not (secondChild.query purchases.build.view {})) [6, 4, 2, 4] false
          ((purchases.build.setting {}).verdicts
            (.child (.nth ⟨2, 1⟩)) [4, 6, 2, 4] false {}).2).1[3]? =
        some ((ChildPosition.nth ⟨0, 2⟩).holdsAt (before.countP purchases.build.isElement + 1)
          (after.countP purchases.build.isElement) ^^ true ^^ false) :=
  child_tests_counted purchases.wellBuilt_build {}
    (.single (.judge (.child (.nth ⟨2, 1⟩)) [4, 6, 2, 4] false {}))
      (.not rfl (.child _)) [6, 4, 2, 4]
    false rfl (by decide) (by decide)

end Tree
end SelectorEngine
