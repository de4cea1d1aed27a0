import Mathlib
import SelectorEngine.Proofs.Engine.TypeSelectors
import SelectorEngine.Proofs.Matching.ChildTests

/-! # Equivalent tests of a place

An element with a parent, in the document or outside, is counted among its siblings, so that all
tests that mean the same places agree. Outside, the topmost element has no parent to count below: a
formula holds of it only if it is the one that is never counted, whereas it is a first child and a
last one. -/
namespace SelectorEngine

/-- The list is nothing but one simple selector. -/
def SelectorList.Asks (list : SelectorList) (simple : Simple SelectorList) : Prop :=
  ∃ source rest, list.branches = [⟨[.compound ⟨source, [simple]⟩], rest⟩]

theorem Shape.simple_of_asks {selector : String} {list : SelectorList}
    {simple : Simple SelectorList}
    {shape : Shape} (read : SelectorList.parse selector = .ok list) (asks : list.Asks simple)
    (known : ofSelector? selector = some shape) : shape.simple = simple := by
  cases read.symm.trans (parse_eq known)
  obtain ⟨source, rest, one⟩ := asks
  cases one
  rfl

theorem AnPlusB.holds_one (place : Nat) : (⟨0, 1⟩ : AnPlusB).holds place = (place == 1) := by
  rw [holds, Bool.eq_iff_iff]
  simp
  omega

namespace Tree

variable {t : Tree} {config : Config} {delegate : Option (Delegate NodeId)} {e : NodeId}

/-- Without a parent, only the formula that is never counted holds. -/
theorem satisfies_nth_top (he : t.isElement e = true) (top : t.parent e = none)
    (formula : AnPlusB) :
    (t.setting config).satisfies (.child (.nth formula)) e = (formula == ⟨1, 0⟩) := by
  have unplaced : t.view.place? e = none := by
    have parent : t.view.parent e = none := top
    rw [Outline.place?, parent, Option.map_none]
  have stands : (t.setting config).stands formula e = (t.isElement e &&
      (formula == ⟨1, 0⟩ || (t.view.place? e).any fun place => formula.holds place)) := rfl
  refine stands.trans ?_
  rw [he, unplaced, Bool.true_and]
  exact Bool.or_false _

namespace Linked

theorem isMatch_asks (h : t.Linked) (config : Config)
    (fast : delegate = none ∨ delegate = some .byShape) {selector : String} {list : SelectorList}
    (read : SelectorList.parse selector = .ok list) {simple : Simple SelectorList}
    (asks : list.Asks simple) (unnamed : ∀ shape : Shape, shape.simple ≠ simple)
    (alone : (simple.map (SelectorList.query t.view config)).Local t.view) (n : NodeId) :
    (⟨t.view, config, delegate⟩ : Engine NodeId).isMatch n selector =
      .ok ((t.setting config).satisfies (simple.map (SelectorList.query t.view config)) n) := by
  have shapeless : Shape.ofSelector? selector = none :=
    Option.eq_none_iff_forall_ne_some.mpr fun shape known =>
      unnamed shape (Shape.simple_of_asks read asks known)
  rw [Engine.isMatch_shapeless fast shapeless]
  obtain ⟨source, rest, one⟩ := asks
  exact h.isMatch_single read one alone n

theorem isMatch_child (h : t.Linked) (config : Config)
    (fast : delegate = none ∨ delegate = some .byShape) {selector : String} {list : SelectorList}
    (read : SelectorList.parse selector = .ok list) {place : ChildPosition}
    (asks : list.Asks (.child place)) (n : NodeId) :
    (⟨t.view, config, delegate⟩ : Engine NodeId).isMatch n selector =
      .ok ((t.setting config).satisfies (.child place) n) := by
  have unnamed : ∀ shape : Shape, shape.simple ≠ (.child place : Simple SelectorList) := by
    intro shape named
    cases shape <;> cases named
  exact h.isMatch_asks config fast read asks unnamed trivial n

theorem satisfies_first_top (h : t.Linked) (he : t.isElement e = true) (top : t.parent e = none) :
    (t.setting config).satisfies (.child .first) e = true := by
  have earlier : t.view.earlierSiblings e = [] := h.earlierSiblings_top top
  have passes : (t.setting config).satisfies (.child .first) e =
      (t.isElement e && (t.view.previousElement e).isNone) := rfl
  rw [passes, he, TreeView.previousElement, earlier]
  rfl

end Linked

def leadingChild : SelectorList :=
  .mk ":first-child" [{ parts := [.compound ⟨":first-child", [.child .first]⟩] }]

def childOne : SelectorList :=
  .mk ":nth-child(1)" [{ parts := [.compound ⟨":nth-child(1)", [.child (.nth ⟨0, 1⟩)]⟩] }]

theorem read_leadingChild : SelectorList.parse ":first-child" = .ok leadingChild := by cbv

theorem read_childOne : SelectorList.parse ":nth-child(1)" = .ok childOne := by cbv

/-- About an element with a parent, two formulas that hold of the same places give one verdict, and
so do the tests for a first child and for the place 1. An element without a parent has no place: it
is a first child, but only the formula that needs no counting holds of it. -/
theorem child_tests_agree (built : t.WellBuilt) (config : Config)
    (fast : delegate = none ∨ delegate = some .byShape) {first second : String}
    {list other : SelectorList} {f g : AnPlusB} (read : SelectorList.parse first = .ok list)
    (read' : SelectorList.parse second = .ok other) (asks : list.Asks (.child (.nth f)))
    (asks' : other.Asks (.child (.nth g)))
    (same : ∀ place : Nat, 1 ≤ place → f.holds place = g.holds place) (he : t.isElement e = true) :
    (∀ p, t.parent e = some p →
      (∃ verdict, (⟨t.view, config, delegate⟩ : Engine NodeId).isMatch e first = .ok verdict ∧
        (⟨t.view, config, delegate⟩ : Engine NodeId).isMatch e second = .ok verdict) ∧
      ∃ verdict, (⟨t.view, config, delegate⟩ : Engine NodeId).isMatch e ":first-child" =
          .ok verdict ∧
        (⟨t.view, config, delegate⟩ : Engine NodeId).isMatch e ":nth-child(1)" = .ok verdict) ∧
    (t.parent e = none →
      (⟨t.view, config, delegate⟩ : Engine NodeId).isMatch e first = .ok (f == ⟨1, 0⟩) ∧
      (⟨t.view, config, delegate⟩ : Engine NodeId).isMatch e second = .ok (g == ⟨1, 0⟩) ∧
      (⟨t.view, config, delegate⟩ : Engine NodeId).isMatch e ":first-child" = .ok true ∧
      (⟨t.view, config, delegate⟩ : Engine NodeId).isMatch e ":nth-child(1)" = .ok false) := by
  have h := built.linked
  have one : childOne.Asks (.child (.nth ⟨0, 1⟩)) := ⟨_, _, rfl⟩
  rw [h.isMatch_child config fast read asks, h.isMatch_child config fast read' asks',
    h.isMatch_child config fast read_leadingChild ⟨_, _, rfl⟩,
    h.isMatch_child config fast read_childOne one]
  constructor
  · intro p hp
    obtain ⟨before, after, split⟩ := h.exists_split hp
    refine ⟨⟨_, rfl, congrArg Except.ok ?_⟩, ⟨_, rfl, congrArg Except.ok ?_⟩⟩
    · rw [h.satisfies_child split he, h.satisfies_child split he]
      exact (same _ (Nat.le_add_left 1 _)).symm
    · rw [h.satisfies_child split he, h.satisfies_child split he]
      exact AnPlusB.holds_one _
  · intro top
    rw [satisfies_nth_top he top, satisfies_nth_top he top, satisfies_nth_top he top,
      h.satisfies_first_top he top]
    exact ⟨rfl, rfl, rfl, rfl⟩

def memo : Tree := (purchases.build.alloc (.element "p" [])).2

theorem wellBuilt_memo : memo.WellBuilt := .alloc _ purchases.wellBuilt_build

def anyChild : SelectorList :=
  .mk ":nth-child(n)" [{ parts := [.compound ⟨":nth-child(n)", [.child (.nth ⟨1, 0⟩)]⟩] }]

def childFromOne : SelectorList :=
  .mk ":nth-child(n+1)" [{ parts := [.compound ⟨":nth-child(n+1)", [.child (.nth ⟨1, 1⟩)]⟩] }]

theorem read_anyChild : SelectorList.parse ":nth-child(n)" = .ok anyChild := by cbv

theorem read_childFromOne : SelectorList.parse ":nth-child(n+1)" = .ok childFromOne := by cbv

theorem same_anyChild (place : Nat) (counted : 1 ≤ place) :
    (⟨1, 0⟩ : AnPlusB).holds place = (⟨1, 1⟩ : AnPlusB).holds place := by
  rw [AnPlusB.holds_everywhere, AnPlusB.holds]
  simp
  omega

theorem child_tests_agree_memo :
    (∃ verdict, (⟨memo.view, {}, none⟩ : Engine NodeId).isMatch 4 ":nth-child(n)" = .ok verdict ∧
      (⟨memo.view, {}, none⟩ : Engine NodeId).isMatch 4 ":nth-child(n+1)" = .ok verdict) ∧
    (⟨memo.view, {}, none⟩ : Engine NodeId).isMatch 7 ":first-child" = .ok true := by
  have agree {e : NodeId} (he : memo.isElement e = true) := child_tests_agree wellBuilt_memo {}
    (.inl rfl) read_anyChild read_childFromOne ⟨_, _, rfl⟩ ⟨_, _, rfl⟩ same_anyChild he
  have item := agree (e := 4) (by decide)
  have loose := agree (e := 7) (by decide)
  exact ⟨(item.1 1 (by decide)).1, (loose.2 (by decide)).2.2.1⟩

/-- The paragraph is not attached, and two tests that mean the same places disagree about it. -/
theorem child_tests_disagree :
    memo.WellBuilt ∧ memo.isElement 7 = true ∧
      (∀ place : Nat, 1 ≤ place → (⟨1, 0⟩ : AnPlusB).holds place = (⟨1, 1⟩ : AnPlusB).holds place) ∧
      (SelectorList.parse ":nth-child(n)" = .ok anyChild ∧
        SelectorList.parse ":nth-child(n+1)" = .ok childFromOne) ∧
      ((⟨memo.view, {}, none⟩ : Engine NodeId).isMatch 7 ":nth-child(n)" = .ok true ∧
        (⟨memo.view, {}, none⟩ : Engine NodeId).isMatch 7 ":nth-child(n+1)" = .ok false) ∧
      (⟨memo.view, {}, none⟩ : Engine NodeId).isMatch 7 ":first-child" = .ok true ∧
        (⟨memo.view, {}, none⟩ : Engine NodeId).isMatch 7 ":nth-child(1)" = .ok false := by
  have h := wellBuilt_memo.linked
  have top : memo.parent 7 = none := by decide
  have element : memo.isElement 7 = true := by decide
  have counted {text : String} {list : SelectorList} {formula : AnPlusB}
      (read : SelectorList.parse text = .ok list) (asks : list.Asks (.child (.nth formula))) :
      (⟨memo.view, {}, none⟩ : Engine NodeId).isMatch 7 text = .ok (formula == ⟨1, 0⟩) :=
    (h.isMatch_child {} (.inl rfl) read asks 7).trans
      (congrArg Except.ok (satisfies_nth_top element top formula))
  exact ⟨wellBuilt_memo, element, same_anyChild, ⟨read_anyChild, read_childFromOne⟩,
    ⟨counted read_anyChild ⟨_, _, rfl⟩, counted read_childFromOne ⟨_, _, rfl⟩⟩,
    (h.isMatch_child {} (.inl rfl) read_leadingChild ⟨_, _, rfl⟩ 7).trans
      (congrArg Except.ok (h.satisfies_first_top element top)), counted read_childOne ⟨_, _, rfl⟩⟩

end Tree
end SelectorEngine
