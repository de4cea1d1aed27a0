import SelectorEngine.Proofs.Matching.Nested

/-! # Negation in place

Whether an argument consists of one simple selector decides how it is negated: in place, with the
kind of document that the negation itself is evaluated with, or as a list that is evaluated on its
own. In place every verdict is turned into its opposite. -/
namespace SelectorEngine

theorem single?_map {A B : Type} (f : A → B) : ∀ branches : List (Complex A),
    single? (branches.map (Complex.map f)) = (single? branches).map (Simple.map f)
  | [] => rfl
  | [⟨[.compound ⟨_, [simple]⟩], _⟩] => by cases simple <;> rfl
  | [⟨[], _⟩] => rfl
  | [⟨[.compound ⟨_, []⟩], _⟩] => rfl
  | [⟨[.compound ⟨_, _ :: _ :: _⟩], _⟩] => rfl
  | [⟨[.combinator _], _⟩] => rfl
  | [⟨_ :: _ :: _, _⟩] => by simp [single?, Complex.map]
  | _ :: _ :: _ => by simp [single?]

theorem Simple.isPositional_map {A B : Type} (f : A → B) (simple : Simple A) :
    (simple.map f).isPositional = simple.isPositional := by
  cases simple <;> rfl

/-- Whether the verdicts depend on the kind of document. An argument that is evaluated on its own
has a kind of its own. -/
def Simple.readsKind {A : Type} (argument : A → Bool) : Simple A → Bool
  | tag _ => true
  | attr test => test.name == "class" || test.name == "for"
  | not list => argument list
  | _ => false

def SelectorList.readsKind : SelectorList → Bool :=
  SelectorList.fold fun _ branches => (single? branches).any (Simple.readsKind fun nested => nested)

theorem SelectorList.readsKind_eq (list : SelectorList) :
    list.readsKind = (single? list.branches).any (Simple.readsKind readsKind) := by
  rw [readsKind, fold_eq, single?_map, Option.any_map]
  congr 1
  funext simple
  cases simple <;> rfl

variable {N : Type} [DecidableEq N] {view : TreeView N} {config : Config}

namespace SelectorList

theorem inPlace_query (list : SelectorList) : (list.query view config).inPlace =
    (single? list.branches).map fun simple xml =>
      (⟨view, config, xml⟩ : Setting N).verdicts (simple.map (query view config)) := by
  rw [query_eq, Query.ofBranches, single?_map, Option.map_map]
  rfl

theorem inPlace_eq {list : SelectorList} {simple : Simple SelectorList}
    (single : single? list.branches = some simple) : (list.query view config).inPlace =
      some fun xml => (⟨view, config, xml⟩ : Setting N).verdicts
        (simple.map (query view config)) := by
  rw [inPlace_query, single]
  rfl

end SelectorList

namespace Setting

theorem passes_kind {simple : Simple SelectorList}
    (h : simple.readsKind SelectorList.readsKind = false) (xml xml' : Bool) (n : N) :
    (⟨view, config, xml⟩ : Setting N).passes (simple.map (SelectorList.query view config)) n =
      (⟨view, config, xml'⟩ : Setting N).passes
        (simple.map (SelectorList.query view config)) n := by
  cases simple with
  | tag => cases h
  | attr test =>
    rw [Simple.readsKind, Bool.or_eq_false_iff, beq_eq_false_iff_ne, beq_eq_false_iff_ne] at h
    simp only [passes, Simple.map, attrValue, h.1, h.2, if_false, ite_self]
  | _ => rfl

theorem nthChildren_kind (xml xml' : Bool) (formula : AnPlusB) (generation : Nat) (nodes : List N)
    (m : Marks N) :
    (⟨view, config, xml⟩ : Setting N).nthChildren formula generation nodes m =
      (⟨view, config, xml'⟩ : Setting N).nthChildren formula generation nodes m := by
  induction nodes generalizing m with
  | nil => rfl
  | cons n nodes ih =>
    simp only [nthChildren]
    rw [ih]
    rfl

theorem verdicts_not_none {s : Setting N} {q : Query N} (h : q.inPlace = none) (nodes : List N)
    (negate : Bool) (m : Marks N) : s.verdicts (.not q) nodes negate m =
      (nodes.map fun n =>
        !(q.answer s.view.documentRoot (some nodes)).contains n ^^ negate, m) := by
  simp only [verdicts, h]

theorem verdicts_not_some {s : Setting N} {q : Query N} {inPlace : (xml : Bool) → Verdicts N}
    (h : q.inPlace = some inPlace) (nodes : List N) (negate : Bool) (m : Marks N) :
    s.verdicts (.not q) nodes negate m = inPlace s.xml nodes (!negate) m := by
  simp only [verdicts, h]

theorem verdicts_kind_of_nested {simple : Simple SelectorList}
    (h : simple.readsKind SelectorList.readsKind = false)
    (nested : ∀ list, simple = .not list → ∀ inPlace ∈ (list.query view config).inPlace,
      ∀ xml xml', inPlace xml = inPlace xml') (xml xml' : Bool) :
    (⟨view, config, xml⟩ : Setting N).verdicts (simple.map (SelectorList.query view config)) =
      (⟨view, config, xml'⟩ : Setting N).verdicts
        (simple.map (SelectorList.query view config)) := by
  funext nodes negate m
  cases simple with
  | not list =>
    rw [Simple.map]
    cases hp : (list.query view config).inPlace with
    | none => rw [verdicts_not_none hp, verdicts_not_none hp]
    | some inPlace =>
      rw [verdicts_not_some hp, verdicts_not_some hp, nested list rfl inPlace hp xml xml']
  | child place =>
    cases place with
    | nth formula =>
      simp only [Simple.map, verdicts]
      rw [nthChildren_kind xml xml']
    | _ => rfl
  | position => rfl
  | _ =>
    refine Prod.ext (List.map_congr_left fun n _ => ?_) rfl
    exact congrArg (· ^^ negate) (passes_kind h xml xml' n)

end Setting

namespace SelectorList

/-- By induction on the depth of its arguments, what is negated in place and does not read the kind
of document says the same in every document. -/
theorem inPlace_kind (list : SelectorList) (h : list.readsKind = false) :
    ∀ inPlace ∈ (list.query view config).inPlace, ∀ xml xml', inPlace xml = inPlace xml' := by
  induction list using SelectorList.induction with
  | step list ih =>
    intro inPlace hp xml xml'
    rw [inPlace_query] at hp
    obtain ⟨simple, hs, rfl⟩ := Option.map_eq_some_iff.mp hp
    rw [readsKind_eq, hs, Option.any_some] at h
    obtain ⟨-, source, rest, hb⟩ := single?_eq_some hs
    refine Setting.verdicts_kind_of_nested h (fun nested he => ?_) xml xml'
    subst he
    exact ih _ (hb ▸ List.mem_singleton_self _) nested (.inr (List.mem_singleton_self _)) h

end SelectorList

theorem Setting.verdicts_kind {simple : Simple SelectorList}
    (h : simple.readsKind SelectorList.readsKind = false) (xml xml' : Bool) :
    (⟨view, config, xml⟩ : Setting N).verdicts (simple.map (SelectorList.query view config)) =
      (⟨view, config, xml'⟩ : Setting N).verdicts
        (simple.map (SelectorList.query view config)) := by
  refine verdicts_kind_of_nested h (fun list he => ?_) xml xml'
  subst he
  exact list.inPlace_kind h

/-- In place the query says of each node what it says of it anywhere in the list, or the
opposite. -/
def Query.Flips (view : TreeView N) (q : Query N) : Prop :=
  ∀ inPlace ∈ q.inPlace, ∀ xml nodes, ∃ f : N → Bool, ∀ negate (m : Marks N),
    m.Sound view.toOutline → (inPlace xml nodes negate m).1 = nodes.map (f · ^^ negate)

namespace Setting

variable {s : Setting N}

theorem exists_verdicts (linked : s.view.toOutline.Linked) {simple : Simple (Query N)}
    (hp : simple.isPositional = false) (hq : ∀ q, simple = .not q → q.Flips s.view)
    (nodes : List N) :
    ∃ f : N → Bool, ∀ negate (m : Marks N), m.Sound s.view.toOutline →
      (s.verdicts simple nodes negate m).1 = nodes.map (f · ^^ negate) := by
  cases simple with
  | position => cases hp
  | not q =>
    cases hplace : q.inPlace with
    | none =>
      refine ⟨fun n => !(q.answer s.view.documentRoot (some nodes)).contains n,
        fun negate m _ => ?_⟩
      rw [verdicts_not_none hplace]
    | some inPlace =>
      obtain ⟨f, hf⟩ := hq q rfl inPlace hplace s.xml nodes
      refine ⟨fun n => !f n, fun negate m hm => ?_⟩
      rw [verdicts_not_some hplace, hf (!negate) m hm]
      simp only [Bool.xor_not, Bool.not_xor]
  | child place =>
    cases place with
    | nth formula =>
      refine ⟨s.stands formula, fun negate m hm => ?_⟩
      have counted :=
        (nthChildren_eq linked (Marks.follows_advance hm).sound (Nat.le_refl _) formula nodes).1
      simp only [verdicts, counted, List.map_map]
      rfl
    | _ => exact ⟨_, fun _ _ _ => rfl⟩
  | _ => exact ⟨_, fun _ _ _ => rfl⟩

theorem evaluateBranch_verdicts {simple : Simple (Query N)} (hp : simple.isPositional = false)
    (source : String) (rest : Option String) (context : N) (seed : List N) :
    s.evaluateBranch ⟨[.compound ⟨source, [simple]⟩], rest⟩ context (some seed) =
      keep seed (s.verdicts simple seed false {}).1 := by
  have order : evaluationOrder [simple] = [simple] := by simp [evaluationOrder, hp]
  have run : s.evaluateBranch ⟨[.compound ⟨source, [simple]⟩], rest⟩ context (some seed) =
      (s.filterEach (evaluationOrder [simple]) seed {}).1 := rfl
  rw [run, order]
  rfl

end Setting

theorem SelectorList.flips (linked : view.toOutline.Linked) (list : SelectorList) :
    (list.query view config).Flips view := by
  induction list using SelectorList.induction with
  | step list ih =>
    intro inPlace hplace xml nodes
    rw [inPlace_query] at hplace
    obtain ⟨simple, hs, rfl⟩ := Option.map_eq_some_iff.mp hplace
    obtain ⟨hp, source, rest, hb⟩ := single?_eq_some hs
    refine Setting.exists_verdicts (s := ⟨view, config, xml⟩) linked ?_ (fun q he => ?_) nodes
    · rw [Simple.isPositional_map, hp]
    · cases simple with
      | not nested =>
        cases he
        exact ih _ (hb ▸ List.mem_singleton_self _) nested (.inr (List.mem_singleton_self _))
      | _ => cases he

end SelectorEngine
