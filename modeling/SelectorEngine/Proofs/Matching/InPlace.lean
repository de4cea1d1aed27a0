import Mathlib
import SelectorEngine.Proofs.Matching.Apart
import SelectorEngine.Proofs.Tree.Blueprints
import SelectorEngine.Selector.Reader

/-! # Negation in place and on its own

The verdicts that an argument gets where it stands are those that exclude its answer. This answer is
found from the document root, by an evaluation with marks of its own that meets every candidate as
often as it is listed. -/
namespace SelectorEngine

/-- A list that consists of one simple selector can be negated in place, unless this counts the
candidates, asks for a tag or is the star. -/
theorem single?_of_alone {A : Type} {branches : List (Complex A)} {compound : Compound A}
    {simple : Simple A} (one : branches.map (·.parts) = [[.compound compound]])
    (alone : compound.simples = [simple]) (uncounted : simple.isPositional = false)
    (untagged : ∀ name, simple ≠ .tag name) (unstarred : simple ≠ .universal) :
    single? branches = some simple := by
  obtain ⟨⟨parts, rest⟩, rfl, hparts⟩ := List.map_eq_singleton_iff.mp one
  obtain ⟨source, simples⟩ := compound
  obtain rfl : simples = [simple] := alone
  obtain rfl : parts = [.compound ⟨source, [simple]⟩] := hparts
  cases simple with
  | universal => exact absurd rfl unstarred
  | tag name => exact absurd rfl (untagged name)
  | position place => cases uncounted
  | _ => rfl

variable {N : Type} [DecidableEq N] {list : SelectorList} {simple : Simple SelectorList}

theorem Setting.verdicts_excluded {s : Setting N} (reg : s.Regular)
    (single : single? list.branches = some simple) (nodes : List N) (negate : Bool) {m : Marks N}
    (sound : m.Sound s.view.toOutline) :
    (s.verdicts (simple.map (SelectorList.query s.view s.config)) nodes (!negate) m).1 =
        (nodes.map fun n => !((list.query s.view s.config).answer s.view.documentRoot
          (some nodes)).contains n ^^ negate) ∧
      m.Follows s.view.toOutline
        (s.verdicts (simple.map (SelectorList.query s.view s.config)) nodes (!negate) m).2 := by
  obtain ⟨view, config, xml⟩ := s
  obtain rfl : view.isXml view.documentRoot = xml := reg.xml_root
  have faithful : (list.query view config).Faithful view :=
    list.faithful reg.linked reg.root_context
  obtain ⟨verdicts, follows⟩ :=
    faithful _ (SelectorList.inPlace_eq single) nodes (!negate) m sound
  refine ⟨verdicts.trans ?_, follows⟩
  simp only [Bool.xor_not, Bool.not_xor]

namespace Tree

/-- An argument that is one simple selector, neither positional nor a tag nor the star, is negated
in place by turning the flag around. These are the verdicts that exclude what the list selects out
of the candidates from the document root, whatever the candidates are and however often they are
listed. They are the same if no argument of the list is negated in place either, and the marks
remain sound. -/
theorem negation_in_place {t : Tree} (built : t.WellBuilt) (config : Config) {list : SelectorList}
    {compound : Compound SelectorList} {simple : Simple SelectorList}
    (one : list.branches.map (·.parts) = [[.compound compound]])
    (alone : compound.simples = [simple])
    (uncounted : simple.isPositional = false) (untagged : ∀ name, simple ≠ .tag name)
    (unstarred : simple ≠ .universal) (nodes : List NodeId) (negate : Bool) {m : Marks NodeId}
    (sound : m.Sound t.outline) :
    (t.setting config).verdicts (.not (list.query t.view config)) nodes negate m =
        (t.setting config).verdicts (simple.map (SelectorList.query t.view config)) nodes
          (!negate) m ∧
      ((t.setting config).verdicts (simple.map (SelectorList.query t.view config)) nodes (!negate)
          m).1 =
        (nodes.map fun n =>
          !((list.query t.view config).answer root (some nodes)).contains n ^^ negate) ∧
      ((t.setting config).verdicts (.not (list.apart t.view config)) nodes negate m).1 =
        (nodes.map fun n =>
          !((list.query t.view config).answer root (some nodes)).contains n ^^ negate) ∧
      m.Follows t.outline
        ((t.setting config).verdicts (.not (list.query t.view config)) nodes negate m).2 := by
  have h := built.linked
  have single := single?_of_alone one alone uncounted untagged unstarred
  have turned : (t.setting config).verdicts (.not (list.query t.view config)) nodes negate m =
      (t.setting config).verdicts (simple.map (SelectorList.query t.view config)) nodes
        (!negate) m :=
    Setting.verdicts_not_some (SelectorList.inPlace_eq single) nodes negate m
  have general : ((t.setting config).verdicts (.not (list.apart t.view config)) nodes negate m).1 =
      nodes.map fun n =>
        !((list.query t.view config).answer root (some nodes)).contains n ^^ negate := by
    rw [h.apart_eq_aside, Setting.verdicts_not_none rfl]
    rfl
  obtain ⟨excluded, follows⟩ :=
    Setting.verdicts_excluded (h.regular config) single nodes negate sound
  refine ⟨turned, excluded, general, ?_⟩
  rw [turned]
  exact follows

def pair : Blueprint where
  children := [.element "li" [] [], .element "li" [] [.text "2"]]

def later : SelectorList :=
  .mk ":not(:first)" [{ parts := [.compound ⟨":not(:first)", [.not (.mk ":first" [
    { parts := [.compound ⟨":first", [.position .first]⟩] }])]⟩] }]

theorem read_later : SelectorList.parse ":not(:first)" = .ok later := by cbv

/-- The first candidate is listed twice, so the negation of `:not(:first)` has a favourable verdict
for both of its places. -/
theorem negation_in_place_later :
    SelectorList.parse ":not(:first)" = .ok later ∧
      ((pair.build.setting {}).verdicts (.not (later.query pair.build.view {})) [2, 3, 0, 2] false
          {}).1 = [true, false, false, true] ∧
      (later.query pair.build.view {}).answer root (some [2, 3, 0, 2]) = [3, 0] := by
  have one : later.branches.map (·.parts) = [[.compound ⟨":not(:first)", [.not (.mk ":first" [
      { parts := [.compound ⟨":first", [.position .first]⟩] }])]⟩]] := rfl
  obtain ⟨turned, excluded, -⟩ := negation_in_place pair.wellBuilt_build {} one rfl rfl
    (fun _ h => by cases h) (fun h => by cases h) [2, 3, 0, 2] false Marks.sound_empty
  have found : (later.query pair.build.view {}).answer root (some [2, 3, 0, 2]) = [3, 0] := by
    decide +kernel
  refine ⟨read_later, ?_, found⟩
  rw [turned, excluded, found]
  decide

end Tree
end SelectorEngine
