import SelectorEngine.Proofs.Engine.Positional
import SelectorEngine.Proofs.Matching.Slices
import SelectorEngine.Proofs.Selector.Extending

/-! # Slices of a selection

A positional simple selector counts what is selected without it, whatever else its compound asks for
and whatever has been counted before. -/
namespace SelectorEngine

/-- The list with a position at the end of the last compound of its only branch. -/
def SelectorList.Adds (place : Position) (list counted : SelectorList) : Prop :=
  ∃ branch branch', list.branches = [branch] ∧ counted.branches = [branch'] ∧
    branch.Adds place branch'

theorem SelectorList.exists_adds {selector : String} {list : SelectorList}
    {branch : Complex SelectorList} {before : List (Part SelectorList)}
    {compound : Compound SelectorList} (read : parse selector = .ok list)
    (one : list.branches = [branch]) (ends : branch.parts = before ++ [.compound compound])
    {place : Position} (writable : (.position place : Simple SelectorList).Writable) :
    ∃ text counted, parse text = .ok counted ∧ list.Adds place counted := by
  obtain ⟨kept, blanks, source, counted, -, -, read', written⟩ := parse_extended
    (List.forall_mem_singleton.mpr writable) (List.forall_mem_singleton.mpr rfl) read one ends
  exact ⟨_, counted, read', branch, _, one, written, before, compound.source, compound.simples,
    source, ends, rfl⟩

namespace Tree

variable {t : Tree} {selector : String} {list : SelectorList} {context : NodeId}

theorem Linked.select_unmarked (h : t.Linked) (config : Config)
    (read : SelectorList.parse selector = .ok list) {branch : Complex SelectorList}
    (one : list.branches = [branch]) (valid : t.view.isContext context = true) :
    (⟨t.view, config, none⟩ : Engine NodeId).select selector context =
      .ok ((t.setting config).answerBranch (branch.map (SelectorList.query t.view config)) context
        none) := by
  rw [Engine.select_read valid read rfl, SelectorList.found_single one valid]
  exact congrArg Except.ok (h.evaluateBranch_unmarked config branch context none)

/-- A position can be written at the end of a compound that stands alone, or of the last compound of
a chain that counts. It takes a slice of what is selected without it: everything before an index, at
it and behind it, the first and the last member, and the members with an even or an odd index. -/
theorem selections_sliced (built : t.WellBuilt) (config : Config)
    (read : SelectorList.parse selector = .ok list) {branch : Complex SelectorList}
    (one : list.branches = [branch]) {before : List (Part SelectorList)}
    {compound : Compound SelectorList} (ends : branch.parts = before ++ [.compound compound])
    (counts : branch.parts.length = 1 ∨ list.hasPositional = true)
    (valid : t.view.isContext context = true) :
    ∃ found, (⟨t.view, config, none⟩ : Engine NodeId).select selector context = .ok found ∧
      (∀ place : Position, (.position place : Simple SelectorList).Writable →
        ∃ text counted, SelectorList.parse text = .ok counted ∧ list.Adds place counted) ∧
      (∀ place text counted, SelectorList.parse text = .ok counted → list.Adds place counted →
        (⟨t.view, config, none⟩ : Engine NodeId).select text context = .ok (place.slice found)) ∧
      (∀ n, (Position.lt n).slice found ++ (Position.eq n).slice found ++
        (Position.gt n).slice found = found) ∧
      Position.first.slice found = found.head?.toList ∧
      Position.last.slice found = found.getLast?.toList ∧
      ∀ k, (Position.even.slice found)[k]? = found[2 * k]? ∧
        (Position.odd.slice found)[k]? = found[2 * k + 1]? := by
  have h := built.linked
  refine ⟨_, h.select_unmarked config read one valid,
    fun place => SelectorList.exists_adds read one ends, ?_, fun n => Position.slices_append n _,
    rfl, rfl, fun k => ⟨Position.getElem?_even _ k, Position.getElem?_odd _ k⟩⟩
  rintro place text counted read' ⟨written, written', single, single', adds⟩
  obtain rfl : branch = written := List.singleton_inj.mp (one.symm.trans single)
  have counts' : (branch.map (SelectorList.query t.view config)).parts.length = 1 ∨
      (branch.map (SelectorList.query t.view config)).hasPositional Query.positional = true := by
    rw [Complex.map, List.length_map]
    refine counts.imp_right fun positional => ?_
    rw [SelectorList.hasPositional_eq, one] at positional
    exact (SelectorList.hasPositional_branch branch).trans (by simpa using positional)
  rw [h.select_unmarked config read' single' valid]
  exact congrArg Except.ok (Setting.answerBranch_adds (adds.map _) counts' context none)

def slicedParagraphs : SelectorList :=
  .mk "div > p:not(:first):gt(0)" [{ parts := [.compound ⟨"div", [.tag "div"]⟩, .combinator .child,
    .compound ⟨"p:not(:first):gt(0)", [.tag "p", .not .foremost, .position (.gt 0)]⟩] }]

theorem read_slicedParagraphs :
    SelectorList.parse "div > p:not(:first):gt(0)" = .ok slicedParagraphs := by cbv

theorem selections_sliced_columns :
    ∃ found, (⟨columns.build.view, {}, none⟩ : Engine NodeId).select "div > p:not(:first)" root =
        .ok found ∧
      (⟨columns.build.view, {}, none⟩ : Engine NodeId).select "div > p:not(:first):gt(0)" root =
        .ok ((Position.gt 0).slice found) := by
  let division : List (Part SelectorList) := [.compound ⟨"div", [.tag "div"]⟩, .combinator .child]
  have counts : laterParagraphs.hasPositional = true := by cbv
  obtain ⟨found, selected, -, sliced, -⟩ := selections_sliced columns.wellBuilt_build {}
    read_laterParagraphs rfl (show [_, _, _] = division ++ [_] from rfl) (.inr counts)
    columns.wellBuilt_build.linked.isContext_root
  exact ⟨found, selected, sliced _ _ _ read_slicedParagraphs ⟨_, _, rfl, rfl, division, _, _, _,
    rfl, rfl⟩⟩

end Tree
end SelectorEngine
