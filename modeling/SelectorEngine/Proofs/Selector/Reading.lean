import SelectorEngine.Proofs.Selector.Branches
import SelectorEngine.Proofs.Selector.Chains

/-! # What reading guarantees

A text that is read is not blank, and the parts of every branch form a chain. -/
namespace SelectorEngine

variable {A : Type} {nested : List Char → Except SelectorError A}

/-- Parts that make links once they follow `previous`. -/
def Follow (previous : Option (Part A)) (parts : List (Part A)) : Prop :=
  match previous with
  | some (.combinator relation) => (linksOf? (.combinator relation :: parts)).isSome
  | _ => (linksOf? parts).isSome

variable {previous : Option (Part A)} {parts : List (Part A)} {text : List Char}

theorem follow_of_closed (h : ¬ isOpenEnd previous = true) :
    Follow previous parts ↔ (linksOf? parts).isSome = true := by
  rcases previous with _ | _ | relation
  · rfl
  · rfl
  · exact absurd rfl h

theorem follow_compound {block : Compound A} (h : Follow (some (.compound block)) parts) :
    Follow previous (.compound block :: parts) := by
  rcases previous with _ | _ | _ <;>
  · simpa [Follow, linksOf?] using h

theorem Yields.follow (h : Yields nested previous text parts) : Follow previous parts := by
  induction h with
  | done closed _ => exact (follow_of_closed (by simp [closed])).mpr rfl
  | combinator closed _ _ _ ih => exact (follow_of_closed (by simp [closed])).mpr ih
  | compound _ _ _ _ _ ih => exact follow_compound ih

theorem isSome_last?_linksOf? {parts : List (Part A)} {links : List (Link A)}
    (h : linksOf? parts = some links) (hne : parts ≠ []) :
    (Chain.last? ⟨none, links⟩).isSome = true := by
  unfold linksOf? at h
  split at h
  · exact (hne rfl).elim
  · obtain ⟨others, -, rfl⟩ := Option.map_eq_some_iff.mp h
    exact Chain.isSome_last?_cons
  · obtain ⟨others, -, rfl⟩ := Option.map_eq_some_iff.mp h
    exact Chain.isSome_last?_cons
  · cases h

theorem Chain.exists_of_follow {parts : List (Part A)} (h : Follow none parts) (hne : parts ≠ []) :
    ∃ chain, Chain.ofParts? parts = some chain ∧ chain.last?.isSome = true := by
  obtain ⟨links, hl⟩ := Option.isSome_iff_exists.mp h
  unfold ofParts?
  split
  · next block rest =>
    obtain ⟨links, hr, -⟩ := Option.map_eq_some_iff.mp hl
    refine ⟨⟨some block.simples, links⟩, by rw [hr]; rfl, ?_⟩
    cases links with
    | nil => rfl
    | cons => exact isSome_last?_cons
  · exact ⟨⟨none, links⟩, by rw [hl]; rfl, isSome_last?_linksOf? hl hne⟩

theorem YieldsAll.of_mem {branches : List (Complex A)} (h : YieldsAll nested text branches) :
    ∀ branch ∈ branches, branch.parts ≠ [] ∧ ∃ text, Yields nested none text branch.parts := by
  induction h with
  | single hy hne => exact List.forall_mem_singleton.mpr ⟨hne, _, hy⟩
  | comma hy hne _ ih => exact List.forall_mem_cons.mpr ⟨⟨hne, _, hy⟩, ih⟩

namespace SelectorList

variable {selector : String} {list : SelectorList}

theorem yieldsAll_of_parse (h : parse selector = .ok list) :
    YieldsAll (readListWithin selector.toList.length) selector.toList list.branches :=
  (parse_iff (Nat.le_refl _)).mp ⟨list, h, rfl⟩

theorem chains_of_parse (h : parse selector = .ok list) :
    ∀ branch ∈ list.branches, ∃ chain, Chain.ofParts? branch.parts = some chain ∧
      chain.last?.isSome = true := by
  intro branch hb
  obtain ⟨hne, text, yields⟩ := (yieldsAll_of_parse h).of_mem branch hb
  exact Chain.exists_of_follow yields.follow hne

def chain? (list : SelectorList) : Option (Chain SelectorList) :=
  match list.branches with
  | [branch] => Chain.ofParts? branch.parts
  | _ => none

theorem chain?_eq_some {chain : Chain SelectorList} (h : list.chain? = some chain) :
    ∃ branch, list.branches = [branch] ∧ Chain.ofParts? branch.parts = some chain := by
  rw [chain?] at h
  split at h
  · next branch hb => exact ⟨branch, hb, h⟩
  · cases h

theorem exists_chain (h : parse selector = .ok list) (one : list.branches.length = 1) :
    ∃ chain, list.chain? = some chain := by
  obtain ⟨branch, hb⟩ := List.length_eq_one_iff.mp one
  obtain ⟨chain, hc, -⟩ := chains_of_parse h branch (by simp [hb])
  exact ⟨chain, by rw [chain?, hb]; exact hc⟩

theorem isSome_last?_of_parse (h : parse selector = .ok list) {chain : Chain SelectorList}
    (hc : list.chain? = some chain) : chain.last?.isSome = true := by
  obtain ⟨branch, hb, hp⟩ := chain?_eq_some hc
  obtain ⟨chain', hc', hs⟩ := chains_of_parse h branch (by simp [hb])
  obtain rfl := Option.some.inj (hp.symm.trans hc')
  exact hs

theorem not_blank_of_parse (h : parse selector = .ok list) :
    (Text.trim selector.toList).isEmpty = false := by
  obtain ⟨c, hc, solid⟩ := (yieldsAll_of_parse h).exists_solid
  rw [List.isEmpty_eq_false_iff]
  intro blank
  rw [List.dropWhile_eq_nil_iff.mp (skipBlank_eq_nil blank) c hc] at solid
  cases solid

end SelectorList
end SelectorEngine
