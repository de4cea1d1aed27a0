import Mathlib
import SelectorEngine.Proofs.Engine.Answers
import SelectorEngine.Proofs.Matching.Elements
import SelectorEngine.Proofs.Tree.Blueprints

/-! # The order of a seed

Out of a seed a branch selects some of its nodes. They keep the order of the seed as long as the
last compound is looked for from one node; what is found from several nodes is arranged first. -/
namespace SelectorEngine

open Setting (plainPart fragmentChain)

namespace Setting

variable {N : Type} [DecidableEq N]

/-- The nodes that the last compound of a chain is looked for from: what its other compounds lead to
if they are evaluated from left to right, and else the context. -/
def lastRoots (s : Setting N) (chain : Chain (Query N)) (context : N) : List N :=
  if !chain.links.isEmpty && chain.hasPositional Query.positional then
    s.answerForward { chain with links := chain.links.dropLast } context none
  else [context]

def approaches (s : Setting N) (link : Link (Query N)) (roots : List N) (n : N) : Bool :=
  roots.any fun root => s.chooses ⟨none, [⟨link.combinator, plainPart link.simples⟩]⟩ root n

variable {s : Setting N} {chain : Chain (Query N)} {link : Link (Query N)} {seed roots : List N}

theorem answerBackward_seed (reg : s.Regular) (hl : chain.All (Simple.Local s.view)) (context : N)
    (seed : List N) :
    s.answerBackward chain context (some seed) = seed.filter (s.chooses chain context) := by
  have unmarked := evaluateBackward_unmarked reg Marks.sound_empty hl.unmarked context (some seed)
  have chosen := evaluateBackward_seed reg Marks.sound_empty hl context seed
  exact unmarked.1.symm.trans chosen.1

theorem reach_few (few : roots.length ≤ 1) : (s.reach link (some seed) roots).Sublist seed := by
  rw [reach, if_neg (by omega)]
  rcases roots with _ | ⟨root, _ | ⟨other, roots⟩⟩
  · exact List.nil_sublist seed
  · rw [List.flatMap_singleton]
    exact answerWithin_sublist
  · simp at few

theorem mem_reach (reg : s.Regular) {n : N} :
    n ∈ roots.flatMap
        (fun root => s.answerBackward (fragmentChain link (some seed)) root (some seed)) ↔
      n ∈ seed.filter (s.approaches link roots) := by
  have each (root : N) : n ∈ s.answerBackward (fragmentChain link (some seed)) root (some seed) ↔
      n ∈ seed ∧ s.chooses ⟨none, [⟨link.combinator, plainPart link.simples⟩]⟩ root n = true := by
    rw [answerBackward_seed reg (fragmentChain_local s.view link _), List.mem_filter,
      fragmentChain_seed]
  simp only [List.mem_flatMap, each, List.mem_filter, approaches, List.any_eq_true]
  constructor
  · rintro ⟨root, hr, hn, chosen⟩
    exact ⟨hn, root, hr, chosen⟩
  · rintro ⟨hn, root, hr, chosen⟩
    exact ⟨root, hr, hn, chosen⟩

end Setting

namespace Tree

variable {t : Tree} {config : Config} {chain : Chain (Query NodeId)} {link : Link (Query NodeId)}
  {context : NodeId} {seed other roots : List NodeId}

namespace Linked

theorem reach_many (h : t.Linked) (many : 1 < roots.length) :
    (t.setting config).reach link (some seed) roots =
      t.view.arrange (seed.filter ((t.setting config).approaches link roots)) := by
  rw [Setting.reach, if_pos many]
  exact h.arrange_congr fun n => Setting.mem_reach (h.regular config)

theorem answerFragment_many (h : t.Linked) (many : 1 < roots.length) :
    ((t.setting config).answerFragment link (some seed) roots).Sublist (t.view.arrange seed) := by
  rw [Setting.answerFragment, h.reach_many many]
  exact (Setting.sift_sublist _ _).trans (h.arrange_sublist List.filter_sublist.subset)

theorem answerFragment_congr (h : t.Linked) (many : 1 < roots.length)
    (same : ∀ n, n ∈ other ↔ n ∈ seed) :
    (t.setting config).answerFragment link (some other) roots =
      (t.setting config).answerFragment link (some seed) roots := by
  have arranged : (t.setting config).reach link (some other) roots =
      (t.setting config).reach link (some seed) roots := by
    rw [h.reach_many many, h.reach_many many]
    refine h.arrange_congr fun n => ?_
    rw [List.mem_filter, List.mem_filter, same]
  rw [Setting.answerFragment, Setting.answerFragment, arranged]

variable {branch : Complex (Query NodeId)} (parts : Chain.ofParts? branch.parts = some chain)

include parts

theorem answerBranch_cases (t : Tree) (config : Config) (context : NodeId) :
    (∃ last, ∀ seed, (t.setting config).answerBranch branch context seed =
      (t.setting config).answerFragment last seed ((t.setting config).lastRoots chain context)) ∨
    (t.setting config).lastRoots chain context = [context] ∧
      ∀ seed, (t.setting config).answerBranch branch context seed =
        (t.setting config).answerBackward chain context seed := by
  simp only [Setting.answerBranch, Setting.lastRoots, parts]
  split
  · next forward =>
    left
    obtain ⟨head, links⟩ := chain
    rcases List.eq_nil_or_concat links with rfl | ⟨links, last, rfl⟩
    · cases forward
    · refine ⟨last, fun seed => ?_⟩
      rw [List.concat_eq_append, List.dropLast_concat]
      exact Setting.answerLinks_concat seed _
  · exact .inr ⟨rfl, fun seed => rfl⟩

theorem answerBranch_few (few : ((t.setting config).lastRoots chain context).length ≤ 1)
    (seed : List NodeId) :
    ((t.setting config).answerBranch branch context (some seed)).Sublist seed := by
  rcases answerBranch_cases parts t config context with ⟨last, ends⟩ | ⟨-, ends⟩
  · rw [ends, Setting.answerFragment]
    exact (Setting.sift_sublist _ _).trans (Setting.reach_few few)
  · rw [ends]
    exact Setting.answerWithin_sublist

theorem answerBranch_many (h : t.Linked)
    (many : 1 < ((t.setting config).lastRoots chain context).length) (seed : List NodeId) :
    ((t.setting config).answerBranch branch context (some seed)).Sublist (t.view.arrange seed) ∧
      ∀ other : List NodeId, (∀ n, n ∈ other ↔ n ∈ seed) →
        (t.setting config).answerBranch branch context (some other) =
          (t.setting config).answerBranch branch context (some seed) := by
  rcases answerBranch_cases parts t config context with ⟨last, ends⟩ | ⟨one, -⟩
  · rw [ends]
    refine ⟨h.answerFragment_many many, fun other same => ?_⟩
    rw [ends]
    exact h.answerFragment_congr many same
  · rw [one] at many
    exact absurd many (Nat.lt_irrefl 1)

end Linked

theorem lastRoots_plain {list : SelectorList} {chain : Chain SelectorList}
    (single : list.chain? = some chain) (plain : chain.links = [] ∨ list.hasPositional = false) :
    (t.setting config).lastRoots (t.meant config chain) context = [context] := by
  have backward : (!(t.meant config chain).links.isEmpty &&
      (t.meant config chain).hasPositional Query.positional) = false := by
    rw [hasPositional_meant single, meant, Chain.isEmpty_links_map]
    rcases plain with none | free
    · rw [none]
      rfl
    · rw [free, Bool.and_false]
  rw [Setting.lastRoots, backward]
  rfl

/-- The only branch of a selector keeps the order of a seed if its last compound is looked for from
one node at most, as it is without positional simple selectors and in a single compound. From
several nodes it selects in document order, and the same for every list of the nodes of the seed; so
a seed in document order is kept in any case. -/
theorem selectFrom_order (built : t.WellBuilt) (config : Config)
    (delegate : Option (Delegate NodeId)) {selector : String} {list : SelectorList}
    (read : SelectorList.parse selector = .ok list) (one : list.branches.length = 1)
    (valid : t.view.isContext context = true) (seed : List NodeId) :
    ∃ chain found, list.chain? = some chain ∧
      (⟨t.view, config, delegate⟩ : Engine NodeId).selectFrom selector context seed = .ok found ∧
      (chain.links = [] ∨ list.hasPositional = false → found.Sublist seed) ∧
      (((t.setting config).lastRoots (t.meant config chain) context).length ≤ 1 →
        found.Sublist seed) ∧
      (1 < ((t.setting config).lastRoots (t.meant config chain) context).length →
        found.Sublist (t.view.arrange seed) ∧
        ∀ other : List NodeId, (∀ n, n ∈ other ↔ n ∈ seed) →
          (⟨t.view, config, delegate⟩ : Engine NodeId).selectFrom selector context other =
            .ok found) ∧
      (seed.Pairwise t.Precedes → found.Sublist seed) := by
  have h := built.linked
  obtain ⟨chain, single⟩ := SelectorList.exists_chain read one
  obtain ⟨branch, hb, written⟩ := SelectorList.chain?_eq_some single
  have parts : Chain.ofParts? (branch.map (SelectorList.query t.view config)).parts =
      some (t.meant config chain) := ofParts?_meant written
  have selected (seed : List NodeId) :
      (⟨t.view, config, delegate⟩ : Engine NodeId).selectFrom selector context seed =
        .ok ((t.setting config).answerBranch (branch.map (SelectorList.query t.view config)) context
          (some seed)) := by
    rw [Engine.selectFrom_read valid read, SelectorList.found_single hb valid,
      ← h.evaluateBranch_unmarked]
    rfl
  have few (one : ((t.setting config).lastRoots (t.meant config chain) context).length ≤ 1) :=
    Linked.answerBranch_few parts one seed
  have many (several : 1 < ((t.setting config).lastRoots (t.meant config chain) context).length) :=
    Linked.answerBranch_many parts h several seed
  refine ⟨chain, _, single, selected seed, ?plain, few, ?several, ?ordered⟩
  case plain =>
    intro plain
    apply few
    rw [lastRoots_plain single plain]
    exact Nat.le_refl 1
  case several =>
    intro several
    refine ⟨(many several).1, fun other same => ?_⟩
    rw [selected other, (many several).2 other same]
  case ordered =>
    intro ordered
    -- A seed in document order is already arranged, so both cases keep its order.
    by_cases several : 1 < ((t.setting config).lastRoots (t.meant config chain) context).length
    · have arranged : seed = t.view.arrange seed := h.eq_arrange ordered fun _ => Iff.rfl
      obtain ⟨kept, -⟩ := many several
      rw [← arranged] at kept
      exact kept
    · exact few (Nat.not_lt.mp several)

def divided : Blueprint where
  children := [
    .element "section" [] [.element "div" [] [.element "p" [] [], .element "p" [] []]],
    .element "div" [] [.element "p" [] []]]

def firstNine : SelectorList :=
  .mk "div > p:lt(9)" [{ parts := [
    .compound ⟨"div", [.tag "div"]⟩,
    .combinator .child,
    .compound ⟨"p:lt(9)", [.tag "p", .position (.lt 9)]⟩] }]

theorem read_firstNine : SelectorList.parse "div > p:lt(9)" = .ok firstNine := by cbv

theorem selectFrom_order_firstNine :
    (∃ found, (⟨divided.build.view, {}, none⟩ : Engine NodeId).selectFrom "div > p:lt(9)" 1 [4, 3] =
      .ok found ∧ found.Sublist [4, 3]) ∧
    ∃ found, (⟨divided.build.view, {}, none⟩ : Engine NodeId).selectFrom "div > p:lt(9)" root
        [6, 3] = .ok found ∧ found.Sublist [3, 6] ∧
      (⟨divided.build.view, {}, none⟩ : Engine NodeId).selectFrom "div > p:lt(9)" root [3, 6, 3] =
        .ok found := by
  have built := divided.wellBuilt_build
  constructor
  · have valid : divided.build.view.isContext 1 = true := by decide
    obtain ⟨chain, found, single, selected, -, few, -⟩ :=
      selectFrom_order built {} none read_firstNine rfl valid [4, 3]
    cases single
    exact ⟨found, selected, few (by decide +kernel)⟩
  · obtain ⟨chain, found, single, selected, -, -, many, -⟩ := selectFrom_order built {} none
      read_firstNine rfl built.linked.isContext_root [6, 3]
    cases single
    obtain ⟨ordered, alike⟩ := many (by decide +kernel)
    have arranged : divided.build.view.arrange [6, 3] = [3, 6] := by decide +kernel
    rw [arranged] at ordered
    exact ⟨found, selected, ordered, alike [3, 6, 3] (by simp)⟩

/-- The paragraphs of two divisions come in the order of the document, whatever order the seed
has. -/
theorem seed_reordered :
    divided.build.WellBuilt ∧ divided.build.view.isContext root = true ∧ [6, 3].Nodup ∧
      SelectorList.parse "div > p:lt(9)" = .ok firstNine ∧ firstNine.branches.length = 1 ∧
      (⟨divided.build.view, {}, none⟩ : Engine NodeId).selectFrom "div > p:lt(9)" root [6, 3] =
        .ok [3, 6] ∧
      ¬ [3, 6].Sublist [6, 3] := by
  have built := divided.wellBuilt_build
  have valid := built.linked.isContext_root
  refine ⟨built, valid, by decide, read_firstNine, rfl, ?_, by decide⟩
  rw [Engine.selectFrom_read valid read_firstNine]
  decide +kernel

end Tree
end SelectorEngine
