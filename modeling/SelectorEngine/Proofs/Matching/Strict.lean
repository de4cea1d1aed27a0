import SelectorEngine.Blueprint
import SelectorEngine.Matching.Meaning
import SelectorEngine.Proofs.Selector.Nested
import SelectorEngine.View.Document

/-! # Strict evaluation

A branch is evaluated part by part, and three places of the evaluation would have nothing to go on
with if the parts were no chain: the last part may not be a compound, a combinator may have no
compound behind it, or none in front of it although it is not the first part. The strict evaluation
follows the parts themselves and fails there. It never fails on a branch that was read, and it has
the answer of the chain of the branch. -/
namespace SelectorEngine

/-- What parts lack that are no chain. -/
inductive Gap where
  | openEnd
  | noTarget
  | noOrigin
  deriving DecidableEq, Repr

def Part.isSibling {A : Type} : Part A → Bool
  | combinator relation => relation.isSibling
  | compound _ => false

namespace Setting

variable {N : Type} [DecidableEq N] (s : Setting N)

def strictNarrowing? (parts : List (Part (Query N))) (context : N) (seed : Option (List N)) :
    Option (Compound (Query N)) :=
  match parts, parts.getLast? with
  | .compound first :: second :: _, some (.compound last) =>
    if seed.isNone && !second.isSibling && !s.xml && s.view.isDocumentRoot context &&
      first.id?.isSome && last.id?.isNone then some first else none
  | _, _ => none

def strictScope (before : List (Part (Query N))) (context : N) : N :=
  match before with
  | [.combinator relation] =>
    if relation.isSibling then (s.view.parent context).getD context else context
  | _ => context

/-- Every trail followed past the parts in front of the last compound, given from right to left.
Only the first part of a branch may relate a node to the context. -/
def strictRelate (context : N) : (leftward : List (Part (Query N))) → List (Trail N) → Marks N →
    Except Gap (List (Trail N) × Marks N)
  | [], trails, marks => .ok (trails, marks)
  | .compound block :: before, trails, marks =>
    let (trails, marks) := s.relate .descendant (.block block.simples) trails marks
    strictRelate context before trails marks
  | .combinator relation :: .compound block :: before, trails, marks =>
    let (trails, marks) := s.relate relation (.block block.simples) trails marks
    strictRelate context before trails marks
  | [.combinator relation], trails, marks => .ok (s.relate relation (.context context) trails marks)
  | .combinator _ :: .combinator _ :: _, _, _ => .error .noOrigin

def strictWithin (parts : List (Part (Query N))) (context : N) (seed : Option (List N))
    (marks : Marks N) : Except Gap (List N × Marks N) :=
  match parts.getLast? with
  | some (.compound last) =>
    let before := parts.dropLast
    let (nodes, marks) := match seed with
      | some seed => s.filter last.simples seed marks
      | none => s.find last.simples (s.strictScope before context) marks
    if before.isEmpty then .ok (nodes, marks)
    else (s.strictRelate context before.reverse (nodes.map .reached) marks).map
      fun (trails, marks) => (keep nodes (trails.map (s.accepts context)), marks)
  | _ => .error .openEnd

def strictBackward (parts : List (Part (Query N))) (context : N) (seed : Option (List N))
    (marks : Marks N) : Except Gap (List N × Marks N) :=
  match s.strictNarrowing? parts context seed with
  | some first =>
    let (found, marks) := s.find first.simples context marks
    match found with
    | [] => .ok ([], marks)
    | element :: _ => s.strictWithin parts.tail element seed marks
  | none => s.strictWithin parts context seed marks

def strictSteps (relation : Combinator) (block : Compound (Query N)) (seed : Option (List N)) :
    List (Part (Query N)) :=
  let base : Part (Query N) := .compound ⟨block.source, plainPart block.simples⟩
  match relation, seed with
  | .descendant, none => [base]
  | relation, _ => [.combinator relation, base]

def strictFromEach (parts : List (Part (Query N))) (seed : Option (List N)) :
    (roots : List N) → Marks N → Except Gap (List N × Marks N)
  | [], marks => .ok ([], marks)
  | root :: roots, marks =>
    (s.strictBackward parts root seed marks).bind fun (found, marks) =>
      (strictFromEach parts seed roots marks).map fun (others, marks) => (found ++ others, marks)

def strictFragment (relation : Combinator) (block : Compound (Query N)) (seed : Option (List N))
    (roots : List N) (marks : Marks N) : Except Gap (List N × Marks N) :=
  (s.strictFromEach (strictSteps relation block seed) seed roots marks).map fun (found, marks) =>
    let found := if 1 < roots.length then s.view.arrange found else found
    s.filter (block.simples.filter (!·.isPlain)) found marks

def strictStep (relation : Combinator) (block : Compound (Query N)) (seed : Option (List N))
    (roots : List N) (marks : Marks N) (onward : List N → Marks N → Except Gap (List N)) :
    Except Gap (List N) :=
  (s.strictFragment relation block seed roots marks).bind fun (found, marks) =>
    if found.isEmpty then .ok [] else onward found marks

def strictFollow (seed : Option (List N)) : List (Part (Query N)) → (roots : List N) → Marks N →
    Except Gap (List N)
  | [], roots, _ => .ok roots
  | .compound block :: rest, roots, marks =>
    s.strictStep .descendant block (if rest.isEmpty then seed else none) roots marks
      (strictFollow seed rest)
  | .combinator relation :: .compound block :: rest, roots, marks =>
    s.strictStep relation block (if rest.isEmpty then seed else none) roots marks
      (strictFollow seed rest)
  | .combinator _ :: _, _, _ => .error .noTarget

def strictForward (parts : List (Part (Query N))) (context : N) (seed : Option (List N)) :
    Except Gap (List N) :=
  match parts with
  | .compound first :: rest =>
    (s.strictBackward [.compound first] context none {}).bind fun (start, marks) =>
      s.strictFollow seed rest start marks
  | parts => s.strictFollow seed parts [context] {}

def strictBranch (branch : Complex (Query N)) (context : N) (seed : Option (List N)) :
    Except Gap (List N) :=
  if 1 < branch.parts.length && branch.hasPositional Query.positional then
    s.strictForward branch.parts context seed
  else (s.strictBackward branch.parts context seed {}).map (·.1)

/-- Parts that are no chain do leave each of the gaps. -/
example (context : N) (seed : Option (List N)) (nodes : List N) (marks : Marks N) :
    s.strictWithin [.combinator .child] context seed marks = .error .openEnd ∧
      s.strictRelate context [.combinator .child, .combinator .general] (nodes.map .reached) marks =
        .error .noOrigin ∧
      s.strictFollow seed [.combinator .child] nodes marks = .error .noTarget := ⟨rfl, rfl, rfl⟩

end Setting

section Growth

variable {A : Type}

/-- The parts form the chain, and no first compound has a combinator behind it that is not
written. -/
structure Forms (parts : List (Part A)) (chain : Chain A) : Prop where
  nonempty : parts ≠ []
  chain : Chain.ofParts? parts = some chain
  second : parts[1]? ≠ some (.combinator .descendant)

/-- The parts form the chain, and both grow on the right. -/
inductive Grows : List (Part A) → Chain A → Prop where
  | compound (block : Compound A) : Grows [.compound block] ⟨some block.simples, []⟩
  | relative (relation : Combinator) (block : Compound A) :
      Grows [.combinator relation, .compound block] ⟨none, [⟨relation, block.simples⟩]⟩
  | space {before head links} (block : Compound A) : Grows before ⟨head, links⟩ →
      Grows (before ++ [.compound block]) ⟨head, links ++ [⟨.descendant, block.simples⟩]⟩
  | link {before head links} (relation : Combinator) (block : Compound A) :
      Grows before ⟨head, links⟩ → Grows (before ++ [.combinator relation] ++ [.compound block])
        ⟨head, links ++ [⟨relation, block.simples⟩]⟩

variable {parts before rest : List (Part A)} {chain : Chain A} {head : Option (List (Simple A))}
  {links more : List (Link A)}

theorem Compound.isSome_id? (block : Compound A) :
    block.id?.isSome = block.simples.any (·.id?.isSome) := by
  rw [Compound.id?, Bool.eq_iff_iff, List.findSome?_isSome_iff, List.any_eq_true]
  refine exists_congr fun simple => and_congr_right fun _ => ?_
  cases simple <;> exact Iff.rfl

theorem isSibling_of_links {second : Part A} (h : linksOf? (second :: rest) = some links) :
    ∃ link others, links = link :: others ∧ link.combinator.isSibling = second.isSibling := by
  rcases second with block | relation
  · obtain ⟨others, -, rfl⟩ := Option.map_eq_some_iff.mp h
    exact ⟨_, others, rfl, rfl⟩
  · rcases rest with _ | ⟨block | other, rest⟩
    · cases h
    · obtain ⟨others, -, rfl⟩ := Option.map_eq_some_iff.mp h
      exact ⟨_, others, rfl, rfl⟩
    · cases h

theorem isEmpty_of_links (h : linksOf? rest = some links) : rest.isEmpty = links.isEmpty := by
  cases rest with
  | nil =>
    cases h
    rfl
  | cons second rest =>
    obtain ⟨link, others, rfl, -⟩ := isSibling_of_links h
    rfl

namespace Grows

theorem of_links (h : Grows before ⟨head, links⟩) (hr : linksOf? rest = some more) :
    Grows (before ++ rest) ⟨head, links ++ more⟩ := by
  fun_induction linksOf? rest generalizing before links more with
  | case1 =>
    cases hr
    rwa [List.append_nil, List.append_nil]
  | case2 block rest ih =>
    obtain ⟨others, ho, rfl⟩ := Option.map_eq_some_iff.mp hr
    rw [List.append_cons before, List.append_cons links]
    exact ih (h.space block) ho
  | case3 relation block rest ih =>
    obtain ⟨others, ho, rfl⟩ := Option.map_eq_some_iff.mp hr
    rw [List.append_cons before, List.append_cons (before ++ _), List.append_cons links]
    exact ih (h.link relation block) ho
  | case4 => cases hr

theorem nonempty (h : Grows parts chain) : parts ≠ [] := by
  cases h <;> simp

theorem last (h : Grows parts chain) :
    ∃ before block, parts = before ++ [.compound block] ∧ chain.last? = some block.simples := by
  cases h with
  | compound block => exact ⟨[], block, rfl, rfl⟩
  | relative relation block => exact ⟨[.combinator relation], block, rfl, rfl⟩
  | space block => exact ⟨_, block, rfl, Chain.last?_concat⟩
  | link relation block => exact ⟨_, block, rfl, Chain.last?_concat⟩

theorem isEmpty_dropLast (h : Grows parts chain) :
    parts.dropLast.isEmpty = chain.links.isEmpty := by
  cases h with
  | compound => rfl
  | relative => rfl
  | space block h =>
    rw [List.dropLast_concat, List.isEmpty_eq_false_iff.mpr h.nonempty,
      List.isEmpty_eq_false_iff.mpr (List.concat_ne_nil _ _)]
  | link relation block h =>
    rw [List.dropLast_concat, List.isEmpty_eq_false_iff.mpr (List.concat_ne_nil _ _),
      List.isEmpty_eq_false_iff.mpr (List.concat_ne_nil _ _)]

theorem of_chain (hne : parts ≠ []) (hc : Chain.ofParts? parts = some chain) :
    Grows parts chain := by
  rcases parts with _ | ⟨first | relation, rest⟩
  · exact absurd rfl hne
  · obtain ⟨links, hl, rfl⟩ := Option.map_eq_some_iff.mp hc
    exact (compound first).of_links hl
  · obtain ⟨links, hl, rfl⟩ := Option.map_eq_some_iff.mp hc
    rcases rest with _ | ⟨block | other, rest⟩
    · cases hl
    · obtain ⟨others, ho, rfl⟩ := Option.map_eq_some_iff.mp hl
      exact (relative relation block).of_links ho
    · cases hl

end Grows

namespace Forms

theorem alone (block : Compound A) : Forms [.compound block] ⟨some block.simples, []⟩ :=
  ⟨List.cons_ne_nil _ _, rfl, nofun⟩

theorem relative (relation : Combinator) (block : Compound A) :
    Forms [.combinator relation, .compound block] ⟨none, [⟨relation, block.simples⟩]⟩ :=
  ⟨List.cons_ne_nil _ _, rfl, nofun⟩

theorem grows (h : Forms parts chain) : Grows parts chain := .of_chain h.nonempty h.chain

theorem tail {first : Compound A} {second : Part A}
    (h : Forms (.compound first :: second :: rest) chain) :
    Grows (second :: rest) chain.dropHead := by
  obtain ⟨-, hc, written⟩ := h
  obtain ⟨links, hl, rfl⟩ := Option.map_eq_some_iff.mp hc
  refine .of_chain (List.cons_ne_nil second rest) ?_
  cases second with
  | compound block =>
    obtain ⟨others, ho, rfl⟩ := Option.map_eq_some_iff.mp hl
    rw [Chain.ofParts?, ho]
    rfl
  | combinator relation =>
    have explicit : relation ≠ .descendant := fun same => written (same ▸ rfl)
    rcases rest with _ | ⟨block | other, rest⟩
    · cases hl
    · obtain ⟨others, ho, rfl⟩ := Option.map_eq_some_iff.mp hl
      have chain : Chain.ofParts? (.combinator relation :: .compound block :: rest) =
          some ⟨none, ⟨relation, block.simples⟩ :: others⟩ :=
        Option.map_eq_some_iff.mpr ⟨_, hl, rfl⟩
      simp only [Chain.dropHead, explicit, if_false, chain]
    · cases hl

end Forms

theorem Complex.WellFormed.forms {branch : Complex A} (h : branch.WellFormed) :
    ∃ chain, Forms branch.parts chain := by
  obtain ⟨chain, hc⟩ := h.chain
  refine ⟨chain, h.nonempty, hc, fun explicit => ?_⟩
  exact h.written .descendant (List.mem_of_getElem? explicit) rfl

end Growth

namespace Setting

variable {N : Type} [DecidableEq N] {s : Setting N} {parts : List (Part (Query N))}
  {chain : Chain (Query N)} {context : N} {seed : Option (List N)} {marks : Marks N}

/-- The last part of what stands in front is a compound, to which the next step on the left leads.
Only a lone combinator in front relates to the context. -/
theorem strictRelate_eq (h : Grows parts chain) (trails : List (Trail N)) (marks : Marks N) :
    s.strictRelate context parts.dropLast.reverse trails marks =
      .ok (s.relateAll context chain.leftwards trails marks) := by
  induction h generalizing trails marks with
  | compound => rfl
  | relative => rfl
  | space block h ih =>
    obtain ⟨before, last, rfl, hl⟩ := h.last
    rw [List.dropLast_concat] at ih ⊢
    rw [List.reverse_concat, strictRelate, Chain.leftwards_concat, hl, relateAll]
    exact ih _ _
  | link relation block h ih =>
    obtain ⟨before, last, rfl, hl⟩ := h.last
    rw [List.dropLast_concat] at ih ⊢
    rw [List.reverse_concat, List.reverse_concat, strictRelate, Chain.leftwards_concat, hl,
      relateAll]
    exact ih _ _

omit [DecidableEq N] in
theorem strictScope_of_more {before : List (Part (Query N))}
    (more : ∀ relation, before ≠ [.combinator relation]) :
    s.strictScope before context = context := by
  unfold strictScope
  split
  · next relation => exact absurd rfl (more relation)
  · rfl

omit [DecidableEq N] in
theorem scope_of_more {head : Option (List (Simple (Query N)))} {links : List (Link (Query N))}
    (h : (Chain.last? ⟨head, links⟩).isSome = true) (link : Link (Query N)) :
    s.scope ⟨head, links ++ [link]⟩ context = context := by
  rcases head with _ | first
  · rcases links with _ | ⟨next, links⟩
    · cases h
    · cases links <;> rfl
  · rfl

omit [DecidableEq N] in
theorem strictScope_eq (h : Grows parts chain) :
    s.strictScope parts.dropLast context = s.scope chain context := by
  cases h with
  | compound => rfl
  | relative => rfl
  | space block h =>
    obtain ⟨before, last, rfl, hl⟩ := h.last
    rw [List.dropLast_concat, scope_of_more (by rw [hl]; rfl)]
    refine strictScope_of_more fun relation same => ?_
    have ends := congrArg List.getLast? same
    rw [List.getLast?_concat] at ends
    cases ends
  | link relation block h =>
    obtain ⟨before, last, rfl, hl⟩ := h.last
    rw [List.dropLast_concat, scope_of_more (by rw [hl]; rfl)]
    refine strictScope_of_more fun relation same => ?_
    have length := congrArg List.length same
    simp at length

theorem strictWithin_eq (h : Grows parts chain) :
    s.strictWithin parts context seed marks = .ok (s.evaluateWithin chain context seed marks) := by
  have empty := h.isEmpty_dropLast
  have scope : s.strictScope parts.dropLast context = s.scope chain context := strictScope_eq h
  have related (trails : List (Trail N)) (marks : Marks N) :
      s.strictRelate context parts.dropLast.reverse trails marks =
        .ok (s.relateAll context chain.leftwards trails marks) := strictRelate_eq h trails marks
  obtain ⟨before, last, rfl, hl⟩ := h.last
  rw [List.dropLast_concat] at empty scope related
  rw [strictWithin, evaluateWithin, hl, List.getLast?_concat]
  simp only [List.dropLast_concat, empty, scope, related]
  split <;> rfl

omit [DecidableEq N] in
theorem strictNarrowing?_cases (h : Forms parts chain) (context : N) (seed : Option (List N)) :
    s.narrows chain context seed = false ∧ s.strictNarrowing? parts context seed = none ∨
      s.narrows chain context seed = true ∧ ∃ first second rest,
        parts = .compound first :: second :: rest ∧ chain.head = some first.simples ∧
          s.strictNarrowing? parts context seed = some first := by
  rcases parts with _ | ⟨first | relation, _ | ⟨second, rest⟩⟩
  · exact absurd rfl h.nonempty
  · obtain rfl : _ = chain := Option.some.inj h.chain
    exact .inl ⟨by simp [narrows], rfl⟩
  · obtain ⟨before, last, ends, hlast⟩ := h.grows.last
    obtain ⟨links, hl, rfl⟩ := Option.map_eq_some_iff.mp h.chain
    obtain ⟨link, others, rfl, sibling⟩ := isSibling_of_links hl
    have final : (Part.compound first :: second :: rest).getLast? = some (.compound last) := by
      rw [ends, List.getLast?_concat]
    have chosen : s.strictNarrowing? (.compound first :: second :: rest) context seed =
        if s.narrows ⟨some first.simples, link :: others⟩ context seed then some first
        else none := by
      simp only [strictNarrowing?, final, narrows, hlast, Option.getD_some, sibling,
        ← Compound.isSome_id?, ← Option.not_isSome]
      congr 1
      ac_rfl
    rw [chosen]
    cases s.narrows ⟨some first.simples, link :: others⟩ context seed with
    | false => exact .inl ⟨rfl, rfl⟩
    | true => exact .inr ⟨rfl, first, second, rest, rfl, rfl, rfl⟩
  · cases h.chain
  · obtain ⟨links, hl, rfl⟩ := Option.map_eq_some_iff.mp h.chain
    exact .inl ⟨by simp [narrows], rfl⟩

theorem strictBackward_eq (h : Forms parts chain) :
    s.strictBackward parts context seed marks =
      .ok (s.evaluateBackward chain context seed marks) := by
  rw [strictBackward, evaluateBackward]
  rcases s.strictNarrowing?_cases h context seed with
    ⟨stays, leads⟩ | ⟨narrowed, first, second, rest, rfl, head, leads⟩
  · rw [stays, leads]
    exact strictWithin_eq h.grows
  · rw [narrowed, leads, if_pos rfl, head]
    simp only [Option.getD_some]
    generalize s.find first.simples context marks = found
    obtain ⟨_ | ⟨element, others⟩, marks⟩ := found
    · rfl
    · exact strictWithin_eq h.tail

theorem strictFromEach_eq (h : Forms parts chain) (roots : List N) (marks : Marks N) :
    s.strictFromEach parts seed roots marks = .ok (s.evaluateFromEach chain seed roots marks) := by
  induction roots generalizing marks with
  | nil => rfl
  | cons root roots ih =>
    rw [strictFromEach, strictBackward_eq h, evaluateFromEach]
    simp only [Except.bind, ih]
    rfl

omit [DecidableEq N] in
/-- The parts of one step form its chain, though a combinator that is not written may stand in
them. -/
theorem forms_strictSteps (relation : Combinator) (block : Compound (Query N)) :
    Forms (strictSteps relation block seed) (fragmentChain ⟨relation, block.simples⟩ seed) := by
  cases relation with
  | descendant =>
    cases seed with
    | none => exact .alone _
    | some => exact .relative _ _
  | child | adjacent | general => exact .relative _ _

theorem strictFragment_eq (relation : Combinator) (block : Compound (Query N)) (roots : List N)
    (marks : Marks N) : s.strictFragment relation block seed roots marks =
      .ok (s.fragment ⟨relation, block.simples⟩ seed roots marks) := by
  rw [strictFragment, strictFromEach_eq (forms_strictSteps relation block), fragment]
  rfl

theorem filterEach_nil (simples : List (Simple (Query N))) (marks : Marks N) :
    (s.filterEach simples [] marks).1 = [] := by
  induction simples generalizing marks with
  | nil => rfl
  | cons simple simples ih => exact ih _

theorem followLinks_nil (links : List (Link (Query N))) (marks : Marks N) :
    (s.followLinks seed links [] marks).1 = [] := by
  induction links generalizing marks with
  | nil => rfl
  | cons link links ih =>
    rw [followLinks]
    have nothing : (s.fragment link (if links.isEmpty then seed else none) [] marks).1 = [] :=
      filterEach_nil _ _
    generalize s.fragment link (if links.isEmpty then seed else none) [] marks = found at nothing
    obtain ⟨_, marks⟩ := found
    obtain rfl := nothing
    exact ih marks

theorem strictStep_eq {rest : List (Part (Query N))} {links : List (Link (Query N))}
    (h : linksOf? rest = some links) (relation : Combinator) (block : Compound (Query N))
    (onward : ∀ roots marks, s.strictFollow seed rest roots marks =
      .ok (s.followLinks seed links roots marks).1) (roots : List N) (marks : Marks N) :
    s.strictStep relation block (if rest.isEmpty then seed else none) roots marks
      (s.strictFollow seed rest) =
        .ok (s.followLinks seed (⟨relation, block.simples⟩ :: links) roots marks).1 := by
  have empty : rest.isEmpty = links.isEmpty := isEmpty_of_links h
  rw [strictStep, strictFragment_eq, followLinks, empty]
  simp only [Except.bind]
  generalize s.fragment ⟨relation, block.simples⟩
    (if links.isEmpty then seed else none) roots marks = found
  obtain ⟨_ | ⟨n, found⟩, marks⟩ := found
  -- The parts end here, and the links go on to find nothing.
  · exact congrArg Except.ok (followLinks_nil links marks).symm
  · exact onward _ _

theorem strictFollow_eq {rest : List (Part (Query N))} {links : List (Link (Query N))}
    (h : linksOf? rest = some links) (roots : List N) (marks : Marks N) :
    s.strictFollow seed rest roots marks = .ok (s.followLinks seed links roots marks).1 := by
  fun_induction linksOf? rest generalizing links roots marks with
  | case1 =>
    cases h
    rfl
  | case2 block rest ih =>
    obtain ⟨others, ho, rfl⟩ := Option.map_eq_some_iff.mp h
    exact strictStep_eq ho .descendant block (ih ho) roots marks
  | case3 relation block rest ih =>
    obtain ⟨others, ho, rfl⟩ := Option.map_eq_some_iff.mp h
    exact strictStep_eq ho relation block (ih ho) roots marks
  | case4 => cases h

theorem strictForward_eq (h : Forms parts chain) :
    s.strictForward parts context seed = .ok (s.evaluateForward chain context seed {}).1 := by
  rcases parts with _ | ⟨first | relation, rest⟩
  · exact absurd rfl h.nonempty
  · obtain ⟨links, hl, rfl⟩ := Option.map_eq_some_iff.mp h.chain
    rw [strictForward, strictBackward_eq (.alone first)]
    exact strictFollow_eq hl _ _
  · obtain ⟨links, hl, rfl⟩ := Option.map_eq_some_iff.mp h.chain
    exact strictFollow_eq hl [context] {}

theorem strictBranch_eq {branch : Complex (Query N)} (h : branch.WellFormed) (context : N)
    (seed : Option (List N)) :
    s.strictBranch branch context seed = .ok (s.evaluateBranch branch context seed) := by
  obtain ⟨chain, hf⟩ := h.forms
  have grows := hf.grows
  have several : decide (1 < branch.parts.length) = !chain.links.isEmpty := by
    rw [← grows.isEmpty_dropLast]
    obtain ⟨before, last, ends, -⟩ := grows.last
    rw [ends, List.dropLast_concat, List.length_append]
    cases before <;> simp
  rw [strictBranch, evaluateBranch, hf.chain, several, ← Chain.hasPositional_ofParts? hf.chain]
  simp only
  split
  · exact strictForward_eq hf
  · rw [strictBackward_eq hf]
    rfl

end Setting

namespace SelectorList

/-- No branch of a selector, nor of an argument in it at any depth, leaves a gap: whatever it is
evaluated with, below whatever context and with whatever seed, the strict evaluation does not fail,
and nothing is missing from the answer. -/
theorem strict_of_parse {N : Type} [DecidableEq N] {selector : String} {list inner : SelectorList}
    (read : parse selector = .ok list) (holds : list.Holds inner) {branch : Complex SelectorList}
    (hb : branch ∈ inner.branches) (s : Setting N) (context : N) (seed : Option (List N)) :
    s.strictBranch (branch.map (query s.view s.config)) context seed =
      .ok (s.evaluateBranch (branch.map (query s.view s.config)) context seed) := by
  have formed : branch.WellFormed := wellFormed_of_parse read holds branch hb
  exact Setting.strictBranch_eq (formed.map _) context seed

def menu : Blueprint where
  children := [.element "ul" [("id", "menu")] [.element "li" [] [], .element "li" [] []],
    .element "p" [] []]

def laterItem : Complex SelectorList where
  parts := [.compound ⟨"#menu", [.id "menu"]⟩, .combinator .child, .compound ⟨"li", [.tag "li"]⟩,
    .combinator .adjacent, .compound ⟨"li", [.tag "li"]⟩]
  rest := some ":not(> li:first)"

def firstItem : Complex SelectorList where
  parts := [.combinator .child, .compound ⟨"li:first", [.tag "li", .position .first]⟩]

def menuList : SelectorList :=
  .mk "#menu > li + li, :not(> li:first)" [laterItem,
    { parts := [.compound ⟨":not(> li:first)", [.not (.mk "> li:first" [firstItem])]⟩] }]

theorem read_menuList : parse "#menu > li + li, :not(> li:first)" = .ok menuList := rfl

/-- One branch starts from the identifier, and the other one, which is nested, from a combinator. -/
theorem strict_of_parse_menu :
    parse "#menu > li + li, :not(> li:first)" = .ok menuList ∧
      menuList.Holds (.mk "> li:first" [firstItem]) ∧
      (⟨menu.build.view, {}, false⟩ : Setting NodeId).strictBranch
        (laterItem.map (query menu.build.view {})) 0 none = .ok [3] ∧
      (⟨menu.build.view, {}, false⟩ : Setting NodeId).strictBranch
        (firstItem.map (query menu.build.view {})) 1 (some [3, 2, 2]) = .ok [3] := by
  have holds : menuList.Holds (.mk "> li:first" [firstItem]) :=
    .deeper (List.mem_cons_of_mem _ (List.mem_singleton_self _)) (.inr (List.mem_singleton_self _))
      .self
  have outer := strict_of_parse read_menuList .self List.mem_cons_self
    (⟨menu.build.view, {}, false⟩ : Setting NodeId) 0 none
  have nested := strict_of_parse read_menuList holds (List.mem_singleton_self firstItem)
    (⟨menu.build.view, {}, false⟩ : Setting NodeId) 1 (some [3, 2, 2])
  refine ⟨read_menuList, holds, outer.trans (congrArg Except.ok ?_),
    nested.trans (congrArg Except.ok ?_)⟩
  · decide +kernel
  · decide +kernel

end SelectorList
end SelectorEngine
