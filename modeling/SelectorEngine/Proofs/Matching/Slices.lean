import SelectorEngine.Proofs.Matching.Unmarked

/-! # Slices

A positional simple selector at the end of a compound takes a slice of what is selected without it.
It is tested last, no index finds anything by it, and in a chain it does not belong to the plain
part. -/
namespace SelectorEngine

open Setting (plainPart fragmentChain)

section Lists

variable {N : Type}

def everyOther : List N → List N
  | [] => []
  | [n] => [n]
  | n :: _ :: nodes => n :: everyOther nodes

/-- The part of a list that a position stands for. -/
def Position.slice : Position → List N → List N
  | first, nodes => nodes.head?.toList
  | last, nodes => nodes.getLast?.toList
  | even, nodes => everyOther nodes
  | odd, nodes => everyOther nodes.tail
  | eq n, nodes => nodes[n]?.toList
  | lt n, nodes => nodes.take n
  | gt n, nodes => nodes.drop (n + 1)

theorem getElem?_everyOther (nodes : List N) (k : Nat) :
    (everyOther nodes)[k]? = nodes[2 * k]? := by
  fun_induction everyOther nodes generalizing k with
  | case1 => rfl
  | case2 n => cases k <;> rfl
  | case3 n other nodes ih =>
    cases k with
    | zero => rfl
    | succ k => exact ih k

theorem Position.getElem?_even (nodes : List N) (k : Nat) :
    (even.slice nodes)[k]? = nodes[2 * k]? :=
  getElem?_everyOther nodes k

theorem Position.getElem?_odd (nodes : List N) (k : Nat) :
    (odd.slice nodes)[k]? = nodes[2 * k + 1]? := by
  rw [slice, getElem?_everyOther, List.getElem?_tail]

theorem Position.slice_nil (place : Position) : place.slice ([] : List N) = [] := by
  cases place <;> simp [slice, everyOther]

theorem Position.slices_append (n : Nat) (nodes : List N) :
    (lt n).slice nodes ++ (eq n).slice nodes ++ (gt n).slice nodes = nodes := by
  simp only [slice]
  rw [← List.take_add_one, List.take_append_drop]

/-- The members whose numbers, with the first one counted as `start`, pass a test. -/
def numbered (test : Nat → Bool) (start : Nat) (nodes : List N) : List N :=
  keep nodes ((nodes.zipIdx start).map fun (_, index) => test index)

variable {test : Nat → Bool} {start : Nat} {nodes : List N}

theorem numbered_cons (test : Nat → Bool) (start : Nat) (n : N) (nodes : List N) :
    numbered test start (n :: nodes) =
      (if test start then [n] else []) ++ numbered test (start + 1) nodes := by
  cases h : test start <;> simp [numbered, keep, h]

theorem numbered_everyOther (here : test start = true)
    (step : ∀ index, test (index + 1) = !test index) :
    numbered test start nodes = everyOther nodes := by
  fun_induction everyOther nodes generalizing start with
  | case1 => rfl
  | case2 n =>
    rw [numbered_cons, here]
    rfl
  | case3 n other nodes ih =>
    have next : test (start + 1) = false := by rw [step, here, Bool.not_true]
    have again : test (start + 1 + 1) = true := by rw [step, next, Bool.not_false]
    rw [numbered_cons, numbered_cons, here, next, ih again]
    rfl

theorem numbered_between {low high : Nat} (meant : ∀ index, start ≤ index →
      index < start + nodes.length → (test index = true ↔ low ≤ index ∧ index < high)) :
    numbered test start nodes = (nodes.take (high - start)).drop (low - start) := by
  induction nodes generalizing start with
  | nil => simp [numbered, keep]
  | cons n nodes ih =>
    rw [List.length_cons] at meant
    have here := meant start (Nat.le_refl _) (by omega)
    rw [numbered_cons, ih fun index below above => meant index (by omega) (by omega)]
    by_cases hit : test start = true
    · obtain ⟨below, above⟩ := here.mp hit
      obtain ⟨more, count⟩ : ∃ more, high - start = more + 1 := ⟨high - start - 1, by omega⟩
      have skip : low - start = 0 := by omega
      have rest : high - (start + 1) = more := by omega
      have skip' : low - (start + 1) = 0 := by omega
      rw [if_pos hit, count, skip, rest, skip', List.take_succ_cons]
      rfl
    · rw [if_neg hit, List.nil_append]
      by_cases late : high ≤ start
      · have done : high - start = 0 := by omega
        have done' : high - (start + 1) = 0 := by omega
        rw [done, done', List.take_zero, List.take_zero, List.drop_nil, List.drop_nil]
      · have early : ¬ low ≤ start := fun below => hit (here.mpr ⟨below, by omega⟩)
        obtain ⟨more, count⟩ : ∃ more, high - start = more + 1 := ⟨high - start - 1, by omega⟩
        obtain ⟨skip, wait⟩ : ∃ skip, low - start = skip + 1 := ⟨low - start - 1, by omega⟩
        have rest : high - (start + 1) = more := by omega
        have rest' : low - (start + 1) = skip := by omega
        rw [count, wait, rest, rest', List.take_succ_cons, List.drop_succ_cons]

theorem numbered_interval (low high : Nat) (meant : ∀ index, index < nodes.length →
      (test index = true ↔ low ≤ index ∧ index < high)) :
    numbered test 0 nodes = (nodes.take high).drop low :=
  numbered_between fun index _ above => meant index (by omega)

theorem Position.numbered_holds (place : Position) (nodes : List N) :
    numbered (place.holds · nodes.length) 0 nodes = place.slice nodes := by
  have parity (index : Nat) : ((index + 1) % 2 == 0) = !(index % 2 == 0) ∧
      ((index + 1) % 2 == 1) = !(index % 2 == 1) := by
    rcases Nat.mod_two_eq_zero_or_one index with h | h <;> simp [Nat.add_mod, h]
  cases place with
  | first =>
    rw [numbered_interval 0 1 fun index _ => by simp [holds]]
    exact List.take_one
  | last =>
    rw [numbered_interval (nodes.length - 1) nodes.length fun index _ => by
      rw [holds, beq_iff_eq]; omega]
    rw [List.take_length]
    rcases List.eq_nil_or_concat nodes with rfl | ⟨front, n, rfl⟩
    · rfl
    · simp [slice]
  | even =>
    change numbered (even.holds · nodes.length) 0 nodes = everyOther nodes
    exact numbered_everyOther rfl fun index => (parity index).1
  | odd =>
    cases nodes with
    | nil => rfl
    | cons n nodes =>
      rw [numbered_cons]
      change numbered (odd.holds · (n :: nodes).length) 1 nodes = everyOther nodes
      exact numbered_everyOther rfl fun index => (parity index).2
  | eq n =>
    rw [numbered_interval n (n + 1) fun index _ => by rw [holds, beq_iff_eq]; omega]
    rw [List.drop_take, Nat.add_sub_cancel_left, List.take_one, List.head?_drop]
    rfl
  | lt n =>
    rw [numbered_interval 0 n fun index _ => by simp [holds]]
    rfl
  | gt n =>
    rw [numbered_interval (n + 1) nodes.length fun index above => by simp [holds]; omega]
    rw [List.take_length]
    rfl

end Lists

/-- The branch with a position at the end of its last compound. The text of that compound is another
one. -/
def Complex.Adds {A : Type} (place : Position) (branch counted : Complex A) : Prop :=
  ∃ before source simples source',
    branch.parts = before ++ [.compound ⟨source, simples⟩] ∧
      counted.parts = before ++ [.compound ⟨source', simples ++ [.position place]⟩]

theorem Complex.Adds.map {A B : Type} (f : A → B) {place : Position} {branch counted : Complex A}
    (h : branch.Adds place counted) : (branch.map f).Adds place (counted.map f) := by
  obtain ⟨before, source, simples, source', written, written'⟩ := h
  refine ⟨before.map (Part.map f), source, simples.map (Simple.map f), source', ?_, ?_⟩
  · simp [Complex.map, written, Part.map, Compound.map]
  · simp [Complex.map, written', Part.map, Compound.map, Simple.map]

theorem Complex.Adds.hasPositional {A : Type} (argument : A → Bool) {place : Position}
    {branch counted : Complex A} (h : branch.Adds place counted) :
    counted.hasPositional argument = true := by
  obtain ⟨before, source, simples, source', -, written⟩ := h
  simp [Complex.hasPositional, written, Part.hasPositional, Compound.hasPositional,
    Simple.hasPositional]

theorem evaluationOrder_concat {A : Type} (simples : List (Simple A)) (place : Position) :
    evaluationOrder (simples ++ [.position place]) =
      evaluationOrder simples ++ [.position place] := by
  simp [evaluationOrder, Simple.isPositional]

variable {N : Type} [DecidableEq N]

namespace Setting

variable {s : Setting N} {place : Position}

omit [DecidableEq N] in
theorem plainPart_concat (simples : List (Simple (Query N))) (place : Position) :
    plainPart (simples ++ [.position place]) = plainPart simples := by
  have none : [(.position place : Simple (Query N))].filter (·.isPlain) = [] := rfl
  rw [plainPart, List.filter_append, none, List.append_nil]
  rfl

theorem sift_append (first second : List (Simple (Query N))) (nodes : List N) :
    s.sift (first ++ second) nodes = s.sift second (s.sift first nodes) := by
  induction first generalizing nodes with
  | nil => rfl
  | cons simple first ih => exact ih _

theorem sift_position (place : Position) (nodes : List N) :
    s.sift [.position place] nodes = place.slice nodes := by
  rw [← place.numbered_holds]
  rfl

theorem sift_concat (simples : List (Simple (Query N))) (place : Position) (nodes : List N) :
    s.sift (evaluationOrder (simples ++ [.position place])) nodes =
      place.slice (s.sift (evaluationOrder simples) nodes) := by
  rw [evaluationOrder_concat, sift_append, sift_position]

omit [DecidableEq N] in
theorem candidates_concat (simples : List (Simple (Query N))) (place : Position) (scope : N) :
    s.candidates (simples ++ [.position place]) scope =
      (s.candidates simples scope).leave (· ++ [.position place]) := by
  refine candidates_leave (f := (· ++ [.position place]))
    (fun use hu => extract?_append ?_ simples) ?_
  · intro simple hs
    rw [List.mem_singleton.mp hs, indexUses_position hu]
  · rcases simples with _ | ⟨simple, simples⟩
    · rfl
    · cases simple <;> rfl

theorem search_concat (simples : List (Simple (Query N))) (place : Position) (scope : N) :
    s.search (simples ++ [.position place]) scope = place.slice (s.search simples scope) := by
  rw [search, search, candidates_concat]
  exact sift_concat _ place _

theorem start_concat (simples : List (Simple (Query N))) (place : Position) (scope : N)
    (seed : Option (List N)) :
    s.start (simples ++ [.position place]) scope seed =
      place.slice (s.start simples scope seed) := by
  cases seed with
  | none => exact search_concat simples place scope
  | some seed => exact sift_concat simples place seed

theorem answerBackward_single (simples : List (Simple (Query N))) (context : N)
    (seed : Option (List N)) :
    s.answerBackward ⟨some simples, []⟩ context seed = s.start simples context seed := by
  have narrow : s.narrows ⟨some simples, []⟩ context seed = false := by simp [narrows]
  have all : s.holds ⟨some simples, []⟩ context = fun _ => true := rfl
  rw [answerBackward, narrow, if_neg Bool.false_ne_true, answerWithin]
  simp only [Chain.last?, List.getLast?_nil, all, List.filter_true]
  rfl

theorem answerFragment_concat (combinator : Combinator) (simples : List (Simple (Query N)))
    (place : Position) (seed : Option (List N)) (roots : List N) :
    s.answerFragment ⟨combinator, simples ++ [.position place]⟩ seed roots =
      place.slice (s.answerFragment ⟨combinator, simples⟩ seed roots) := by
  have chain : fragmentChain ⟨combinator, simples ++ [.position place]⟩ seed =
      fragmentChain ⟨combinator, simples⟩ seed := by
    simp only [fragmentChain, plainPart_concat]
  have counted : [(.position place : Simple (Query N))].filter (!·.isPlain) =
      [.position place] := rfl
  rw [answerFragment, answerFragment, reach, reach, chain]
  simp only [List.filter_append, counted]
  exact sift_concat _ place _

theorem answerForward_concat (head : Option (List (Simple (Query N))))
    (links : List (Link (Query N)))
    (combinator : Combinator) (simples : List (Simple (Query N))) (place : Position) (context : N)
    (seed : Option (List N)) :
    s.answerForward ⟨head, links ++ [⟨combinator, simples ++ [.position place]⟩]⟩ context seed =
      place.slice (s.answerForward ⟨head, links ++ [⟨combinator, simples⟩]⟩ context seed) := by
  rw [answerForward, answerForward, answerLinks_concat, answerLinks_concat]
  exact answerFragment_concat combinator simples place seed _

theorem answerBranch_forward {branch : Complex (Query N)} {chain : Chain (Query N)}
    (formed : Chain.ofParts? branch.parts = some chain) (several : chain.links ≠ [])
    (counts : branch.hasPositional Query.positional = true) (context : N) (seed : Option (List N)) :
    s.answerBranch branch context seed = s.answerForward chain context seed := by
  have more : chain.links.isEmpty = false := List.isEmpty_eq_false_iff.mpr several
  simp only [answerBranch, formed, Chain.hasPositional_ofParts? formed, counts, more,
    Bool.not_false, Bool.and_self, if_true]

theorem answerBranch_adds {branch counted : Complex (Query N)} (adds : branch.Adds place counted)
    (counts : branch.parts.length = 1 ∨ branch.hasPositional Query.positional = true) (context : N)
    (seed : Option (List N)) :
    s.answerBranch counted context seed = place.slice (s.answerBranch branch context seed) := by
  have counts' := adds.hasPositional Query.positional
  obtain ⟨before, source, simples, source', written, written'⟩ := adds
  by_cases single : before = []
  · subst single
    have whole : Chain.ofParts? branch.parts = some ⟨some simples, []⟩ := by
      rw [written]
      rfl
    have whole' : Chain.ofParts? counted.parts =
        some ⟨some (simples ++ [.position place]), []⟩ := by
      rw [written']
      rfl
    simp only [answerBranch, whole, whole', List.isEmpty_nil, Bool.not_true, Bool.false_and,
      Bool.false_eq_true, if_false, answerBackward_single, start_concat]
  · have counts : branch.hasPositional Query.positional = true := by
      refine counts.resolve_left fun one => single ?_
      rw [written, List.length_append] at one
      exact List.length_eq_zero_iff.mp (Nat.succ.inj one)
    obtain ⟨front, formed⟩ := Chain.ofParts?_concat single
    cases front with
    | none =>
      simp only [answerBranch, written, written', formed, Option.map_none, Position.slice_nil]
    | some front =>
      obtain ⟨head, links, combinator⟩ := front
      have several (simples : List (Simple (Query N))) :
          (⟨head, links ++ [⟨combinator, simples⟩]⟩ : Chain (Query N)).links ≠ [] := by simp
      rw [answerBranch_forward (written ▸ formed _) (several _) counts,
        answerBranch_forward (written' ▸ formed _) (several _) counts']
      exact answerForward_concat head links combinator simples place context seed

end Setting
end SelectorEngine
