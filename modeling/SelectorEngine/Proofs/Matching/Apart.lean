import SelectorEngine.Proofs.Matching.NameLookup
import SelectorEngine.Proofs.Matching.Negation
import SelectorEngine.Proofs.Matching.Rewriting

/-! # Arguments that are evaluated on their own

An answer reads nothing of an argument but what the argument answers and whether it is positional.
So no answer changes where every negation, at any depth, has its argument evaluated on its own. -/
namespace SelectorEngine

open Setting (plainPart fragmentChain)

def Query.aside {N : Type} (q : Query N) : Query N := { q with inPlace := none }

section Shapes

variable {A B : Type} (f : A → B)

theorem evaluationOrder_map (simples : List (Simple A)) :
    evaluationOrder (simples.map (Simple.map f)) =
      (evaluationOrder simples).map (Simple.map f) := by
  have first : (fun simple : Simple B => !simple.isPositional) ∘ Simple.map f =
      fun simple => !simple.isPositional :=
    funext fun simple => congrArg (!·) (simple.isPositional_map f)
  have last : (fun simple : Simple B => simple.isPositional) ∘ Simple.map f =
      fun simple => simple.isPositional := funext (Simple.isPositional_map f)
  rw [evaluationOrder, evaluationOrder, List.map_append, List.filter_map, List.filter_map,
    first, last]

theorem extract?_map {C : Type} {use : Simple B → Option C} {use' : Simple A → Option C}
    (same : ∀ simple, use (simple.map f) = use' simple) (simples : List (Simple A)) :
    extract? use (simples.map (Simple.map f)) =
      (extract? use' simples).map fun (value, others) => (value, others.map (Simple.map f)) := by
  induction simples with
  | nil => rfl
  | cons simple simples ih =>
    rw [List.map_cons, extract?, extract?, same, ih]
    cases use' simple with
    | some value => rfl
    | none =>
      rw [Option.map_map, Option.map_map]
      rfl

theorem Simple.id?_map (simple : Simple A) : (simple.map f).id? = simple.id? := by
  cases simple <;> rfl

theorem any_id?_map (simples : List (Simple A)) :
    (simples.map (Simple.map f)).any (·.id?.isSome) = simples.any (·.id?.isSome) := by
  rw [List.any_map]
  refine congrArg _ (funext fun simple => ?_)
  exact congrArg Option.isSome (simple.id?_map f)

theorem Simple.className?_map (simple : Simple A) :
    (simple.map f).className? = simple.className? := by
  cases simple <;> rfl

theorem Simple.isPlain_map (simple : Simple A) : (simple.map f).isPlain = simple.isPlain := by
  cases simple <;> rfl

theorem Simple.map_of_isPlain (g : A → A) {simple : Simple A} (h : simple.isPlain = true) :
    simple.map g = simple := by
  cases simple with
  | child | pseudo | contains | has | not | position => cases h
  | _ => rfl

end Shapes

variable {N : Type}

theorem Complex.Sane.aside [DecidableEq N] {view : TreeView N} {branch : Complex (Query N)}
    (sane : branch.Sane view) : (branch.map Query.aside).Sane view where
  faithful q hq inPlace hplace := by
    obtain ⟨written, -, rfl⟩ := Complex.not_mem_simples_map.mp hq
    cases hplace
  pointwise q hq free := by
    obtain ⟨written, hw, rfl⟩ := Complex.not_mem_simples_map.mp hq
    exact sane.pointwise written hw free

namespace Setting

variable {s : Setting N} {f : Query N → Query N}

theorem plainPart_map (simples : List (Simple (Query N))) :
    plainPart (simples.map (Simple.map f)) = plainPart simples := by
  have same : Simple.isPlain ∘ Simple.map f = Simple.isPlain := funext (Simple.isPlain_map f)
  have fixed : (simples.filter Simple.isPlain).map (Simple.map f) = simples.filter Simple.isPlain :=
    (List.map_congr_left fun simple hs =>
      Simple.map_of_isPlain f (List.mem_filter.mp hs).2).trans (List.map_id _)
  rw [plainPart, plainPart, List.filter_map, same, fixed]

theorem candidates_map (simples : List (Simple (Query N))) (scope : N) :
    s.candidates (simples.map (Simple.map f)) scope =
      (s.candidates simples scope).leave (List.map (Simple.map f)) := by
  refine candidates_leave (fun use hu => ?_) ?_
  · simp only [indexUses, List.mem_cons, List.not_mem_nil, or_false] at hu
    rcases hu with rfl | rfl | rfl
    · exact extract?_map f (Simple.id?_map f) simples
    · exact extract?_map f (Simple.className?_map f) simples
    · exact extract?_map f (Simple.exactName?_map f) simples
  · rcases simples with _ | ⟨simple, simples⟩
    · rfl
    · cases simple <;> rfl

variable [DecidableEq N]

theorem satisfies_aside (simple : Simple (Query N)) :
    s.satisfies (simple.map Query.aside) = s.satisfies simple := by
  funext n
  cases simple with
  | child place => cases place <;> rfl
  | _ => rfl

theorem outcomes_aside (simple : Simple (Query N)) :
    s.outcomes (simple.map Query.aside) = s.outcomes simple := by
  funext nodes
  cases simple with
  | child place => cases place <;> rfl
  | _ => rfl

theorem sift_aside (simples : List (Simple (Query N))) (nodes : List N) :
    s.sift (simples.map (Simple.map Query.aside)) nodes = s.sift simples nodes := by
  induction simples generalizing nodes with
  | nil => rfl
  | cons simple simples ih =>
    rw [List.map_cons, sift, sift, outcomes_aside]
    exact ih _

theorem admits_aside (simples : List (Simple (Query N))) :
    s.admits (simples.map (Simple.map Query.aside)) = s.admits simples := by
  funext n
  rw [admits, admits, List.all_map]
  refine congrArg _ (funext fun simple => ?_)
  exact congrFun (satisfies_aside simple) n

theorem search_aside (simples : List (Simple (Query N))) (scope : N) :
    s.search (simples.map (Simple.map Query.aside)) scope = s.search simples scope := by
  rw [search, search, candidates_map]
  change s.sift (evaluationOrder ((s.candidates simples scope).remaining.map _)) _ = _
  rw [evaluationOrder_map, sift_aside]
  rfl

theorem alike_aside (simples : List (Simple (Query N))) :
    s.Alike (simples.map (Simple.map Query.aside)) simples where
  sift := by
    funext nodes
    rw [evaluationOrder_map, sift_aside]
  search := funext (search_aside simples)
  admits := admits_aside simples
  named := any_id?_map Query.aside simples
  counts := by
    rw [List.any_map]
    refine congrArg _ (funext fun simple => ?_)
    exact simple.hasPositional_map Query.aside Query.positional
  plain := plainPart_map simples
  rest := by
    have same : (fun simple : Simple (Query N) => !simple.isPlain) ∘ Simple.map Query.aside =
        fun simple => !simple.isPlain :=
      funext fun simple => congrArg (!·) (simple.isPlain_map Query.aside)
    funext nodes
    rw [List.filter_map, same, evaluationOrder_map, sift_aside]

theorem answerBranch_aside (branch : Complex (Query N)) (context : N) (seed : Option (List N)) :
    s.answerBranch (branch.map Query.aside) context seed = s.answerBranch branch context seed := by
  rw [answerBranch_eq (branch.map Query.aside),
    answerBranch_rewrite fun simples _ => alike_aside simples, Complex.map, Chain.ofParts?_map]
  rfl

/-- A branch is evaluated alike. Verdicts in place leave other marks than answers that are found on
their own, but no marks show. -/
theorem evaluateBranch_aside (reg : s.Regular) {branch : Complex (Query N)}
    (sane : branch.Sane s.view) (context : N) (seed : Option (List N)) :
    s.evaluateBranch (branch.map Query.aside) context seed =
      s.evaluateBranch branch context seed := by
  rw [evaluateBranch_unmarked reg sane.aside, evaluateBranch_unmarked reg sane, answerBranch_aside]

end Setting

section Lists

variable {N : Type} [DecidableEq N] (view : TreeView N) (config : Config)

/-- What a list means if neither it nor an argument at any depth is negated in place. -/
def SelectorList.apart : SelectorList → Query N :=
  SelectorList.fold fun _ branches => (Query.ofBranches view config branches).aside

variable {view config}

theorem SelectorList.apart_eq (list : SelectorList) : list.apart view config =
    (Query.ofBranches view config
      (list.branches.map (Complex.map (SelectorList.apart view config)))).aside := by
  rw [apart, fold_eq]

theorem Query.ofBranches_aside {branches : List (Complex (Query N))}
    (same : ∀ branch ∈ branches, ∀ context seed,
      (⟨view, config, view.isXml context⟩ : Setting N).evaluateBranch (branch.map Query.aside)
          context seed =
        (⟨view, config, view.isXml context⟩ : Setting N).evaluateBranch branch context seed) :
    (ofBranches view config (branches.map (Complex.map Query.aside))).aside =
      (ofBranches view config branches).aside := by
  have positional : (branches.map (Complex.map Query.aside)).any
      (Complex.hasPositional Query.positional) =
        branches.any (Complex.hasPositional Query.positional) := by
    rw [List.any_map]
    refine congrArg _ (funext fun branch => ?_)
    exact branch.hasPositional_map Query.aside Query.positional
  have gathered (context : N) (seed : Option (List N)) :
      gather view config (branches.map (Complex.map Query.aside)) context seed =
        gather view config branches context seed := by
    rw [gather, gather, List.flatMap_map]
    refine if_congr Iff.rfl (List.flatMap_congr fun branch hb => ?_) rfl
    exact same branch hb context seed
  simp only [ofBranches, aside, positional, gathered, List.length_map]

/-- By induction on the depth of its arguments, a list answers the same if nothing is negated in
place. -/
theorem Tree.Linked.apart_eq_aside {t : Tree} (h : t.Linked) (list : SelectorList) :
    list.apart t.view config = (list.query t.view config).aside := by
  induction list using SelectorList.induction with
  | step list ih =>
    have branches : list.branches.map (Complex.map (SelectorList.apart t.view config)) =
        (list.branches.map (Complex.map (SelectorList.query t.view config))).map
          (Complex.map Query.aside) := by
      rw [List.map_map]
      refine List.map_congr_left fun branch hb => ?_
      rw [Function.comp_apply, Complex.map_map]
      exact Complex.map_congr fun nested hn => ih branch hb nested hn
    rw [SelectorList.apart_eq, SelectorList.query_eq, branches]
    -- The arguments now differ in what can be negated in place alone.
    refine Query.ofBranches_aside fun branch hb context seed => ?_
    obtain ⟨written, -, rfl⟩ := List.mem_map.mp hb
    exact Setting.evaluateBranch_aside (h.regular config)
      (SelectorList.sane_branch config h.outline_linked h.isContext_root written) context seed

end Lists
end SelectorEngine
