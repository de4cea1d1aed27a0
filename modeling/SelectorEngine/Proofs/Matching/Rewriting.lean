import SelectorEngine.Proofs.Matching.Unmarked

/-! # Rewriting compounds

An answer reads a compound in a few ways only. Every compound of a chain may be written in another
way as long as none of these tells the difference. -/
namespace SelectorEngine

open Setting (plainPart fragmentChain)

section Shapes

variable {A : Type} (f : List (Simple A) → List (Simple A))

def Link.rewrite (link : Link A) : Link A := ⟨link.combinator, f link.simples⟩

def Chain.rewrite (c : Chain A) : Chain A := ⟨c.head.map f, c.links.map (Link.rewrite f)⟩

namespace Chain

theorem last?_rewrite (c : Chain A) : (c.rewrite f).last? = c.last?.map f := by
  rw [last?, last?, rewrite, List.getLast?_map]
  cases c.links.getLast? <;> rfl

theorem isEmpty_links_rewrite (c : Chain A) : (c.rewrite f).links.isEmpty = c.links.isEmpty := by
  rw [rewrite, List.isEmpty_map]

theorem leftwards_rewrite (c : Chain A) : (c.rewrite f).leftwards =
    c.leftwards.map fun (combinator, left) => (combinator, left.map f) := by
  obtain ⟨head, links⟩ := c
  rw [leftwards, leftwards, List.map_reverse]
  refine congrArg List.reverse ((congrArg₂ List.zip ?_ ?_).trans (List.zip_map_right ..))
  · exact List.map_map
  · simp only [rewrite, List.map_cons, List.map_map]
    rfl

theorem dropHead_rewrite (c : Chain A) : (c.rewrite f).dropHead = c.dropHead.rewrite f := by
  obtain ⟨head, links⟩ := c
  cases links with
  | nil => rfl
  | cons link links =>
    by_cases inward : link.combinator = .descendant
    · have inward' : (link.rewrite f).combinator = .descendant := inward
      simp only [dropHead, rewrite, List.map_cons, if_pos inward, if_pos inward']
      rfl
    · have outward : (link.rewrite f).combinator ≠ .descendant := inward
      simp only [dropHead, rewrite, List.map_cons, if_neg inward, if_neg outward]
      rfl

end Chain

end Shapes

variable {N : Type} [DecidableEq N]

namespace Setting

/-- No answer tells two compounds apart. -/
structure Alike (s : Setting N) (a b : List (Simple (Query N))) : Prop where
  sift : s.sift (evaluationOrder a) = s.sift (evaluationOrder b)
  search : s.search a = s.search b
  admits : s.admits a = s.admits b
  named : a.any (·.id?.isSome) = b.any (·.id?.isSome)
  counts : a.any (Simple.hasPositional Query.positional) =
    b.any (Simple.hasPositional Query.positional)
  plain : plainPart a = plainPart b
  rest : s.sift (evaluationOrder (a.filter (!·.isPlain))) =
    s.sift (evaluationOrder (b.filter (!·.isPlain)))

variable {s : Setting N} {f : List (Simple (Query N)) → List (Simple (Query N))}
  {chain : Chain (Query N)}

omit [DecidableEq N] in
theorem scope_rewrite (chain : Chain (Query N)) (context : N) :
    s.scope (chain.rewrite f) context = s.scope chain context := by
  obtain ⟨head, links⟩ := chain
  rcases head with _ | first
  · rcases links with _ | ⟨link, _ | ⟨other, links⟩⟩ <;> rfl
  · rfl

theorem start_alike {a b : List (Simple (Query N))} (alike : s.Alike a b) (scope : N)
    (seed : Option (List N)) : s.start a scope seed = s.start b scope seed := by
  cases seed with
  | none => exact congrFun alike.search scope
  | some seed => exact congrFun alike.sift seed

theorem trace_alike {left : Option (List (Simple (Query N)))}
    (alike : ∀ simples, left = some simples → s.Alike (f simples) simples) (context : N)
    (combinator : Combinator) (trail : Trail N) :
    s.trace combinator (target context (left.map f)) trail =
      s.trace combinator (target context left) trail := by
  cases left with
  | none => rfl
  | some simples =>
    have fits : s.fits (.block (f simples)) = s.fits (.block simples) :=
      (alike simples rfl).admits
    cases trail with
    | reached n =>
      change s.firstFit (.block _) _ = s.firstFit (.block _) _
      rw [firstFit, firstFit, fits]
      rfl
    | _ => rfl

theorem traceAll_alike {steps : List (Combinator × Option (List (Simple (Query N))))}
    (alike : ∀ k simples, (k, some simples) ∈ steps → s.Alike (f simples) simples) (context : N)
    (trail : Trail N) :
    s.traceAll context (steps.map fun (combinator, left) => (combinator, left.map f)) trail =
      s.traceAll context steps trail := by
  induction steps generalizing trail with
  | nil => rfl
  | cons step steps ih =>
    obtain ⟨combinator, left⟩ := step
    have first : ∀ simples, left = some simples → s.Alike (f simples) simples := by
      rintro simples rfl
      exact alike combinator simples List.mem_cons_self
    rw [List.map_cons, traceAll, traceAll, trace_alike first]
    exact ih (fun k simples hk => alike k simples (List.mem_cons_of_mem _ hk)) _

theorem holds_rewrite (alike : ∀ simples ∈ chain.compounds, s.Alike (f simples) simples)
    (context : N) :
    s.holds (chain.rewrite f) context = s.holds chain context := by
  have steps : ∀ k simples, (k, some simples) ∈ chain.leftwards → s.Alike (f simples) simples :=
    fun k simples hk => alike simples (Chain.mem_compounds_of_leftwards hk)
  funext n
  rw [holds, holds, Chain.isEmpty_links_rewrite, Chain.leftwards_rewrite, traceAll_alike steps]

theorem answerWithin_rewrite (alike : ∀ simples ∈ chain.compounds, s.Alike (f simples) simples)
    (context : N) (seed : Option (List N)) :
    s.answerWithin (chain.rewrite f) context seed = s.answerWithin chain context seed := by
  rw [answerWithin, answerWithin, Chain.last?_rewrite]
  cases last : chain.last? with
  | none => rfl
  | some simples =>
    dsimp only [Option.map_some]
    rw [start_alike (alike simples (Chain.last?_mem_compounds last)), scope_rewrite,
      holds_rewrite alike]

theorem narrows_rewrite (alike : ∀ simples ∈ chain.compounds, s.Alike (f simples) simples)
    (context : N) (seed : Option (List N)) :
    s.narrows (chain.rewrite f) context seed = s.narrows chain context seed := by
  have last : ((chain.rewrite f).last?.getD []).any (·.id?.isSome) =
      (chain.last?.getD []).any (·.id?.isSome) := by
    rw [Chain.last?_rewrite]
    cases hl : chain.last? with
    | none => rfl
    | some simples => exact (alike simples (Chain.last?_mem_compounds hl)).named
  rw [narrows, narrows, last]
  obtain ⟨head, links⟩ := chain
  rcases head with _ | first
  · rfl
  · rcases links with _ | ⟨link, links⟩
    · rfl
    · have named := (alike first List.mem_cons_self).named
      simp only [Chain.rewrite, Option.map_some, List.map_cons, named]
      rfl

theorem answerBackward_rewrite (alike : ∀ simples ∈ chain.compounds, s.Alike (f simples) simples)
    (context : N) (seed : Option (List N)) :
    s.answerBackward (chain.rewrite f) context seed = s.answerBackward chain context seed := by
  rw [answerBackward, answerBackward, narrows_rewrite alike]
  split
  · next narrow =>
    obtain ⟨-, -, first, link, links, rfl, -⟩ := of_narrows narrow
    have head : s.search ((Chain.rewrite f ⟨some first, link :: links⟩).head.getD []) context =
        s.search first context := congrFun (alike first List.mem_cons_self).search context
    have rest : ∀ simples ∈ (Chain.dropHead ⟨some first, link :: links⟩).compounds,
        s.Alike (f simples) simples := by
      rw [Chain.compounds_dropHead]
      exact fun simples hs => alike simples (List.mem_cons_of_mem _ hs)
    rw [Chain.dropHead_rewrite, head, Option.getD_some]
    cases s.search first context with
    | nil => rfl
    | cons element others => exact answerWithin_rewrite rest element seed
  · exact answerWithin_rewrite alike context seed

theorem answerFragment_alike {link : Link (Query N)} (alike : s.Alike (f link.simples) link.simples)
    (seed : Option (List N)) (roots : List N) :
    s.answerFragment (link.rewrite f) seed roots = s.answerFragment link seed roots := by
  have reached : s.reach (link.rewrite f) seed roots = s.reach link seed roots := by
    simp only [reach, fragmentChain, Link.rewrite, alike.plain]
  rw [answerFragment, answerFragment, reached]
  exact congrFun alike.rest _

theorem answerLinks_rewrite {links : List (Link (Query N))}
    (alike : ∀ link ∈ links, s.Alike (f link.simples) link.simples) (seed : Option (List N))
    (roots : List N) :
    s.answerLinks seed (links.map (Link.rewrite f)) roots = s.answerLinks seed links roots := by
  induction links generalizing roots with
  | nil => rfl
  | cons link links ih =>
    obtain ⟨first, others⟩ := List.forall_mem_cons.mp alike
    rw [List.map_cons, answerLinks, answerLinks, List.isEmpty_map, answerFragment_alike first]
    exact ih others _

theorem answerForward_rewrite (alike : ∀ simples ∈ chain.compounds, s.Alike (f simples) simples)
    (context : N) (seed : Option (List N)) :
    s.answerForward (chain.rewrite f) context seed = s.answerForward chain context seed := by
  obtain ⟨head, links⟩ := chain
  have others : ∀ link ∈ links, s.Alike (f link.simples) link.simples := fun link hl =>
    alike _ (List.mem_append_right _ (List.mem_map_of_mem hl))
  rw [answerForward, answerForward, Chain.rewrite, answerLinks_rewrite others]
  cases head with
  | none => rfl
  | some simples =>
    exact congrArg _ (congrFun (alike simples List.mem_cons_self).search context)

theorem hasPositional_rewrite (alike : ∀ simples ∈ chain.compounds, s.Alike (f simples) simples) :
    (chain.rewrite f).hasPositional Query.positional = chain.hasPositional Query.positional := by
  obtain ⟨head, links⟩ := chain
  have first : ((head.map f).getD []).any (Simple.hasPositional Query.positional) =
      (head.getD []).any (Simple.hasPositional Query.positional) := by
    cases head with
    | none => rfl
    | some simples => exact (alike simples List.mem_cons_self).counts
  have others : (links.map (Link.rewrite f)).any
      (fun link => link.simples.any (Simple.hasPositional Query.positional)) =
        links.any fun link => link.simples.any (Simple.hasPositional Query.positional) := by
    rw [List.any_map, Bool.eq_iff_iff, List.any_eq_true, List.any_eq_true]
    refine exists_congr fun link => and_congr_right fun hl => ?_
    have same := (alike _ (List.mem_append_right _ (List.mem_map_of_mem hl))).counts
    exact iff_of_eq (congrArg (· = true) same)
  rw [Chain.hasPositional, Chain.hasPositional, Chain.rewrite, first, others]

def answerChain (s : Setting N) (context : N) (seed : Option (List N)) (chain : Chain (Query N)) :
    List N :=
  if !chain.links.isEmpty && chain.hasPositional Query.positional then
    s.answerForward chain context seed
  else s.answerBackward chain context seed

theorem answerBranch_eq (branch : Complex (Query N)) (context : N) (seed : Option (List N)) :
    s.answerBranch branch context seed =
      (Chain.ofParts? branch.parts).elim [] (s.answerChain context seed) := by
  rw [answerBranch]
  cases Chain.ofParts? branch.parts <;> rfl

theorem answerChain_rewrite (alike : ∀ simples ∈ chain.compounds, s.Alike (f simples) simples)
    (context : N) (seed : Option (List N)) :
    s.answerChain context seed (chain.rewrite f) = s.answerChain context seed chain := by
  rw [answerChain, answerChain, Chain.isEmpty_links_rewrite, hasPositional_rewrite alike,
    answerForward_rewrite alike, answerBackward_rewrite alike]

/-- The answer of a branch is that of its chain with every compound in another form. -/
theorem answerBranch_rewrite {branch : Complex (Query N)}
    (alike : ∀ simples ∈ branch.compounds, s.Alike (f simples) simples) (context : N)
    (seed : Option (List N)) :
    s.answerBranch branch context seed =
      ((Chain.ofParts? branch.parts).map (Chain.rewrite f)).elim []
        (s.answerChain context seed) := by
  rw [answerBranch_eq]
  cases parts : Chain.ofParts? branch.parts with
  | none => rfl
  | some chain =>
    rw [← Chain.compounds_ofParts? parts] at alike
    exact (answerChain_rewrite alike context seed).symm

end Setting
end SelectorEngine
