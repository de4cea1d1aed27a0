import SelectorEngine.Proofs.Matching.Unmarked

/-! # Views that differ in their indices

A setting reads the indices of its view only to find candidates and to arrange lists. Settings that
differ in nothing else have the same answers as soon as they find the same nodes for every compound
and compare nodes alike. -/
namespace SelectorEngine

open Setting (plainPart fragmentChain)

variable {N : Type} [DecidableEq N]

/-- What a setting may look up instead of following links, and the switches that allow it. -/
structure Indices (N : Type) where
  config : Config
  elementsByName : N → String → Option (List N)
  elementsByClass : N → String → Option (List N)
  placement : N → N → Option Placement

namespace Setting

def reindex (s : Setting N) (i : Indices N) : Setting N where
  view :=
    { s.view with
      elementsByName := i.elementsByName
      elementsByClass := i.elementsByClass
      placement := i.placement }
  config := i.config
  xml := s.xml

variable {s : Setting N} {i : Indices N}

theorem sift_reindex (simples : List (Simple (Query N))) (nodes : List N) :
    (s.reindex i).sift simples nodes = s.sift simples nodes := by
  induction simples generalizing nodes with
  | nil => rfl
  | cons simple simples ih => exact ih _

theorem traceAll_reindex (context : N)
    (steps : List (Combinator × Option (List (Simple (Query N))))) (trail : Trail N) :
    (s.reindex i).traceAll context steps trail = s.traceAll context steps trail := by
  induction steps generalizing trail with
  | nil => rfl
  | cons step steps ih => exact ih _

theorem holds_reindex (chain : Chain (Query N)) (context : N) :
    (s.reindex i).holds chain context = s.holds chain context := by
  funext n
  rw [holds, holds, traceAll_reindex]
  rfl

theorem nthChildren_reindex (formula : AnPlusB) (generation : Nat) (nodes : List N) (m : Marks N) :
    (s.reindex i).nthChildren formula generation nodes m =
      s.nthChildren formula generation nodes m := by
  induction nodes generalizing m with
  | nil => rfl
  | cons n nodes ih =>
    simp only [nthChildren, ih]
    rfl

theorem verdicts_reindex (simple : Simple (Query N)) :
    (s.reindex i).verdicts simple = s.verdicts simple := by
  funext nodes negate m
  cases simple with
  | child place =>
    cases place with
    | nth formula =>
      simp only [verdicts, nthChildren_reindex]
    | _ => rfl
  | _ => rfl

/-- The same nodes are found for a compound with the other indices. -/
def Finds (s : Setting N) (i : Indices N) (simples : List (Simple (Query N))) : Prop :=
  ∀ scope, (s.reindex i).search simples scope = s.search simples scope

def Compares (s : Setting N) (i : Indices N) : Prop :=
  ∀ a b, (s.reindex i).view.compare a b = s.view.compare a b

variable {chain : Chain (Query N)} {link : Link (Query N)} {links : List (Link (Query N))}

theorem start_reindex {last : List (Simple (Query N))} (finds : s.Finds i last) (scope : N)
    (seed : Option (List N)) : (s.reindex i).start last scope seed = s.start last scope seed := by
  cases seed with
  | none => exact finds scope
  | some seed => exact sift_reindex _ seed

theorem answerWithin_reindex (finds : ∀ simples ∈ chain.compounds, s.Finds i simples) (context : N)
    (seed : Option (List N)) :
    (s.reindex i).answerWithin chain context seed = s.answerWithin chain context seed := by
  rw [answerWithin, answerWithin]
  cases hlast : chain.last? with
  | none => rfl
  | some last =>
    dsimp only
    rw [start_reindex (finds last (Chain.last?_mem_compounds hlast)), holds_reindex]
    rfl

theorem answerBackward_reindex (finds : ∀ simples ∈ chain.compounds, s.Finds i simples)
    (context : N) (seed : Option (List N)) :
    (s.reindex i).answerBackward chain context seed = s.answerBackward chain context seed := by
  have narrows : (s.reindex i).narrows chain context seed = s.narrows chain context seed := rfl
  rw [answerBackward, answerBackward, narrows]
  by_cases hn : s.narrows chain context seed = true
  · obtain ⟨-, -, first, link, links, rfl, -⟩ := of_narrows hn
    have head : s.Finds i first := finds first List.mem_cons_self
    have rest : ∀ simples ∈ (Chain.dropHead ⟨some first, link :: links⟩).compounds,
        s.Finds i simples := by
      rw [Chain.compounds_dropHead]
      exact fun simples hs => finds simples (List.mem_cons_of_mem _ hs)
    rw [if_pos hn, if_pos hn, Option.getD_some, head context]
    cases s.search first context with
    | nil => rfl
    | cons element others => exact answerWithin_reindex rest element seed
  · rw [if_neg hn, if_neg hn]
    exact answerWithin_reindex finds context seed

omit [DecidableEq N] in
theorem compounds_fragmentChain (link : Link (Query N)) (seed : Option (List N)) :
    (fragmentChain link seed).compounds = [plainPart link.simples] := by
  obtain ⟨combinator, simples⟩ := link
  cases combinator <;> cases seed <;> rfl

theorem reach_reindex (compares : s.Compares i) (finds : s.Finds i (plainPart link.simples))
    (seed : Option (List N)) (roots : List N) :
    (s.reindex i).reach link seed roots = s.reach link seed roots := by
  have each (root : N) : (s.reindex i).answerBackward (fragmentChain link seed) root seed =
      s.answerBackward (fragmentChain link seed) root seed := by
    refine answerBackward_reindex ?_ root seed
    rw [compounds_fragmentChain]
    exact fun simples hs => List.mem_singleton.mp hs ▸ finds
  rw [reach, reach]
  simp only [each]
  split
  · exact TreeView.arrange_congr compares _
  · rfl

theorem answerLinks_reindex (compares : s.Compares i)
    (finds : ∀ link ∈ links, s.Finds i (plainPart link.simples)) (seed : Option (List N))
    (roots : List N) :
    (s.reindex i).answerLinks seed links roots = s.answerLinks seed links roots := by
  induction links generalizing roots with
  | nil => rfl
  | cons link links ih =>
    obtain ⟨hlink, hlinks⟩ := List.forall_mem_cons.mp finds
    rw [answerLinks, answerLinks, answerFragment, answerFragment, sift_reindex,
      reach_reindex compares hlink]
    exact ih hlinks _

theorem answerBranch_reindex (compares : s.Compares i) {branch : Complex (Query N)}
    (whole : ∀ simples ∈ branch.compounds, s.Finds i simples)
    (plain : ∀ simples ∈ branch.compounds, s.Finds i (plainPart simples)) (context : N)
    (seed : Option (List N)) :
    (s.reindex i).answerBranch branch context seed = s.answerBranch branch context seed := by
  rw [answerBranch, answerBranch]
  cases parts : Chain.ofParts? branch.parts with
  | none => rfl
  | some chain =>
    rw [← Chain.compounds_ofParts? parts] at whole plain
    dsimp only
    split
    · obtain ⟨head, links⟩ := chain
      have hlinks : ∀ link ∈ links, s.Finds i (plainPart link.simples) := fun link hl =>
        plain _ (List.mem_append_right _ (List.mem_map_of_mem hl))
      rw [answerForward, answerForward]
      cases head with
      | none => exact answerLinks_reindex compares hlinks seed [context]
      | some simples =>
        dsimp only
        rw [whole simples List.mem_cons_self context]
        exact answerLinks_reindex compares hlinks seed _
    · exact answerBackward_reindex whole context seed

/-- The marks of neither evaluation show, so the branch is evaluated alike. -/
theorem evaluateBranch_reindex (reg : s.Regular) (compares : s.Compares i)
    {branch : Complex (Query N)} (sane : branch.Sane s.view)
    (whole : ∀ simples ∈ branch.compounds, s.Finds i simples)
    (plain : ∀ simples ∈ branch.compounds, s.Finds i (plainPart simples)) (context : N)
    (seed : Option (List N)) :
    (s.reindex i).evaluateBranch branch context seed = s.evaluateBranch branch context seed := by
  have reg' : (s.reindex i).Regular := ⟨reg.linked, reg.xml_root, reg.root_context⟩
  have sane' : branch.Sane (s.reindex i).view := ⟨sane.faithful, sane.pointwise⟩
  rw [evaluateBranch_unmarked reg' sane', evaluateBranch_unmarked reg sane]
  exact answerBranch_reindex compares whole plain context seed

theorem finds_unindexed {i : Indices N} (off : s.config = .allOff) (off' : i.config = .allOff)
    (simples : List (Simple (Query N))) : s.Finds i simples := by
  intro scope
  have candidates : (s.reindex i).candidates simples scope = s.candidates simples scope := by
    have switches : (s.reindex i).config = .allOff := off'
    simp only [Setting.candidates, candidatesByClass, candidatesByName, off, switches,
      Config.allOff, Bool.and_false, Bool.false_eq_true, if_false]
    rfl
  rw [search, search, candidates, sift_reindex]

end Setting

section Lists

variable {view : TreeView N} {config : Config} {i : Indices N} {branches : List (Complex (Query N))}

theorem settle_reindex {s : Setting N} (compares : s.Compares i) (count : Nat) (nodes : List N) :
    settle (s.reindex i).view count nodes = settle s.view count nodes := by
  rw [settle, settle, TreeView.arrange_congr compares]

theorem gather_reindex
    (same : ∀ branch ∈ branches, ∀ context seed,
      ((⟨view, config, view.isXml context⟩ : Setting N).reindex i).evaluateBranch branch context
          seed =
        (⟨view, config, view.isXml context⟩ : Setting N).evaluateBranch branch context seed)
    (xml : Bool) (context : N) (seed : Option (List N)) :
    gather ((⟨view, config, xml⟩ : Setting N).reindex i).view i.config branches context seed =
      gather view config branches context seed := by
  rw [gather, gather]
  refine if_congr Iff.rfl (List.flatMap_congr fun branch hb => ?_) rfl
  exact same branch hb context seed

/-- A list means the same with other indices if its branches are evaluated alike. -/
theorem Query.ofBranches_reindex (xml : Bool)
    (compares : (⟨view, config, xml⟩ : Setting N).Compares i)
    (same : ∀ branch ∈ branches, ∀ context seed,
      ((⟨view, config, view.isXml context⟩ : Setting N).reindex i).evaluateBranch branch context
          seed =
        (⟨view, config, view.isXml context⟩ : Setting N).evaluateBranch branch context seed) :
    ofBranches ((⟨view, config, xml⟩ : Setting N).reindex i).view i.config branches =
      ofBranches view config branches := by
  rw [ofBranches, ofBranches]
  congr 1
  · funext context seed
    rw [gather_reindex same, settle_reindex compares]
    rfl
  · congr 1
    funext simple xml
    exact Setting.verdicts_reindex (s := ⟨view, config, xml⟩) simple

end Lists
end SelectorEngine
