import SelectorEngine.Proofs.Matching.Forward
import SelectorEngine.Proofs.Matching.Nested

/-! # Branches without marks

The marks of an evaluation save work and nothing else. Every branch of a selector that was read has
the answer that is found here without any. -/
namespace SelectorEngine

open Setting (plainPart fragmentChain)

variable {N : Type} [DecidableEq N]

namespace Setting

variable (s : Setting N)

def search (simples : List (Simple (Query N))) (scope : N) : List N :=
  s.sift (evaluationOrder (s.candidates simples scope).remaining) (s.candidates simples scope).nodes

def start (last : List (Simple (Query N))) (scope : N) : (seed : Option (List N)) → List N
  | some seed => s.sift (evaluationOrder last) seed
  | none => s.search last scope

def answerWithin (chain : Chain (Query N)) (context : N) (seed : Option (List N)) : List N :=
  match chain.last? with
  | none => []
  | some last => (s.start last (s.scope chain context) seed).filter (s.holds chain context)

def answerBackward (chain : Chain (Query N)) (context : N) (seed : Option (List N)) : List N :=
  if s.narrows chain context seed then
    match s.search (chain.head.getD []) context with
    | [] => []
    | element :: _ => s.answerWithin chain.dropHead element seed
  else s.answerWithin chain context seed

def reach (link : Link (Query N)) (seed : Option (List N)) (roots : List N) : List N :=
  let found := roots.flatMap fun root => s.answerBackward (fragmentChain link seed) root seed
  if 1 < roots.length then s.view.arrange found else found

def answerFragment (link : Link (Query N)) (seed : Option (List N)) (roots : List N) : List N :=
  s.sift (evaluationOrder (link.simples.filter (!·.isPlain))) (s.reach link seed roots)

def answerLinks (seed : Option (List N)) : List (Link (Query N)) → (roots : List N) → List N
  | [], roots => roots
  | link :: links, roots =>
    answerLinks seed links (s.answerFragment link (if links.isEmpty then seed else none) roots)

def answerForward (chain : Chain (Query N)) (context : N) (seed : Option (List N)) : List N :=
  s.answerLinks seed chain.links <|
    match chain.head with
    | some simples => s.search simples context
    | none => [context]

def answerBranch (branch : Complex (Query N)) (context : N) (seed : Option (List N)) : List N :=
  match Chain.ofParts? branch.parts with
  | none => []
  | some chain =>
    if !chain.links.isEmpty && chain.hasPositional Query.positional then
      s.answerForward chain context seed
    else s.answerBackward chain context seed

end Setting

/-- The arguments of negations say the same in place, and those that count nothing say it of each
node alone. -/
structure Complex.Sane (view : TreeView N) (branch : Complex (Query N)) : Prop where
  faithful : ∀ q, .not q ∈ branch.simples → q.Faithful view
  pointwise : ∀ q, .not q ∈ branch.simples → q.positional = false → q.Pointwise view

/-- In a chain of several compounds every simple selector looks at one candidate at a time. -/
structure Chain.Unmarked (view : TreeView N) (chain : Chain (Query N)) : Prop where
  faithful : ∀ q, .not q ∈ chain.simples → q.Faithful view
  alone : chain.links ≠ [] → chain.All (Simple.Local view)

theorem Chain.All.unmarked {view : TreeView N} {chain : Chain (Query N)}
    (hl : chain.All (Simple.Local view)) : chain.Unmarked view where
  faithful _ hq := (hl _ hq).1
  alone _ := hl

namespace Setting

variable {s : Setting N} {m : Marks N} {chain : Chain (Query N)} {simples : List (Simple (Query N))}
  {link : Link (Query N)} {context : N}

theorem answerLinks_concat {links : List (Link (Query N))} {last : Link (Query N)}
    (seed : Option (List N)) (roots : List N) :
    s.answerLinks seed (links ++ [last]) roots =
      s.answerFragment last seed (s.answerLinks none links roots) := by
  induction links generalizing roots with
  | nil => rfl
  | cons link links ih =>
    have more : (links ++ [last]).isEmpty = false := List.isEmpty_eq_false_iff.mpr (by simp)
    rw [List.cons_append, answerLinks, more, answerLinks, ite_self, if_neg Bool.false_ne_true]
    exact ih _

omit [DecidableEq N] in
theorem simples_fragmentChain (link : Link (Query N)) (seed : Option (List N)) :
    (fragmentChain link seed).simples = plainPart link.simples := by
  obtain ⟨combinator, simples⟩ := link
  cases combinator <;> cases seed <;> simp [fragmentChain, Chain.simples]

theorem fragmentChain_local (view : TreeView N) (link : Link (Query N)) (seed : Option (List N)) :
    (fragmentChain link seed).All (Simple.Local view) := by
  rw [Chain.All, simples_fragmentChain]
  exact local_plainPart _

theorem find_unmarked (reg : s.Regular) (hm : m.Sound s.view.toOutline)
    (hq : ∀ q, .not q ∈ simples → q.Faithful s.view) (scope : N) :
    (s.find simples scope m).1 = s.search simples scope ∧
      (s.find simples scope m).2.Sound s.view.toOutline := by
  obtain ⟨hf, hfol⟩ := filter_eq reg hm (fun q hmem => hq q (candidates_remaining hmem))
    (s.candidates simples scope).nodes
  exact ⟨hf, hfol.sound⟩

theorem follow_unmarked (reg : s.Regular) (hu : chain.Unmarked s.view) (context : N)
    {found : List N × Marks N} (hm : found.2.Sound s.view.toOutline) :
    (s.follow chain context found).1 = found.1.filter (s.holds chain context) ∧
      (s.follow chain context found).2.Sound s.view.toOutline := by
  by_cases several : chain.links = []
  · have empty : chain.links.isEmpty = true := List.isEmpty_iff.mpr several
    have all : s.holds chain context = fun _ => true := by
      funext n
      rw [holds, empty, Bool.true_or]
    rw [follow, if_pos empty, all, List.filter_true]
    exact ⟨rfl, hm⟩
  · exact follow_eq reg (hu.alone several) context hm

theorem faithful_last {last : List (Simple (Query N))} (hlast : chain.last? = some last)
    {view : TreeView N} (hq : ∀ q, .not q ∈ chain.simples → q.Faithful view) :
    ∀ q, .not q ∈ last → q.Faithful view := by
  have all : chain.All fun simple => ∀ q, simple = .not q → q.Faithful view := by
    rintro simple hs q rfl
    exact hq q hs
  exact fun q hm => all.of_last hlast _ hm q rfl

theorem evaluateWithin_unmarked (reg : s.Regular) (hm : m.Sound s.view.toOutline)
    (hu : chain.Unmarked s.view) (context : N) (seed : Option (List N)) :
    (s.evaluateWithin chain context seed m).1 = s.answerWithin chain context seed ∧
      (s.evaluateWithin chain context seed m).2.Sound s.view.toOutline := by
  rw [evaluateWithin, answerWithin]
  cases hlast : chain.last? with
  | none => exact ⟨rfl, hm⟩
  | some last =>
    have faithful := faithful_last hlast hu.faithful
    cases seed with
    | none =>
      obtain ⟨hf, hms⟩ := find_unmarked reg hm faithful (s.scope chain context)
      dsimp only
      rw [start, ← hf]
      exact follow_unmarked reg hu context hms
    | some seed =>
      obtain ⟨hf, hfol⟩ := filter_eq reg hm faithful seed
      dsimp only
      rw [start, ← hf]
      exact follow_unmarked reg hu context hfol.sound

theorem evaluateBackward_unmarked (reg : s.Regular) (hm : m.Sound s.view.toOutline)
    (hu : chain.Unmarked s.view) (context : N) (seed : Option (List N)) :
    (s.evaluateBackward chain context seed m).1 = s.answerBackward chain context seed ∧
      (s.evaluateBackward chain context seed m).2.Sound s.view.toOutline := by
  by_cases hn : s.narrows chain context seed = true
  · obtain ⟨-, -, first, link, links, rfl, -⟩ := of_narrows hn
    have hl := hu.alone (List.cons_ne_nil link links)
    have hf := find_unmarked reg hm (faithful_of_local (hl.of_head rfl)) context
    rw [evaluateBackward, answerBackward, if_pos hn, if_pos hn, Option.getD_some, ← hf.1]
    generalize s.find first context m = result at hf ⊢
    obtain ⟨found, marks⟩ := result
    cases found with
    | nil => exact ⟨rfl, hf.2⟩
    | cons element others =>
      exact evaluateWithin_unmarked reg hf.2 hl.dropHead.unmarked element seed
  · rw [evaluateBackward, answerBackward, if_neg hn, if_neg hn]
    exact evaluateWithin_unmarked reg hm hu context seed

theorem evaluateFromEach_unmarked (reg : s.Regular) (hm : m.Sound s.view.toOutline)
    (hu : chain.Unmarked s.view) (seed : Option (List N)) (roots : List N) :
    (s.evaluateFromEach chain seed roots m).1 =
        roots.flatMap (fun root => s.answerBackward chain root seed) ∧
      (s.evaluateFromEach chain seed roots m).2.Sound s.view.toOutline := by
  induction roots generalizing m with
  | nil => exact ⟨rfl, hm⟩
  | cons root roots ih =>
    obtain ⟨hb, hms⟩ := evaluateBackward_unmarked reg hm hu root seed
    obtain ⟨hr, hmr⟩ := ih hms
    rw [evaluateFromEach, List.flatMap_cons, ← hb, ← hr]
    exact ⟨rfl, hmr⟩

theorem fragment_unmarked (reg : s.Regular) (hm : m.Sound s.view.toOutline)
    (hq : ∀ q, .not q ∈ link.simples → q.Faithful s.view) (seed : Option (List N))
    (roots : List N) :
    (s.fragment link seed roots m).1 = s.answerFragment link seed roots ∧
      (s.fragment link seed roots m).2.Sound s.view.toOutline := by
  have hr := evaluateFromEach_unmarked reg hm (fragmentChain_local s.view link seed).unmarked seed
    roots
  rw [fragment, answerFragment, reach, ← hr.1]
  generalize s.evaluateFromEach (fragmentChain link seed) seed roots m = result at hr ⊢
  obtain ⟨found, marks⟩ := result
  have faithful : ∀ q, .not q ∈ link.simples.filter (!·.isPlain) → q.Faithful s.view :=
    fun q hmem => hq q (List.mem_of_mem_filter hmem)
  obtain ⟨hf, hfol⟩ := filter_eq reg hr.2 faithful
    (if 1 < roots.length then s.view.arrange found else found)
  exact ⟨hf, hfol.sound⟩

theorem followLinks_unmarked (reg : s.Regular) (hm : m.Sound s.view.toOutline)
    {links : List (Link (Query N))}
    (hq : ∀ link ∈ links, ∀ q, .not q ∈ link.simples → q.Faithful s.view) (seed : Option (List N))
    (roots : List N) :
    (s.followLinks seed links roots m).1 = s.answerLinks seed links roots := by
  induction links generalizing roots m with
  | nil => rfl
  | cons link links ih =>
    obtain ⟨hlink, hlinks⟩ := List.forall_mem_cons.mp hq
    obtain ⟨hf, hms⟩ := fragment_unmarked reg hm hlink (if links.isEmpty then seed else none) roots
    rw [followLinks, answerLinks, ← hf]
    exact ih hms hlinks _

theorem evaluateForward_unmarked (reg : s.Regular)
    (hq : ∀ q, .not q ∈ chain.simples → q.Faithful s.view) (context : N) (seed : Option (List N)) :
    (s.evaluateForward chain context seed {}).1 = s.answerForward chain context seed := by
  obtain ⟨head, links⟩ := chain
  have hlinks : ∀ link ∈ links, ∀ q, .not q ∈ link.simples → q.Faithful s.view :=
    fun link hl q hm =>
    hq q (List.mem_append_right _ (List.mem_flatMap.mpr ⟨link, hl, hm⟩))
  cases head with
  | none => exact followLinks_unmarked reg Marks.sound_empty hlinks seed [context]
  | some simples =>
    have hhead : ∀ q, .not q ∈ simples → q.Faithful s.view :=
      fun q hm => hq q (List.mem_append_left _ hm)
    obtain ⟨hf, hms⟩ := find_unmarked reg Marks.sound_empty hhead context
    rw [← evaluateBackward_single] at hf hms
    rw [evaluateForward, answerForward]
    dsimp only
    rw [← hf]
    exact followLinks_unmarked reg hms hlinks seed _

theorem local_of_sane {branch : Complex (Query N)} (sane : branch.Sane s.view)
    (free : branch.hasPositional Query.positional = false) :
    ∀ simple ∈ branch.simples, simple.Local s.view := by
  rw [Complex.hasPositional_eq, List.any_eq_false] at free
  intro simple hs
  have hfree := Bool.not_eq_true _ ▸ free simple hs
  cases simple with
  | position place => cases hfree
  | not q => exact ⟨sane.faithful q hs, sane.pointwise q hs hfree⟩
  | _ => trivial

/-- The marks that a branch is evaluated with do not show in its answer. -/
theorem evaluateBranch_unmarked (reg : s.Regular) {branch : Complex (Query N)}
    (sane : branch.Sane s.view) (context : N) (seed : Option (List N)) :
    s.evaluateBranch branch context seed = s.answerBranch branch context seed := by
  rw [evaluateBranch, answerBranch]
  cases parts : Chain.ofParts? branch.parts with
  | none => rfl
  | some chain =>
    have simples : chain.simples = branch.simples := Chain.simples_ofParts? parts
    have faithful : ∀ q, .not q ∈ chain.simples → q.Faithful s.view := simples ▸ sane.faithful
    by_cases forward : (!chain.links.isEmpty && chain.hasPositional Query.positional) = true
    · simp only [forward, if_true]
      exact evaluateForward_unmarked reg faithful context seed
    · simp only [forward, Bool.false_eq_true, if_false]
      -- A chain that counts and is not evaluated forward has one compound only.
      have unmarked : chain.Unmarked s.view := by
        refine ⟨faithful, fun several => ?_⟩
        rw [Chain.All, simples]
        refine local_of_sane sane ?_
        rw [Complex.hasPositional_eq, ← simples, ← Chain.hasPositional_eq]
        simpa [several] using forward
      exact (evaluateBackward_unmarked reg Marks.sound_empty unmarked context seed).1

end Setting

theorem SelectorList.sane_branch {view : TreeView N} (config : Config)
    (linked : view.toOutline.Linked) (root : view.isContext view.documentRoot = true)
    (branch : Complex SelectorList) : (branch.map (query view config)).Sane view where
  faithful := faithful_branch linked root branch
  pointwise := by
    intro q hq free
    obtain ⟨nested, -, rfl⟩ := Complex.not_mem_simples_map.mp hq
    rw [positional_query] at free
    exact pointwise linked root nested free

theorem Tree.Linked.evaluateBranch_unmarked {t : Tree} (h : t.Linked) (config : Config)
    (branch : Complex SelectorList) (context : NodeId) (seed : Option (List NodeId)) :
    (t.setting config).evaluateBranch (branch.map (SelectorList.query t.view config)) context seed =
      (t.setting config).answerBranch
        (branch.map (SelectorList.query t.view config)) context seed :=
  Setting.evaluateBranch_unmarked (h.regular config)
    (SelectorList.sane_branch config h.outline_linked h.isContext_root branch) context seed

end SelectorEngine
