import SelectorEngine.Proofs.Matching.Unmarked

/-! # Nodes that are no elements

A seed may list nodes that are no elements. Most simple selectors reject them, but a negation takes
in what its argument rejects, and a place in the list says nothing about what stands there. So it
depends on the form of a selector whether it selects none of these nodes out of a seed, or all. -/
namespace SelectorEngine

/-- What the form of a selector says about nodes that are no elements: that it takes all of them,
that it takes none, or nothing. -/
abbrev Stance := Option Bool

namespace Stance

/-- One stance of the strong kind is enough, and for the other kind all have to agree. -/
def prevailing (strong : Bool) (stances : List Stance) : Stance :=
  if some strong ∈ stances then some strong else if none ∈ stances then none else some (!strong)

def every : List Stance → Stance := prevailing false

def either : List Stance → Stance := prevailing true

variable {strong : Bool} {stances : List Stance}

theorem mem_of_prevailing (h : prevailing strong stances = some strong) :
    some strong ∈ stances := by
  rw [prevailing] at h
  split at h
  · assumption
  · split at h
    · cases h
    · exact absurd (Option.some.inj h) (Bool.not_not_eq.mpr rfl)

theorem agree_of_prevailing (h : prevailing strong stances = some !strong) :
    ∀ stance ∈ stances, stance = some !strong := by
  rw [prevailing] at h
  split at h
  · exact absurd (Option.some.inj h) (Bool.not_eq_not.mpr rfl)
  next absent =>
    split at h
    · cases h
    next definite =>
      intro stance hs
      rcases stance with _ | said
      · exact absurd hs definite
      · have other : said ≠ strong := fun same => absent (same ▸ hs)
        exact congrArg some (Bool.eq_not.mpr other)

end Stance

section Form

variable {A B : Type}

/-- A negation turns around what its argument does. A position looks at no node. -/
def Simple.stance (argument : A → Stance) : Simple A → Stance
  | position _ => none
  | not list => (argument list).map (!·)
  | _ => some false

def Chain.lastStance (argument : A → Stance) (c : Chain A) : Stance :=
  c.last?.elim (some false) fun last =>
    let own := Stance.every (last.map (Simple.stance argument))
    if c.links.isEmpty then own else own.filter (!·)

def Chain.stance (positional : A → Bool) (argument : A → Stance) (c : Chain A) : Stance :=
  if !c.links.isEmpty && c.hasPositional positional then some false else c.lastStance argument

def Complex.stance (positional : A → Bool) (argument : A → Stance) (branch : Complex A) : Stance :=
  (Chain.ofParts? branch.parts).elim (some false) (Chain.stance positional argument)

theorem Simple.stance_map (f : A → B) (argument : B → Stance) (simple : Simple A) :
    (simple.map f).stance argument = simple.stance fun list => argument (f list) := by
  cases simple <;> rfl

theorem Chain.lastStance_map (f : A → B) (argument : B → Stance) (c : Chain A) :
    (c.map f).lastStance argument = c.lastStance fun list => argument (f list) := by
  have same : Simple.stance argument ∘ Simple.map f = Simple.stance fun list => argument (f list) :=
    funext fun simple => simple.stance_map f argument
  rw [lastStance, lastStance, last?_map, isEmpty_links_map]
  cases c.last? with
  | none => rfl
  | some last => simp only [Option.map_some, Option.elim_some, List.map_map, same]

theorem Complex.stance_map (f : A → B) (positional : B → Bool) (argument : B → Stance)
    (branch : Complex A) : (branch.map f).stance positional argument =
      branch.stance (fun list => positional (f list)) fun list => argument (f list) := by
  rw [stance, stance, map, Chain.ofParts?_map]
  cases Chain.ofParts? branch.parts with
  | none => rfl
  | some chain =>
    rw [Option.map_some, Option.elim_some, Option.elim_some, Chain.stance, Chain.stance,
      Chain.isEmpty_links_map, Chain.hasPositional_map, Chain.lastStance_map]

end Form

structure Profile where
  positional : Bool
  stance : Stance

def Profile.ofBranches (branches : List (Complex Profile)) : Profile where
  positional := branches.any (Complex.hasPositional positional)
  stance := Stance.either (branches.map (Complex.stance positional stance))

namespace SelectorList

def profile : SelectorList → Profile := fold fun _ branches => Profile.ofBranches branches

def stance (list : SelectorList) : Stance := list.profile.stance

theorem positional_profile (list : SelectorList) :
    list.profile.positional = list.hasPositional :=
  fold_fusion Profile.positional
    (fun _ branches => (Complex.any_hasPositional_map Profile.positional branches).symm) list

theorem stance_eq (list : SelectorList) :
    list.stance = Stance.either (list.branches.map (Complex.stance hasPositional stance)) := by
  have same : Complex.stance Profile.positional Profile.stance ∘ Complex.map profile =
      Complex.stance hasPositional stance := by
    funext branch
    rw [Function.comp_apply, Complex.stance_map]
    simp only [positional_profile]
    rfl
  rw [← same, ← List.map_map, stance, profile, fold_eq]
  rfl

end SelectorList

open Setting (plainPart fragmentChain)

variable {N : Type} [DecidableEq N]

namespace TreeView

/-- Of the nodes of a seed that are no elements, all are chosen or none. -/
def Takes (view : TreeView N) (choose : List N → List N) (all : Bool) : Prop :=
  ∀ seed, ∀ n ∈ seed, view.isElement n = false → (n ∈ choose seed ↔ all = true)

def Obeys (view : TreeView N) (choose : List N → List N) (stance : Stance) : Prop :=
  ∀ all ∈ stance, view.Takes choose all

omit [DecidableEq N] in
theorem Takes.elements {view : TreeView N} {choose : List N → List N}
    (h : view.Takes choose false) {seed : List N} (within : choose seed ⊆ seed) :
    ∀ n ∈ choose seed, view.isElement n = true := by
  intro n hn
  by_contra he
  exact Bool.false_ne_true ((h seed n (within hn) (Bool.not_eq_true _ ▸ he)).mp hn)

end TreeView

namespace Setting

variable {A : Type} {s : Setting N} {f : A → Query N} {argument : A → Stance}

theorem outcomes_rejects {simple : Simple (Query N)}
    (looks : (simple.stance fun _ => none) = some false) :
    s.view.Takes (fun nodes => keep nodes (s.outcomes simple nodes)) false := by
  intro nodes n hn he
  refine iff_of_false (fun hm => ?_) Bool.false_ne_true
  cases simple with
  | position => cases looks
  | not => cases looks
  | child place =>
    cases place <;> simp [outcomes, keep_map, satisfies, passes, stands, he] at hm
  | _ => simp [outcomes, keep_map, satisfies, passes, he] at hm

theorem obeys_outcomes {simple : Simple A}
    (nested : ∀ a, simple = .not a →
      s.view.Obeys (fun seed => (f a).answer s.view.documentRoot (some seed)) (argument a)) :
    s.view.Obeys (fun nodes => keep nodes (s.outcomes (simple.map f) nodes))
      (simple.stance argument) := by
  intro all hall
  cases simple with
  | position => cases hall
  | not a =>
    -- An argument that is not satisfied by what is no element makes the negation hold of it.
    obtain ⟨inner, ha, rfl⟩ := Option.map_eq_some_iff.mp hall
    intro nodes n hn he
    have taken := nested a rfl inner ha nodes n hn he
    change n ∈ keep nodes (nodes.map fun n =>
      !((f a).answer s.view.documentRoot (some nodes)).contains n) ↔ _
    rw [keep_map, List.mem_filter, and_iff_right hn, Bool.not_eq_true', Bool.not_eq_true',
      ← Bool.not_eq_true, ← Bool.not_eq_true, List.contains_iff_mem, taken]
  | _ =>
    obtain rfl := Option.some.inj hall
    exact outcomes_rejects rfl

theorem sift_rejects {simples : List (Simple (Query N))} {simple : Simple (Query N)}
    (hs : simple ∈ simples)
    (h : s.view.Takes (fun nodes => keep nodes (s.outcomes simple nodes)) false) :
    s.view.Takes (s.sift simples) false := by
  intro seed n hn he
  refine iff_of_false (fun hm => ?_) Bool.false_ne_true
  induction simples generalizing seed with
  | nil => cases hs
  | cons first simples ih =>
    rw [sift] at hm
    have kept : n ∈ keep seed (s.outcomes first seed) := (sift_sublist _ _).subset hm
    rcases List.mem_cons.mp hs with rfl | hs
    · exact Bool.false_ne_true ((h seed n hn he).mp kept)
    · exact ih hs _ kept hm

theorem sift_takes {simples : List (Simple (Query N))}
    (h : ∀ simple ∈ simples,
      s.view.Takes (fun nodes => keep nodes (s.outcomes simple nodes)) true) :
    s.view.Takes (s.sift simples) true := by
  intro seed n hn he
  refine iff_of_true ?_ rfl
  induction simples generalizing seed with
  | nil => exact hn
  | cons first simples ih =>
    obtain ⟨hfirst, hsimples⟩ := List.forall_mem_cons.mp h
    exact ih hsimples _ ((hfirst seed n hn he).mpr rfl)

theorem obeys_compound {simples : List (Simple A)}
    (nested : ∀ a, .not a ∈ simples →
      s.view.Obeys (fun seed => (f a).answer s.view.documentRoot (some seed)) (argument a)) :
    s.view.Obeys (s.sift (evaluationOrder (simples.map (Simple.map f))))
      (Stance.every (simples.map (Simple.stance argument))) := by
  have each : ∀ simple ∈ simples, s.view.Obeys
      (fun nodes => keep nodes (s.outcomes (simple.map f) nodes)) (simple.stance argument) :=
    fun simple hs => obeys_outcomes fun a he => nested a (he ▸ hs)
  intro all hall
  cases all with
  | false =>
    obtain ⟨simple, hs, rejects⟩ := List.mem_map.mp (Stance.mem_of_prevailing hall)
    have ordered : simple.map f ∈ evaluationOrder (simples.map (Simple.map f)) :=
      (mem_evaluationOrder _).mpr (List.mem_map_of_mem hs)
    exact sift_rejects ordered (each simple hs false rejects)
  | true =>
    refine sift_takes fun simple hs => ?_
    obtain ⟨written, hw, rfl⟩ := List.mem_map.mp ((mem_evaluationOrder _).mp hs)
    exact each written hw true (Stance.agree_of_prevailing hall _ (List.mem_map_of_mem hw))

/-- The plain part of a compound is never empty, and each of its simple selectors looks at the
node. -/
theorem plainPart_rejects (simples : List (Simple (Query N))) :
    s.view.Takes (s.sift (evaluationOrder (plainPart simples))) false := by
  have some_plain : plainPart simples ≠ [] := by
    unfold plainPart
    split
    · exact List.cons_ne_nil _ _
    · assumption
  obtain ⟨simple, hs⟩ := List.exists_mem_of_ne_nil _ some_plain
  refine sift_rejects ((mem_evaluationOrder _).mpr hs) (outcomes_rejects ?_)
  rcases mem_plainPart hs with rfl | ⟨-, plain⟩
  · rfl
  · cases simple with
    | universal | tag | id | className | attr => rfl
    | _ => cases plain

variable {chain : Chain (Query N)} {context : N} {seed : List N}

theorem answerWithin_sublist : (s.answerWithin chain context (some seed)).Sublist seed := by
  rw [answerWithin]
  split
  · exact List.nil_sublist _
  · exact List.filter_sublist.trans (sift_sublist _ _)

omit [DecidableEq N] in
theorem fragmentChain_seed (link : Link (Query N)) (seed : List N) :
    fragmentChain link (some seed) = ⟨none, [⟨link.combinator, plainPart link.simples⟩]⟩ := by
  obtain ⟨combinator, simples⟩ := link
  cases combinator <;> rfl

theorem mem_answerLinks {links : List (Link (Query N))} (several : links ≠ [])
    {roots : List N} {n : N}
    (hn : n ∈ s.answerLinks (some seed) links roots) : n ∈ seed ∧ s.view.isElement n = true := by
  obtain none | ⟨links, last, rfl⟩ := List.eq_nil_or_concat links
  · exact absurd none several
  rw [List.concat_eq_append, answerLinks_concat] at hn
  generalize s.answerLinks none links roots = roots at hn
  have reached : n ∈ s.reach last (some seed) roots := (sift_sublist _ _).subset hn
  have found : n ∈ roots.flatMap fun root =>
      s.answerBackward (fragmentChain last (some seed)) root (some seed) := by
    rw [reach] at reached
    split at reached
    · exact (TreeView.mem_arrange _).mp reached
    · exact reached
  obtain ⟨root, -, found⟩ := List.mem_flatMap.mp found
  rw [fragmentChain_seed] at found
  have plain : n ∈ s.sift (evaluationOrder (plainPart last.simples)) seed :=
    List.mem_of_mem_filter found
  have within := (sift_sublist (s := s) (evaluationOrder (plainPart last.simples)) seed).subset
  exact ⟨within plain, (plainPart_rejects last.simples).elements within n plain⟩

theorem answerBranch_subset (branch : Complex (Query N)) :
    s.answerBranch branch context (some seed) ⊆ seed := by
  rw [answerBranch]
  split
  · exact List.nil_subset _
  next chain _ =>
    split
    · next forward =>
      intro n hn
      refine (mem_answerLinks ?_ hn).1
      rintro none
      rw [none] at forward
      cases forward
    · exact answerWithin_sublist.subset

theorem obeys_answerWithin {chain : Chain A}
    (nested : ∀ a, .not a ∈ chain.simples →
      s.view.Obeys (fun seed => (f a).answer s.view.documentRoot (some seed)) (argument a)) :
    s.view.Obeys (fun seed => s.answerWithin (chain.map f) context (some seed))
      (chain.lastStance argument) := by
  intro all hall seed n hn he
  rw [Chain.lastStance] at hall
  simp only [answerWithin, Chain.last?_map]
  cases hlast : chain.last? with
  | none =>
    rw [hlast] at hall
    obtain rfl := Option.some.inj hall
    simp
  | some last =>
    rw [hlast, Option.elim_some] at hall
    have inner : chain.All fun simple => ∀ a, simple = .not a →
        s.view.Obeys (fun seed => (f a).answer s.view.documentRoot (some seed)) (argument a) := by
      rintro simple hs a rfl
      exact nested a hs
    have own := obeys_compound (s := s) fun a ha => inner.of_last hlast _ ha a rfl
    simp only [Option.map_some, start, List.mem_filter]
    dsimp only at hall
    split at hall
    · next alone =>
      have free : s.holds (chain.map f) context n = true := by
        rw [holds, Chain.isEmpty_links_map, alone, Bool.true_or]
      rw [free, and_iff_left rfl]
      exact own all hall seed n hn he
    · obtain ⟨hall, rejects⟩ := Option.filter_eq_some_iff.mp hall
      obtain rfl := (Bool.not_eq_true' all).mp rejects
      exact iff_of_false
        (fun found => Bool.false_ne_true ((own false hall seed n hn he).mp found.1))
        Bool.false_ne_true

theorem obeys_answerBranch {branch : Complex A} {positional : A → Bool}
    (same : ∀ a, (f a).positional = positional a)
    (nested : ∀ a, .not a ∈ branch.simples →
      s.view.Obeys (fun seed => (f a).answer s.view.documentRoot (some seed)) (argument a)) :
    s.view.Obeys (fun seed => s.answerBranch (branch.map f) context (some seed))
      (branch.stance positional argument) := by
  intro all hall seed n hn he
  have parts : Chain.ofParts? (branch.map f).parts =
      (Chain.ofParts? branch.parts).map (Chain.map f) := Chain.ofParts?_map f branch.parts
  rw [Complex.stance] at hall
  simp only [answerBranch, parts]
  cases written : Chain.ofParts? branch.parts with
  | none =>
    rw [written] at hall
    obtain rfl := Option.some.inj hall
    simp
  | some chain =>
    rw [written, Option.elim_some, Chain.stance] at hall
    simp only [Option.map_some, Chain.isEmpty_links_map, Chain.hasPositional_map, same]
    -- From left to right the last step is a search, which finds elements only.
    split at hall
    · next forward =>
      obtain rfl := Option.some.inj hall
      rw [if_pos forward]
      rw [Bool.and_eq_true, Bool.not_eq_true', ← Chain.isEmpty_links_map f] at forward
      have several : (chain.map f).links ≠ [] := List.isEmpty_eq_false_iff.mp forward.1
      refine iff_of_false (fun found => ?_) Bool.false_ne_true
      exact Bool.false_ne_true (he.symm.trans (mem_answerLinks several found).2)
    · next backward =>
      rw [if_neg backward]
      have simples : chain.simples = branch.simples := Chain.simples_ofParts? written
      exact obeys_answerWithin (simples ▸ nested) all hall seed n hn he

end Setting

namespace SelectorList

variable {view : TreeView N} {config : Config} {context : N}

theorem answer_subset (linked : view.toOutline.Linked)
    (root : view.isContext view.documentRoot = true)
    (list : SelectorList) (valid : view.isContext context = true)
    (alike : view.isXml view.documentRoot = view.isXml context) (seed : List N) :
    (list.query view config).answer context (some seed) ⊆ seed := by
  intro n hn
  obtain ⟨branch, -, hn⟩ := (mem_answer valid list (some seed) n).mp hn
  rw [Setting.evaluateBranch_unmarked ⟨linked, alike, root⟩
    (sane_branch config linked root branch)] at hn
  exact Setting.answerBranch_subset _ hn

/-- By induction on the depth of its arguments, a list does with the nodes of a seed that are no
elements what its form says. -/
theorem obeys_answer (linked : view.toOutline.Linked)
    (root : view.isContext view.documentRoot = true)
    (list : SelectorList) (valid : view.isContext context = true)
    (alike : view.isXml view.documentRoot = view.isXml context) :
    view.Obeys (fun seed => (list.query view config).answer context (some seed)) list.stance := by
  induction list using SelectorList.induction generalizing context with
  | step list ih =>
    intro all hall seed n hn he
    rw [stance_eq] at hall
    have each : ∀ branch ∈ list.branches, ∀ all ∈ branch.stance hasPositional stance,
        (n ∈ (⟨view, config, view.isXml context⟩ : Setting N).evaluateBranch
          (branch.map (query view config)) context (some seed) ↔ all = true) := by
      intro branch hb all hall
      rw [Setting.evaluateBranch_unmarked ⟨linked, alike, root⟩
        (sane_branch config linked root branch)]
      have nested : ∀ list, .not list ∈ branch.simples → view.Obeys
          (fun seed => (list.query view config).answer view.documentRoot (some seed)) list.stance :=
        fun list hl => ih branch hb list (.inr hl) root rfl
      exact Setting.obeys_answerBranch (s := ⟨view, config, view.isXml context⟩)
        positional_query nested all hall seed n hn he
    rw [mem_answer valid]
    cases all with
    | true =>
      obtain ⟨branch, hb, takes⟩ := List.mem_map.mp (Stance.mem_of_prevailing hall)
      exact iff_of_true ⟨branch, hb, (each branch hb true takes).mpr rfl⟩ rfl
    | false =>
      refine iff_of_false ?_ Bool.false_ne_true
      rintro ⟨branch, hb, found⟩
      have rejects := Stance.agree_of_prevailing hall _ (List.mem_map_of_mem hb)
      exact Bool.false_ne_true ((each branch hb false rejects).mp found)

end SelectorList

end SelectorEngine
