import Mathlib.Logic.Relation
import SelectorEngine.Proofs.Matching.Unmarked

/-! # Steps of an evaluation

Whatever an evaluation does, it does one of three things to its marks: it judges a list of nodes by
a simple selector, it opens a generation for a round of walks, or it stamps a node on a walk. -/
namespace SelectorEngine

open Setting (plainPart fragmentChain)

variable {N : Type} [DecidableEq N]

inductive Marks.Step (s : Setting N) : Marks N → Marks N → Prop where
  | judge (written : Simple SelectorList) (nodes : List N) (negate : Bool) (m : Marks N) :
      Step s m (s.verdicts (written.map (SelectorList.query s.view s.config)) nodes negate m).2
  | advance (m : Marks N) : Step s m m.advance
  | stamp {m : Marks N} {generation : Nat} (known : generation ≤ m.generation) (candidate : Nat)
      (n : N) : Step s m (m.stamp generation candidate n)

abbrev Marks.Leads (s : Setting N) : Marks N → Marks N → Prop := Relation.ReflTransGen (Step s)

/-- The simple selector is what a written one means. -/
def Simple.Written (s : Setting N) (simple : Simple (Query N)) : Prop :=
  ∃ written : Simple SelectorList, written.map (SelectorList.query s.view s.config) = simple

def Target.Written (s : Setting N) : Target N → Prop
  | .block simples => ∀ simple ∈ simples, simple.Written s
  | .context _ => True

namespace Marks

variable {s : Setting N} {m m' : Marks N}

theorem Step.sound (reg : s.Regular) (step : Step s m m') (hm : m.Sound s.view.toOutline) :
    m'.Sound s.view.toOutline ∧ m.generation ≤ m'.generation := by
  cases step with
  | judge written nodes negate =>
    have faithful : ∀ q, written.map (SelectorList.query s.view s.config) = .not q →
        q.Faithful s.view := by
      intro q he
      cases written with
      | not nested =>
        cases he
        exact nested.faithful reg.linked reg.root_context
      | _ => cases he
    have follows := (Setting.verdicts_eq reg hm faithful nodes negate).2
    exact ⟨follows.sound, follows.generation⟩
  | advance => exact ⟨(follows_advance hm).sound, Nat.le_succ _⟩
  | stamp known candidate n => exact ⟨Setting.sound_stamp hm known candidate n, Nat.le_refl _⟩

theorem Leads.sound (reg : s.Regular) (run : Leads s m m') (hm : m.Sound s.view.toOutline) :
    m'.Sound s.view.toOutline ∧ m.generation ≤ m'.generation := by
  induction run with
  | refl => exact ⟨hm, Nat.le_refl _⟩
  | tail _ step ih =>
    obtain ⟨sound, grown⟩ := step.sound reg ih.1
    exact ⟨sound, ih.2.trans grown⟩

end Marks

namespace Setting

variable {s : Setting N} {m : Marks N} {simples : List (Simple (Query N))} {target : Target N}

theorem leads_verdicts {simple : Simple (Query N)} (hw : simple.Written s) (nodes : List N)
    (negate : Bool) (m : Marks N) : Marks.Leads s m (s.verdicts simple nodes negate m).2 := by
  obtain ⟨written, rfl⟩ := hw
  exact .single (.judge written nodes negate m)

theorem leads_filterEach (hw : ∀ simple ∈ simples, simple.Written s) (nodes : List N)
    (m : Marks N) :
    Marks.Leads s m (s.filterEach simples nodes m).2 := by
  induction simples generalizing nodes m with
  | nil => exact .refl
  | cons simple simples ih =>
    obtain ⟨first, others⟩ := List.forall_mem_cons.mp hw
    exact (leads_verdicts first nodes false m).trans (ih others _ _)

theorem leads_filter (hw : ∀ simple ∈ simples, simple.Written s) (nodes : List N) (m : Marks N) :
    Marks.Leads s m (s.filter simples nodes m).2 :=
  leads_filterEach (fun simple hs => hw simple ((mem_evaluationOrder simples).mp hs)) nodes m

theorem leads_filterTrailsEach (hw : ∀ simple ∈ simples, simple.Written s) (trails : List (Trail N))
    (m : Marks N) : Marks.Leads s m (s.filterTrailsEach simples trails m).2 := by
  induction simples generalizing trails m with
  | nil => exact .refl
  | cons simple simples ih =>
    obtain ⟨first, others⟩ := List.forall_mem_cons.mp hw
    exact (leads_verdicts first (trails.filterMap Trail.node?) false m).trans (ih others _ _)

theorem leads_relateNear (hw : target.Written s) (step : N → Option N) (trails : List (Trail N))
    (m : Marks N) : Marks.Leads s m (s.relateNear target step trails m).2 := by
  cases target with
  | context => exact .refl
  | block simples =>
    simp only [relateNear]
    split
    · exact .refl
    · exact leads_filterTrailsEach
        (fun simple hs => hw simple ((mem_evaluationOrder simples).mp hs))
        _ m

theorem leads_meet (hw : target.Written s) (n : N) (m : Marks N) :
    Marks.Leads s m (s.meet target n m).2 := by
  cases target with
  | context => exact .refl
  | block simples =>
    simp only [meet]
    split
    · exact .refl
    · exact leads_filter hw [n] m

theorem leads_seek (reg : s.Regular) (hw : target.Written s) {generation candidate : Nat}
    {trails : List (Trail N)} {path : List N} (hm : m.Sound s.view.toOutline)
    (known : generation ≤ m.generation) :
    Marks.Leads s m (s.seek target generation candidate trails path m).2 := by
  induction path generalizing m with
  | nil => exact .refl
  | cons n path ih =>
    rw [seek]
    split
    · exact .refl
    · split
      · have here : Marks.Leads s m (s.meet target n (m.stamp generation candidate n)).2 :=
          .head (.stamp known candidate n) (leads_meet hw n _)
        generalize s.meet target n (m.stamp generation candidate n) = met at here
        obtain ⟨_ | trail, marks⟩ := met
        · obtain ⟨sound, grown⟩ := here.sound reg hm
          exact here.trans (ih sound (known.trans grown))
        · exact here
      · exact ih hm known

theorem leads_walks (reg : s.Regular) (hw : target.Written s) {step : N → Option N}
    {generation : Nat}
    (candidates : List Nat) (state : List (Trail N) × Marks N) (hm : state.2.Sound s.view.toOutline)
    (known : generation ≤ state.2.generation) :
    Marks.Leads s state.2 (candidates.foldl (s.seekFrom target step generation) state).2 := by
  induction candidates generalizing state with
  | nil => exact .refl
  | cons candidate candidates ih =>
    have here : Marks.Leads s state.2 (s.seekFrom target step generation state candidate).2 := by
      obtain ⟨trails, marks⟩ := state
      simp only [seekFrom]
      split
      · exact leads_seek reg hw hm known
      · exact .refl
    obtain ⟨sound, grown⟩ := here.sound reg hm
    exact here.trans (ih _ sound (known.trans grown))

theorem leads_relate (reg : s.Regular) (hw : target.Written s) (combinator : Combinator)
    (trails : List (Trail N)) (hm : m.Sound s.view.toOutline) :
    Marks.Leads s m (s.relate combinator target trails m).2 := by
  have far (step : N → Option N) : Marks.Leads s m (s.relateFar target step trails m).2 :=
    .head (.advance m) (leads_walks reg hw _ (trails, m.advance) (Marks.follows_advance hm).sound
      (Nat.le_refl _))
  cases combinator with
  | adjacent | child => exact leads_relateNear hw _ trails m
  | descendant | general => exact far _

variable {chain : Chain (Query N)} {link : Link (Query N)}

theorem leads_relateAll (reg : s.Regular) (context : N)
    {steps : List (Combinator × Option (List (Simple (Query N))))}
    (hw : ∀ k simples, (k, some simples) ∈ steps → ∀ simple ∈ simples, simple.Written s)
    (trails : List (Trail N)) (hm : m.Sound s.view.toOutline) :
    Marks.Leads s m (s.relateAll context steps trails m).2 := by
  induction steps generalizing trails m with
  | nil => exact .refl
  | cons step steps ih =>
    obtain ⟨combinator, left⟩ := step
    have written : (target context left).Written s := by
      cases left with
      | none => trivial
      | some simples => exact hw combinator simples List.mem_cons_self
    have here := leads_relate reg written combinator trails hm
    exact here.trans
      (ih (fun k simples hk => hw k simples (List.mem_cons_of_mem _ hk)) _ (here.sound reg hm).1)

theorem leads_find (hw : ∀ simple ∈ simples, simple.Written s) (scope : N) (m : Marks N) :
    Marks.Leads s m (s.find simples scope m).2 :=
  leads_filter (fun simple hs => hw simple (candidates_remaining hs)) _ m

theorem leads_follow (reg : s.Regular) (hw : chain.All (Simple.Written s)) (context : N)
    {found : List N × Marks N} (hm : found.2.Sound s.view.toOutline) :
    Marks.Leads s found.2 (s.follow chain context found).2 := by
  rw [follow]
  split
  · exact .refl
  · exact leads_relateAll reg context hw.leftwards _ hm

theorem leads_evaluateWithin (reg : s.Regular) (hw : chain.All (Simple.Written s)) (context : N)
    (seed : Option (List N)) (hm : m.Sound s.view.toOutline) :
    Marks.Leads s m (s.evaluateWithin chain context seed m).2 := by
  rw [evaluateWithin]
  cases last : chain.last? with
  | none => exact .refl
  | some simples =>
    have written := hw.of_last last
    cases seed with
    | none =>
      have here := leads_find written (s.scope chain context) m
      exact here.trans (leads_follow reg hw context (here.sound reg hm).1)
    | some seed =>
      have here := leads_filter written seed m
      exact here.trans (leads_follow reg hw context (here.sound reg hm).1)

theorem leads_evaluateBackward (reg : s.Regular) (hw : chain.All (Simple.Written s)) (context : N)
    (seed : Option (List N)) (hm : m.Sound s.view.toOutline) :
    Marks.Leads s m (s.evaluateBackward chain context seed m).2 := by
  rw [evaluateBackward]
  split
  · next narrow =>
    obtain ⟨-, -, first, link, links, rfl, -⟩ := of_narrows narrow
    have here := leads_find (hw.of_head rfl) context m
    rw [Option.getD_some]
    generalize s.find first context m = found at here
    obtain ⟨_ | ⟨element, others⟩, marks⟩ := found
    · exact here
    · exact here.trans (leads_evaluateWithin reg hw.dropHead element seed (here.sound reg hm).1)
  · exact leads_evaluateWithin reg hw context seed hm

theorem leads_evaluateFromEach (reg : s.Regular) (hw : chain.All (Simple.Written s))
    (seed : Option (List N)) (roots : List N) (hm : m.Sound s.view.toOutline) :
    Marks.Leads s m (s.evaluateFromEach chain seed roots m).2 := by
  induction roots generalizing m with
  | nil => exact .refl
  | cons root roots ih =>
    have here := leads_evaluateBackward reg hw root seed hm
    exact here.trans (ih (here.sound reg hm).1)

theorem written_fragmentChain (hw : ∀ simple ∈ link.simples, simple.Written s)
    (seed : Option (List N)) : (fragmentChain link seed).All (Simple.Written s) := by
  rw [Chain.All, simples_fragmentChain]
  intro simple hs
  rcases mem_plainPart hs with rfl | ⟨hm, -⟩
  · exact ⟨.universal, rfl⟩
  · exact hw simple hm

theorem leads_fragment (reg : s.Regular) (hw : ∀ simple ∈ link.simples, simple.Written s)
    (seed : Option (List N)) (roots : List N) (hm : m.Sound s.view.toOutline) :
    Marks.Leads s m (s.fragment link seed roots m).2 :=
  (leads_evaluateFromEach reg (written_fragmentChain hw seed) seed roots hm).trans
    (leads_filter (fun simple hs => hw simple (List.mem_of_mem_filter hs)) _ _)

theorem leads_followLinks (reg : s.Regular) {links : List (Link (Query N))}
    (hw : ∀ link ∈ links, ∀ simple ∈ link.simples, simple.Written s) (seed : Option (List N))
    (roots : List N) (hm : m.Sound s.view.toOutline) :
    Marks.Leads s m (s.followLinks seed links roots m).2 := by
  induction links generalizing roots m with
  | nil => exact .refl
  | cons link links ih =>
    obtain ⟨first, others⟩ := List.forall_mem_cons.mp hw
    have here := leads_fragment reg first (if links.isEmpty then seed else none) roots hm
    exact here.trans (ih others _ (here.sound reg hm).1)

theorem leads_evaluateForward (reg : s.Regular) (hw : chain.All (Simple.Written s)) (context : N)
    (seed : Option (List N)) (hm : m.Sound s.view.toOutline) :
    Marks.Leads s m (s.evaluateForward chain context seed m).2 := by
  obtain ⟨head, links⟩ := chain
  have others : ∀ link ∈ links, ∀ simple ∈ link.simples, simple.Written s := fun link hl =>
    hw.of_link hl
  cases head with
  | none => exact leads_followLinks reg others seed [context] hm
  | some simples =>
    have first : Chain.All (Simple.Written s) ⟨some simples, []⟩ := fun simple hs =>
      hw.of_head rfl simple (by simpa [Chain.simples] using hs)
    have here := leads_evaluateBackward reg first context none hm
    exact here.trans (leads_followLinks reg others seed _ (here.sound reg hm).1)

/-- In both directions, steps lead through the evaluation of a chain that was written. -/
theorem leads_written (reg : s.Regular) (chain : Chain SelectorList) (context : N)
    (seed : Option (List N)) :
    Marks.Leads s {}
        (s.evaluateForward (chain.map (SelectorList.query s.view s.config)) context seed {}).2 ∧
      Marks.Leads s {}
        (s.evaluateBackward (chain.map (SelectorList.query s.view s.config)) context seed
          {}).2 := by
  have written : (chain.map (SelectorList.query s.view s.config)).All (Simple.Written s) :=
    Chain.All.map fun simple _ => ⟨simple, rfl⟩
  exact ⟨leads_evaluateForward reg written context seed Marks.sound_empty,
    leads_evaluateBackward reg written context seed Marks.sound_empty⟩

end Setting
end SelectorEngine
