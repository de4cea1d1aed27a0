import SelectorEngine.Proofs.Matching.Evaluation
import SelectorEngine.Proofs.Tree.Blueprints

/-! # Filtered trails

A compound filters a list of trails as it filters the list of their nodes. Trails that are lost keep
their places, and those that are lost already or have come home are left alone, but what is counted
is the nodes that are still there. They can be kept in a list of their own next to the trails, each
with the place of its trail: the list and the trails stay aligned. -/
namespace SelectorEngine

/-- What a filter may make of a trail. -/
inductive Trail.Filtered {N : Type} : Trail N → Trail N → Prop where
  | lost : Filtered .lost .lost
  | home : Filtered .home .home
  | kept (n : N) : Filtered (.reached n) (.reached n)
  | dropped (n : N) : Filtered (.reached n) .lost

def slots {N : Type} (first : Nat) : List (Trail N) → List (Nat × N)
  | [] => []
  | trail :: trails => (trail.node?.map (first, ·)).toList ++ slots (first + 1) trails

def lose {N : Type} (trails : List (Trail N)) (places : List Nat) : List (Trail N) :=
  places.foldl (fun trails place => trails.set place .lost) trails

def refused {N : Type} (live : List (Nat × N)) (verdicts : List Bool) : List Nat :=
  ((live.zip verdicts).filter (!·.2)).map (·.1.1)

namespace Setting

variable {N : Type} [DecidableEq N] (s : Setting N)

def filterSlotsEach : List (Simple (Query N)) → (live : List (Nat × N)) → List (Trail N) → Marks N →
    List (Trail N) × Marks N
  | [], _, trails, marks => (trails, marks)
  | simple :: simples, live, trails, marks =>
    if live.isEmpty then (trails, marks)
    else
      let (verdicts, marks) := s.verdicts simple (live.map (·.2)) false marks
      filterSlotsEach simples (keep live verdicts) (lose trails (refused live verdicts)) marks

/-- The trails in which those are lost whose node fails a simple selector, by way of the live
nodes. -/
def filterSlots (simples : List (Simple (Query N))) (trails : List (Trail N)) (marks : Marks N) :
    List (Trail N) × Marks N :=
  s.filterSlotsEach (evaluationOrder simples) (slots 0 trails) trails marks

end Setting

section Judge

variable {N : Type} {first second third : Trail N} {trails : List (Trail N)} {verdicts : List Bool}

theorem Trail.Filtered.refl (trail : Trail N) : trail.Filtered trail := by
  cases trail with
  | lost => exact .lost
  | reached n => exact .kept n
  | home => exact .home

theorem Trail.Filtered.trans (h : first.Filtered second) (k : second.Filtered third) :
    first.Filtered third := by
  cases h with
  | lost => exact k
  | home => exact k
  | kept n => exact k
  | dropped n =>
    cases k
    exact .dropped n

theorem forall₂_filtered_trans {before between after : List (Trail N)}
    (h : List.Forall₂ Trail.Filtered before between)
    (k : List.Forall₂ Trail.Filtered between after) : List.Forall₂ Trail.Filtered before after := by
  induction h generalizing after with
  | nil => exact k
  | cons head _ ih =>
    cases k with
    | cons next others => exact .cons (head.trans next) (ih others)

theorem filtered_judge (trails : List (Trail N)) (verdicts : List Bool) :
    List.Forall₂ Trail.Filtered trails (judge trails verdicts) := by
  fun_induction judge trails verdicts with
  | case1 n trails verdict verdicts ih =>
    refine .cons ?_ ih
    cases verdict with
    | true => exact .kept n
    | false => exact .dropped n
  | case2 trail trails verdicts _ ih => exact .cons (.refl trail) ih
  | case3 => exact .nil

theorem nodes_judge (each : verdicts.length = (trails.filterMap Trail.node?).length) :
    (judge trails verdicts).filterMap Trail.node? =
      keep (trails.filterMap Trail.node?) verdicts := by
  fun_induction judge trails verdicts with
  | case1 n trails verdict verdicts ih =>
    have others : verdicts.length = (trails.filterMap Trail.node?).length := Nat.succ.inj each
    cases verdict with
    | true => exact congrArg (n :: ·) (ih others)
    | false => exact ih others
  | case2 trail trails verdicts other ih =>
    cases trail with
    | reached n =>
      cases verdicts with
      | nil => cases each
      | cons verdict verdicts => exact (other n verdict verdicts rfl rfl).elim
    | lost => exact ih each
    | home => exact ih each
  | case3 => rfl

theorem nodes_slots (first : Nat) (trails : List (Trail N)) :
    (slots first trails).map (·.2) = trails.filterMap Trail.node? := by
  induction trails generalizing first with
  | nil => rfl
  | cons trail trails ih =>
    rw [slots, List.map_append, ih]
    cases trail <;> rfl

/-- The first trail, in the form that it has got, joins those in front of it. -/
theorem lose_behind (before : List (Trail N)) (trail : Trail N)
    (others : ∀ before : List (Trail N),
      lose (before ++ trails) (refused (slots before.length trails) verdicts) =
        before ++ judge trails verdicts) :
    lose (before ++ trail :: trails) (refused (slots (before.length + 1) trails) verdicts) =
      before ++ trail :: judge trails verdicts := by
  have moved := others (before ++ [trail])
  rwa [List.length_append, List.length_singleton, List.append_assoc, List.append_assoc] at moved

theorem lose_slots (before : List (Trail N))
    (each : verdicts.length = (trails.filterMap Trail.node?).length) :
    lose (before ++ trails) (refused (slots before.length trails) verdicts) =
      before ++ judge trails verdicts := by
  fun_induction judge trails verdicts generalizing before with
  | case1 n trails verdict verdicts ih =>
    have others : verdicts.length = (trails.filterMap Trail.node?).length := Nat.succ.inj each
    cases verdict with
    | true => exact lose_behind before (.reached n) fun before => ih before others
    | false =>
      have first : (before ++ .reached n :: trails).set before.length .lost =
          before ++ .lost :: trails := by
        simp
      have places : refused (slots before.length (.reached n :: trails)) (false :: verdicts) =
          before.length :: refused (slots (before.length + 1) trails) verdicts := rfl
      rw [places, lose, List.foldl_cons, first]
      exact lose_behind before .lost fun before => ih before others
  | case2 trail trails verdicts other ih =>
    cases trail with
    | reached n =>
      cases verdicts with
      | nil => cases each
      | cons verdict verdicts => exact (other n verdict verdicts rfl rfl).elim
    | lost => exact lose_behind before .lost fun before => ih before each
    | home => exact lose_behind before .home fun before => ih before each
  | case3 => rfl

theorem judge_of_none (none_left : trails.filterMap Trail.node? = []) :
    judge trails verdicts = trails := by
  fun_induction judge trails verdicts with
  | case1 => cases none_left
  | case2 trail trails verdicts _ ih =>
    cases trail with
    | reached => cases none_left
    | lost => exact congrArg _ (ih none_left)
    | home => exact congrArg _ (ih none_left)
  | case3 => rfl

theorem keep_slots (first : Nat)
    (each : verdicts.length = (trails.filterMap Trail.node?).length) :
    keep (slots first trails) verdicts = slots first (judge trails verdicts) := by
  fun_induction judge trails verdicts generalizing first with
  | case1 n trails verdict verdicts ih =>
    have others : verdicts.length = (trails.filterMap Trail.node?).length := Nat.succ.inj each
    cases verdict with
    | true => exact congrArg ((first, n) :: ·) (ih (first + 1) others)
    | false => exact ih (first + 1) others
  | case2 trail trails verdicts other ih =>
    cases trail with
    | reached n =>
      cases verdicts with
      | nil => cases each
      | cons verdict verdicts => exact (other n verdict verdicts rfl rfl).elim
    | lost => exact ih (first + 1) each
    | home => exact ih (first + 1) each
  | case3 => rfl

end Judge

namespace Setting

variable {N : Type} [DecidableEq N] {s : Setting N} {m : Marks N}

theorem length_outcomes (simple : Simple (Query N)) (nodes : List N) :
    (s.outcomes simple nodes).length = nodes.length := by
  cases simple with
  | position => rw [outcomes, List.length_map, List.length_zipIdx]
  | _ => exact List.length_map _

theorem filterTrailsEach_of_none (simples : List (Simple (Query N))) {trails : List (Trail N)}
    (none_left : trails.filterMap Trail.node? = []) (m : Marks N) :
    (s.filterTrailsEach simples trails m).1 = trails := by
  induction simples generalizing m with
  | nil => rfl
  | cons simple simples ih =>
    rw [filterTrailsEach]
    simp only [judge_of_none none_left]
    exact ih _

/-- The live nodes are those on the trails after each simple selector, so that nothing depends on
whether they are kept in a list of their own. -/
theorem filterSlotsEach_eq (reg : s.Regular) (hm : m.Sound s.view.toOutline)
    {simples : List (Simple (Query N))} (hq : ∀ q, .not q ∈ simples → q.Faithful s.view)
    (trails : List (Trail N)) :
    (s.filterSlotsEach simples (slots 0 trails) trails m).1 =
      (s.filterTrailsEach simples trails m).1 := by
  induction simples generalizing trails m with
  | nil => rfl
  | cons simple simples ih =>
    rw [filterSlotsEach]
    by_cases empty : (slots 0 trails).isEmpty = true
    · rw [if_pos empty]
      have none_left : trails.filterMap Trail.node? = [] := by
        rw [← nodes_slots 0, List.isEmpty_iff.mp empty]
        rfl
      exact (filterTrailsEach_of_none (simple :: simples) none_left m).symm
    · rw [if_neg empty, filterTrailsEach, nodes_slots]
      have first : ∀ q, simple = .not q → q.Faithful s.view := fun q he => hq q (by simp [he])
      have others : ∀ q, .not q ∈ simples → q.Faithful s.view := fun q hs =>
        hq q (List.mem_cons_of_mem _ hs)
      obtain ⟨verdicts, follows⟩ := verdicts_eq reg hm first (trails.filterMap Trail.node?) false
      have each : (s.verdicts simple (trails.filterMap Trail.node?) false m).1.length =
          (trails.filterMap Trail.node?).length := by
        rw [verdicts, List.length_map, length_outcomes]
      have sound := follows.sound
      generalize s.verdicts simple (trails.filterMap Trail.node?) false m = judged at each sound
      obtain ⟨verdicts, marks⟩ := judged
      have aligned : lose trails (refused (slots 0 trails) verdicts) = judge trails verdicts :=
        lose_slots [] each
      simp only [keep_slots 0 each, aligned]
      exact ih sound others (judge trails verdicts)

theorem filterTrailsEach_eq (reg : s.Regular) (hm : m.Sound s.view.toOutline)
    {simples : List (Simple (Query N))} (hq : ∀ q, .not q ∈ simples → q.Faithful s.view)
    (trails : List (Trail N)) :
    List.Forall₂ Trail.Filtered trails (s.filterTrailsEach simples trails m).1 ∧
      (s.filterTrailsEach simples trails m).1.filterMap Trail.node? =
        s.sift simples (trails.filterMap Trail.node?) := by
  induction simples generalizing trails m with
  | nil => exact ⟨List.forall₂_same.mpr fun trail _ => .refl trail, rfl⟩
  | cons simple simples ih =>
    have first : ∀ q, simple = .not q → q.Faithful s.view := fun q he => hq q (by simp [he])
    have others : ∀ q, .not q ∈ simples → q.Faithful s.view := fun q hs =>
      hq q (List.mem_cons_of_mem _ hs)
    obtain ⟨verdicts, follows⟩ := verdicts_eq reg hm first (trails.filterMap Trail.node?) false
    simp only [Bool.xor_false, List.map_id'] at verdicts
    have judged := filtered_judge trails (s.outcomes simple (trails.filterMap Trail.node?))
    have left := nodes_judge (length_outcomes (s := s) simple (trails.filterMap Trail.node?))
    have step : s.filterTrailsEach (simple :: simples) trails m =
        s.filterTrailsEach simples (judge trails (s.verdicts simple
          (trails.filterMap Trail.node?) false m).1) (s.verdicts simple
            (trails.filterMap Trail.node?) false m).2 := rfl
    rw [step, verdicts, sift, ← left]
    obtain ⟨filtered, nodes⟩ := ih follows.sound others
      (judge trails (s.outcomes simple (trails.filterMap Trail.node?)))
    exact ⟨forall₂_filtered_trans judged filtered, nodes⟩

end Setting

namespace Tree

variable {t : Tree}

/-- At any two moments of evaluations, a filter of trails and a filter of the nodes on them leave
the same nodes in the same order. Each trail keeps its place, and only a trail with a node can be
lost. The live nodes may as well be kept in a list of their own next to the trails. -/
theorem filters_agree (built : t.WellBuilt) (config : Config) {m m' : Marks NodeId}
    (run : Marks.Leads (t.setting config) {} m) (run' : Marks.Leads (t.setting config) {} m')
    (simples : List (Simple SelectorList)) (trails : List (Trail NodeId)) :
    let s := t.setting config
    let asked := simples.map (Simple.map (SelectorList.query t.view config))
    List.Forall₂ Trail.Filtered trails (s.filterTrails asked trails m).1 ∧
      (s.filterTrails asked trails m).1.filterMap Trail.node? =
        (s.filter asked (trails.filterMap Trail.node?) m').1 ∧
      (s.filterSlots asked trails m).1 = (s.filterTrails asked trails m).1 := by
  intro s asked
  have reg : s.Regular := built.linked.regular config
  have sound := (run.sound reg Marks.sound_empty).1
  have sound' := (run'.sound reg Marks.sound_empty).1
  have faithful : ∀ q, .not q ∈ asked → q.Faithful t.view := by
    intro q hq
    obtain ⟨written, -, he⟩ := List.mem_map.mp hq
    cases written with
    | not nested =>
      cases he
      exact nested.faithful built.linked.outline_linked built.linked.isContext_root
    | _ => cases he
  have ordered : ∀ q, .not q ∈ evaluationOrder asked → q.Faithful t.view := fun q hq =>
    faithful q ((Setting.mem_evaluationOrder _).mp hq)
  obtain ⟨filtered, nodes⟩ := Setting.filterTrailsEach_eq reg sound ordered trails
  have filter := (Setting.filter_eq reg sound' faithful (trails.filterMap Trail.node?)).1
  exact ⟨filtered, nodes.trans filter.symm, Setting.filterSlotsEach_eq reg sound ordered trails⟩

def errands : Blueprint where
  children := [.element "ul" [] [.element "li" [] [], .text "and", .element "li" [] []],
    .element "ol" [] [.element "li" [] [], .element "li" [] []]]

def secondStarter : List (Simple SelectorList) :=
  [.position .first, .not .foremost, .child (.nth ⟨0, 1⟩)]

def scattered : List (Trail NodeId) :=
  [.home, .reached 2, .lost, .reached 4, .reached 6, .reached 7]

theorem filters_agree_errands :
    List.Forall₂ Trail.Filtered scattered
        ((errands.build.setting {}).filterTrails
          (secondStarter.map (Simple.map (SelectorList.query errands.build.view {})))
            scattered {}).1 ∧
      ((errands.build.setting {}).filterTrails
          (secondStarter.map (Simple.map (SelectorList.query errands.build.view {}))) scattered
          {}).1.filterMap Trail.node? =
        ((errands.build.setting {}).filter
          (secondStarter.map (Simple.map (SelectorList.query errands.build.view {}))) [2, 4, 6, 7]
          ((errands.build.setting {}).verdicts (.child (.nth ⟨2, 1⟩)) [7, 2] false {}).2).1 ∧
      ((errands.build.setting {}).filterSlots
          (secondStarter.map (Simple.map (SelectorList.query errands.build.view {})))
            scattered {}).1 =
        ((errands.build.setting {}).filterTrails
          (secondStarter.map (Simple.map (SelectorList.query errands.build.view {})))
            scattered {}).1 :=
  filters_agree errands.wellBuilt_build {} .refl
    (.single (.judge (.child (.nth ⟨2, 1⟩)) [7, 2] false {})) secondStarter scattered

end Tree
end SelectorEngine
