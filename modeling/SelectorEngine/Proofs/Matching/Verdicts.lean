import Mathlib.Data.List.Basic
import SelectorEngine.Matching.Filter
import SelectorEngine.Proofs.View.Links

/-! # Verdicts without marks

What a simple selector says about a list of nodes depends on the tree and the list alone. The marks
only save counting: a count that is on record is the one that would be made again. -/
namespace SelectorEngine

variable {N : Type} [DecidableEq N]

def Outline.elementChildren (o : Outline N) (p : N) : List N := (o.children p).filter o.isElement

def Outline.place? (o : Outline N) (n : N) : Option Nat :=
  (o.parent n).map fun p => (o.elementChildren p).idxOf n + 1

namespace Marks

/-- No mark is newer than the current generation, and all recorded places are true. -/
structure Sound (o : Outline N) (m : Marks N) : Prop where
  stamped : ∀ n g i, m.stamps.get? n = some (g, i) → g ≤ m.generation
  counted : ∀ p g, m.counted.get? p = some g → g ≤ m.generation
  placed : ∀ p g, m.counted.get? p = some g → ∀ n ∈ o.elementChildren p,
    m.places.get? n = o.place? n

/-- What filtering does to the marks: it may count, but it stamps nothing. -/
structure Follows (o : Outline N) (m m' : Marks N) : Prop where
  sound : m'.Sound o
  stamps : m'.stamps = m.stamps
  generation : m.generation ≤ m'.generation

variable {o : Outline N} {m m' m'' : Marks N}

theorem sound_empty : Sound o {} := by
  constructor <;> intros <;> simp_all [Table.get?]

theorem Follows.refl (h : m.Sound o) : Follows o m m := ⟨h, rfl, Nat.le_refl _⟩

theorem Follows.trans (h : Follows o m m') (k : Follows o m' m'') : Follows o m m'' :=
  ⟨k.sound, k.stamps.trans h.stamps, h.generation.trans k.generation⟩

theorem follows_advance (h : m.Sound o) : Follows o m m.advance where
  sound :=
    { stamped := fun n g i hn => (h.stamped n g i hn).trans (Nat.le_succ _)
      counted := fun p g hp => (h.counted p g hp).trans (Nat.le_succ _)
      placed := h.placed }
  stamps := rfl
  generation := Nat.le_succ _

theorem get?_number {places : Table N Nat} {elements : List N} (hd : elements.Nodup)
    (k : Nat) (n : N) :
    ((elements.zipIdx k).foldl (fun places (n, place) => places.set n place) places).get? n =
      if n ∈ elements then some (elements.idxOf n + k) else places.get? n := by
  induction elements generalizing places k with
  | nil => simp
  | cons e elements ih =>
    obtain ⟨he, hd⟩ := List.nodup_cons.mp hd
    rw [List.zipIdx_cons, List.foldl_cons, ih hd, Table.get?_set]
    by_cases hn : n = e
    · subst hn
      simp [he]
    · have hne : e ≠ n := Ne.symm hn
      by_cases hm : n ∈ elements
      · simp [hn, hm, hne]
        omega
      · simp [hn, hm, hne]

theorem place?_of_mem (h : o.Linked) {p n : N} (hn : n ∈ o.elementChildren p) :
    o.place? n = some ((o.elementChildren p).idxOf n + 1) := by
  rw [Outline.place?, (h.child_iff p n).mp (List.mem_of_mem_filter hn)]
  rfl

theorem follows_count (h : o.Linked) (hm : m.Sound o) {g : Nat} (hg : g ≤ m.generation) (p : N) :
    Follows o m (m.count g p (o.elementChildren p)) where
  sound :=
    { stamped := hm.stamped
      counted := by
        intro q g' hq
        rw [count, Table.get?_set] at hq
        split at hq
        · obtain rfl := Option.some.inj hq
          exact hg
        · exact hm.counted q g' hq
      placed := by
        intro q g' hq n hn
        have hd : (o.elementChildren p).Nodup := (h.nodup p).filter _
        rw [count, get?_number hd]
        split
        · next hp => rw [place?_of_mem h hp]
        · next hp =>
          rw [count, Table.get?_set] at hq
          split at hq
          · next he => exact absurd (he ▸ hn) hp
          · exact hm.placed q g' hq n hn }
  stamps := rfl
  generation := Nat.le_refl _

theorem Sound.place_of_isCounted (hm : m.Sound o) {g : Nat} {p : N}
    (h : m.isCounted g p = true) {n : N}
    (hn : n ∈ o.elementChildren p) : m.places.get? n = o.place? n :=
  hm.placed p g (by simpa [Marks.isCounted] using h) n hn

end Marks

namespace Setting

def stands (s : Setting N) (formula : AnPlusB) (n : N) : Bool :=
  s.view.isElement n &&
    (formula == ⟨1, 0⟩ || (s.view.place? n).any fun place => formula.holds place)

def satisfies (s : Setting N) (simple : Simple (Query N)) (n : N) : Bool :=
  match simple with
  | .child (.nth formula) => s.stands formula n
  | .not query => !(query.answer s.view.documentRoot (some [n])).contains n
  | simple => s.passes simple n

def admits (s : Setting N) (simples : List (Simple (Query N))) (n : N) : Bool :=
  simples.all (s.satisfies · n)

def outcomes (s : Setting N) (simple : Simple (Query N)) (nodes : List N) : List Bool :=
  match simple with
  | .position place => nodes.zipIdx.map fun (_, index) => place.holds index nodes.length
  | .not query =>
    nodes.map fun n => !(query.answer s.view.documentRoot (some nodes)).contains n
  | simple => nodes.map (s.satisfies simple)

/-- The nodes that simple selectors leave, applied one after the other. -/
def sift (s : Setting N) : List (Simple (Query N)) → List N → List N
  | [], nodes => nodes
  | simple :: simples, nodes => s.sift simples (keep nodes (s.outcomes simple nodes))

end Setting

/-- A query that says the same in place as where it is evaluated on its own. -/
def Query.Faithful (view : TreeView N) (q : Query N) : Prop :=
  ∀ inPlace, q.inPlace = some inPlace → ∀ nodes negate (m : Marks N), m.Sound view.toOutline →
    (inPlace (view.isXml view.documentRoot) nodes negate m).1 =
        nodes.map (fun n => (q.answer view.documentRoot (some nodes)).contains n ^^ negate) ∧
      m.Follows view.toOutline (inPlace (view.isXml view.documentRoot) nodes negate m).2

/-- A query whose answer about a node does not depend on the rest of the seed. -/
def Query.Pointwise (view : TreeView N) (q : Query N) : Prop :=
  ∀ seed n, n ∈ seed →
    (n ∈ q.answer view.documentRoot (some seed) ↔ n ∈ q.answer view.documentRoot (some [n]))

def Simple.Local (view : TreeView N) : Simple (Query N) → Prop
  | .position _ => False
  | .not q => q.Faithful view ∧ q.Pointwise view
  | _ => True

/-- The links of the view agree, and names compare in the document as in the setting. -/
structure Setting.Regular (s : Setting N) : Prop where
  linked : s.view.toOutline.Linked
  xml_root : s.view.isXml s.view.documentRoot = s.xml
  root_context : s.view.isContext s.view.documentRoot = true

namespace Setting

variable {s : Setting N} {m : Marks N}

theorem nthChild_eq (h : s.view.toOutline.Linked) (hm : m.Sound s.view.toOutline) {g : Nat}
    (hg : g ≤ m.generation) (formula : AnPlusB) (n : N) :
    (s.nthChild formula g n m).1 = s.stands formula n ∧
      Marks.Follows s.view.toOutline m (s.nthChild formula g n m).2 := by
  rw [nthChild, stands]
  by_cases he : s.view.isElement n = true
  · by_cases hf : formula = ⟨1, 0⟩
    · simp [he, hf, Marks.Follows.refl hm]
    · simp only [he, hf, Bool.not_true, Bool.false_eq_true, if_false, Bool.true_and]
      cases hp : s.view.parent n with
      | none => simp [Outline.place?, hp, hf, Marks.Follows.refl hm]
      | some p =>
        have hn : n ∈ s.view.elementChildren p :=
          List.mem_filter.mpr ⟨(h.child_iff p n).mpr hp, he⟩
        by_cases hc : m.isCounted g p = true
        · simp [hc, hf, hm.place_of_isCounted hc hn, Marks.Follows.refl hm]
        · have hk := Marks.follows_count h hm hg p
          have hi : (m.count g p (s.view.elementChildren p)).isCounted g p = true := by
            simp [Marks.isCounted, Marks.count, Table.get?_set]
          have hpl := hk.sound.place_of_isCounted hi hn
          simp only [hc, Bool.false_eq_true, if_false]
          exact ⟨by simp [hf, ← hpl, Outline.elementChildren], hk⟩
  · simp [he, Marks.Follows.refl hm]

theorem nthChildren_eq (h : s.view.toOutline.Linked) (hm : m.Sound s.view.toOutline) {g : Nat}
    (hg : g ≤ m.generation) (formula : AnPlusB) (nodes : List N) :
    (s.nthChildren formula g nodes m).1 = nodes.map (s.stands formula) ∧
      m.Follows s.view.toOutline (s.nthChildren formula g nodes m).2 := by
  induction nodes generalizing m with
  | nil => exact ⟨rfl, .refl hm⟩
  | cons n nodes ih =>
    obtain ⟨hv, hf⟩ := nthChild_eq h hm hg formula n
    obtain ⟨hvs, hfs⟩ := ih hf.sound (hg.trans hf.generation)
    exact ⟨by rw [nthChildren, List.map_cons, ← hv, ← hvs], hf.trans hfs⟩

theorem verdicts_eq (reg : s.Regular) (hm : m.Sound s.view.toOutline) {simple : Simple (Query N)}
    (hq : ∀ q, simple = .not q → q.Faithful s.view) (nodes : List N) (negate : Bool) :
    (s.verdicts simple nodes negate m).1 = (s.outcomes simple nodes).map (· ^^ negate) ∧
      m.Follows s.view.toOutline (s.verdicts simple nodes negate m).2 := by
  cases simple with
  | position place =>
    exact ⟨by simp [verdicts, outcomes, Function.comp_def], .refl hm⟩
  | not q =>
    rw [verdicts, outcomes]
    cases hp : q.inPlace with
    | none => exact ⟨by simp, .refl hm⟩
    | some inPlace =>
      obtain ⟨hv, hf⟩ := hq q rfl inPlace hp nodes (!negate) m hm
      rw [reg.xml_root] at hv hf
      exact ⟨by simp [hv, Function.comp_def], hf⟩
  | child place =>
    cases place with
    | nth formula =>
      have ha := Marks.follows_advance hm
      obtain ⟨hv, hf⟩ := nthChildren_eq reg.linked ha.sound (Nat.le_refl _) formula nodes
      exact ⟨by simp [verdicts, outcomes, hv, satisfies, Function.comp_def], ha.trans hf⟩
    | _ => exact ⟨by simp [verdicts, outcomes, satisfies, Function.comp_def], .refl hm⟩
  | _ => exact ⟨by simp [verdicts, outcomes, satisfies, Function.comp_def], .refl hm⟩

theorem filterEach_eq (reg : s.Regular) (hm : m.Sound s.view.toOutline)
    {simples : List (Simple (Query N))} (hq : ∀ q, .not q ∈ simples → q.Faithful s.view)
    (nodes : List N) :
    (s.filterEach simples nodes m).1 = s.sift simples nodes ∧
      m.Follows s.view.toOutline (s.filterEach simples nodes m).2 := by
  induction simples generalizing nodes m with
  | nil => exact ⟨rfl, .refl hm⟩
  | cons simple simples ih =>
    have hqs : ∀ q, simple = .not q → q.Faithful s.view := fun q he => hq q (by simp [he])
    obtain ⟨hv, hf⟩ := verdicts_eq reg hm hqs nodes false
    have hn : (s.outcomes simple nodes).map (· ^^ false) = s.outcomes simple nodes := by simp
    rw [hn] at hv
    obtain ⟨hk, hfs⟩ := ih hf.sound (fun q hm => hq q (by simp [hm]))
      (keep nodes (s.outcomes simple nodes))
    rw [← hv] at hk hfs
    rw [filterEach, sift, ← hv]
    exact ⟨hk, hf.trans hfs⟩

theorem mem_evaluationOrder {A : Type} {simple : Simple A} (simples : List (Simple A)) :
    simple ∈ evaluationOrder simples ↔ simple ∈ simples := by
  rw [evaluationOrder, List.mem_append, List.mem_filter, List.mem_filter]
  cases simple.isPositional <;> simp

theorem filter_eq (reg : s.Regular) (hm : m.Sound s.view.toOutline)
    {simples : List (Simple (Query N))} (hq : ∀ q, .not q ∈ simples → q.Faithful s.view)
    (nodes : List N) :
    (s.filter simples nodes m).1 = s.sift (evaluationOrder simples) nodes ∧
      m.Follows s.view.toOutline (s.filter simples nodes m).2 :=
  filterEach_eq reg hm (fun q h => hq q ((mem_evaluationOrder simples).mp h)) nodes

omit [DecidableEq N] in
theorem keep_map (nodes : List N) (f : N → Bool) : keep nodes (nodes.map f) = nodes.filter f := by
  induction nodes with
  | nil => rfl
  | cons n nodes ih =>
    rw [keep] at ih ⊢
    cases h : f n <;> simp [h, ih]

theorem faithful_of_local {simples : List (Simple (Query N))}
    (hl : ∀ simple ∈ simples, simple.Local s.view) (q : Query N) (hq : .not q ∈ simples) :
    q.Faithful s.view := (hl _ hq).1

theorem outcomes_local {simple : Simple (Query N)} (hl : simple.Local s.view) (nodes : List N) :
    s.outcomes simple nodes = nodes.map (s.satisfies simple) := by
  cases simple with
  | position => exact hl.elim
  | not q =>
    refine List.map_congr_left fun n hn => ?_
    rw [satisfies, Bool.not_inj_iff, Bool.eq_iff_iff, List.contains_iff_mem, List.contains_iff_mem]
    exact hl.2 nodes n hn
  | _ => rfl

theorem evaluationOrder_free {A : Type} {simples : List (Simple A)}
    (free : ∀ simple ∈ simples, simple.isPositional = false) :
    evaluationOrder simples = simples := by
  rw [evaluationOrder, List.filter_eq_self.mpr (by simpa using free),
    List.filter_eq_nil_iff.mpr (by simpa using free), List.append_nil]

theorem evaluationOrder_local {view : TreeView N} {simples : List (Simple (Query N))}
    (hl : ∀ simple ∈ simples, simple.Local view) : evaluationOrder simples = simples := by
  refine evaluationOrder_free fun simple hs => ?_
  cases simple with
  | position => exact (hl _ hs).elim
  | _ => rfl

theorem sift_local {simples : List (Simple (Query N))}
    (hl : ∀ simple ∈ simples, simple.Local s.view) (nodes : List N) :
    s.sift simples nodes = nodes.filter (s.admits simples) := by
  induction simples generalizing nodes with
  | nil =>
    have ha : s.admits [] = fun _ => true := rfl
    simp [sift, ha]
  | cons simple simples ih =>
    obtain ⟨h, hl⟩ := List.forall_mem_cons.mp hl
    rw [sift, outcomes_local h, keep_map, ih hl, List.filter_filter]
    refine List.filter_congr fun n _ => ?_
    rw [admits, admits, List.all_cons, Bool.and_comm]

omit [DecidableEq N] in
theorem keep_sublist (nodes : List N) (verdicts : List Bool) :
    (keep nodes verdicts).Sublist nodes := by
  induction nodes generalizing verdicts with
  | nil => exact .slnil
  | cons n nodes ih =>
    rcases verdicts with _ | ⟨verdict, verdicts⟩
    · exact List.nil_sublist _
    · cases verdict with
      | false => exact (ih verdicts).cons n
      | true => exact (ih verdicts).cons_cons n

theorem sift_sublist (simples : List (Simple (Query N))) (nodes : List N) :
    (s.sift simples nodes).Sublist nodes := by
  induction simples generalizing nodes with
  | nil => exact .refl _
  | cons simple simples ih => exact (ih _).trans (keep_sublist nodes _)

theorem filter_local (reg : s.Regular) (hm : m.Sound s.view.toOutline)
    {simples : List (Simple (Query N))} (hl : ∀ simple ∈ simples, simple.Local s.view)
    (nodes : List N) :
    (s.filter simples nodes m).1 = nodes.filter (s.admits simples) ∧
      m.Follows s.view.toOutline (s.filter simples nodes m).2 := by
  obtain ⟨hk, hf⟩ := filter_eq reg hm (faithful_of_local hl) nodes
  exact ⟨by rw [hk, evaluationOrder_local hl, sift_local hl], hf⟩

def checked (s : Setting N) (simples : List (Simple (Query N))) : Trail N → Trail N
  | .reached n => if s.admits simples n then .reached n else .lost
  | trail => trail

omit [DecidableEq N] in
theorem judge_map (f : N → Bool) (trails : List (Trail N)) :
    judge trails ((trails.filterMap Trail.node?).map f) = trails.map fun
      | .reached n => if f n then .reached n else .lost
      | trail => trail := by
  have skip : ∀ trail : Trail N, trail.node? = none → ∀ trails verdicts,
      judge (trail :: trails) verdicts = trail :: judge trails verdicts := by
    intro trail ht trails verdicts
    cases trail with
    | reached n => cases ht
    | _ => cases verdicts <;> rfl
  induction trails with
  | nil => rfl
  | cons trail trails ih =>
    cases trail with
    | reached n => simp [judge, Trail.node?, ih]
    | _ => rw [List.filterMap_cons_none rfl, skip _ rfl, ih, List.map_cons]

theorem filterTrails_local (reg : s.Regular) (hm : m.Sound s.view.toOutline)
    {simples : List (Simple (Query N))} (hl : ∀ simple ∈ simples, simple.Local s.view)
    (trails : List (Trail N)) :
    (s.filterTrails simples trails m).1 = trails.map (s.checked simples) ∧
      m.Follows s.view.toOutline (s.filterTrails simples trails m).2 := by
  rw [filterTrails, evaluationOrder_local hl]
  induction simples generalizing trails m with
  | nil =>
    refine ⟨?_, .refl hm⟩
    have hc : s.checked [] = id := by
      funext trail
      cases trail <;> simp [checked, admits]
    simp [filterTrailsEach, hc]
  | cons simple simples ih =>
    obtain ⟨h, hl'⟩ := List.forall_mem_cons.mp hl
    have hqs : ∀ q, simple = .not q → q.Faithful s.view :=
      fun q he => faithful_of_local hl q (by simp [he])
    obtain ⟨hv, hf⟩ := verdicts_eq reg hm hqs (trails.filterMap Trail.node?) false
    simp only [Bool.xor_false, List.map_id'] at hv
    obtain ⟨hk, hfs⟩ := ih hf.sound hl' (judge trails (s.verdicts simple
      (trails.filterMap Trail.node?) false m).1)
    rw [filterTrailsEach]
    refine ⟨hk.trans ?_, hf.trans hfs⟩
    rw [hv, outcomes_local h, judge_map, List.map_map]
    refine List.map_congr_left fun trail _ => ?_
    cases trail with
    | reached n => cases hs : s.satisfies simple n <;> simp [checked, admits, hs]
    | _ => rfl

end Setting
end SelectorEngine
