import Mathlib.Data.List.Forall2
import SelectorEngine.Proofs.Engine.Answers
import SelectorEngine.Proofs.Matching.Backward
import SelectorEngine.Proofs.Tree.Blueprints

/-! # Searching and walking

An evaluation first searches the candidates of a compound and then walks from them to the left. The
index that a search starts from and the stamps that cut a walk short save work and nothing else: the
search finds the elements that satisfy the compound, the walk ends at the nearest one that does. -/
namespace SelectorEngine.Tree

variable {t : Tree} {config : Config} {compound : Compound SelectorList} {scope : NodeId}
  {combinator : Combinator} {target : Target NodeId}

def demands (t : Tree) (config : Config) (compound : Compound SelectorList) :
    List (Simple (Query NodeId)) :=
  (compound.map (SelectorList.query t.view config)).simples

theorem Linked.demands_local (h : t.Linked) (config : Config)
    (free : compound.hasPositional SelectorList.hasPositional = false) :
    ∀ simple ∈ t.demands config compound, simple.Local t.view := by
  have alone : (⟨[.compound compound], none⟩ : Complex SelectorList).hasPositional
      SelectorList.hasPositional = false := by
    simpa [Complex.hasPositional, Part.hasPositional] using free
  have all : ∀ simple ∈ ((⟨[.compound compound], none⟩ : Complex SelectorList).map
      (SelectorList.query t.view config)).simples, simple.Local t.view :=
    SelectorList.local_branch h.outline_linked h.isContext_root alone
  simpa [Complex.simples, Complex.map, Part.simples, Part.map, demands] using all

theorem className_of_demands {name : String} (hn : .className name ∈ t.demands config compound) :
    .className name ∈ compound.simples := by
  obtain ⟨simple, hs, he⟩ := List.mem_map.mp hn
  cases simple <;> cases he
  exact hs

theorem star_of_demands (star : .tag "*" ∈ t.demands config compound) :
    .tag "*" ∈ compound.simples := by
  obtain ⟨simple, hs, he⟩ := List.mem_map.mp star
  cases simple <;> cases he
  exact hs

/-- Whatever index it starts from, the search finds the elements below its scope that satisfy the
compound, in document order. The index of classes has rules of its own, and a tag called `*` stands
for every tag where it is looked up. -/
theorem find_elements (built : t.WellBuilt) (ids : t.UniqueIds) (config : Config)
    (hs : scope = root ∨ t.isElement scope = true)
    (free : compound.hasPositional SelectorList.hasPositional = false)
    (classless : config.classLookup = false ∨ ∀ name, .className name ∉ compound.simples)
    (star : .tag "*" ∉ compound.simples) {m : Marks NodeId} (hm : m.Sound t.outline) :
    ((t.setting config).find (t.demands config compound) scope m).1 =
      ((t.descendants scope).filter t.isElement).filter
        ((t.setting config).admits (t.demands config compound)) := by
  have h := built.linked
  -- Identifiers are looked up from the document alone, which is attached. An element need not be.
  have attached : t.isDocument scope = true → t.Attached scope := by
    intro hd
    refine .inl (hs.resolve_right fun he => ?_)
    rw [isElement_of_isDocument hd] at he
    cases he
  have classless' : config.classLookup = false ∨
      ∀ name, .className name ∉ t.demands config compound :=
    classless.imp_right fun none name hn => none name (className_of_demands hn)
  rw [h.find_eq ids classless' attached (fun hn => star (star_of_demands hn))
    (h.demands_local config free) hm, List.filter_filter]
  exact List.filter_congr fun n _ => Bool.and_comm _ _

def inquiry : Blueprint where
  children :=
    [.element "form" [("id", "ask")]
      [.element "input" [("name", "q"), ("class", "old")] [], .element "input" [("name", "q")] [],
        .element "input" [] []],
    .element "a" [("name", "q")] []]

def currentField : Compound SelectorList :=
  ⟨"input[name=q]:not(.old)", [.tag "input", .attr ⟨"name", some (.equals, "q")⟩,
    .not (.mk ".old" [{ parts := [.compound ⟨".old", [.className "old"]⟩] }])]⟩

theorem find_elements_inquiry :
    ((inquiry.build.setting {}).find (inquiry.build.demands {} currentField) root {}).1 =
        ((inquiry.build.descendants root).filter inquiry.build.isElement).filter
          ((inquiry.build.setting {}).admits (inquiry.build.demands {} currentField)) ∧
      ((inquiry.build.setting {}).find (inquiry.build.demands {} currentField) root {}).1 = [3] :=
  ⟨find_elements inquiry.wellBuilt_build (inquiry.wellBuilt_build.linked.uniqueIds (by decide)) {}
    (.inl rfl) (by cbv) (.inr (by simp [currentField])) (by simp [currentField]) Marks.sound_empty,
    by decide⟩

inductive Sighted (t : Tree) (config : Config) : Target NodeId → Prop where
  | context (node : NodeId) : Sighted t config (.context node)
  | block {compound : Compound SelectorList} :
      compound.hasPositional SelectorList.hasPositional = false →
      Sighted t config (.block (t.demands config compound))

/-- Where a combinator leads a trail: to the nearest element that satisfies the compound, or home if
the context is an element on the left. Trails that have ended stay as they are. -/
inductive Leads (t : Tree) (config : Config) (combinator : Combinator) :
    Target NodeId → Trail NodeId → Trail NodeId → Prop where
  | lost {goal : Target NodeId} : Leads t config combinator goal .lost .lost
  | home {goal : Target NodeId} : Leads t config combinator goal .home .home
  | nearest {simples : List (Simple (Query NodeId))} {n e : NodeId} :
      t.Nearest ((t.setting config).suits simples) combinator e n →
      Leads t config combinator (.block simples) (.reached n) (.reached e)
  | unmet {simples : List (Simple (Query NodeId))} {n : NodeId} :
      (∀ e, t.Related combinator e n → (t.setting config).suits simples e = false) →
      Leads t config combinator (.block simples) (.reached n) .lost
  | arrival {node n : NodeId} : t.isElement node = true → t.Related combinator node n →
      Leads t config combinator (.context node) (.reached n) .home
  | miss {node n : NodeId} : ¬ (t.isElement node = true ∧ t.Related combinator node n) →
      Leads t config combinator (.context node) (.reached n) .lost

theorem Sighted.isLocal (sighted : t.Sighted config target) (h : t.Linked) :
    target.Local t.view := by
  cases sighted with
  | context node => trivial
  | block free => exact h.demands_local config free

namespace Linked

theorem leads_block (h : t.Linked) (far : combinator ≠ .adjacent)
    (simples : List (Simple (Query NodeId))) (n : NodeId) :
    t.Leads config combinator (.block simples) (.reached n)
      ((t.setting config).trace combinator (.block simples) (.reached n)) := by
  have element : ∀ e, (t.setting config).suits simples e = true → t.isElement e = true :=
    fun _ => isElement_of_suits
  have adjacent : combinator = .adjacent → t.isElement n = true := fun hk => absurd hk far
  have walked : (t.setting config).trace combinator (.block simples) (.reached n) =
      (((t.setting config).leftward combinator n).find? ((t.setting config).suits simples)).elim
        .lost .reached :=
    @trace_chain t config n root combinator ⟨some simples, []⟩
  rw [walked]
  cases hf : ((t.setting config).leftward combinator n).find?
    ((t.setting config).suits simples) with
  | none => exact .unmet ((h.find?_leftward_eq_none element adjacent).mp hf)
  | some e => exact .nearest ((h.find?_leftward element adjacent).mp hf)

theorem leads_context (h : t.Linked) (far : combinator ≠ .adjacent) (node n : NodeId) :
    t.Leads config combinator (.context node) (.reached n)
      ((t.setting config).trace combinator (.context node) (.reached n)) := by
  have element : ∀ e, t.endsAt config node ⟨none, []⟩ e = true → t.isElement e = true :=
    fun _ => isElement_of_endsAt
  have adjacent : combinator = .adjacent → t.isElement n = true := fun hk => absurd hk far
  have walked : (t.setting config).trace combinator (.context node) (.reached n) =
      (((t.setting config).leftward combinator n).find? (t.endsAt config node ⟨none, []⟩)).elim
        .lost fun _ => .home :=
    trace_chain ⟨none, []⟩
  rw [walked]
  cases hf : ((t.setting config).leftward combinator n).find? (t.endsAt config node ⟨none, []⟩) with
  | none =>
    refine .miss fun ⟨he, hr⟩ => ?_
    have unmet := (h.find?_leftward_eq_none element adjacent).mp hf node hr
    rw [endsAt_context.mpr ⟨he, rfl⟩] at unmet
    cases unmet
  | some e =>
    have nearest := (h.find?_leftward element adjacent).mp hf
    obtain ⟨he, rfl⟩ := endsAt_context.mp nearest.holds
    exact .arrival he nearest.related

theorem leads_trace (h : t.Linked) (far : combinator ≠ .adjacent) (target : Target NodeId)
    (trail : Trail NodeId) :
    t.Leads config combinator target trail ((t.setting config).trace combinator target trail) := by
  cases trail with
  | lost => exact .lost
  | home => exact .home
  | reached n =>
    cases target with
    | block simples => exact h.leads_block far simples n
    | context node => exact h.leads_context far node n

end Linked

/-- Walks that take over from one another lead every trail as it would be led alone: whatever older
walks have left in the stamps, to the nearest element that fits. -/
theorem relate_leads (built : t.WellBuilt) (config : Config)
    (far : combinator = .descendant ∨ combinator = .general) (sighted : t.Sighted config target)
    (trails : List (Trail NodeId)) {m : Marks NodeId} (hm : m.Sound t.outline)
    {stamps : Table NodeId (Nat × Nat)}
    (older : ∀ n g i, stamps.get? n = some (g, i) → g ≤ m.generation) :
    List.Forall₂ (t.Leads config combinator target) trails
        ((t.setting config).relate combinator target trails { m with stamps }).1 ∧
      ((t.setting config).relate combinator target trails { m with stamps }).1 =
        trails.flatMap fun trail => ((t.setting config).relate combinator target [trail] {}).1 := by
  have h := built.linked
  have goal := sighted.isLocal h
  -- The counts among the marks have to be true. Of the stamps it is enough that they are old.
  have sound : ({ m with stamps } : Marks NodeId).Sound t.outline := ⟨older, hm.counted, hm.placed⟩
  have together := (Setting.relate_eq (h.regular config) sound goal combinator trails).1
  have alone (trail : Trail NodeId) :
      ((t.setting config).relate combinator target [trail] {}).1 =
        [(t.setting config).trace combinator target trail] :=
    (Setting.relate_eq (h.regular config) Marks.sound_empty goal combinator [trail]).1
  have distant : combinator ≠ .adjacent := by
    rintro rfl
    rcases far with hk | hk <;> cases hk
  rw [together]
  constructor
  · rw [List.forall₂_map_right_iff, List.forall₂_same]
    exact fun trail _ => h.leads_trace distant target trail
  · simp only [alone]
    exact List.map_eq_flatMap

def boxes : Blueprint where
  children := [.element "div" [("class", "c")] [.element "div" [] [.element "p" [] [],
    .element "p" [] []]], .element "div" [] [.element "p" [] []]]

def markedBox : Compound SelectorList := ⟨"div.c", [.tag "div", .className "c"]⟩

def boxTrails : List (Trail NodeId) :=
  [.reached 3, .lost, .reached 4, .reached 2, .home, .reached 3, .reached 6]

/-- Stamps of two older walks on the way of these trails. -/
def olderStamps : Table NodeId (Nat × Nat) := [(2, (1, 0)), (1, (2, 6))]

theorem relate_leads_boxes :
    (List.Forall₂ (boxes.build.Leads {} .descendant (.block (boxes.build.demands {} markedBox)))
        boxTrails
        ((boxes.build.setting {}).relate .descendant (.block (boxes.build.demands {} markedBox))
          boxTrails { generation := 2, stamps := olderStamps }).1 ∧
      ((boxes.build.setting {}).relate .descendant (.block (boxes.build.demands {} markedBox))
          boxTrails { generation := 2, stamps := olderStamps }).1 =
        boxTrails.flatMap fun trail => ((boxes.build.setting {}).relate .descendant
          (.block (boxes.build.demands {} markedBox)) [trail] {}).1) ∧
      ((boxes.build.setting {}).relate .descendant (.block (boxes.build.demands {} markedBox))
          boxTrails { generation := 2, stamps := olderStamps }).1 =
        [.reached 1, .lost, .reached 1, .reached 1, .home, .reached 1, .lost] := by
  have older : ∀ n g i, olderStamps.get? n = some (g, i) → g ≤ 2 := by
    intro n g i hn
    simp only [olderStamps, Table.get?] at hn
    split at hn
    · cases hn
      decide
    · split at hn
      · cases hn
        decide
      · cases hn
  have sound : ({ generation := 2 } : Marks NodeId).Sound boxes.build.outline :=
    (Marks.follows_advance (Marks.follows_advance Marks.sound_empty).sound).sound
  refine ⟨?_, by decide⟩
  exact relate_leads boxes.wellBuilt_build {} (.inl rfl) (.block (by decide)) boxTrails sound older

end SelectorEngine.Tree
