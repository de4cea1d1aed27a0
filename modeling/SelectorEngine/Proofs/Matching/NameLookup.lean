import SelectorEngine.Proofs.Matching.Indices

/-! # The index of names

Candidates from the index of names are seen by the rest of their compound as if the test of the name
had come first. This makes no difference if what stands before the test could as well stand behind
it. -/
namespace SelectorEngine

open Setting (plainPart fragmentChain)

section Order

variable {A B : Type} {positional : A → Bool} {simples before after : List (Simple A)}

/-- Whether a simple selector leaves the same nodes before a test as behind it. A negation that
counts does not, and neither does a tag called `*`, which at the head of a compound stands for every
tag. Positional simple selectors come behind all tests anyway. -/
def Simple.isMovable (positional : A → Bool) : Simple A → Bool
  | .tag name => name != "*"
  | .not argument => !positional argument
  | _ => true

/-- Whatever stands before a test that the index of names answers could stand behind it. -/
def Indexable (positional : A → Bool) (simples : List (Simple A)) : Prop :=
  simples.Pairwise fun earlier later =>
    later.exactName?.isSome = true → earlier.isMovable positional = true

inductive SelectorList.Indexable : SelectorList → Prop where
  | intro {list : SelectorList}
    (compounds : ∀ branch ∈ list.branches, ∀ simples ∈ branch.compounds,
      SelectorEngine.Indexable hasPositional simples)
    (nested : ∀ branch ∈ list.branches, ∀ nested,
      .has nested ∈ branch.simples ∨ .not nested ∈ branch.simples → Indexable nested) :
    Indexable list

theorem Indexable.of_split {test : Simple A} (h : Indexable positional (before ++ test :: after))
    (hn : test.exactName?.isSome = true) :
    ∀ simple ∈ before, simple.isMovable positional = true := by
  obtain ⟨-, -, cross⟩ := List.pairwise_append.mp h
  intro simple hs
  exact cross simple hs test List.mem_cons_self hn

theorem Simple.exactName?_map (f : A → B) (simple : Simple A) :
    (simple.map f).exactName? = simple.exactName? := by
  cases simple with
  | attr test =>
    rw [map]
    unfold exactName?
    split <;> split <;> simp_all
  | _ => rfl

theorem Indexable.map {f : A → B} {positional : B → Bool}
    (h : Indexable (fun a => positional (f a)) simples) :
    Indexable positional (simples.map (Simple.map f)) := by
  refine List.pairwise_map.mpr (h.imp ?_)
  intro earlier later hk hn
  have hm : (earlier.map f).isMovable positional = earlier.isMovable fun a => positional (f a) := by
    cases earlier <;> rfl
  rw [hm]
  rw [Simple.exactName?_map] at hn
  exact hk hn

end Order

variable {N : Type} [DecidableEq N]

namespace Setting

def withNames (s : Setting N) (on : Bool) : Setting N :=
  { s with config := { s.config with nameLookup := on } }

variable {s : Setting N} {on : Bool}

def candidatesUnnamed (s : Setting N) (simples : List (Simple (Query N))) (scope : N) :
    Candidates N :=
  (s.candidatesById simples scope <|> s.candidatesByClass simples scope).getD
    (s.candidatesByTag simples scope)

def naming (s : Setting N) (on : Bool) : Indices N where
  config := { s.config with nameLookup := on }
  elementsByName := s.view.elementsByName
  elementsByClass := s.view.elementsByClass
  placement := s.view.placement

def SameSearch (s : Setting N) (on : Bool) (simples : List (Simple (Query N))) : Prop :=
  ∀ scope, (s.withNames on).search simples scope = s.search simples scope

theorem sift_cons_local {simple : Simple (Query N)} (hl : simple.Local s.view)
    (simples : List (Simple (Query N))) (nodes : List N) :
    s.sift (simple :: simples) nodes = s.sift simples (nodes.filter (s.satisfies simple)) := by
  rw [sift, outcomes_local hl, keep_map]

theorem sift_move {before : List (Simple (Query N))} (hb : ∀ simple ∈ before, simple.Local s.view)
    {test : Simple (Query N)} (ht : test.Local s.view) (after : List (Simple (Query N)))
    (nodes : List N) :
    s.sift (before ++ test :: after) nodes =
      s.sift (before ++ after) (nodes.filter (s.satisfies test)) := by
  induction before generalizing nodes with
  | nil => exact sift_cons_local ht after nodes
  | cons simple before ih =>
    obtain ⟨hs, hb⟩ := List.forall_mem_cons.mp hb
    rw [List.cons_append, List.cons_append, sift_cons_local hs, sift_cons_local hs, ih hb,
      List.filter_comm]

theorem sift_order_move {before after : List (Simple (Query N))} {test : Simple (Query N)}
    (movable : ∀ simple ∈ before, simple.isMovable Query.positional = true)
    (hq : ∀ q, .not q ∈ before → q.positional = false → q.Faithful s.view ∧ q.Pointwise s.view)
    (ht : test.Local s.view) (hp : test.isPositional = false) (nodes : List N) :
    s.sift (evaluationOrder (before ++ test :: after)) nodes =
      s.sift (evaluationOrder (before ++ after)) (nodes.filter (s.satisfies test)) := by
  have hb : ∀ simple ∈ before.filter (!·.isPositional), simple.Local s.view := by
    intro simple hs
    obtain ⟨hmem, hpos⟩ := List.mem_filter.mp hs
    have hmove := movable simple hmem
    cases simple with
    | position place => cases hpos
    | not q => exact hq q hmem (by simpa [Simple.isMovable] using hmove)
    | _ => trivial
  have whole : evaluationOrder (before ++ test :: after) = before.filter (!·.isPositional) ++
      test :: (after.filter (!·.isPositional) ++ (before ++ after).filter (·.isPositional)) := by
    simp [evaluationOrder, hp]
  have rest : evaluationOrder (before ++ after) = before.filter (!·.isPositional) ++
      (after.filter (!·.isPositional) ++ (before ++ after).filter (·.isPositional)) := by
    simp [evaluationOrder]
  rw [whole, rest, sift_move hb ht]

end Setting

namespace Tree

variable {t : Tree} {config : Config} {simples before after : List (Simple (Query NodeId))}
  {scope : NodeId}

theorem sift_byTag (star : simples.head? ≠ some (.tag "*")) (scope : NodeId) :
    (t.setting config).sift
        (evaluationOrder ((t.setting config).candidatesByTag simples scope).remaining)
        ((t.setting config).candidatesByTag simples scope).nodes =
      (t.setting config).sift (evaluationOrder simples)
        ((t.descendants scope).filter t.isElement) := by
  unfold Setting.candidatesByTag
  -- The head decides which elements are looked up: a tag, the star, or nothing.
  split
  · next name remaining =>
    have hname : name ≠ "*" := by
      rintro rfl
      exact star rfl
    have first : evaluationOrder (.tag name :: remaining) =
        Simple.tag name :: evaluationOrder remaining := rfl
    have nodes : ((t.descendants scope).filter t.isElement).filter
        ((t.setting config).satisfies (.tag name)) = t.elementsByTag scope name := by
      rw [List.filter_filter, elementsByTag]
      refine List.filter_congr fun n _ => ?_
      rw [satisfies_tag hname, ← isSome_tagName]
      cases t.tagName n <;> simp
    have alone : (Simple.tag name : Simple (Query NodeId)).Local t.view := trivial
    rw [first, Setting.sift_cons_local alone, nodes]
    rfl
  · next remaining =>
    have first : evaluationOrder (.universal :: remaining) =
        Simple.universal :: evaluationOrder remaining := rfl
    have nodes : ((t.descendants scope).filter t.isElement).filter
        ((t.setting config).satisfies .universal) = t.elementsByTag scope "*" := by
      rw [elementsByTag_star, List.filter_filter]
      refine List.filter_congr fun n _ => ?_
      rw [satisfies_universal, Bool.and_self]
    have alone : (Simple.universal : Simple (Query NodeId)).Local t.view := trivial
    rw [first, Setting.sift_cons_local alone, nodes]
    rfl
  · change (t.setting config).sift _ (t.elementsByTag scope "*") = _
    rw [elementsByTag_star]

structure Named (t : Tree) (simples : List (Simple (Query NodeId))) : Prop where
  indexable : Indexable Query.positional simples
  pointwise : ∀ q, .not q ∈ simples → q.positional = false →
    q.Faithful t.view ∧ q.Pointwise t.view

/-- Candidates by name go on like candidates by tag behind the test of the name. -/
theorem sift_byName (named : t.Named simples) {found : Candidates NodeId}
    (hf : (t.setting config).candidatesByName simples scope = some found) :
    (t.setting config).sift (evaluationOrder found.remaining) found.nodes =
      (t.setting config).sift
        (evaluationOrder ((t.setting config).candidatesByTag simples scope).remaining)
        ((t.setting config).candidatesByTag simples scope).nodes := by
  obtain ⟨-, -, before, value, after, listed, hv, rfl, hn, rfl⟩ :=
    Setting.candidatesByName_eq_some hf
  change (if scope = root ∧ (!t.isXml) = true then some (t.elementsByName value) else none) =
    some listed at hn
  split at hn
  · next hroot =>
    obtain ⟨rfl, -⟩ := hroot
    obtain rfl := Option.some.inj hn
    have tests :
        (Simple.attr (A := Query NodeId) ⟨"name", some (.equals, value)⟩).exactName?.isSome =
          true := by
      rw [Simple.exactName?, hv]
      rfl
    have movable := named.indexable.of_split tests
    -- Only what may be moved behind the exact name stands in front of it, and a star may not.
    have star : (before ++ Simple.attr ⟨"name", some (.equals, value)⟩ :: after).head? ≠
        some (.tag "*") := by
      intro hs
      cases before with
      | nil => cases hs
      | cons first before =>
        obtain rfl := Option.some.inj hs
        cases movable _ List.mem_cons_self
    have hq : ∀ q, .not q ∈ before → q.positional = false →
        q.Faithful t.view ∧ q.Pointwise t.view :=
      fun q hm => named.pointwise q (List.mem_append_left _ hm)
    have nodes : (t.elementsByName value).filter (fun n => t.attr n "name" == some value) =
        ((t.descendants root).filter t.isElement).filter
          ((t.setting config).satisfies (.attr ⟨"name", some (.equals, value)⟩)) := by
      rw [elementsByName, List.filter_filter, List.filter_filter]
      refine List.filter_congr fun n _ => ?_
      rw [satisfies_name, Bool.and_self]
      cases hn : t.attr n "name" == some value with
      | false => rfl
      | true => rw [isElement_of_attr (beq_iff_eq.mp hn), Bool.and_true]
    have alone :
        (Simple.attr ⟨"name", some (.equals, value)⟩ : Simple (Query NodeId)).Local t.view :=
      trivial
    rw [sift_byTag star, Setting.sift_order_move movable hq alone rfl, ← nodes]
    rfl
  · cases hn

theorem search_unnamed (named : t.Named simples) (scope : NodeId) :
    (t.setting config).search simples scope =
      (t.setting config).sift
        (evaluationOrder ((t.setting config).candidatesUnnamed simples scope).remaining)
        ((t.setting config).candidatesUnnamed simples scope).nodes := by
  rw [Setting.search, Setting.candidates, Setting.candidatesUnnamed]
  cases (t.setting config).candidatesById simples scope with
  | some found => rfl
  | none =>
    cases (t.setting config).candidatesByClass simples scope with
    | some found => rfl
    | none =>
      cases hf : (t.setting config).candidatesByName simples scope with
      | some found => exact sift_byName named hf
      | none => rfl

theorem search_withNames (named : t.Named simples) (on : Bool) :
    (t.setting config).SameSearch on simples := by
  intro scope
  change (t.setting { config with nameLookup := on }).search simples scope = _
  rw [search_unnamed named, search_unnamed named]
  exact Setting.sift_reindex (s := t.setting config) (i := (t.setting config).naming on) _ _

theorem Named.plain (named : t.Named simples) : t.Named (plainPart simples) where
  indexable := by
    unfold plainPart
    split
    · exact List.pairwise_singleton _ _
    · exact List.Pairwise.sublist List.filter_sublist named.indexable
  pointwise := by
    intro q hq
    rcases mem_plainPart hq with he | ⟨-, hp⟩
    · cases he
    · cases hp

namespace Linked

theorem named_compound (h : t.Linked) (config : Config) {branch : Complex SelectorList}
    (indexable : ∀ simples ∈ branch.compounds, Indexable SelectorList.hasPositional simples)
    (hs : simples ∈ (branch.map (SelectorList.query t.view config)).compounds) :
    t.Named simples where
  indexable := by
    rw [Complex.compounds_map] at hs
    obtain ⟨written, hw, rfl⟩ := List.mem_map.mp hs
    have counts : (fun list => (SelectorList.query t.view config list).positional) =
        SelectorList.hasPositional := funext fun list => list.positional_query
    exact Indexable.map (counts ▸ indexable written hw)
  pointwise := by
    intro q hq free
    have sane := SelectorList.sane_branch config h.outline_linked h.isContext_root branch
    have hm := Complex.mem_simples hs hq
    exact ⟨sane.faithful q hm, sane.pointwise q hm free⟩

theorem evaluateBranch_withNames (h : t.Linked) (config : Config) {branch : Complex SelectorList}
    (indexable : ∀ simples ∈ branch.compounds, Indexable SelectorList.hasPositional simples)
    (on : Bool) (context : NodeId) (seed : Option (List NodeId)) :
    (t.setting { config with nameLookup := on }).evaluateBranch
        (branch.map (SelectorList.query t.view config)) context seed =
      (t.setting config).evaluateBranch (branch.map (SelectorList.query t.view config)) context
        seed := by
  have compares : (t.setting config).Compares ((t.setting config).naming on) := fun _ _ => rfl
  exact Setting.evaluateBranch_reindex (h.regular config) compares
    (SelectorList.sane_branch config h.outline_linked h.isContext_root branch)
    (fun simples hs => search_withNames (h.named_compound config indexable hs) on)
    (fun simples hs => search_withNames (h.named_compound config indexable hs).plain on)
    context seed

/-- By induction on the depth of its arguments, a list means the same with and without the index. -/
theorem query_withNames (h : t.Linked) (config : Config) (on : Bool) {list : SelectorList}
    (indexable : list.Indexable) :
    list.query t.view { config with nameLookup := on } = list.query t.view config := by
  induction indexable with
  | @intro list compounds nested ih =>
    have branches : list.branches.map
          (Complex.map (SelectorList.query t.view { config with nameLookup := on })) =
        list.branches.map (Complex.map (SelectorList.query t.view config)) :=
      List.map_congr_left fun branch hb => Complex.map_congr fun nested hn => ih branch hb nested hn
    have compares : (t.setting config).Compares ((t.setting config).naming on) := fun _ _ => rfl
    rw [SelectorList.query_eq, SelectorList.query_eq, branches]
    refine Query.ofBranches_reindex t.isXml compares fun branch hb context seed => ?_
    obtain ⟨written, hw, rfl⟩ := List.mem_map.mp hb
    exact h.evaluateBranch_withNames config (compounds written hw) on context seed

end Linked
end Tree
end SelectorEngine
