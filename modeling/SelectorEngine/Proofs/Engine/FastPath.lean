import SelectorEngine.Proofs.Engine.Answers
import SelectorEngine.Proofs.Matching.Forward
import SelectorEngine.Proofs.Selector.Shapes
import SelectorEngine.Proofs.Tree.Blueprints

/-! # The fast path

The fast path answers a selector from its shape. Where the engine looks candidates up by class, it
finds the same for a selector of that shape; and about a single node both say the same of every tag
and every identifier. -/
namespace SelectorEngine

namespace Engine

variable {N : Type} [DecidableEq N] {e : Engine N} {selector : String} {context n : N}

/-- A delegate does not show in a selection if the engine alone finds all that it finds. -/
theorem select_delegate (agrees : ∀ found, e.isIdle selector context = false →
      e.shortcut selector context = some found →
        { e with delegate := none }.select selector context = .ok found) :
    e.select selector context = { e with delegate := none }.select selector context := by
  cases idle : e.isIdle selector context with
  | true => rw [select_idle idle, select_idle (e := { e with delegate := none }) idle]
  | false =>
    rw [select_busy idle]
    cases answered : e.shortcut selector context with
    | none =>
      rw [select_busy (e := { e with delegate := none }) idle, shortcut_alone rfl]
      rfl
    | some found => exact (agrees found idle answered).symm

theorem filter_delegate (e : Engine N) (selector : String) (nodes : List N) :
    e.filter selector nodes = { e with delegate := none }.filter selector nodes := by
  rw [filter, filter, selectFrom, selectFrom, selectInto, selectInto, delegated_seed,
    delegated_seed]
  rfl

theorem isMatch_delegate (agrees : ∀ answer, e.delegatedMatch n selector = .ok (some answer) →
      { e with delegate := none }.isMatch n selector = .ok answer) :
    e.isMatch n selector = { e with delegate := none }.isMatch n selector := by
  rw [isMatch]
  split
  · next answer decided => exact (agrees answer decided).symm
  · rw [filter_delegate]
    rfl

omit [DecidableEq N] in
theorem shape_of_delegatedMatch (fast : e.delegate = some .byShape) {answer : Bool}
    (decided : e.delegatedMatch n selector = .ok (some answer)) :
    e.view.isXml n = false ∧ e.view.isElement n = true ∧
      ∃ shape, Shape.ofSelector? selector = some shape ∧ shape.decide e.view n = some answer := by
  rw [delegatedMatch, fast] at decided
  split at decided
  · cases decided
  · next delegate known =>
    obtain rfl := Option.some.inj known
    split at decided
    · next allowed =>
      rw [Bool.and_eq_true, Bool.not_eq_true'] at allowed
      have answered := Except.ok.inj decided
      split at answered
      · next he => exact ⟨allowed.2, he, Option.bind_eq_some_iff.mp answered⟩
      · cases answered
    · cases decided

end Engine

namespace Tree

variable {t : Tree} {config : Config} {selector : String} {context n : NodeId} {shape : Shape}

theorem candidates_tag (name : String) :
    (t.setting config).candidates [.tag name] context =
      ⟨t.view.elementsByTag context name, []⟩ := by
  -- No other index is asked about a tag.
  have byId : (t.setting config).candidatesById [.tag name] context = none := by
    rw [Setting.candidatesById]
    split <;> rfl
  have byClass : (t.setting config).candidatesByClass [.tag name] context = none := by
    rw [Setting.candidatesByClass]
    split <;> rfl
  have byName : (t.setting config).candidatesByName [.tag name] context = none := by
    rw [Setting.candidatesByName]
    split <;> rfl
  rw [Setting.candidates, byId, byClass, byName]
  rfl

theorem candidates_className (html : t.isXml = false) (lookup : config.classLookup = true)
    {name : String} {found : List NodeId}
    (listed : t.view.elementsByClass context name = some found) :
    (t.setting config).candidates [.className name] context = ⟨found, []⟩ := by
  have byId : (t.setting config).candidatesById [.className name] context = none := by
    rw [Setting.candidatesById]
    split <;> rfl
  have switched : (!(t.setting config).xml && (t.setting config).config.classLookup) = true := by
    change (!t.isXml && config.classLookup) = true
    rw [html, lookup]
    rfl
  have byClass : (t.setting config).candidatesByClass [.className name] context =
      some ⟨found, []⟩ := by
    rw [Setting.candidatesByClass, if_pos switched]
    change (t.view.elementsByClass context name).bind _ = _
    rw [listed]
    rfl
  rw [Setting.candidates, byId, byClass]
  rfl

theorem candidates_id (html : t.isXml = false) (hroot : t.view.isDocumentRoot context = true)
    (id : String) :
    (t.setting config).candidates [.id id] context =
      ⟨(t.view.elementById context id).toList, []⟩ := by
  have switched : ((t.setting config).view.isDocumentRoot context && !(t.setting config).xml) =
      true := by
    change (t.view.isDocumentRoot context && !t.isXml) = true
    rw [hroot, html]
    rfl
  rw [Setting.candidates, Setting.candidatesById, if_pos switched]
  rfl

theorem candidates_shape (html : t.isXml = false) (lookup : config.classLookup = true)
    {found : List NodeId} (answered : shape.query t.view context = some found) :
    (t.setting config).candidates [shape.simple] context = ⟨found, []⟩ := by
  cases shape with
  | tag name =>
    obtain rfl := Option.some.inj answered
    exact candidates_tag name
  | className name => exact candidates_className html lookup answered
  | id name =>
    rw [Shape.query] at answered
    split at answered
    · next hroot =>
      obtain rfl := Option.some.inj answered
      exact candidates_id html hroot name
    · cases answered

theorem select_shape (html : t.isXml = false) (lookup : config.classLookup = true)
    (valid : t.view.isContext context = true) (known : Shape.ofSelector? selector = some shape)
    {found : List NodeId} (answered : shape.query t.view context = some found) :
    (⟨t.view, config, none⟩ : Engine NodeId).select selector context = .ok found := by
  have one : (shape.list selector).branches =
      [{ parts := [.compound ⟨selector, [shape.simple]⟩] }] := rfl
  have run : (t.setting config).evaluateBranch (Complex.map (SelectorList.query t.view config)
      { parts := [.compound ⟨selector, [shape.simple]⟩] }) context none =
        ((t.setting config).evaluateBackward ⟨some [shape.simple], []⟩ context none {}).1 := by
    cases shape <;> rfl
  rw [Engine.select_read valid (Shape.parse_eq known) rfl]
  refine congrArg Except.ok ((SelectorList.found_single one valid none).trans ?_)
  change (t.setting config).evaluateBranch _ context none = found
  rw [run, Setting.evaluateBackward_single, Setting.find, candidates_shape html lookup answered]
  rfl

theorem satisfies_shape (html : t.isXml = false) (he : t.isElement n = true)
    (other : ∀ name, shape ≠ .className name) {answer : Bool}
    (answered : shape.decide t.view n = some answer) :
    (t.setting config).satisfies shape.simple n = answer := by
  cases shape with
  | tag name =>
    obtain ⟨tag, ht, rfl⟩ := Option.map_eq_some_iff.mp answered
    have htag : t.tagName n = some tag := ht
    change (t.isElement n && (t.isElement n && (t.tagName n).any fun tag =>
      if t.isXml then tag == name else Text.sameLetters tag name)) = _
    rw [he, htag, html]
    rfl
  | className name => exact absurd rfl (other name)
  | id name =>
    rw [Shape.simple, satisfies_id]
    exact Option.some.inj answered

theorem Linked.isMatch_shape (h : t.Linked) (config : Config)
    (known : Shape.ofSelector? selector = some shape) (n : NodeId) :
    (⟨t.view, config, none⟩ : Engine NodeId).isMatch n selector =
      .ok ((t.setting config).satisfies shape.simple n) := by
  have alone : (shape.simple : Simple (Query NodeId)).Local t.view := by
    cases shape <;> trivial
  have same : (shape.simple : Simple SelectorList).map (SelectorList.query t.view config) =
      shape.simple := by
    cases shape <;> rfl
  rw [← same] at alone ⊢
  exact h.isMatch_single (Shape.parse_eq known) rfl alone n

/-- The fast path does not show. A selection is the same list or the same error with and without it,
as long as candidates are looked up by class; and so is the test of a node by any selector that is
not a class alone. -/
theorem byShape_invisible (built : t.WellBuilt) (config : Config) (selector : String) :
    (config.classLookup = true → ∀ context,
      (⟨t.view, config, some .byShape⟩ : Engine NodeId).select selector context =
        (⟨t.view, config, none⟩ : Engine NodeId).select selector context) ∧
    ((∀ list name, SelectorList.parse selector = .ok list →
        single? list.branches ≠ some (.className name)) → ∀ n,
      (⟨t.view, config, some .byShape⟩ : Engine NodeId).isMatch n selector =
        (⟨t.view, config, none⟩ : Engine NodeId).isMatch n selector) := by
  constructor
  · intro lookup context
    refine Engine.select_delegate fun found busy answered => ?_
    obtain ⟨html, shape, known, hq⟩ := Engine.shape_of_shortcut rfl answered
    rw [Engine.isIdle, Bool.or_eq_false_iff, Bool.not_eq_false'] at busy
    exact select_shape html lookup busy.1 known hq
  · intro other n
    refine Engine.isMatch_delegate fun answer decided => ?_
    obtain ⟨html, he, shape, known, hd⟩ := Engine.shape_of_delegatedMatch rfl decided
    have unlike : ∀ name, shape ≠ .className name := by
      rintro name rfl
      exact other _ name (Shape.parse_eq known) rfl
    rw [← satisfies_shape html he unlike hd]
    exact built.linked.isMatch_shape config known n

def introduced : Blueprint where
  children := [.element "p" [("id", "intro"), ("class", "lead")] [], .element "p" [] []]

theorem byShape_invisible_intro :
    (∀ context,
      (⟨introduced.build.view, {}, some .byShape⟩ : Engine NodeId).select "#intro" context =
        (⟨introduced.build.view, {}, none⟩ : Engine NodeId).select "#intro" context) ∧
      ∀ n, (⟨introduced.build.view, {}, some .byShape⟩ : Engine NodeId).isMatch n "#intro" =
        (⟨introduced.build.view, {}, none⟩ : Engine NodeId).isMatch n "#intro" := by
  have read : SelectorList.parse "#intro" = .ok (Shape.list "#intro" (.id "intro")) :=
    Shape.parse_eq (by decide)
  obtain ⟨searches, tests⟩ := byShape_invisible introduced.wellBuilt_build {} "#intro"
  refine ⟨searches rfl, tests fun list name reads => ?_⟩
  obtain rfl := Except.ok.inj (read.symm.trans reads)
  exact fun named => nomatch named

end Tree
end SelectorEngine
