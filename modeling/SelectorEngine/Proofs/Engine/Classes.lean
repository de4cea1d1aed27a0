import Mathlib
import SelectorEngine.Proofs.Engine.FastPath
import SelectorEngine.Proofs.Text.Words

/-! # Tests for a class

The index of classes and the fast path look for a word of the class list. The filter looks for a
text between spaces, and a form feed is no space to it; so it accepts no more than they do, and the
same where no form feed stands in the list. -/
namespace SelectorEngine
open Text

theorem TreeView.hasClass_iff {N : Type} {view : TreeView N} {n : N} {name : String}
    (free : ∀ c ∈ name.toList, isSeparator c = false) :
    view.hasClass n name = true ↔
      ∃ list, view.classList n = some list ∧ name.toList ∈ pieces isSpacing list.toList := by
  have cuts : ∀ c : Char, ((if c == '\t' || c == '\n' || c == '\r' then ' ' else c) == ' ') =
      isSpacing c := by
    intro c
    rw [isSpacing]
    by_cases h : (c == '\t' || c == '\n' || c == '\r') = true
    · simp [h, Bool.or_assoc]
    · simp [h, Bool.or_assoc]
  have keeps : ∀ c : Char, isSpacing c = false →
      (if c == '\t' || c == '\n' || c == '\r' then ' ' else c) = c := by
    intro c h
    rw [isSpacing, Bool.or_assoc, Bool.or_assoc, Bool.or_eq_false_iff, ← Bool.or_assoc] at h
    rw [h.2]
    rfl
  rw [hasClass, Option.any_eq_true]
  refine exists_congr fun list => and_congr_right fun _ => ?_
  rw [occursIn_iff, padded_infix_iff (not_mem_of_free free), pieces_map cuts keeps]

namespace Tree

variable {t : Tree} {config : Config} {selector name : String} {list : SelectorList}
  {delegate : Option (Delegate NodeId)} {context scope n : NodeId}

/-- No form feed stands in the class list of the node. -/
def FeedFree (t : Tree) (n : NodeId) : Prop :=
  ∀ text, t.attr n "class" = some text → '\x0c' ∉ text.toList

theorem mem_classes (named : name ≠ "") : name.toList ∈ t.classes n ↔
    ∃ text, t.attr n "class" = some text ∧ name.toList ∈ pieces isSeparator text.toList := by
  have hne : name.toList ≠ [] := fun he => named (String.toList_inj.mp he)
  rw [classes]
  cases t.attr n "class" with
  | none => simpa [mem_words_iff hne, pieces] using hne
  | some text => simp [mem_words_iff hne]

theorem satisfies_className (free : ∀ c ∈ name.toList, isSeparator c = false) :
    (t.setting config).satisfies (.className name) n = true ↔
      ∃ text, t.attr n "class" = some text ∧ name.toList ∈ pieces isSpacing text.toList := by
  change (t.isElement n && t.view.hasClass n name) = true ↔ _
  rw [Bool.and_eq_true, TreeView.hasClass_iff free]
  refine and_iff_right_of_imp ?_
  rintro ⟨text, h, -⟩
  exact isElement_of_attr h

theorem mem_classes_of_satisfies (named : name ≠ "")
    (free : ∀ c ∈ name.toList, isSeparator c = false)
    (h : (t.setting config).satisfies (.className name) n = true) :
    name.toList ∈ t.classes n := by
  obtain ⟨text, ht, hw⟩ := (satisfies_className free).mp h
  exact (mem_classes named).mpr ⟨text, ht, mem_finer_pieces isSeparator_of_isSpacing free hw⟩

theorem satisfies_iff_mem_classes (named : name ≠ "")
    (free : ∀ c ∈ name.toList, isSeparator c = false) (feedless : t.FeedFree n) :
    (t.setting config).satisfies (.className name) n = true ↔ name.toList ∈ t.classes n := by
  rw [satisfies_className free, mem_classes named]
  refine exists_congr fun text => and_congr_right fun ht => ?_
  have same : ∀ c ∈ text.toList, isSeparator c = isSpacing c := by
    intro c hc
    apply isSeparator_eq
    rintro rfl
    exact feedless text ht hc
  rw [pieces_congr same]

theorem elementsByClass_eq (named : name ≠ "") (free : ∀ c ∈ name.toList, isSeparator c = false)
    (scope : NodeId) : t.elementsByClass scope name =
      (t.descendants scope).filter fun n =>
        t.isElement n && (t.classes n).contains name.toList := by
  have hne : name.toList ≠ [] := fun he => named (String.toList_inj.mp he)
  rw [elementsByClass, words_of_free hne free]
  simp

theorem Linked.mem_elementsByClass (h : t.Linked) (named : name ≠ "")
    (free : ∀ c ∈ name.toList, isSeparator c = false) (he : t.isElement n = true)
    (below : t.Above scope n) : n ∈ t.elementsByClass scope name ↔ name.toList ∈ t.classes n := by
  rw [elementsByClass_eq named free, List.mem_filter, h.mem_descendants, he, Bool.true_and,
    List.contains_iff_mem]
  exact and_iff_right below

theorem candidates_unlisted (lookup : config.classLookup = false) :
    (t.setting config).candidates [.className name] context =
      ⟨t.elementsByTag context "*", [.className name]⟩ := by
  have byId : (t.setting config).candidatesById [.className name] context = none := by
    rw [Setting.candidatesById]
    split <;> rfl
  have byClass : (t.setting config).candidatesByClass [.className name] context = none := by
    have off : (!(t.setting config).xml && (t.setting config).config.classLookup) = false := by
      change (!t.isXml && config.classLookup) = false
      rw [lookup, Bool.and_false]
    rw [Setting.candidatesByClass, off]
    rfl
  have byName : (t.setting config).candidatesByName [.className name] context = none := by
    rw [Setting.candidatesByName]
    split <;> rfl
  rw [Setting.candidates, byId, byClass, byName]
  rfl

theorem Linked.find_className (h : t.Linked) (html : t.isXml = false) (named : name ≠ "")
    (free : ∀ c ∈ name.toList, isSeparator c = false)
    (feedless : ∀ n, t.Above context n → t.FeedFree n) (config : Config) :
    ((t.setting config).find [.className name] context {}).1 = t.elementsByClass context name := by
  cases lookup : config.classLookup with
  | true =>
    have listed : t.view.elementsByClass context name = some (t.elementsByClass context name) := by
      change (if t.isXml = true then none else some (t.elementsByClass context name)) = _
      rw [html]
      rfl
    rw [Setting.find, candidates_className html lookup listed]
    rfl
  | false =>
    have alone : ∀ simple ∈ [Simple.className (A := Query NodeId) name], simple.Local t.view :=
      fun simple hs => List.mem_singleton.mp hs ▸ trivial
    obtain ⟨hf, -⟩ := Setting.find_local (h.regular config) Marks.sound_empty alone context
    rw [hf, candidates_unlisted lookup, elementsByTag_star, List.filter_filter,
      elementsByClass_eq named free]
    refine List.filter_congr fun n hn => ?_
    have feed := feedless n (h.mem_descendants.mp hn)
    have same : (t.setting config).satisfies (.className name) n = true ↔
        name.toList ∈ t.classes n := satisfies_iff_mem_classes named free feed
    rw [Setting.admits, List.all_cons, List.all_nil, Bool.and_true, Bool.and_comm, Bool.eq_iff_iff,
      Bool.and_eq_true, Bool.and_eq_true, same, List.contains_iff_mem]

theorem Linked.answer_className (h : t.Linked) (html : t.isXml = false)
    (single : single? list.branches = some (.className name)) (named : name ≠ "")
    (free : ∀ c ∈ name.toList, isSeparator c = false)
    (feedless : ∀ n, t.Above context n → t.FeedFree n) (config : Config)
    (valid : t.view.isContext context = true) :
    (list.query t.view config).answer context none = t.elementsByClass context name := by
  obtain ⟨-, source, rest, one⟩ := single?_eq_some single
  have run : (t.setting config).evaluateBranch (Complex.map (SelectorList.query t.view config)
      ⟨[.compound ⟨source, [.className name]⟩], rest⟩) context none =
        ((t.setting config).evaluateBackward ⟨some [.className name], []⟩ context none {}).1 := rfl
  rw [SelectorList.answer_query, if_pos valid, SelectorList.found_single one valid]
  change (t.setting config).evaluateBranch _ context none = _
  rw [run, Setting.evaluateBackward_single, h.find_className html named free feedless]

theorem shortcut_className (fast : delegate = none ∨ delegate = some .byShape)
    (read : SelectorList.parse selector = .ok list)
    (single : single? list.branches = some (.className name)) {found : List NodeId}
    (answered : (⟨t.view, config, delegate⟩ : Engine NodeId).shortcut selector context =
      some found) :
    found = t.elementsByClass context name := by
  rcases fast with rfl | rfl
  · rw [Engine.shortcut_alone rfl] at answered
    cases answered
  · obtain ⟨html, shape, known, hq⟩ := Engine.shape_of_shortcut rfl answered
    obtain rfl := Except.ok.inj (read.symm.trans (Shape.parse_eq known))
    have hs : shape = .className name := by
      cases shape with
      | className other =>
        cases single
        rfl
      | _ => cases single
    subst hs
    have listed : t.view.elementsByClass context name = some (t.elementsByClass context name) := by
      change (if t.isXml = true then none else some (t.elementsByClass context name)) = _
      rw [show t.isXml = false from html]
      rfl
    exact Option.some.inj (hq.symm.trans listed)

theorem contains_classes (t : Tree) (n : NodeId) (name : String) :
    (t.classes n).contains name.toList =
      (t.attr n "class").any fun text => (words text.toList).contains name.toList := by
  rw [classes]
  cases t.attr n "class" <;> rfl

theorem decide_className (he : t.isElement n = true)
    (known : Shape.isHyphenated name.toList = true) :
    Delegate.byShape.decide t.view n ("." ++ name) =
      .ok (some ((t.classes n).contains name.toList)) := by
  have shape : Shape.ofSelector? ("." ++ name) = some (.className name) := by
    rw [Shape.ofSelector?, String.toList_append]
    simp [known]
  have element : t.view.isElement n = true := he
  rw [Delegate.byShape]
  simp only [element, if_true, shape]
  rw [contains_classes]
  rfl

/-- For a class that is one word, the index lists the elements whose class list has the word, and
the fast path says the same of each. The filter accepts none but these, and all of them if no form
feed stands in the list. Below a context without form feeds a selection by class is one list, with
every configuration, with and without the fast path. -/
theorem class_tests_agree (built : t.WellBuilt) (html : t.isXml = false) (named : name ≠ "")
    (free : ∀ c ∈ name.toList, isSeparator c = false) :
    (∀ n, t.isElement n = true →
      (∀ scope, t.Above scope n →
        (n ∈ t.elementsByClass scope name ↔ name.toList ∈ t.classes n)) ∧
      (Shape.isHyphenated name.toList = true →
        Delegate.byShape.decide t.view n ("." ++ name) =
          .ok (some ((t.classes n).contains name.toList))) ∧
      ∀ config,
        ((t.setting config).satisfies (.className name) n = true → name.toList ∈ t.classes n) ∧
        (t.FeedFree n → name.toList ∈ t.classes n →
          (t.setting config).satisfies (.className name) n = true)) ∧
    ∀ selector list context config delegate, SelectorList.parse selector = .ok list →
      single? list.branches = some (.className name) → delegate = none ∨ delegate = some .byShape →
      (∀ n, t.Above context n → t.FeedFree n) →
      (⟨t.view, config, delegate⟩ : Engine NodeId).select selector context =
        .ok (if t.view.isContext context then t.elementsByClass context name else []) := by
  have h := built.linked
  constructor
  · intro n he
    refine ⟨fun scope below => h.mem_elementsByClass named free he below, decide_className he, ?_⟩
    intro config
    constructor
    · exact mem_classes_of_satisfies named free
    · intro feedless
      exact (satisfies_iff_mem_classes named free feedless).mpr
  · intro selector list context config delegate read single fast feedless
    cases valid : t.view.isContext context with
    | true =>
      rw [Engine.select_eq valid read,
        h.answer_className html single named free feedless config valid]
      cases answered : (⟨t.view, config, delegate⟩ : Engine NodeId).shortcut selector context with
      | none => rfl
      | some found =>
        rw [shortcut_className fast read single answered]
        rfl
    | false =>
      have idle : (⟨t.view, config, delegate⟩ : Engine NodeId).isIdle selector context = true := by
        rw [Engine.isIdle, valid]
        rfl
      rw [Engine.select_idle idle]
      rfl

theorem Linked.feedFree (h : t.Linked)
    (run : ∀ n ∈ t.descendants context,
      (t.attr n "class").all (fun text => !text.toList.contains '\x0c') = true) :
    ∀ n, t.Above context n → t.FeedFree n := by
  intro n below text ht
  have hn := run n (h.mem_descendants.mpr below)
  rw [ht] at hn
  simpa using hn

def classed : Blueprint where
  children := [.element "p" [("class", "lead\n wide")] [], .element "p" [] []]

theorem class_tests_agree_lead :
    classed.build.isXml = false ∧ (∀ c ∈ "lead".toList, isSeparator c = false) ∧
      (1 ∈ classed.build.elementsByClass root "lead" ∧
        (classed.build.setting .allOff).satisfies (.className "lead") 1 = true ∧
        Delegate.byShape.decide classed.build.view 1 ("." ++ "lead") = .ok (some true)) ∧
      (⟨classed.build.view, .allOff, none⟩ : Engine NodeId).select ".lead" root = .ok [1] ∧
      (⟨classed.build.view, {}, some .byShape⟩ : Engine NodeId).select ".lead" root = .ok [1] := by
  have built := classed.wellBuilt_build
  have html : classed.build.isXml = false := by decide
  have free : ∀ c ∈ "lead".toList, isSeparator c = false := by simp [isSeparator]
  have feedless : ∀ n, classed.build.Above root n → classed.build.FeedFree n :=
    built.linked.feedFree (by decide +kernel)
  have read : SelectorList.parse ".lead" = .ok (Shape.list ".lead" (.className "lead")) :=
    Shape.parse_eq (by decide)
  have below : classed.build.Above root 1 := built.linked.isBelow_iff.mp (by decide)
  have word : "lead".toList ∈ classed.build.classes 1 := by decide +kernel
  have listed : classed.build.elementsByClass root "lead" = [1] := by decide +kernel
  obtain ⟨tests, selections⟩ := class_tests_agree built html (show "lead" ≠ "" by decide) free
  obtain ⟨index, fast, filter⟩ := tests 1 (by decide)
  have told : Delegate.byShape.decide classed.build.view 1 ("." ++ "lead") = .ok (some true) := by
    rw [fast (by decide +kernel), List.contains_iff_mem.mpr word]
  have slow := selections ".lead" _ root .allOff none read rfl (.inl rfl) feedless
  have quick := selections ".lead" _ root {} (some .byShape) read rfl (.inr rfl) feedless
  rw [built.linked.isContext_root, if_pos rfl, listed] at slow quick
  exact ⟨html, free, ⟨(index root below).mpr word, (filter .allOff).2 (feedless 1 below) word,
    told⟩, slow, quick⟩

def fedForward : Blueprint where
  children := [.element "p" [("class", "a\x0cb")] [], .element "p" [("class", "b a")] []]

def spacedList : SelectorList :=
  .mk ".a\\ b" [{ parts := [.compound ⟨".a\\ b", [.className "a b"]⟩] }]

/-- The filter does not see the class before a form feed, and to the index a name with a space is
two classes. -/
theorem class_tests_differ :
    fedForward.build.WellBuilt ∧ fedForward.build.isXml = false ∧
      (1 ∈ fedForward.build.elementsByClass root "a" ∧
        Delegate.byShape.decide fedForward.build.view 1 ".a" = .ok (some true) ∧
        (fedForward.build.setting .allOff).satisfies (.className "a") 1 = false ∧
        (⟨fedForward.build.view, { Config.allOff with classLookup := true }, none⟩ :
          Engine NodeId).select ".a" root = .ok [1, 2] ∧
        (⟨fedForward.build.view, .allOff, none⟩ : Engine NodeId).select ".a" root = .ok [2]) ∧
      (SelectorList.parse ".a\\ b" = .ok spacedList ∧
        (⟨fedForward.build.view, { Config.allOff with classLookup := true }, none⟩ :
          Engine NodeId).select ".a\\ b" root = .ok [1, 2] ∧
        (⟨fedForward.build.view, .allOff, none⟩ : Engine NodeId).select ".a\\ b" root =
          .ok []) := by
  have built := fedForward.wellBuilt_build
  have word : SelectorList.parse ".a" = .ok (Shape.list ".a" (.className "a")) :=
    Shape.parse_eq (by decide)
  have spaced : SelectorList.parse ".a\\ b" = .ok spacedList := by cbv
  refine ⟨built, by decide, ⟨by decide +kernel, by cbv, by decide +kernel, ?_, ?_⟩, spaced, ?_, ?_⟩
  · exact built.linked.select_compound word rfl (by decide +kernel)
  · exact built.linked.select_compound word rfl (by decide +kernel)
  · exact built.linked.select_compound spaced rfl (by decide +kernel)
  · exact built.linked.select_compound spaced rfl (by decide +kernel)

end Tree
end SelectorEngine
