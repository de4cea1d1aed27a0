import SelectorEngine.Proofs.Engine.Witnesses
import SelectorEngine.Proofs.Matching.Forward

/-! # The two directions

A chain that starts with a combinator leads from its context to other elements. From left to right
all of them are found. From right to left only nearest elements are tried, and those only below the
context unless the chain has a single link. -/
namespace SelectorEngine

namespace Tree

variable {t : Tree} {config : Config} {context x s n : NodeId} {link first : Link (Query NodeId)}
  {links : List (Link (Query NodeId))}

def leftToRight (t : Tree) (config : Config) (chain : Chain SelectorList) (context : NodeId) :
    List NodeId :=
  ((t.setting config).evaluateForward (t.meant config chain) context none {}).1

def rightToLeft (t : Tree) (config : Config) (chain : Chain SelectorList) (context : NodeId) :
    List NodeId :=
  ((t.setting config).evaluateBackward (t.meant config chain) context none {}).1

theorem suits_split (simples : List (Simple (Query NodeId))) (n : NodeId) :
    (t.setting config).suits simples n = true ↔
      (t.setting config).suits (simples.filter (·.isPlain)) n = true ∧
        (t.setting config).admits (simples.filter (!·.isPlain)) n = true := by
  simp only [Setting.suits, Setting.admits, Bool.and_eq_true, List.all_eq_true, List.mem_filter,
    Bool.not_eq_true']
  constructor
  · rintro ⟨he, hs⟩
    exact ⟨⟨he, fun simple hm => hs simple hm.1⟩, fun simple hm => hs simple hm.1⟩
  · rintro ⟨⟨he, plain⟩, others⟩
    refine ⟨he, fun simple hm => ?_⟩
    cases hp : simple.isPlain with
    | true => exact plain simple ⟨hm, hp⟩
    | false => exact others simple ⟨hm, hp⟩

theorem related_of_matches (hm : t.Matches config context ⟨none, [link]⟩ n) :
    t.Related link.combinator context n := by
  rw [Matches, ← List.nil_append [link], Led.concat_iff] at hm
  obtain ⟨a, ha, hr, -⟩ := hm
  obtain ⟨-, rfl⟩ := Led.context_iff.mp ha
  exact hr

namespace Linked

theorem mem_advance (h : t.Linked) {roots : List NodeId} (hr : ∀ r ∈ roots, t.Above root r)
    (hl : ∀ simple ∈ link.simples, simple.Local t.view) : n ∈ t.advance config roots link ↔
      (∃ r ∈ roots, t.Related link.combinator r n) ∧
        (t.setting config).suits link.simples n = true := by
  have rest : ∀ simple ∈ link.simples.filter (!·.isPlain), simple.Local t.view :=
    fun simple hm => hl simple (List.mem_of_mem_filter hm)
  rw [advance, Setting.evaluationOrder_local rest, Setting.sift_local rest, List.mem_filter,
    h.mem_gathered hr, suits_split link.simples]
  tauto

theorem pairwise_advance (h : t.Linked) (roots : List NodeId) (link : Link (Query NodeId)) :
    (t.advance config roots link).Pairwise t.Precedes :=
  h.pairwise_gathered.sublist (Setting.sift_sublist _ _)

/-- The links lead from the context to all elements that the chain holds of. -/
theorem foldl_advance (h : t.Linked) (config : Config) (he : t.isElement context = true)
    (ha : t.Above root context)
    (hl : ∀ link ∈ links, ∀ simple ∈ link.simples, simple.Local t.view) :
    (∀ n, n ∈ links.foldl (t.advance config) [context] ↔
      t.Matches config context ⟨none, links⟩ n) ∧
    (∀ n ∈ links.foldl (t.advance config) [context], t.Above root n) ∧
    (links.foldl (t.advance config) [context]).Pairwise t.Precedes := by
  induction links using List.reverseRecOn with
  | nil =>
    refine ⟨fun n => ?_, ?_, List.pairwise_singleton _ _⟩
    · rw [List.foldl_nil, List.mem_singleton, Matches, Led.context_iff]
      exact (and_iff_right_of_imp fun hn => hn ▸ he).symm
    · exact fun n hn => List.mem_singleton.mp hn ▸ ha
  | append_singleton links link ih =>
    obtain ⟨hmem, attached, -⟩ := ih fun link hm => hl link (List.mem_append_left _ hm)
    rw [List.foldl_append, List.foldl_cons, List.foldl_nil]
    refine ⟨fun n => ?_, fun n hn => (h.advance_attached hn).2, h.pairwise_advance _ link⟩
    rw [h.mem_advance attached (hl link (by simp)), Matches, Led.concat_iff, ← exists_and_right]
    exact exists_congr fun a => by rw [hmem a, and_assoc]; rfl

theorem above_scope_link (h : t.Linked) (ha : t.Above root context)
    (hr : t.Related link.combinator context n) :
    t.Above ((t.setting config).scope ⟨none, [link]⟩ context) n := by
  have hs : t.Above ((t.setting config).scope (Setting.fragmentChain link none) context) n :=
    h.above_scope_fragment ha hr
  obtain ⟨combinator, simples⟩ := link
  cases combinator <;> exact hs

theorem above_of_matches_inward (h : t.Linked) (inward : first.combinator.isSibling = false)
    (hm : t.Matches config context ⟨none, first :: links⟩ n) : t.Above context n := by
  induction links using List.reverseRecOn generalizing n with
  | nil =>
    exact above_of_inward inward (related_of_matches hm)
  | append_singleton links link ih =>
    rw [← List.cons_append, Matches, Led.concat_iff] at hm
    obtain ⟨a, ha, hr, -⟩ := hm
    exact h.above_of_related hr (ih ha)

theorem general_of_sibling {combinator : Combinator} (sibling : combinator.isSibling = true)
    (hr : t.Related combinator x n) : t.Related .general x n := by
  cases combinator with
  | descendant => cases sibling
  | child => cases sibling
  | adjacent => exact general_of_adjacent hr
  | general => exact hr

theorem exists_sibling (h : t.Linked) (outward : first.combinator.isSibling = true)
    (hm : t.Matches config context ⟨none, first :: links⟩ n) :
    ∃ s, t.Related .general context s ∧ (n = s ∨ t.Above s n) := by
  induction links using List.reverseRecOn generalizing n with
  | nil =>
    exact ⟨n, general_of_sibling outward (related_of_matches hm), .inl rfl⟩
  | append_singleton links link ih =>
    rw [← List.cons_append, Matches, Led.concat_iff] at hm
    obtain ⟨a, ha, hr, -⟩ := hm
    obtain ⟨s, hs, rfl | below⟩ := ih ha
    · cases hk : link.combinator.isSibling with
      | true =>
        have steady : Combinator.Steady .general .general := by decide
        exact ⟨n, h.related_trans steady (.inr rfl) hs (general_of_sibling hk hr), .inl rfl⟩
      | false => exact ⟨a, hs, .inr (above_of_inward hk hr)⟩
    · exact ⟨s, hs, .inr (h.above_of_related hr below)⟩

theorem not_above_of_outward (h : t.Linked) (outward : first.combinator.isSibling = true)
    (hm : t.Matches config context ⟨none, first :: links⟩ n) : ¬ t.Above context n := by
  obtain ⟨s, hs, hn⟩ := h.exists_sibling outward hm
  have parents := h.parent_general hs
  have apart : ¬ t.Above context s := fun ha =>
    h.not_above_self context (ha.of_parent_eq parents.symm)
  intro ha
  rcases hn with rfl | hn
  · exact apart ha
  · rcases h.above_linear ha hn with rfl | hcs | hsc
    · exact h.related_asymm hs hs
    · exact apart hcs
    · exact h.not_above_self s (hsc.of_parent_eq parents)

section Led

variable {result : List NodeId × Marks NodeId}

theorem forward_led (h : t.Linked) (ids : t.UniqueIds) (classless : config.classLookup = false)
    (star : Chain.All (· ≠ .tag "*") ⟨none, links⟩)
    (hl : Chain.All (Simple.Local t.view) ⟨none, links⟩) (he : t.isElement context = true)
    (ha : t.Above root context) :
    (((t.setting config).evaluateForward ⟨none, links⟩ context none {}).1).Pairwise t.Precedes ∧
      ∀ n, n ∈ ((t.setting config).evaluateForward ⟨none, links⟩ context none {}).1 ↔
        t.Matches config context ⟨none, links⟩ n := by
  have hc : t.IsContext context := .inr ⟨he, ha⟩
  obtain ⟨hmem, -, ordered⟩ := h.foldl_advance config he ha fun _ hm => hl.of_link hm
  rw [h.evaluateForward_eq ids classless star (Setting.faithful_of_local (s := t.setting config) hl)
    hc fun _ => he]
  exact ⟨ordered, hmem⟩

theorem mem_answers_led (h : t.Linked) (ha : t.Above root context)
    (hans : t.Answers config context ⟨none, first :: links⟩ result)
    (inward : first.combinator.isSibling = false ∨ links = []) (n : NodeId) :
    n ∈ result.1 ↔ t.MatchesNearest config context ⟨none, first :: links⟩ n := by
  refine (hans.mem_iff n).trans (and_iff_right_of_imp fun hm => ?_)
  cases links with
  | nil =>
    exact h.above_scope_link ha (related_of_matches hm.matches)
  | cons link links =>
    have inward := inward.resolve_right (List.cons_ne_nil link links)
    exact h.above_of_matches_inward inward hm.matches

/-- Where a longer chain leads to the siblings of the context, nothing is found below it. -/
theorem answers_outward (h : t.Linked)
    (hans : t.Answers config context ⟨none, first :: links⟩ result)
    (outward : first.combinator.isSibling = true) (several : links ≠ []) : result.1 = [] := by
  refine List.eq_nil_iff_forall_not_mem.mpr fun n hn => ?_
  obtain ⟨below, hm⟩ := (hans.mem_iff n).mp hn
  obtain ⟨link, links, rfl⟩ := List.exists_cons_of_ne_nil several
  exact h.not_above_of_outward outward hm.matches below

end Led

end Linked

/-- From left to right a chain that starts with a combinator finds all elements that it holds of.
From right to left it finds some of them: those that it holds of by way of the nearest elements, if
the first combinator leads downwards or is the only one, and else none. They are all of them where
the combinators are steady. -/
theorem directions_compared (built : t.WellBuilt) (ids : t.UniqueIds)
    (classless : config.classLookup = false) {branch : Complex SelectorList}
    {first : Link SelectorList} {links : List (Link SelectorList)}
    (parts : Chain.ofParts? branch.parts = some ⟨none, first :: links⟩)
    (free : branch.hasPositional SelectorList.hasPositional = false)
    (star : Chain.All (· ≠ .tag "*") ⟨none, first :: links⟩) (he : t.isElement context = true)
    (ha : t.Above root context) :
    ((t.leftToRight config ⟨none, first :: links⟩ context).Pairwise t.Precedes ∧
      ∀ n, n ∈ t.leftToRight config ⟨none, first :: links⟩ context ↔
        t.Matches config context (t.meant config ⟨none, first :: links⟩) n) ∧
    (t.rightToLeft config ⟨none, first :: links⟩ context).Sublist
      (t.leftToRight config ⟨none, first :: links⟩ context) ∧
    (first.combinator.isSibling = false ∨ links = [] →
      ∀ n, n ∈ t.rightToLeft config ⟨none, first :: links⟩ context ↔
        t.MatchesNearest config context (t.meant config ⟨none, first :: links⟩) n) ∧
    (first.combinator.isSibling = true → links ≠ [] →
      t.rightToLeft config ⟨none, first :: links⟩ context = []) ∧
    (links = [] ∨ first.combinator.isSibling = false ∧ Chain.Steady ⟨none, first :: links⟩ →
      t.rightToLeft config ⟨none, first :: links⟩ context =
        t.leftToRight config ⟨none, first :: links⟩ context) := by
  have h := built.linked
  have hl : (t.meant config ⟨none, first :: links⟩).All (Simple.Local t.view) := by
    rw [Chain.All, simples_meant parts]
    exact SelectorList.local_branch h.outline_linked h.isContext_root free
  have hans := h.answers_backward ids classless (meant_star star) hl (.inr ⟨he, ha⟩)
    Chain.isSome_last?_cons Marks.sound_empty
  obtain ⟨ordered, forward⟩ := h.forward_led ids classless (meant_star star) hl he ha
  have nearest (inward : first.combinator.isSibling = false ∨ links = []) :
      ∀ n, n ∈ t.rightToLeft config ⟨none, first :: links⟩ context ↔
        t.MatchesNearest config context (t.meant config ⟨none, first :: links⟩) n :=
    h.mem_answers_led ha hans (inward.imp_right fun he => congrArg (List.map _) he)
  refine ⟨⟨ordered, forward⟩, ?_, nearest, fun outward several => ?_, fun agree => ?_⟩
  · exact sublist_of_precedes hans.ordered ordered fun n hn =>
      (forward n).mpr ((hans.mem_iff n).mp hn).2.matches
  · exact h.answers_outward hans outward (mt List.map_eq_nil_iff.mp several)
  · have steady : Chain.Steady ⟨none, first :: links⟩ :=
      agree.elim (fun he => he ▸ List.isChain_singleton first) And.right
    -- Two lists in document order with the same members are the same list.
    refine Linked.eq_of_precedes hans.ordered ordered fun n => ?_
    refine (nearest (agree.symm.imp_left And.left) n).trans (Iff.trans ?_ (forward n).symm)
    exact ⟨MatchesNearest.matches, h.matchesNearest_of_matches (meant_steady steady)⟩

def innerBranch : Complex SelectorList where
  parts := [.combinator .child, .compound ⟨"div", [.tag "div"]⟩, .combinator .child,
    .compound ⟨"div", [.tag "div"]⟩]

def innerChain : Chain SelectorList := ⟨none, [⟨.child, [.tag "div"]⟩, ⟨.child, [.tag "div"]⟩]⟩

theorem article_below : article.build.Above root 1 :=
  article.wellBuilt_build.linked.isBelow_iff.mp (by decide)

theorem directions_compared_article :
    SelectorList.parse "> div > div" = .ok (.mk "> div > div" [innerBranch]) ∧
      article.build.leftToRight .allOff innerChain 1 = [3] ∧
      article.build.Matches .allOff 1 (article.build.meant .allOff innerChain) 3 ∧
      article.build.MatchesNearest .allOff 1 (article.build.meant .allOff innerChain) 3 ∧
      article.build.rightToLeft .allOff innerChain 1 =
        article.build.leftToRight .allOff innerChain 1 := by
  have read : SelectorList.parse "> div > div" = .ok (.mk "> div > div" [innerBranch]) := by cbv
  have run : article.build.leftToRight .allOff innerChain 1 = [3] := by decide +kernel
  have classless : Config.allOff.classLookup = false := rfl
  have parts : Chain.ofParts? innerBranch.parts = some innerChain := rfl
  have free : innerBranch.hasPositional SelectorList.hasPositional = false := by cbv
  have star : innerChain.All (· ≠ .tag "*") := by simp [Chain.All, Chain.simples, innerChain]
  have steady : innerChain.Steady := by simp [innerChain, Chain.Steady, Combinator.Steady]
  obtain ⟨⟨-, reached⟩, -, nearest, -, same⟩ := directions_compared article.wellBuilt_build
    uniqueIds_article classless parts free star (by decide) article_below
  have agree := same (.inr ⟨rfl, steady⟩)
  have found : 3 ∈ article.build.leftToRight .allOff innerChain 1 := by simp [run]
  exact ⟨read, run, (reached 3).mp found, (nearest (.inl rfl) 3).mp (agree ▸ found), agree⟩

theorem Linked.matches_steps (h : t.Linked) (he : t.isElement context = true)
    {left right : Combinator} {simples₁ simples₂ : List (Simple (Query NodeId))} {y : NodeId}
    (hy : context ∈ (t.setting config).leftward left y)
    (sy : (t.setting config).suits simples₁ y = true)
    (hn : y ∈ (t.setting config).leftward right n)
    (sn : (t.setting config).suits simples₂ n = true) :
    t.Matches config context ⟨none, [⟨left, simples₁⟩, ⟨right, simples₂⟩]⟩ n := by
  have first : t.Matches config context ⟨none, [] ++ [⟨left, simples₁⟩]⟩ y :=
    .link (.context he) ((h.mem_leftward fun _ => isElement_of_suits sy).mp hy).2 sy
  have second : t.Matches config context ⟨none, [⟨left, simples₁⟩] ++ [⟨right, simples₂⟩]⟩ n :=
    .link first ((h.mem_leftward fun _ => isElement_of_suits sn).mp hn).2 sn
  exact second

def farBranch : Complex SelectorList where
  parts := [.combinator .child, .compound ⟨"div", [.tag "div"]⟩, .compound ⟨"p", [.tag "p"]⟩]

def farChain : Chain SelectorList := ⟨none, [⟨.child, [.tag "div"]⟩, ⟨.descendant, [.tag "p"]⟩]⟩

def asideBranch : Complex SelectorList where
  parts := [.combinator .adjacent, .compound ⟨"b", [.tag "b"]⟩, .combinator .child,
    .compound ⟨"b", [.tag "b"]⟩]

def asideChain : Chain SelectorList := ⟨none, [⟨.adjacent, [.tag "b"]⟩, ⟨.child, [.tag "b"]⟩]⟩

def starBranch : Complex SelectorList where
  parts := [.combinator .child, .compound ⟨"\\*", [.tag "*"]⟩]

def starChain : Chain SelectorList := ⟨none, [⟨.child, [.tag "*"]⟩]⟩

/-- From right to left the nearest division is not the child of the article, and what is in a
sibling is not below the context. In both directions an escaped star finds elements of every
name. -/
theorem directions_differ :
    (article.build.WellBuilt ∧ article.build.UniqueIds ∧ article.build.isElement 1 = true ∧
      article.build.Above root 1) ∧
    (beside.build.WellBuilt ∧ beside.build.UniqueIds ∧ beside.build.isElement 1 = true ∧
      beside.build.Above root 1) ∧
    (SelectorList.parse "> div p" = .ok (.mk "> div p" [farBranch]) ∧
      Chain.ofParts? farBranch.parts = some farChain ∧
      farBranch.hasPositional SelectorList.hasPositional = false ∧
      article.build.Matches .allOff 1 (article.build.meant .allOff farChain) 4 ∧
      article.build.leftToRight .allOff farChain 1 = [4] ∧
      article.build.rightToLeft .allOff farChain 1 = []) ∧
    (SelectorList.parse "+ b > b" = .ok (.mk "+ b > b" [asideBranch]) ∧
      Chain.ofParts? asideBranch.parts = some asideChain ∧
      asideBranch.hasPositional SelectorList.hasPositional = false ∧
      beside.build.Matches .allOff 1 (beside.build.meant .allOff asideChain) 3 ∧
      beside.build.leftToRight .allOff asideChain 1 = [3] ∧
      beside.build.rightToLeft .allOff asideChain 1 = []) ∧
    (SelectorList.parse "> \\*" = .ok (.mk "> \\*" [starBranch]) ∧
      Chain.ofParts? starBranch.parts = some starChain ∧
      starBranch.hasPositional SelectorList.hasPositional = false ∧
      ¬ article.build.Matches .allOff 1 (article.build.meant .allOff starChain) 2 ∧
      article.build.leftToRight .allOff starChain 1 = [2] ∧
      article.build.rightToLeft .allOff starChain 1 = [2]) := by
  have article_linked := article.wellBuilt_build.linked
  have beside_linked := beside.wellBuilt_build.linked
  refine ⟨⟨article.wellBuilt_build, uniqueIds_article, by decide, article_below⟩,
    ⟨beside.wellBuilt_build, beside_linked.uniqueIds (by decide), by decide,
      beside_linked.isBelow_iff.mp (by decide)⟩, ?far, ?aside, ?star⟩
  case far =>
    refine ⟨by cbv, rfl, by cbv, ?_, by decide +kernel, by decide +kernel⟩
    exact article_linked.matches_steps (by decide) (by decide) (y := 2) (by decide) (by decide)
      (by decide)
  case aside =>
    refine ⟨by cbv, rfl, by cbv, ?_, by decide +kernel, by decide +kernel⟩
    exact beside_linked.matches_steps (by decide) (by decide) (y := 2) (by decide) (by decide)
      (by decide)
  case star =>
    have unsuited : (article.build.setting .allOff).suits [.tag "*"] 2 = false := by decide
    refine ⟨by cbv, rfl, by cbv, fun hm => ?_, by decide +kernel, by decide +kernel⟩
    have suited : (article.build.setting .allOff).suits [.tag "*"] 2 = true := Led.endsAt hm
    rw [unsuited] at suited
    cases suited

end Tree
end SelectorEngine
