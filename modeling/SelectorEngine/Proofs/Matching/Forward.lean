import SelectorEngine.Matching.Forward
import SelectorEngine.Proofs.Matching.Backward
import SelectorEngine.Proofs.View.Arranging

/-! # Evaluation link by link

From left to right each link collects, once and in document order, what the plain part of its
compound leads to from any node found so far, and filters the whole list by the rest. -/
namespace SelectorEngine

open Setting (plainPart fragmentChain)

section Plain

variable {N : Type} [DecidableEq N] {view : TreeView N}

omit [DecidableEq N] in
theorem mem_plainPart {simples : List (Simple (Query N))} {simple : Simple (Query N)}
    (h : simple ∈ plainPart simples) :
    simple = .universal ∨ simple ∈ simples ∧ simple.isPlain = true := by
  unfold plainPart at h
  split at h
  · exact .inl (List.mem_singleton.mp h)
  · exact .inr (List.mem_filter.mp h)

theorem Simple.local_of_isPlain {simple : Simple (Query N)}
    (h : simple.isPlain = true) : simple.Local view := by
  cases simple with
  | universal | tag | id | className | attr => trivial
  | _ => cases h

theorem local_plainPart (simples : List (Simple (Query N))) :
    ∀ simple ∈ plainPart simples, simple.Local view := by
  intro simple hs
  rcases mem_plainPart hs with rfl | ⟨-, hp⟩
  · trivial
  · exact Simple.local_of_isPlain hp

omit [DecidableEq N] in
theorem star_plainPart {simples : List (Simple (Query N))}
    (star : ∀ simple ∈ simples, simple ≠ .tag "*") :
    ∀ simple ∈ plainPart simples, simple ≠ .tag "*" := by
  intro simple hs
  rcases mem_plainPart hs with rfl | ⟨hm, -⟩
  · exact fun he => nomatch he
  · exact star simple hm

end Plain

namespace Setting

variable {N : Type} [DecidableEq N] {s : Setting N}

/-- A star stands for no plain simple selector at all. -/
theorem suits_plainPart (simples : List (Simple (Query N))) (n : N) :
    s.suits (plainPart simples) n = s.suits (simples.filter (·.isPlain)) n := by
  unfold plainPart
  split
  · next h =>
    rw [h]
    cases he : s.view.isElement n <;> simp [suits, admits, satisfies, passes, he]
  · rfl

theorem evaluateBackward_single (simples : List (Simple (Query N))) (context : N)
    (marks : Marks N) :
    s.evaluateBackward ⟨some simples, []⟩ context none marks = s.find simples context marks := by
  rw [evaluateBackward, narrows, Bool.and_false, if_neg Bool.false_ne_true]
  rfl

end Setting

namespace Tree

variable {t : Tree} {config : Config} {r n scope context : NodeId} {roots : List NodeId}
  {simples : List (Simple (Query NodeId))} {link : Link (Query NodeId)}
  {links : List (Link (Query NodeId))} {m : Marks NodeId}

open Classical in
/-- What suits the plain part of a link and is related to one of several nodes on its left, in
document order. -/
noncomputable def gathered (t : Tree) (config : Config) (roots : List NodeId)
    (link : Link (Query NodeId)) : List NodeId :=
  (t.descendants root).filter fun n =>
    (t.setting config).suits (link.simples.filter (·.isPlain)) n &&
      decide (∃ r ∈ roots, t.Related link.combinator r n)

noncomputable def advance (t : Tree) (config : Config) (roots : List NodeId)
    (link : Link (Query NodeId)) : List NodeId :=
  (t.setting config).sift (evaluationOrder (link.simples.filter (!·.isPlain)))
    (t.gathered config roots link)

def startOf (t : Tree) (config : Config) (context : NodeId) (chain : Chain (Query NodeId)) :
    List NodeId :=
  match chain.head with
  | some simples =>
    (t.setting config).evaluateBranch { parts := [.compound ⟨"", simples⟩] } context none
  | none => [context]

namespace Linked

theorem above_scope_fragment (h : t.Linked) (hr : t.Above root r)
    (hn : t.Related link.combinator r n) :
    t.Above ((t.setting config).scope (fragmentChain link none) r) n := by
  obtain ⟨combinator, simples⟩ := link
  obtain ⟨p, hp, -⟩ := above_iff.mp hr
  have sibling (he : t.parent r = t.parent n) : t.Above ((t.parent r).getD r) n := by
    rw [hp]
    exact .parent (he ▸ hp)
  cases combinator with
  | descendant => exact hn
  | child => exact .parent hn
  | adjacent => exact sibling (h.parent_adjacent hn)
  | general => exact sibling (h.parent_general hn)

theorem fragment_root (h : t.Linked) (ids : t.UniqueIds) (classless : config.classLookup = false)
    (star : ∀ simple ∈ link.simples, simple ≠ .tag "*") (hr : t.isElement r = true)
    (ha : t.Above root r) (hm : m.Sound t.outline) :
    (∀ n, n ∈ ((t.setting config).evaluateBackward (fragmentChain link none) r none m).1 ↔
      (t.setting config).suits (link.simples.filter (·.isPlain)) n = true ∧
        t.Related link.combinator r n) ∧
    ((t.setting config).evaluateBackward (fragmentChain link none) r none m).1.Pairwise
      t.Precedes ∧
    ((t.setting config).evaluateBackward (fragmentChain link none) r none m).2.Sound
      t.outline := by
  -- A fragment is a chain of its own, so what is known of answers from right to left holds of it.
  have hsimples : (fragmentChain link none).simples = plainPart link.simples := by
    obtain ⟨combinator, simples⟩ := link
    cases combinator <;> simp [fragmentChain, Chain.simples]
  have hlast : (fragmentChain link none).last?.isSome = true := by
    obtain ⟨combinator, simples⟩ := link
    cases combinator <;> rfl
  have hmatch (n : NodeId) : t.MatchesNearest config r (fragmentChain link none) n ↔
      t.Related link.combinator r n ∧
        (t.setting config).suits (plainPart link.simples) n = true := by
    obtain ⟨combinator, simples⟩ := link
    cases combinator with
    | descendant => exact Led.first_iff
    | _ => exact matchesNearest_context hr
  have hstar : (fragmentChain link none).All (· ≠ .tag "*") := by
    rw [Chain.All, hsimples]
    exact star_plainPart star
  have hlocal : (fragmentChain link none).All (Simple.Local t.view) := by
    rw [Chain.All, hsimples]
    exact local_plainPart _
  obtain ⟨hmem, hordered, hsound⟩ :=
    h.answers_backward ids classless hstar hlocal (.inr ⟨hr, ha⟩) hlast hm
  refine ⟨fun n => (hmem n).trans ?_, hordered, hsound⟩
  rw [hmatch, Setting.suits_plainPart, and_comm (a := t.Related _ _ _)]
  exact and_iff_right_of_imp fun hn => h.above_scope_fragment ha hn.2

theorem evaluateFromEach_roots (h : t.Linked) (ids : t.UniqueIds)
    (classless : config.classLookup = false) (star : ∀ simple ∈ link.simples, simple ≠ .tag "*")
    (hr : ∀ r ∈ roots, t.isElement r = true ∧ t.Above root r) (hm : m.Sound t.outline) :
    (∀ n, n ∈ ((t.setting config).evaluateFromEach (fragmentChain link none) none roots m).1 ↔
      (t.setting config).suits (link.simples.filter (·.isPlain)) n = true ∧
        ∃ r ∈ roots, t.Related link.combinator r n) ∧
    ((t.setting config).evaluateFromEach (fragmentChain link none) none roots m).2.Sound
      t.outline := by
  induction roots generalizing m with
  | nil => exact ⟨fun n => by simp [Setting.evaluateFromEach], hm⟩
  | cons r roots ih =>
    obtain ⟨⟨he, ha⟩, hroots⟩ := List.forall_mem_cons.mp hr
    obtain ⟨hmem, -, hsound⟩ := h.fragment_root ids classless star he ha hm
    obtain ⟨hmems, hsounds⟩ := ih hroots hsound
    refine ⟨fun n => ?_, hsounds⟩
    rw [Setting.evaluateFromEach, List.mem_append, hmem, hmems, ← and_or_left,
      List.exists_mem_cons_iff]

theorem mem_gathered (h : t.Linked) (hr : ∀ r ∈ roots, t.Above root r) :
    n ∈ t.gathered config roots link ↔
      (t.setting config).suits (link.simples.filter (·.isPlain)) n = true ∧
        ∃ r ∈ roots, t.Related link.combinator r n := by
  simp only [gathered, List.mem_filter, h.mem_descendants, Bool.and_eq_true, decide_eq_true_eq]
  refine and_iff_right_of_imp ?_
  rintro ⟨-, r, hmem, hn⟩
  exact h.above_of_related hn (hr r hmem)

theorem pairwise_gathered (h : t.Linked) : (t.gathered config roots link).Pairwise t.Precedes :=
  (h.pairwise_descendants root).filter _

/-- Nodes that several roots lead to are arranged, so that they are counted once. -/
theorem gathered_eq (h : t.Linked) (ids : t.UniqueIds) (classless : config.classLookup = false)
    (star : ∀ simple ∈ link.simples, simple ≠ .tag "*")
    (hr : ∀ r ∈ roots, t.isElement r = true ∧ t.Above root r) (hm : m.Sound t.outline)
    {found : List NodeId} {marks : Marks NodeId} (hf : (t.setting config).evaluateFromEach
      (fragmentChain link none) none roots m = (found, marks)) :
    (if 1 < roots.length then t.view.arrange found else found) = t.gathered config roots link := by
  have members (n : NodeId) : n ∈ found ↔ n ∈ t.gathered config roots link := by
    obtain ⟨hmem, -⟩ := h.evaluateFromEach_roots ids classless star hr hm
    rw [hf] at hmem
    rw [hmem, h.mem_gathered fun r hr' => (hr r hr').2]
  split
  · exact eq_of_precedes (h.orderedBy.pairwise_arrange found) h.pairwise_gathered
      fun n => (TreeView.mem_arrange found).trans (members n)
  · next few =>
    refine eq_of_precedes ?_ h.pairwise_gathered members
    rcases roots with _ | ⟨r, _ | ⟨r', roots⟩⟩
    · obtain rfl := (Prod.mk.inj hf).1
      exact .nil
    · obtain ⟨he, ha⟩ := hr r (List.mem_singleton_self r)
      have single : found =
          ((t.setting config).evaluateBackward (fragmentChain link none) r none m).1 :=
        (congrArg Prod.fst hf).symm.trans (List.append_nil _)
      rw [single]
      exact (h.fragment_root ids classless star he ha hm).2.1
    · exact absurd (by simp) few

theorem fragment_eq (h : t.Linked) (ids : t.UniqueIds) (classless : config.classLookup = false)
    (star : ∀ simple ∈ link.simples, simple ≠ .tag "*")
    (hq : ∀ q, .not q ∈ link.simples → q.Faithful t.view)
    (hr : ∀ r ∈ roots, t.isElement r = true ∧ t.Above root r) (hm : m.Sound t.outline) :
    ((t.setting config).fragment link none roots m).1 = t.advance config roots link ∧
      ((t.setting config).fragment link none roots m).2.Sound t.outline := by
  obtain ⟨found, marks, hf⟩ : ∃ found marks, (t.setting config).evaluateFromEach
      (fragmentChain link none) none roots m = (found, marks) := ⟨_, _, rfl⟩
  have run : (t.setting config).fragment link none roots m = (t.setting config).filter
      (link.simples.filter (!·.isPlain)) (t.gathered config roots link) marks := by
    rw [← h.gathered_eq ids classless star hr hm hf, Setting.fragment, hf]
    rfl
  obtain ⟨-, hsound⟩ := h.evaluateFromEach_roots ids classless star hr hm
  rw [hf] at hsound
  have faithful : ∀ q, .not q ∈ link.simples.filter (!·.isPlain) → q.Faithful t.view :=
    fun q hm => hq q (List.mem_of_mem_filter hm)
  obtain ⟨hs, hfol⟩ := Setting.filter_eq (h.regular config) hsound faithful
    (t.gathered config roots link)
  rw [run]
  exact ⟨hs, hfol.sound⟩

theorem advance_attached (h : t.Linked) (hn : n ∈ t.advance config roots link) :
    t.isElement n = true ∧ t.Above root n := by
  have hg := (Setting.sift_sublist _ _).subset hn
  rw [gathered, List.mem_filter, h.mem_descendants, Bool.and_eq_true] at hg
  exact ⟨isElement_of_suits hg.2.1, hg.1⟩

theorem followLinks_eq (h : t.Linked) (ids : t.UniqueIds) (classless : config.classLookup = false)
    (star : ∀ link ∈ links, ∀ simple ∈ link.simples, simple ≠ .tag "*")
    (hq : ∀ link ∈ links, ∀ q, .not q ∈ link.simples → q.Faithful t.view)
    (hr : ∀ r ∈ roots, t.isElement r = true ∧ t.Above root r) (hm : m.Sound t.outline) :
    ((t.setting config).followLinks none links roots m).1 =
      links.foldl (t.advance config) roots := by
  induction links generalizing roots m with
  | nil => rfl
  | cons link links ih =>
    obtain ⟨hstar, hstars⟩ := List.forall_mem_cons.mp star
    obtain ⟨hnot, hnots⟩ := List.forall_mem_cons.mp hq
    obtain ⟨hf, hms⟩ := h.fragment_eq ids classless hstar hnot hr hm
    have attached : ∀ r ∈ ((t.setting config).fragment link none roots m).1,
        t.isElement r = true ∧ t.Above root r := by
      rw [hf]
      exact fun r hmem => h.advance_attached hmem
    rw [Setting.followLinks, ite_self, List.foldl_cons, ← hf]
    exact ih hstars hnots attached hms

theorem evaluateForward_eq (h : t.Linked) (ids : t.UniqueIds)
    (classless : config.classLookup = false)
    {chain : Chain (Query NodeId)} (star : chain.All (· ≠ .tag "*"))
    (hq : ∀ q, .not q ∈ chain.simples → q.Faithful t.view) (hc : t.IsContext context)
    (element : chain.head = none → t.isElement context = true) :
    ((t.setting config).evaluateForward chain context none {}).1 =
      chain.links.foldl (t.advance config) (t.startOf config context chain) := by
  obtain ⟨head, links⟩ := chain
  have stars : ∀ link ∈ links, ∀ simple ∈ link.simples, simple ≠ .tag "*" :=
    fun link hl => star.of_link hl
  have nots : ∀ link ∈ links, ∀ q, .not q ∈ link.simples → q.Faithful t.view := fun link hl q hm =>
    hq q (List.mem_append_right _ (List.mem_flatMap.mpr ⟨link, hl, hm⟩))
  cases head with
  | none =>
    have he := element rfl
    have attached : ∀ r ∈ [context], t.isElement r = true ∧ t.Above root r := by
      rintro r hr
      obtain rfl := List.mem_singleton.mp hr
      refine ⟨he, hc.elim (fun hroot => ?_) And.right⟩
      rw [hroot, h.isElement_root] at he
      cases he
    exact h.followLinks_eq ids classless stars nots attached Marks.sound_empty
  | some simples =>
    have nots' : ∀ q, .not q ∈ simples → q.Faithful t.view :=
      fun q hm => hq q (List.mem_append_left _ hm)
    obtain ⟨hsub, hsound⟩ := h.find_sublist config context nots' Marks.sound_empty
    have attached : ∀ r ∈ ((t.setting config).find simples context {}).1,
        t.isElement r = true ∧ t.Above root r := by
      intro r hr
      obtain ⟨hd, he⟩ := List.mem_filter.mp (hsub.subset hr)
      exact ⟨he, hc.attached.above (h.mem_descendants.mp hd)⟩
    rw [← Setting.evaluateBackward_single] at attached hsound
    exact h.followLinks_eq ids classless stars nots attached hsound

end Linked
end Tree
end SelectorEngine
