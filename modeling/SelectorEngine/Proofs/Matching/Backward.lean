import SelectorEngine.Proofs.Matching.Witnesses
import SelectorEngine.Proofs.Tree.DocumentOrder

/-! # Evaluation along the nearest witnesses

From right to left a chain keeps the candidates that it holds of by way of the nearest elements that
suit. Starting from the identifier in its first compound changes nothing. -/
namespace SelectorEngine

theorem Setting.of_narrows {N : Type} [DecidableEq N] {s : Setting N} {chain : Chain (Query N)}
    {context : N} {seed : Option (List N)} (hn : s.narrows chain context seed = true) :
    s.xml = false ∧ s.view.isDocumentRoot context = true ∧ ∃ first link links,
      chain = ⟨some first, link :: links⟩ ∧ first.any (·.id?.isSome) = true ∧
        link.combinator.isSibling = false := by
  obtain ⟨head, links⟩ := chain
  rw [narrows, Bool.and_eq_true] at hn
  obtain ⟨hc, hchain⟩ := hn
  simp only [Bool.and_eq_true, Bool.not_eq_true'] at hc
  rcases head with _ | first
  · cases hchain
  · rcases links with _ | ⟨link, links⟩
    · cases hchain
    · simp only [Bool.and_eq_true, Bool.not_eq_true'] at hchain
      exact ⟨hc.1.2, hc.2, first, link, links, rfl, hchain.1.2, hchain.1.1⟩

namespace Tree

def IsContext (t : Tree) (n : NodeId) : Prop :=
  n = root ∨ t.isElement n = true ∧ t.Above root n

variable {t : Tree} {config : Config} {a b c n context : NodeId} {combinator : Combinator}
  {head : Option (List (Simple (Query NodeId)))} {links : List (Link (Query NodeId))}
  {chain : Chain (Query NodeId)} {simples : List (Simple (Query NodeId))}

theorem IsContext.attached (h : t.IsContext n) : t.Attached n := h.imp_right And.right

theorem Linked.isContext_of (h : t.Linked) (hc : context = root ∨ t.isElement context = true) :
    t.view.isContext context = true := by
  rcases hc with rfl | hc
  · exact h.isContext_root
  · exact Bool.or_eq_true_iff.mpr (.inl hc)

theorem Linked.valid (h : t.Linked) (hc : t.IsContext context) : t.view.isContext context = true :=
  h.isContext_of (hc.imp_right And.left)

theorem endsAt_eq (chain : Chain (Query NodeId)) (n : NodeId) : t.endsAt config context chain n =
    (t.isElement n && (t.setting config).fits (Setting.target context chain.last?) n) := by
  rw [endsAt]
  cases chain.last? <;> rfl

theorem trace_chain (chain : Chain (Query NodeId)) :
    (t.setting config).trace combinator (Setting.target context chain.last?) (.reached n) =
      (((t.setting config).leftward combinator n).find? (t.endsAt config context chain)).elim .lost
        (Setting.arrival (Setting.target context chain.last?)) := by
  have hp : t.endsAt config context chain = fun n => decide (t.isElement n = true ∧
      (t.setting config).fits (Setting.target context chain.last?) n = true) := by
    funext n
    rw [endsAt_eq, Bool.decide_and, Bool.decide_eq_true, Bool.decide_eq_true]
  rw [hp, ← List.find?_filter, Setting.trace, Setting.firstFit]
  have hv : (t.setting config).view.isElement = t.isElement := rfl
  rw [hv]
  cases List.find? _ _ <;> rfl

theorem traceAll_lost (steps : List (Combinator × Option (List (Simple (Query NodeId))))) :
    (t.setting config).traceAll context steps .lost = .lost := by
  induction steps with
  | nil => rfl
  | cons step steps ih => exact ih

/-- What the evaluation of a chain below a context returns: in document order the nodes that it
holds of by way of the nearest elements, as far as they are looked for. -/
structure Answers (t : Tree) (config : Config) (context : NodeId) (chain : Chain (Query NodeId))
    (result : List NodeId × Marks NodeId) : Prop where
  mem_iff : ∀ n, n ∈ result.1 ↔ t.Above ((t.setting config).scope chain context) n ∧
    t.MatchesNearest config context chain n
  ordered : result.1.Pairwise t.Precedes
  sound : result.2.Sound t.outline

namespace Linked

theorem accepts_reached (h : t.Linked) (hc : t.IsContext context) (he : t.isElement n = true)
    (hn : t.Above root n) :
    (t.setting config).accepts context (.reached n) = true ↔ t.Above context n := by
  change (t.isElement n && (!t.isElement context || t.isBelow n context)) = true ↔ _
  rw [he, Bool.true_and, Bool.or_eq_true, h.isBelow_iff, Bool.not_eq_true']
  rcases hc with rfl | hc
  · simp [h.isElement_root, hn]
  · simp [hc.1]

theorem matchesNearest_concat (h : t.Linked) {link : Link (Query NodeId)}
    (hnear : t.Nearest (t.endsAt config context ⟨head, links⟩) link.combinator a n)
    (hs : (t.setting config).suits link.simples n = true) :
    t.MatchesNearest config context ⟨head, links ++ [link]⟩ n ↔
      t.MatchesNearest config context ⟨head, links⟩ a := by
  rw [MatchesNearest, Led.concat_iff]
  constructor
  · rintro ⟨b, hm, hb, -⟩
    exact h.nearest_eq hb hnear ▸ hm
  · intro hm
    exact ⟨a, hm, hnear, hs⟩

/-- A candidate is accepted if the chain holds of it by way of the nearest elements. -/
theorem accepts_traceAll (h : t.Linked) (hc : t.IsContext context) (hn : t.Above root n)
    (he : t.endsAt config context ⟨head, links⟩ n = true)
    (hs : (Chain.last? ⟨head, links⟩).isSome = true) :
    (t.setting config).accepts context ((t.setting config).traceAll context
        (Chain.leftwards ⟨head, links⟩) (.reached n)) = true ↔
      t.MatchesNearest config context ⟨head, links⟩ n := by
  -- A trace starts at the end of the chain, so the induction takes the links from the right.
  induction links using List.reverseRecOn generalizing n with
  | nil =>
    obtain ⟨simples, rfl⟩ : ∃ simples, head = some simples := Option.isSome_iff_exists.mp hs
    rw [MatchesNearest, Led.first_iff, ← h.accepts_reached hc (isElement_of_endsAt he) hn]
    exact (and_iff_left he).symm
  | append_singleton links link ih =>
    have first (a : NodeId) : ((t.setting config).leftward link.combinator n).find?
          (t.endsAt config context ⟨head, links⟩) = some a ↔
        t.Nearest (t.endsAt config context ⟨head, links⟩) link.combinator a n :=
      h.find?_leftward (fun _ => isElement_of_endsAt) fun _ => isElement_of_endsAt he
    rw [endsAt_concat] at he
    rw [Chain.leftwards_concat, Setting.traceAll, trace_chain]
    cases hf : ((t.setting config).leftward link.combinator n).find?
        (t.endsAt config context ⟨head, links⟩) with
    | none =>
      rw [Option.elim_none, traceAll_lost, MatchesNearest, Led.concat_iff]
      simp only [Setting.accepts, Bool.false_eq_true, false_iff, not_exists]
      intro a ha
      rw [(first a).mpr ha.2.1] at hf
      cases hf
    | some a =>
      have hnear := (first a).mp hf
      have attached := h.attached_left hnear.related hn (isElement_of_endsAt hnear.holds)
      rw [Option.elim_some, h.matchesNearest_concat hnear he]
      cases hlast : Chain.last? ⟨head, links⟩ with
      | none =>
        obtain ⟨rfl, rfl⟩ := Chain.last?_eq_none.mp hlast
        have hends := Bool.and_eq_true_iff.mp hnear.holds
        exact ⟨fun _ => Led.context_iff.mpr ⟨hends.1, of_decide_eq_true hends.2⟩, fun _ => rfl⟩
      | some simples =>
        rw [show Setting.arrival (Setting.target context (some simples)) a = .reached a from rfl]
        exact ih attached hnear.holds (by rw [hlast]; rfl)

theorem matchesNearest_append (h : t.Linked) {context' : NodeId}
    {head' : Option (List (Simple (Query NodeId)))} (first first' : List (Link (Query NodeId)))
    (same : ∀ n, t.Above root n → (t.MatchesNearest config context ⟨head, first⟩ n ↔
      t.MatchesNearest config context' ⟨head', first'⟩ n))
    (ends : t.endsAt config context ⟨head, first⟩ = t.endsAt config context' ⟨head', first'⟩)
    (hn : t.Above root n) :
    t.MatchesNearest config context ⟨head, first ++ links⟩ n ↔
      t.MatchesNearest config context' ⟨head', first' ++ links⟩ n := by
  induction links using List.reverseRecOn generalizing n with
  | nil => simpa using same n hn
  | append_singleton links link ih =>
    have hends : t.endsAt config context ⟨head, first ++ links⟩ =
        t.endsAt config context' ⟨head', first' ++ links⟩ := by
      cases links using List.reverseRecOn with
      | nil => simpa using ends
      | append_singleton links last =>
        funext n
        rw [← List.append_assoc, ← List.append_assoc, endsAt_concat, endsAt_concat]
    rw [← List.append_assoc, ← List.append_assoc, MatchesNearest, Led.concat_iff, Led.concat_iff,
      hends]
    refine exists_congr fun a => and_congr_left fun ⟨hnear, _⟩ => ih ?_
    exact h.attached_left hnear.related hn (isElement_of_endsAt hnear.holds)

theorem nearest_unique {P : NodeId → Bool} {e : NodeId} (he : P e = true)
    (unique : ∀ a, t.Related combinator a n → P a = true → a = e) :
    t.Nearest P combinator a n ↔ a = e ∧ t.Related combinator e n := by
  constructor
  · intro ha
    obtain rfl := unique a ha.related ha.holds
    exact ⟨rfl, ha.related⟩
  · rintro ⟨rfl, hr⟩
    exact ⟨he, hr, fun c hc hcr => .inl (unique c hcr hc)⟩

variable {link : Link (Query NodeId)}

theorem matchesNearest_context (he : t.isElement context = true) :
    t.MatchesNearest config context ⟨none, [link]⟩ n ↔
      t.Related link.combinator context n ∧ (t.setting config).suits link.simples n = true := by
  have hends : t.endsAt config context ⟨none, []⟩ context = true := by
    simp [endsAt, Chain.last?, he]
  have hnear (a : NodeId) : t.Nearest (t.endsAt config context ⟨none, []⟩) link.combinator a n ↔
      a = context ∧ t.Related link.combinator context n :=
    nearest_unique hends fun a _ ha => of_decide_eq_true (Bool.and_eq_true_iff.mp ha).2
  rw [MatchesNearest, ← List.nil_append [link], Led.concat_iff]
  constructor
  · rintro ⟨a, -, hna, hs⟩
    exact ⟨((hnear a).mp hna).2, hs⟩
  · rintro ⟨hr, hs⟩
    exact ⟨context, .context he, (hnear context).mpr ⟨rfl, hr⟩, hs⟩

/-- Where one attached element alone suits the first compound, the chain starts from it. -/
theorem matchesNearest_dropHead (h : t.Linked) {e : NodeId} (ha : t.Above root e)
    (he : (t.setting config).suits simples e = true)
    (unique : ∀ a, t.Above root a → (t.setting config).suits simples a = true → a = e)
    (hn : t.Above root n) :
    t.MatchesNearest config root ⟨some simples, link :: links⟩ n ↔
      t.MatchesNearest config e (Chain.dropHead ⟨some simples, link :: links⟩) n := by
  have start : ∀ n, t.Above root n → (t.MatchesNearest config root ⟨some simples, [link]⟩ n ↔
      t.Related link.combinator e n ∧ (t.setting config).suits link.simples n = true) := by
    intro n hn
    have hnear (a : NodeId) :
        t.Nearest (t.endsAt config root ⟨some simples, []⟩) link.combinator a n ↔
          a = e ∧ t.Related link.combinator e n :=
      nearest_unique he fun a hr hs => unique a (h.attached_left hr hn (isElement_of_suits hs)) hs
    rw [MatchesNearest, ← List.nil_append [link], Led.concat_iff]
    constructor
    · rintro ⟨a, -, hna, hs⟩
      exact ⟨((hnear a).mp hna).2, hs⟩
    · rintro ⟨hr, hs⟩
      exact ⟨e, .first ha he, (hnear e).mpr ⟨rfl, hr⟩, hs⟩
  rw [Chain.dropHead]
  by_cases hk : link.combinator = .descendant
  · simp only [hk, if_true]
    refine h.matchesNearest_append [link] [] (fun n hn => ?_) rfl hn
    rw [start n hn, hk]
    exact Led.first_iff.symm
  · simp only [hk, if_false]
    refine h.matchesNearest_append [link] [link] (fun n hn => ?_) rfl hn
    rw [start n hn, matchesNearest_context (isElement_of_suits he)]

theorem attached_scope (h : t.Linked) (hc : t.IsContext context) (chain : Chain (Query NodeId)) :
    t.Attached ((t.setting config).scope chain context) := by
  unfold Setting.scope
  split
  · split
    · change t.Attached ((t.parent context).getD context)
      cases hp : t.parent context with
      | none => exact hc.attached
      | some p =>
        rcases hc with rfl | hc
        · rw [h.root_top] at hp
          cases hp
        · obtain ⟨q, hq, hr⟩ := above_iff.mp hc.2
          obtain rfl := Option.some.inj (hp.symm.trans hq)
          exact hr.imp_left Eq.symm
    · exact hc.attached
  · exact hc.attached

theorem evaluateWithin_eq (h : t.Linked) (ids : t.UniqueIds)
    (classless : config.classLookup = false)
    (star : chain.All (· ≠ .tag "*")) (hl : chain.All (Simple.Local t.view))
    (hc : t.IsContext context)
    {last : List (Simple (Query NodeId))} (hlast : chain.last? = some last) {m : Marks NodeId}
    (hm : m.Sound t.outline) :
    ((t.setting config).evaluateWithin chain context none m).1 =
        ((t.descendants ((t.setting config).scope chain context)).filter
          ((t.setting config).suits last)).filter ((t.setting config).holds chain context) ∧
      ((t.setting config).evaluateWithin chain context none m).2.Sound t.outline := by
  obtain ⟨hw, hms⟩ := Setting.evaluateWithin_search (h.regular config) hm hl hlast context
  refine ⟨?_, hms⟩
  rw [hw, h.find_eq ids (.inl classless) (fun _ => h.attached_scope hc chain)
    (fun hs => star.of_last hlast _ hs rfl) (hl.of_last hlast) hm]

section Answer

variable {m : Marks NodeId}

theorem suits_holds_iff (h : t.Linked) (hc : t.IsContext context)
    {last : List (Simple (Query NodeId))} (hlast : chain.last? = some last)
    (hscope : t.Above ((t.setting config).scope chain context) n) :
    (t.setting config).suits last n = true ∧ (t.setting config).holds chain context n = true ↔
      t.MatchesNearest config context chain n := by
  have hs : chain.last?.isSome = true := by rw [hlast]; rfl
  have hn := (h.attached_scope hc chain).above hscope
  have hends (n : NodeId) : t.endsAt config context chain n = (t.setting config).suits last n := by
    rw [endsAt, hlast]
  rw [← hends, Setting.holds]
  obtain ⟨head, links⟩ := chain
  cases links with
  | nil =>
    obtain rfl : head = some last := hlast
    rw [MatchesNearest, Led.first_iff]
    exact ⟨fun hx => ⟨hscope, hx.1⟩, fun hx => ⟨hx.2, rfl⟩⟩
  | cons link links =>
    rw [List.isEmpty_cons, Bool.false_or]
    constructor
    · rintro ⟨he, ha⟩
      exact (h.accepts_traceAll hc hn he hs).mp ha
    · intro hm
      exact ⟨hm.endsAt, (h.accepts_traceAll hc hn hm.endsAt hs).mpr hm⟩

theorem answers_within (h : t.Linked) (ids : t.UniqueIds) (classless : config.classLookup = false)
    (star : chain.All (· ≠ .tag "*")) (hl : chain.All (Simple.Local t.view))
    (hc : t.IsContext context) (hs : chain.last?.isSome = true) (hm : m.Sound t.outline) :
    t.Answers config context chain ((t.setting config).evaluateWithin chain context none m) := by
  obtain ⟨last, hlast⟩ := Option.isSome_iff_exists.mp hs
  obtain ⟨hw, hms⟩ := h.evaluateWithin_eq ids classless star hl hc hlast hm
  refine ⟨fun n => ?_, ?_, hms⟩
  · rw [hw, List.mem_filter, List.mem_filter, h.mem_descendants, and_assoc]
    exact and_congr_right fun hscope => h.suits_holds_iff hc hlast hscope
  · rw [hw]
    exact ((h.pairwise_descendants _).filter _).filter _

theorem unique_suits (ids : t.UniqueIds) (html : t.isXml = false)
    {first : List (Simple (Query NodeId))} (hid : first.any (·.id?.isSome) = true)
    (ha : t.Above root a) (hb : t.Above root b) (hsa : (t.setting config).suits first a = true)
    (hsb : (t.setting config).suits first b = true) : a = b := by
  obtain ⟨simple, hmem, hs⟩ := List.any_eq_true.mp hid
  obtain ⟨id, rfl⟩ : ∃ id, simple = .id id := by
    cases simple with
    | id name => exact ⟨name, rfl⟩
    | _ => cases hs
  have attr {n : NodeId} (hn : (t.setting config).suits first n = true) :
      t.attr n "id" = some id := by
    have hall := List.all_eq_true.mp (Bool.and_eq_true_iff.mp hn).2 _ hmem
    rw [satisfies_id] at hall
    exact beq_iff_eq.mp hall
  exact ids html a b id ha hb (attr hsa) (attr hsb)

variable {link : Link (Query NodeId)} {e : NodeId}

theorem scope_dropHead (sibling : link.combinator.isSibling = false) (e : NodeId) :
    (t.setting config).scope (Chain.dropHead ⟨some simples, link :: links⟩) e = e := by
  rw [Chain.dropHead]
  by_cases hk : link.combinator = .descendant
  · simp only [hk, if_true]
    rfl
  · simp only [hk, if_false]
    cases links with
    | nil => simp [Setting.scope, sibling]
    | cons => rfl

theorem above_of_dropHead (h : t.Linked) (sibling : link.combinator.isSibling = false)
    (he : t.isElement e = true)
    (hm : t.MatchesNearest config e (Chain.dropHead ⟨some simples, link :: links⟩) n) :
    t.Above e n := by
  rw [Chain.dropHead] at hm
  by_cases hk : link.combinator = .descendant
  · simp only [hk, if_true] at hm
    exact h.above_of_matches hm.matches rfl
  · simp only [hk, if_false] at hm
    induction links using List.reverseRecOn generalizing n with
    | nil => exact above_of_inward sibling ((matchesNearest_context he).mp hm).1
    | append_singleton links last ih =>
      rw [← List.cons_append, MatchesNearest, Led.concat_iff] at hm
      obtain ⟨a, ha, hna, -⟩ := hm
      exact h.above_of_related hna.related (ih ha)

theorem exists_first {step : (NodeId → Bool) → Combinator → NodeId → NodeId → Prop}
    (hm : t.Led config step context chain n) {simples : List (Simple (Query NodeId))}
    (hh : chain.head = some simples) :
    ∃ a, t.Above context a ∧ (t.setting config).suits simples a = true := by
  induction hm with
  | first ha hs => exact ⟨_, ha, Option.some.inj hh ▸ hs⟩
  | context => cases hh
  | link _ _ _ ih => exact ih hh

theorem answers_narrowed (h : t.Linked) (ids : t.UniqueIds) (classless : config.classLookup = false)
    (star : chain.All (· ≠ .tag "*")) (hl : chain.All (Simple.Local t.view))
    (hc : t.IsContext context)
    (hn : (t.setting config).narrows chain context none = true) (hm : m.Sound t.outline) :
    t.Answers config context chain
      ((t.setting config).evaluateBackward chain context none m) := by
  obtain ⟨html, hdoc, first, link, links, rfl, hid, sibling⟩ := Setting.of_narrows hn
  obtain rfl : context = root := by
    refine hc.resolve_right fun ⟨he, _⟩ => ?_
    rw [isElement_of_isDocument hdoc] at he
    cases he
  have hfind := h.find_eq ids (.inl classless) (fun _ => hc.attached)
    (fun hs => star.of_head rfl _ hs rfl) (hl.of_head rfl) hm
  have hsound := (Setting.find_local (h.regular config) hm (hl.of_head rfl) root).2.sound
  have mem (a : NodeId) : a ∈ ((t.setting config).find first root m).1 ↔
      t.Above root a ∧ (t.setting config).suits first a = true := by
    rw [hfind, List.mem_filter, h.mem_descendants]
  rw [Setting.evaluateBackward, if_pos hn]
  simp only [Option.getD_some]
  cases hr : ((t.setting config).find first root m).1 with
  | nil =>
    rw [hr] at mem
    refine ⟨fun n => ⟨fun hn => (List.not_mem_nil hn).elim, fun ⟨_, hn⟩ => ?_⟩, .nil, hsound⟩
    obtain ⟨a, ha⟩ := exists_first hn rfl
    cases (mem a).mpr ha
  | cons e others =>
    rw [hr] at mem
    obtain ⟨ha, he⟩ := (mem e).mp List.mem_cons_self
    obtain ⟨hmem, hordered, hsound'⟩ := h.answers_within ids classless star.dropHead hl.dropHead
      (.inr ⟨isElement_of_suits he, ha⟩) Chain.isSome_last?_dropHead hsound
    refine ⟨fun n => (hmem n).trans ?_, hordered, hsound'⟩
    rw [scope_dropHead sibling]
    -- The id is that of `e` alone, so a first compound is only ever met there.
    have swap (hn : t.Above root n) :
        t.MatchesNearest config root ⟨some first, link :: links⟩ n ↔
          t.MatchesNearest config e (Chain.dropHead ⟨some first, link :: links⟩) n :=
      h.matchesNearest_dropHead ha he
        (fun a ha hs => unique_suits ids html hid ha ((mem e).mp List.mem_cons_self).1 hs he) hn
    constructor
    · rintro ⟨hen, hm⟩
      exact ⟨ha.trans hen, (swap (ha.trans hen)).mpr hm⟩
    · rintro ⟨hn, hm⟩
      exact ⟨h.above_of_dropHead sibling (isElement_of_suits he) ((swap hn).mp hm), (swap hn).mp hm⟩

/-- From right to left, a chain selects what it holds of by way of the nearest elements. -/
theorem answers_backward (h : t.Linked) (ids : t.UniqueIds) (classless : config.classLookup = false)
    (star : chain.All (· ≠ .tag "*")) (hl : chain.All (Simple.Local t.view))
    (hc : t.IsContext context) (hs : chain.last?.isSome = true) (hm : m.Sound t.outline) :
    t.Answers config context chain
      ((t.setting config).evaluateBackward chain context none m) := by
  by_cases hn : (t.setting config).narrows chain context none = true
  · exact h.answers_narrowed ids classless star hl hc hn hm
  · have he : (t.setting config).evaluateBackward chain context none m =
        (t.setting config).evaluateWithin chain context none m := if_neg hn
    rw [he]
    exact h.answers_within ids classless star hl hc hs hm

end Answer

end Linked
end Tree
end SelectorEngine
