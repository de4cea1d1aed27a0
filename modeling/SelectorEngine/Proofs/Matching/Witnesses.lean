import Mathlib.Data.List.Chain
import SelectorEngine.Proofs.Matching.Nearest

/-! # Witnesses of a chain

A chain holds of an element with one element for each compound on the left, related as the
combinators say. Taking the nearest such element each time finds a witness, and for some sequences
of combinators it finds one whenever there is one. -/
namespace SelectorEngine

namespace Tree

def endsAt (t : Tree) (config : Config) (context : NodeId) (chain : Chain (Query NodeId))
    (n : NodeId) : Bool :=
  match chain.last? with
  | some simples => (t.setting config).suits simples n
  | none => t.isElement n && decide (n = context)

/-- The chain leads to a node, from an element below the context or, without a first compound, from
the context itself. In each step the combinator leads from one element to the next. -/
inductive Led (t : Tree) (config : Config)
    (step : (NodeId → Bool) → Combinator → NodeId → NodeId → Prop) (context : NodeId) :
    Chain (Query NodeId) → NodeId → Prop where
  | first {simples n} : t.Above context n → (t.setting config).suits simples n = true →
      Led t config step context ⟨some simples, []⟩ n
  | context : t.isElement context = true → Led t config step context ⟨none, []⟩ context
  | link {head links link a n} : Led t config step context ⟨head, links⟩ a →
      step (t.endsAt config context ⟨head, links⟩) link.combinator a n →
      (t.setting config).suits link.simples n = true →
      Led t config step context ⟨head, links ++ [link]⟩ n

def Matches (t : Tree) (config : Config) : NodeId → Chain (Query NodeId) → NodeId → Prop :=
  t.Led config fun _ => t.Related

/-- There are such elements, each of them the nearest one that suits its compound. -/
def MatchesNearest (t : Tree) (config : Config) : NodeId → Chain (Query NodeId) → NodeId → Prop :=
  t.Led config t.Nearest

variable {t : Tree} {config : Config} {a b c n context : NodeId} {combinator : Combinator}
  {head : Option (List (Simple (Query NodeId)))} {links : List (Link (Query NodeId))}
  {link : Link (Query NodeId)} {chain : Chain (Query NodeId)}
  {step : (NodeId → Bool) → Combinator → NodeId → NodeId → Prop}

theorem endsAt_concat : t.endsAt config context ⟨head, links ++ [link]⟩ n =
    (t.setting config).suits link.simples n := by
  rw [endsAt, Chain.last?_concat]

theorem endsAt_context : t.endsAt config context ⟨none, []⟩ n = true ↔
    t.isElement n = true ∧ n = context := by
  simp [endsAt, Chain.last?]

theorem isElement_of_suits {simples : List (Simple (Query NodeId))}
    (h : (t.setting config).suits simples n = true) : t.isElement n = true :=
  (Bool.and_eq_true_iff.mp h).1

theorem isElement_of_endsAt (h : t.endsAt config context chain n = true) :
    t.isElement n = true := by
  rw [endsAt] at h
  split at h
  · exact isElement_of_suits h
  · exact (Bool.and_eq_true_iff.mp h).1

namespace Led

theorem endsAt (h : t.Led config step context chain n) :
    t.endsAt config context chain n = true := by
  cases h with
  | first _ hs => exact hs
  | context he => exact endsAt_context.mpr ⟨he, rfl⟩
  | link _ _ hs => rw [endsAt_concat, hs]

theorem mono {step' : (NodeId → Bool) → Combinator → NodeId → NodeId → Prop}
    (le : ∀ P k a b, step P k a b → step' P k a b) (h : t.Led config step context chain n) :
    t.Led config step' context chain n := by
  induction h with
  | first ha hs => exact .first ha hs
  | context he => exact .context he
  | link _ hr hs ih => exact .link ih (le _ _ _ _ hr) hs

theorem concat_iff : t.Led config step context ⟨head, links ++ [link]⟩ n ↔
    ∃ a, t.Led config step context ⟨head, links⟩ a ∧
      step (t.endsAt config context ⟨head, links⟩) link.combinator a n ∧
      (t.setting config).suits link.simples n = true := by
  constructor
  · generalize hc : (⟨head, links ++ [link]⟩ : Chain (Query NodeId)) = chain
    intro h
    cases h with
    | first => simp at hc
    | context => simp at hc
    | link hm hr hs =>
      obtain ⟨rfl, hl⟩ := Chain.mk.inj hc
      obtain ⟨rfl, hlast⟩ := List.append_inj' hl rfl
      obtain rfl := List.singleton_inj.mp hlast
      exact ⟨_, hm, hr, hs⟩
  · rintro ⟨a, hm, hr, hs⟩
    exact .link hm hr hs

theorem first_iff {simples : List (Simple (Query NodeId))} :
    t.Led config step context ⟨some simples, []⟩ n ↔
      t.Above context n ∧ (t.setting config).suits simples n = true := by
  constructor
  · generalize hc : (⟨some simples, []⟩ : Chain (Query NodeId)) = chain
    intro h
    cases h with
    | first ha hs =>
      cases hc
      exact ⟨ha, hs⟩
    | context => simp at hc
    | link => simp at hc
  · exact fun ⟨ha, hs⟩ => .first ha hs

theorem context_iff : t.Led config step context ⟨none, []⟩ n ↔
    t.isElement n = true ∧ n = context := by
  constructor
  · generalize hc : (⟨none, []⟩ : Chain (Query NodeId)) = chain
    intro h
    cases h with
    | first => simp at hc
    | context he => exact ⟨he, rfl⟩
    | link => simp at hc
  · rintro ⟨he, rfl⟩
    exact .context he

end Led

theorem MatchesNearest.matches (h : t.MatchesNearest config context chain n) :
    t.Matches config context chain n :=
  Led.mono (fun _ _ _ _ hn => hn.related) h

theorem Linked.above_of_matches (h : t.Linked) (hm : t.Matches config context chain n)
    (hh : chain.head.isSome = true) : t.Above context n := by
  induction hm with
  | first ha => exact ha
  | context => cases hh
  | link _ hr _ ih => exact h.above_of_related hr (ih hh)

end Tree

/-- The node that `right` leads to nearest serves `left` if any node does: before a descendant
combinator stands another one, and before a general combinator no adjacent one. -/
def Combinator.Steady (left right : Combinator) : Prop :=
  (right = .descendant → left = .descendant) ∧ (right = .general → left ≠ .adjacent)

instance (left right : Combinator) : Decidable (left.Steady right) :=
  inferInstanceAs (Decidable (_ ∧ _))

def Chain.Steady {A : Type} (chain : Chain A) : Prop :=
  chain.links.IsChain fun left right => left.combinator.Steady right.combinator

theorem pair_sublist_trans {α : Type} {a b c : α} {l : List α} (hd : l.Nodup)
    (hab : [a, b].Sublist l) (hbc : [b, c].Sublist l) : [a, c].Sublist l := by
  obtain ⟨x, y, z, rfl⟩ := pair_sublist_iff.mp hab
  obtain ⟨u, v, w, hs⟩ := pair_sublist_iff.mp hbc
  rw [List.nodup_middle, List.nodup_cons, List.mem_append, not_or] at hd
  have hs' : (x ++ a :: y) ++ b :: z = u ++ b :: (v ++ c :: w) := by rw [hs]; simp
  obtain ⟨-, -, rfl⟩ := (List.append_cons_inj_of_notMem hd.1.1 hd.1.2).mp hs'
  exact pair_sublist_iff.mpr ⟨x, y ++ b :: v, w, by simp⟩

namespace Tree

variable {t : Tree} {config : Config} {a b c n x context : NodeId} {left right : Combinator}
  {head : Option (List (Simple (Query NodeId)))} {links : List (Link (Query NodeId))}
  {link : Link (Query NodeId)} {chain : Chain (Query NodeId)}

namespace Linked

theorem related_trans (h : t.Linked) (steady : left.Steady right)
    (hr : right = .descendant ∨ right = .general) (hx : t.Related left x a)
    (ha : t.Related right a b) : t.Related left x b := by
  rcases hr with rfl | rfl
  · obtain rfl := steady.1 rfl
    exact Above.trans hx ha
  · have hp := h.parent_general ha
    cases left with
    | descendant => exact Above.of_parent_eq hx hp
    | child => exact hp.symm.trans hx
    | adjacent => exact (steady.2 rfl rfl).elim
    | general =>
      obtain ⟨p, hxa⟩ := hx
      obtain ⟨q, hab⟩ := ha
      obtain rfl := h.children_unique (hxa.subset (by simp)) (hab.subset List.mem_cons_self)
      exact ⟨p, pair_sublist_trans (h.nodup p) hxa hab⟩

/-- A chain that holds of a node holds of a nearer one that suits its last compound. -/
theorem matches_nearer (h : t.Linked) (hr : right = .descendant ∨ right = .general)
    (steady : ∀ l, links.getLast? = some l → l.combinator.Steady right)
    (hm : t.Matches config context ⟨head, links⟩ a)
    (ha : t.Related right a b) (he : t.endsAt config context ⟨head, links⟩ b = true) :
    t.Matches config context ⟨head, links⟩ b := by
  induction links using List.reverseRecOn with
  | nil =>
    cases head with
    | some simples => exact .first (h.above_of_related ha (Led.first_iff.mp hm).1) he
    | none => exact Led.context_iff.mpr (endsAt_context.mp he)
  | append_singleton links link ih =>
    obtain ⟨x, hx, hxa, -⟩ := Led.concat_iff.mp hm
    rw [endsAt_concat] at he
    exact .link hx (h.related_trans (steady link List.getLast?_concat) hr hxa ha) he

theorem related_unique (h : t.Linked) (hr : right = .child ∨ right = .adjacent)
    (hn : t.isElement n = true) (ha : t.Related right a n) (hb : t.Related right b n) : a = b := by
  rcases hr with rfl | rfl
  · exact Option.some.inj (ha.symm.trans hb)
  · rw [← h.previousElement_eq hn] at ha hb
    exact Option.some.inj (ha.symm.trans hb)

theorem exists_nearest (h : t.Linked) {P : NodeId → Bool}
    (element : ∀ n, P n = true → t.isElement n = true) (hn : t.isElement n = true)
    (hP : P a = true) (hr : t.Related right a n) : ∃ b, t.Nearest P right b n := by
  have hm : a ∈ (t.setting {}).leftward right n :=
    (h.mem_leftward fun _ => hn).mpr ⟨element a hP, hr⟩
  obtain ⟨b, hb⟩ := Option.isSome_iff_exists.mp (List.find?_isSome.mpr ⟨a, hm, hP⟩)
  exact ⟨b, (h.find?_leftward element fun _ => hn).mp hb⟩

theorem matchesNearest_of_matches (h : t.Linked) (steady : chain.Steady)
    (hm : t.Matches config context chain n) : t.MatchesNearest config context chain n := by
  obtain ⟨head, links⟩ := chain
  induction links using List.reverseRecOn generalizing n with
  | nil =>
    cases head with
    | some simples => exact Led.first_iff.mpr (Led.first_iff.mp hm)
    | none => exact Led.context_iff.mpr (Led.context_iff.mp hm)
  | append_singleton links link ih =>
    obtain ⟨a, ha, hr, hs⟩ := Led.concat_iff.mp hm
    obtain ⟨b, hb⟩ := h.exists_nearest (fun _ => isElement_of_endsAt) (isElement_of_suits hs)
      ha.endsAt hr
    obtain ⟨steady, -, last⟩ := List.isChain_append.mp steady
    suffices hmb : t.Matches config context ⟨head, links⟩ b from .link (ih steady hmb) hb hs
    rcases hb.nearest a ha.endsAt hr with rfl | hab
    · exact ha
    · have far (hk : link.combinator = .descendant ∨ link.combinator = .general) :
          t.Matches config context ⟨head, links⟩ b :=
        h.matches_nearer hk (fun l hl => last l hl link rfl) ha hab hb.holds
      have near (hk : link.combinator = .child ∨ link.combinator = .adjacent) :
          t.Matches config context ⟨head, links⟩ b :=
        h.related_unique hk (isElement_of_suits hs) hr hb.related ▸ ha
      cases hk : link.combinator with
      | descendant => exact far (.inl hk)
      | child => exact near (.inl hk)
      | adjacent => exact near (.inr hk)
      | general => exact far (.inr hk)

end Linked
end Tree
end SelectorEngine
