import SelectorEngine.Matching.Backward
import SelectorEngine.Proofs.Matching.Candidates
import SelectorEngine.Proofs.Matching.Trails
import SelectorEngine.Proofs.Selector.Chains

/-! # Chains without marks

A chain whose simple selectors look at one candidate at a time says yes or no about a node, whatever
else is evaluated with it and in which order. -/
namespace SelectorEngine

variable {N : Type} [DecidableEq N]

namespace Setting

def target (context : N) : Option (List (Simple (Query N))) → Target N
  | some simples => .block simples
  | none => .context context

def traceAll (s : Setting N) (context : N) :
    List (Combinator × Option (List (Simple (Query N)))) → Trail N → Trail N
  | [], trail => trail
  | (combinator, left) :: rest, trail =>
    s.traceAll context rest (s.trace combinator (target context left) trail)

/-- Whether what stands on the left of the last compound holds of a node. -/
def holds (s : Setting N) (chain : Chain (Query N)) (context n : N) : Bool :=
  chain.links.isEmpty || s.accepts context (s.traceAll context chain.leftwards (.reached n))

def chooses (s : Setting N) (chain : Chain (Query N)) (context n : N) : Bool :=
  chain.last?.any fun last => s.admits last n && s.holds chain context n

variable {s : Setting N} {m : Marks N} {chain : Chain (Query N)}

theorem relateAll_eq (reg : s.Regular) (hm : m.Sound s.view.toOutline) (context : N)
    {steps : List (Combinator × Option (List (Simple (Query N))))}
    (hl : ∀ k simples, (k, some simples) ∈ steps → ∀ simple ∈ simples, simple.Local s.view)
    (trails : List (Trail N)) :
    (s.relateAll context steps trails m).1 = trails.map (s.traceAll context steps) ∧
      (s.relateAll context steps trails m).2.Sound s.view.toOutline := by
  induction steps generalizing trails m with
  | nil => exact ⟨(List.map_id' trails).symm, hm⟩
  | cons step steps ih =>
    obtain ⟨combinator, left⟩ := step
    have hlocal : (target context left).Local s.view := by
      cases left with
      | none => trivial
      | some simples => exact hl combinator simples List.mem_cons_self
    obtain ⟨ht, hm'⟩ := relate_eq reg hm hlocal combinator trails
    obtain ⟨hts, hms⟩ := ih hm' (fun k simples hk => hl k simples (List.mem_cons_of_mem _ hk))
      (s.relate combinator (target context left) trails m).1
    refine ⟨hts.trans ?_, hms⟩
    rw [ht, List.map_map]
    rfl

/-- The nodes found for the last compound of which the rest of the chain holds. -/
def follow (s : Setting N) (chain : Chain (Query N)) (context : N) (found : List N × Marks N) :
    List N × Marks N :=
  if chain.links.isEmpty then found
  else
    let (trails, marks) := s.relateAll context chain.leftwards (found.1.map .reached) found.2
    (keep found.1 (trails.map (s.accepts context)), marks)

theorem follow_eq (reg : s.Regular) (hl : chain.All (Simple.Local s.view)) (context : N)
    {found : List N × Marks N} (hm : found.2.Sound s.view.toOutline) :
    (s.follow chain context found).1 = found.1.filter (s.holds chain context) ∧
      (s.follow chain context found).2.Sound s.view.toOutline := by
  rw [follow]
  cases he : chain.links.isEmpty with
  | true =>
    have hall : s.holds chain context = fun _ => true := by
      funext n
      rw [holds, he, Bool.true_or]
    rw [if_pos rfl, hall, List.filter_true]
    exact ⟨rfl, hm⟩
  | false =>
    obtain ⟨ht, hms⟩ := relateAll_eq reg hm context hl.leftwards (found.1.map .reached)
    have hh : s.holds chain context =
        fun n => s.accepts context (s.traceAll context chain.leftwards (.reached n)) := by
      funext n
      rw [holds, he, Bool.false_or]
    rw [if_neg Bool.false_ne_true]
    refine ⟨?_, hms⟩
    simp only [ht, List.map_map]
    rw [hh, ← keep_map]
    rfl

theorem evaluateWithin_seed (reg : s.Regular) (hm : m.Sound s.view.toOutline)
    (hl : chain.All (Simple.Local s.view)) (context : N) (seed : List N) :
    (s.evaluateWithin chain context (some seed) m).1 = seed.filter (s.chooses chain context) ∧
      (s.evaluateWithin chain context (some seed) m).2.Sound s.view.toOutline := by
  cases hlast : chain.last? with
  | none =>
    have hc : s.chooses chain context = fun _ => false := by
      funext n
      rw [chooses, hlast]
      rfl
    rw [evaluateWithin, hlast, hc, List.filter_false]
    exact ⟨rfl, hm⟩
  | some last =>
    have he : s.evaluateWithin chain context (some seed) m =
        s.follow chain context (s.filter last seed m) := by
      rw [evaluateWithin, hlast]
      rfl
    obtain ⟨hk, hf⟩ := filter_local reg hm (hl.of_last hlast) seed
    obtain ⟨hw, hms⟩ := follow_eq reg hl context hf.sound
    rw [he]
    refine ⟨?_, hms⟩
    rw [hw, hk, List.filter_filter]
    refine List.filter_congr fun n _ => ?_
    rw [chooses, hlast, Option.any_some, Bool.and_comm]

theorem find_local (reg : s.Regular) (hm : m.Sound s.view.toOutline)
    {simples : List (Simple (Query N))} (hl : ∀ simple ∈ simples, simple.Local s.view) (scope : N) :
    (s.find simples scope m).1 = (s.candidates simples scope).nodes.filter
        (s.admits (s.candidates simples scope).remaining) ∧
      m.Follows s.view.toOutline (s.find simples scope m).2 :=
  filter_local reg hm (fun simple hs => hl simple (candidates_remaining hs)) _

theorem evaluateWithin_search (reg : s.Regular) (hm : m.Sound s.view.toOutline)
    (hl : chain.All (Simple.Local s.view)) {last : List (Simple (Query N))}
    (hlast : chain.last? = some last) (context : N) :
    (s.evaluateWithin chain context none m).1 =
        (s.find last (s.scope chain context) m).1.filter (s.holds chain context) ∧
      (s.evaluateWithin chain context none m).2.Sound s.view.toOutline := by
  have he : s.evaluateWithin chain context none m =
      s.follow chain context (s.find last (s.scope chain context) m) := by
    rw [evaluateWithin, hlast]
    rfl
  rw [he]
  exact follow_eq reg hl context (find_local reg hm (hl.of_last hlast) _).2.sound

theorem evaluateBackward_seed (reg : s.Regular) (hm : m.Sound s.view.toOutline)
    (hl : chain.All (Simple.Local s.view)) (context : N) (seed : List N) :
    (s.evaluateBackward chain context (some seed) m).1 = seed.filter (s.chooses chain context) ∧
      (s.evaluateBackward chain context (some seed) m).2.Sound s.view.toOutline :=
  evaluateWithin_seed reg hm hl context seed

end Setting
end SelectorEngine
