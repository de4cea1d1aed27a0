import SelectorEngine.Matching.Relation
import SelectorEngine.Proofs.Matching.Verdicts

/-! # Trails without marks

Following a combinator moves each trail to the nearest node on the left that fits. The stamps of a
walk only cut it short at a node from which an earlier walk has gone on to the same end. -/
namespace SelectorEngine

variable {N : Type} [DecidableEq N]

namespace Setting

/-- The elements that a combinator relates to a node, the nearest one first. -/
def leftward (s : Setting N) (combinator : Combinator) (n : N) : List N :=
  match combinator with
  | .descendant => (s.view.ancestors n).filter s.view.isElement
  | .child => ((s.view.parent n).filter s.view.isElement).toList
  | .adjacent => ((s.view.previousElement n).filter s.view.isElement).toList
  | .general => (s.view.earlierSiblings n).filter s.view.isElement

def fits (s : Setting N) (target : Target N) (n : N) : Bool :=
  match target with
  | .block simples => s.admits simples n
  | .context node => n = node

def arrival (target : Target N) (n : N) : Trail N :=
  match target with
  | .block _ => .reached n
  | .context _ => .home

def firstFit (s : Setting N) (target : Target N) (path : List N) : Trail N :=
  match (path.filter s.view.isElement).find? (s.fits target) with
  | some n => arrival target n
  | none => .lost

def trace (s : Setting N) (combinator : Combinator) (target : Target N) : Trail N → Trail N
  | .reached n => s.firstFit target (s.leftward combinator n)
  | trail => trail

end Setting

def Target.Local (view : TreeView N) : Target N → Prop
  | .block simples => ∀ simple ∈ simples, simple.Local view
  | .context _ => True

namespace Setting

variable {s : Setting N} {m : Marks N} {target : Target N}

omit [DecidableEq N] in
theorem wordTag?_eq_some {simples : List (Simple (Query N))} {name : String}
    (h : wordTag? simples = some name) : simples = [.tag name] := by
  unfold wordTag? at h
  split at h
  · split at h
    · rw [Option.some.inj h]
    · cases h
  · cases h

theorem admits_tag (name : String) (n : N) : s.admits [.tag name] n = s.tagMatches n name := by
  cases he : s.view.isElement n <;> simp [admits, satisfies, passes, tagMatches, he]

theorem firstFit_nil (target : Target N) : s.firstFit target [] = .lost := rfl

theorem firstFit_singleton (target : Target N) {n : N} (he : s.view.isElement n = true) :
    s.firstFit target [n] = if s.fits target n then arrival target n else .lost := by
  cases hf : s.fits target n <;> simp [firstFit, he, hf]

def stepped (s : Setting N) (target : Target N) (step : N → Option N) : Trail N → Trail N
  | .reached n => s.firstFit target ((step n).filter s.view.isElement).toList
  | trail => trail

theorem stepped_reached (target : Target N) (step : N → Option N) (n : N) :
    s.stepped target step (.reached n) =
      match (step n).filter s.view.isElement with
      | none => .lost
      | some related => if s.fits target related then arrival target related else .lost := by
  rw [stepped]
  cases hr : (step n).filter s.view.isElement with
  | none => exact firstFit_nil target
  | some related => exact firstFit_singleton target (Option.filter_eq_some_iff.mp hr).2

theorem stepTrail_context (node : N) (step : N → Option N) (trail : Trail N) :
    s.stepTrail (.context node) step trail = s.stepped (.context node) step trail := by
  cases trail with
  | reached n =>
    rw [stepped_reached]
    cases hr : (step n).filter s.view.isElement with
    | none => simp only [stepTrail, hr]
    | some related => simp only [stepTrail, hr, fits, arrival, decide_eq_true_eq]
  | _ => rfl

theorem stepTrail_word {simples : List (Simple (Query N))} {name : String}
    (hw : wordTag? simples = some name) (step : N → Option N) (trail : Trail N) :
    s.stepTrail (.block simples) step trail = s.stepped (.block simples) step trail := by
  cases trail with
  | reached n =>
    rw [stepped_reached]
    cases hr : (step n).filter s.view.isElement with
    | none => simp only [stepTrail, hr]
    | some related =>
      have tag : s.fits (.block simples) related = s.tagMatches related name := by
        rw [fits, wordTag?_eq_some hw, admits_tag]
      simp only [stepTrail, hr, hw, tag, arrival]
  | _ => rfl

theorem checked_stepTrail {simples : List (Simple (Query N))} (hw : wordTag? simples = none)
    (step : N → Option N) (trail : Trail N) :
    s.checked simples (s.stepTrail (.block simples) step trail) =
      s.stepped (.block simples) step trail := by
  cases trail with
  | reached n =>
    rw [stepped_reached]
    cases hr : (step n).filter s.view.isElement with
    | none => simp only [stepTrail, hr, checked]
    | some related =>
      simp only [stepTrail, hr, hw, checked, fits, arrival]
      rfl
  | _ => rfl

theorem relateNear_eq (reg : s.Regular) (hm : m.Sound s.view.toOutline)
    (hl : target.Local s.view) (step : N → Option N) (trails : List (Trail N)) :
    (s.relateNear target step trails m).1 = trails.map (s.stepped target step) ∧
      m.Follows s.view.toOutline (s.relateNear target step trails m).2 := by
  cases target with
  | context node =>
    exact ⟨List.map_congr_left fun trail _ => stepTrail_context node step trail, .refl hm⟩
  | block simples =>
    cases hw : wordTag? simples with
    | some name =>
      simp only [relateNear, hw, Option.isSome_some, if_true]
      exact ⟨List.map_congr_left fun trail _ => stepTrail_word hw step trail, .refl hm⟩
    | none =>
      obtain ⟨hc, hf⟩ :=
        filterTrails_local reg hm hl (trails.map (s.stepTrail (.block simples) step))
      simp only [relateNear, hw, Option.isSome_none, Bool.false_eq_true, if_false]
      refine ⟨?_, hf⟩
      rw [hc, List.map_map]
      exact List.map_congr_left fun trail _ => checked_stepTrail hw step trail

theorem firstFit_cons (target : Target N) (n : N) (path : List N) :
    s.firstFit target (n :: path) =
      if s.view.isElement n && s.fits target n then arrival target n
      else s.firstFit target path := by
  cases he : s.view.isElement n <;> cases hf : s.fits target n <;> simp [firstFit, he, hf]

theorem meet_eq (reg : s.Regular) (hm : m.Sound s.view.toOutline) (hl : target.Local s.view)
    (n : N) :
    (s.meet target n m).1 = (if s.fits target n then some (arrival target n) else none) ∧
      m.Follows s.view.toOutline (s.meet target n m).2 := by
  cases target with
  | context node => exact ⟨by simp [meet, fits, arrival], .refl hm⟩
  | block simples =>
    cases hw : wordTag? simples with
    | some name =>
      have ht : s.admits simples n = s.tagMatches n name := by
        rw [wordTag?_eq_some hw, admits_tag]
      simp only [meet, hw, fits, arrival, ht]
      exact ⟨trivial, .refl hm⟩
    | none =>
      obtain ⟨hk, hf⟩ := filter_local reg hm hl [n]
      simp only [meet, hw, fits, arrival, hk]
      refine ⟨?_, hf⟩
      by_cases ha : s.admits simples n = true <;> simp [ha]

def route (s : Setting N) (step : N → Option N) (n : N) : List N := walk step s.view.bound (step n)

def Ends (s : Setting N) (step : N → Option N) : Prop :=
  ∀ n, (s.route step n).length < s.view.bound

variable {step : N → Option N}

omit [DecidableEq N] in
theorem route_step (ends : s.Ends step) {n p : N} (h : step n = some p) :
    s.route step n = p :: s.route step p :=
  walk_step (ends n) h (ends p)

omit [DecidableEq N] in
theorem route_tail (ends : s.Ends step) {n p : N} {path : List N}
    (h : s.route step n = p :: path) : path = s.route step p := by
  cases hs : step n with
  | none => simp [route, hs] at h
  | some q =>
    rw [route_step ends hs, List.cons.injEq] at h
    rw [← h.1, h.2]

omit [DecidableEq N] in
theorem route_nodup (ends : s.Ends step) (n : N) : (s.route step n).Nodup := by
  have shrinks : (s.route step n).Pairwise fun a b =>
      (s.route step b).length < (s.route step a).length :=
    walk_pairwise _ fun a b h => by
      rw [route_step ends h]
      exact Nat.lt_succ_self _
  refine shrinks.imp ?_
  rintro a b hlt rfl
  exact Nat.lt_irrefl _ hlt

omit [DecidableEq N] in
theorem walk_twice (ends : s.Ends step) (n : N) :
    walk step (2 * s.view.bound) (step n) = s.route step n :=
  walk_of_short (ends n) (by omega)

/-- Every stamp of a generation on these nodes names a trail that has gone on from there to the
first node that fits. -/
def Known (s : Setting N) (target : Target N) (step : N → Option N) (generation : Nat)
    (trails : List (Trail N)) (m : Marks N) (n : N) : Prop :=
  ∀ i, m.stamps.get? n = some (generation, i) →
    trails[i]? = some (s.firstFit target (n :: s.route step n))

/-- What a search along a path leaves in the marks: new stamps stand only where the search
passed. -/
structure Sought (s : Setting N) (target : Target N) (step : N → Option N)
    (generation candidate : Nat)
    (result : Trail N) (m m' : Marks N) : Prop where
  sound : m'.Sound s.view.toOutline
  generation_le : m.generation ≤ m'.generation
  stamps : ∀ n, m'.stamps.get? n = m.stamps.get? n ∨
    m'.stamps.get? n = some (generation, candidate) ∧
      s.firstFit target (n :: s.route step n) = result

theorem reachedBy?_eq_some {g i : Nat} {n : N} :
    m.reachedBy? g n = some i ↔ m.stamps.get? n = some (g, i) := by
  rw [Marks.reachedBy?]
  cases m.stamps.get? n with
  | none => simp
  | some stamp => by_cases h : stamp.1 = g <;> simp [h, Prod.ext_iff]

theorem sound_stamp (hm : m.Sound s.view.toOutline) {g : Nat} (hg : g ≤ m.generation) (i : Nat)
    (n : N) : (m.stamp g i n).Sound s.view.toOutline where
  stamped k g' i' hk := by
    rw [Marks.stamp, Table.get?_set] at hk
    split at hk
    · cases hk
      exact hg
    · exact hm.stamped k g' i' hk
  counted := hm.counted
  placed := hm.placed

theorem Sought.refl (hm : m.Sound s.view.toOutline) {g i : Nat} {result : Trail N} :
    s.Sought target step g i result m m :=
  ⟨hm, Nat.le_refl _, fun _ => .inl rfl⟩

theorem Sought.pass {g i : Nat} {result : Trail N} {m' m'' : Marks N} {n : N}
    (hf : Marks.Follows s.view.toOutline (m.stamp g i n) m')
    (hn : s.firstFit target (n :: s.route step n) = result)
    (h : s.Sought target step g i result m' m'') : s.Sought target step g i result m m'' where
  sound := h.sound
  generation_le := hf.generation.trans h.generation_le
  stamps k := by
    rcases h.stamps k with hk | hk
    · rw [hk, hf.stamps, Marks.stamp, Table.get?_set]
      by_cases he : n = k
      · subst he
        exact .inr ⟨if_pos rfl, hn⟩
      · exact .inl (if_neg he)
    · exact .inr hk

theorem Known.pass {g i : Nat} {trails : List (Trail N)} {m' : Marks N} {n k : N} (hne : n ≠ k)
    (hf : Marks.Follows s.view.toOutline (m.stamp g i n) m')
    (h : s.Known target step g trails m k) :
    s.Known target step g trails m' k := by
  intro j hj
  rw [hf.stamps, Marks.stamp, Table.get?_set, if_neg hne] at hj
  exact h j hj

theorem seek_eq (reg : s.Regular) (ends : s.Ends step) (hl : target.Local s.view) {g i : Nat}
    {trails : List (Trail N)} {path : List N} (hm : m.Sound s.view.toOutline)
    (hg : g ≤ m.generation) (tail : ∀ n rest, path = n :: rest → rest = s.route step n)
    (nodup : path.Nodup) (known : ∀ n ∈ path, s.Known target step g trails m n) :
    (s.seek target g i trails path m).1 = s.firstFit target path ∧
      s.Sought target step g i (s.firstFit target path) m (s.seek target g i trails path m).2 := by
  induction path generalizing m with
  | nil => exact ⟨rfl, .refl hm⟩
  | cons n path ih =>
    obtain ⟨hn, hd⟩ := List.nodup_cons.mp nodup
    obtain rfl := tail n path rfl
    have tail' : ∀ p rest, s.route step n = p :: rest → rest = s.route step p :=
      fun p rest hp => route_tail ends hp
    cases hr : m.reachedBy? g n with
    -- The stamp of another walk: what that one came to is what this one comes to.
    | some earlier =>
      have hk := known n List.mem_cons_self earlier (reachedBy?_eq_some.mp hr)
      simp only [seek, hr, hk, Option.getD_some]
      exact ⟨trivial, .refl hm⟩
    | none =>
      by_cases he : s.view.isElement n = true
      · obtain ⟨hv, hf⟩ := meet_eq reg (sound_stamp hm hg i n) hl n
        rw [seek, hr]
        simp only [he, if_true]
        cases hmeet : s.meet target n (m.stamp g i n) with
        | mk found m' =>
          rw [hmeet] at hv hf
          by_cases hfit : s.fits target n = true
          · have hfirst : s.firstFit target (n :: s.route step n) = arrival target n := by
              simp [firstFit_cons, he, hfit]
            obtain rfl : found = some (arrival target n) := by simpa [hfit] using hv
            rw [hfirst]
            exact ⟨rfl, .pass hf hfirst (.refl hf.sound)⟩
          · have hfirst : s.firstFit target (n :: s.route step n) =
                s.firstFit target (s.route step n) := by
              simp [firstFit_cons, hfit]
            -- The walk goes on. The stamp that it left at `n` is behind it, so what was known ahead
            -- still is.
            have known' : ∀ k ∈ s.route step n, s.Known target step g trails m' k := by
              intro k hk
              have hne : n ≠ k := fun e => hn (e ▸ hk)
              exact .pass hne hf (known k (List.mem_cons_of_mem _ hk))
            obtain ⟨hres, hs⟩ := ih hf.sound (hg.trans hf.generation) tail' hd known'
            obtain rfl : found = none := by simpa [hfit] using hv
            rw [hfirst]
            exact ⟨hres, .pass hf hfirst hs⟩
      · have hfirst : s.firstFit target (n :: s.route step n) =
            s.firstFit target (s.route step n) := by
          simp [firstFit_cons, he]
        simp only [seek, hr, he, Bool.false_eq_true, if_false, hfirst]
        exact ih hm hg tail' hd fun k hk => known k (List.mem_cons_of_mem _ hk)

def sent (s : Setting N) (target : Target N) (step : N → Option N) : Trail N → Trail N
  | .reached n => s.firstFit target (s.route step n)
  | trail => trail

/-- The first `k` trails are at their ends, and every stamp of the generation is one of theirs. -/
structure Halfway (s : Setting N) (target : Target N) (step : N → Option N) (generation : Nat)
    (trails : List (Trail N)) (k : Nat) (now : List (Trail N)) (m : Marks N) : Prop where
  length_eq : now.length = trails.length
  done : ∀ i, i < k → now[i]? = trails[i]?.map (s.sent target step)
  left : ∀ i, k ≤ i → now[i]? = trails[i]?
  sound : m.Sound s.view.toOutline
  generation_le : generation ≤ m.generation
  stamped_lt : ∀ n i, m.stamps.get? n = some (generation, i) → i < k
  known : ∀ n, s.Known target step generation now m n

theorem Halfway.seekFrom (reg : s.Regular) (ends : s.Ends step) (hl : target.Local s.view)
    {g k : Nat} {trails now : List (Trail N)} (hk : k < trails.length)
    (h : s.Halfway target step g trails k now m) :
    s.Halfway target step g trails (k + 1) (s.seekFrom target step g (now, m) k).1
      (s.seekFrom target step g (now, m) k).2 := by
  have hat : now[k]? = some trails[k] := by
    rw [h.left k (Nat.le_refl k), List.getElem?_eq_getElem hk]
  cases ht : trails[k] with
  | reached start =>
    obtain ⟨hres, hs⟩ := seek_eq (i := k) reg ends hl h.sound h.generation_le
      (fun p rest hp => route_tail ends hp) (route_nodup ends start) fun n _ => h.known n
    have hkn : k < now.length := h.length_eq ▸ hk
    simp only [Setting.seekFrom, hat, ht, walk_twice ends, hres]
    constructor
    · rw [List.length_set, h.length_eq]
    · intro i hi
      rw [List.getElem?_set]
      split
      · next he => subst he; simp [hk, ht, sent]
      · next he => exact h.done i (by omega)
    · intro i hi
      rw [List.getElem?_set_ne (by omega)]
      exact h.left i (by omega)
    · exact hs.sound
    · exact h.generation_le.trans hs.generation_le
    -- A stamp on `n` is older than this walk, or it was left by it and bears its number.
    · intro n i hi
      rcases hs.stamps n with hn | ⟨hn, _⟩
      · exact Nat.lt_succ_of_lt (h.stamped_lt n i (hn ▸ hi))
      · rw [hn] at hi
        cases hi
        exact Nat.lt_succ_self k
    · intro n i hi
      rcases hs.stamps n with hn | ⟨hn, hr⟩
      · have hlt := h.stamped_lt n i (hn ▸ hi)
        rw [List.getElem?_set_ne (by omega)]
        exact h.known n i (hn ▸ hi)
      · rw [hn] at hi
        cases hi
        rw [List.getElem?_set_self hkn, hr]
  | _ =>
    simp only [Setting.seekFrom, hat, ht]
    refine { h with done := fun i hi => ?_, left := fun i hi => h.left i (by omega),
                    stamped_lt := fun n i hi => Nat.lt_succ_of_lt (h.stamped_lt n i hi) }
    by_cases he : i = k
    · subst he
      simp [hat, hk, ht, sent]
    · exact h.done i (by omega)

theorem relateFar_eq (reg : s.Regular) (ends : s.Ends step) (hm : m.Sound s.view.toOutline)
    (hl : target.Local s.view) (trails : List (Trail N)) :
    (s.relateFar target step trails m).1 = trails.map (s.sent target step) ∧
      (s.relateFar target step trails m).2.Sound s.view.toOutline := by
  have start : s.Halfway target step m.advance.generation trails 0 trails m.advance := by
    refine ⟨rfl, fun i hi => absurd hi (Nat.not_lt_zero i), fun _ _ => rfl,
      (Marks.follows_advance hm).sound, Nat.le_refl _, ?_, ?_⟩ <;>
    · intro n i hi
      have := hm.stamped n _ i hi
      exact absurd this (Nat.not_succ_le_self _)
  have run (k : Nat) (hk : k ≤ trails.length) :
      let state :=
        (List.range k).foldl (s.seekFrom target step m.advance.generation) (trails, m.advance)
      s.Halfway target step m.advance.generation trails k state.1 state.2 := by
    induction k with
    | zero => exact start
    | succ k ih =>
      rw [List.range_succ, List.foldl_concat]
      exact (ih (Nat.le_of_succ_le hk)).seekFrom reg ends hl hk
  have h := run trails.length (Nat.le_refl _)
  refine ⟨List.ext_getElem? fun i => ?_, h.sound⟩
  by_cases hi : i < trails.length
  · rw [relateFar, List.getElem?_map]
    exact h.done i hi
  · rw [relateFar, List.getElem?_map, List.getElem?_eq_none (Nat.le_of_not_lt hi)]
    exact (h.left i (Nat.le_of_not_lt hi)).trans (List.getElem?_eq_none (Nat.le_of_not_lt hi))

theorem firstFit_filter (target : Target N) (path : List N) :
    s.firstFit target (path.filter s.view.isElement) = s.firstFit target path := by
  simp only [firstFit, List.filter_filter, Bool.and_self]

theorem sent_eq_trace (combinator : Combinator)
    (h : ∀ n, s.leftward combinator n = (s.route step n).filter s.view.isElement) :
    s.sent target step = s.trace combinator target := by
  funext trail
  cases trail with
  | reached n => rw [sent, trace, h, firstFit_filter]
  | _ => rfl

theorem relate_eq (reg : s.Regular) (hm : m.Sound s.view.toOutline) (hl : target.Local s.view)
    (combinator : Combinator) (trails : List (Trail N)) :
    (s.relate combinator target trails m).1 = trails.map (s.trace combinator target) ∧
      (s.relate combinator target trails m).2.Sound s.view.toOutline := by
  cases combinator with
  | adjacent =>
    obtain ⟨ht, hf⟩ := relateNear_eq reg hm hl s.view.previousElement trails
    refine ⟨ht.trans (List.map_congr_left fun trail _ => ?_), hf.sound⟩
    cases trail <;> rfl
  | child =>
    obtain ⟨ht, hf⟩ := relateNear_eq reg hm hl s.view.parent trails
    refine ⟨ht.trans (List.map_congr_left fun trail _ => ?_), hf.sound⟩
    cases trail <;> rfl
  | descendant =>
    rw [relate, ← sent_eq_trace .descendant fun _ => rfl]
    exact relateFar_eq reg reg.linked.ancestors_short hm hl trails
  | general =>
    rw [relate, ← sent_eq_trace .general fun _ => rfl]
    exact relateFar_eq reg reg.linked.earlier_short hm hl trails

end Setting
end SelectorEngine
