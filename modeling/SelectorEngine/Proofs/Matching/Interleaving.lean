import SelectorEngine.Proofs.Matching.Negation
import SelectorEngine.Proofs.Matching.Rewriting
import SelectorEngine.Proofs.Selector.Heads

/-! # Interleaving

Where the positional simple selectors stand among the others of their compound makes no difference.
A compound is as good as the one in which they stand last, in the order in which they are tested. -/
namespace SelectorEngine

open Setting (plainPart mem_evaluationOrder evaluationOrder_free)

section Order

variable {A : Type} {simples : List (Simple A)}

theorem filter_evaluationOrder (p : Simple A → Bool) (simples : List (Simple A)) :
    (evaluationOrder simples).filter p = evaluationOrder (simples.filter p) := by
  simp only [evaluationOrder, List.filter_append, List.filter_filter, Bool.and_comm]

theorem evaluationOrder_self (simples : List (Simple A)) :
    evaluationOrder (evaluationOrder simples) = evaluationOrder simples := by
  simp [evaluationOrder, List.filter_filter]

theorem any_evaluationOrder (p : Simple A → Bool) (simples : List (Simple A)) :
    (evaluationOrder simples).any p = simples.any p := by
  rw [Bool.eq_iff_iff, List.any_eq_true, List.any_eq_true]
  exact exists_congr fun simple => and_congr_left' (mem_evaluationOrder simples)

theorem all_evaluationOrder (p : Simple A → Bool) (simples : List (Simple A)) :
    (evaluationOrder simples).all p = simples.all p := by
  rw [Bool.eq_iff_iff, List.all_eq_true, List.all_eq_true]
  exact forall_congr' fun simple => imp_congr_left (mem_evaluationOrder simples)

theorem extract?_filter {B : Type} {use : Simple A → Option B} {p : Simple A → Bool}
    (useful : ∀ simple value, use simple = some value → p simple = true)
    (simples : List (Simple A)) :
    extract? use (simples.filter p) =
      (extract? use simples).map fun (value, others) => (value, others.filter p) := by
  induction simples with
  | nil => rfl
  | cons simple simples ih =>
    cases found : use simple with
    | some value =>
      rw [List.filter_cons_of_pos (useful simple value found), extract?, extract?, found]
      rfl
    | none =>
      rw [extract?, found]
      dsimp only
      rw [Option.map_map]
      cases kept : p simple with
      | true =>
        rw [List.filter_cons_of_pos kept, extract?, found, ih]
        dsimp only
        rw [Option.map_map]
        refine congrFun (congrArg _ (funext fun result => ?_)) _
        simp [kept]
      | false =>
        rw [List.filter_cons_of_neg (by simp [kept]), ih]
        refine congrFun (congrArg _ (funext fun result => ?_)) _
        simp [kept]

/-- No index finds anything by a position, so that the order does not change what is found and what
is left. -/
theorem extract?_evaluationOrder {use : Simple A → Option String} (hu : use ∈ indexUses)
    (simples : List (Simple A)) :
    extract? use (evaluationOrder simples) =
      (extract? use simples).map fun (value, others) => (value, evaluationOrder others) := by
  have useful : ∀ simple value, use simple = some value → (!simple.isPositional) = true := by
    intro simple value found
    cases simple with
    | position place => cases (indexUses_position hu place).symm.trans found
    | _ => rfl
  have idle : ∀ simple ∈ simples.filter (·.isPositional), use simple = none := by
    intro simple hs
    have positional := (List.mem_filter.mp hs).2
    cases simple with
    | position place => exact indexUses_position hu place
    | _ => cases positional
  rw [evaluationOrder, extract?_append idle, extract?_filter useful, Option.map_map]
  cases found : extract? use simples with
  | none => rfl
  | some result =>
    obtain ⟨value, others⟩ := result
    obtain ⟨before, simple, after, rfl, hs, rfl⟩ := extract?_eq_some found
    have plain : simple.isPositional = false := Bool.not_eq_true' _ ▸ useful simple value hs
    simp [evaluationOrder, plain]

end Order

section Shapes

variable {A : Type} {a b : List (Part A)}

/-- The same positional simple selectors in one order and the same others in one order. -/
def Interleaved (a b : List (Simple A)) : Prop :=
  a.filter (·.isPositional) = b.filter (·.isPositional) ∧
    a.filter (!·.isPositional) = b.filter (!·.isPositional)

inductive Part.Interleaved : Part A → Part A → Prop where
  | compound {block other : Compound A} : SelectorEngine.Interleaved block.simples other.simples →
      Interleaved (.compound block) (.compound other)
  | combinator (relation : Combinator) : Interleaved (.combinator relation) (.combinator relation)

def Complex.Interleaved (branch other : Complex A) : Prop :=
  List.Forall₂ Part.Interleaved branch.parts other.parts

theorem Interleaved.order {block other : List (Simple A)} (h : Interleaved block other) :
    evaluationOrder block = evaluationOrder other := by
  rw [evaluationOrder, evaluationOrder, h.1, h.2]

theorem Interleaved.link {block other : List (Simple A)} (h : Interleaved block other)
    (combinator : Combinator) :
    Link.rewrite evaluationOrder ⟨combinator, block⟩ =
      Link.rewrite evaluationOrder ⟨combinator, other⟩ := by
  rw [Link.rewrite, Link.rewrite, h.order]

theorem map_cons_rewrite (f : List (Simple A) → List (Simple A)) (link : Link A)
    (links : Option (List (Link A))) :
    (links.map (link :: ·)).map (List.map (Link.rewrite f)) =
      (links.map (List.map (Link.rewrite f))).map (link.rewrite f :: ·) := by
  cases links <;> rfl

theorem map_mk_rewrite (f : List (Simple A) → List (Simple A)) (head : Option (List (Simple A)))
    (links : Option (List (Link A))) :
    (links.map (Chain.mk head)).map (Chain.rewrite f) =
      (links.map (List.map (Link.rewrite f))).map (Chain.mk (head.map f)) := by
  cases links <;> rfl

theorem linksOf?_interleaved (h : List.Forall₂ Part.Interleaved a b) :
    (linksOf? a).map (List.map (Link.rewrite evaluationOrder)) =
      (linksOf? b).map (List.map (Link.rewrite evaluationOrder)) := by
  fun_induction linksOf? a generalizing b with
  | case1 =>
    cases h
    rfl
  | case2 block rest ih =>
    rcases h with _ | ⟨⟨mixed⟩, rest⟩
    rw [linksOf?, map_cons_rewrite, map_cons_rewrite, mixed.link, ih rest]
  | case3 relation block rest ih =>
    rcases h with _ | ⟨⟨-⟩, _ | ⟨⟨mixed⟩, rest⟩⟩
    rw [linksOf?, map_cons_rewrite, map_cons_rewrite, mixed.link, ih rest]
  | case4 relation rest bare =>
    rcases h with _ | ⟨⟨-⟩, _ | ⟨mixed | relation, rest⟩⟩
    · rfl
    · exact (bare _ _ rfl).elim
    · rfl

theorem Chain.ofParts?_interleaved (h : List.Forall₂ Part.Interleaved a b) :
    (ofParts? a).map (rewrite evaluationOrder) = (ofParts? b).map (rewrite evaluationOrder) := by
  have links := linksOf?_interleaved h
  rcases h with _ | ⟨⟨mixed⟩ | ⟨relation⟩, rest⟩
  · rfl
  · rw [ofParts?, ofParts?, map_mk_rewrite, map_mk_rewrite, linksOf?_interleaved rest,
      Option.map_some, Option.map_some, mixed.order]
  · change ((linksOf? (.combinator relation :: _)).map (Chain.mk none)).map _ =
      ((linksOf? (.combinator relation :: _)).map (Chain.mk none)).map _
    rw [map_mk_rewrite, map_mk_rewrite, links]

theorem Interleaved.map {B : Type} (f : A → B) {block other : List (Simple A)}
    (h : Interleaved block other) :
    Interleaved (block.map (Simple.map f)) (other.map (Simple.map f)) := by
  have positional : Simple.isPositional ∘ Simple.map f = Simple.isPositional :=
    funext (Simple.isPositional_map f)
  have others : (fun simple : Simple B => !simple.isPositional) ∘ Simple.map f =
      fun simple => !simple.isPositional :=
    funext fun simple => congrArg (!·) (simple.isPositional_map f)
  constructor
  · rw [List.filter_map, List.filter_map, positional]
    exact congrArg _ h.1
  · rw [List.filter_map, List.filter_map, others, h.2]

theorem Complex.Interleaved.map {B : Type} (f : A → B) {branch other : Complex A}
    (h : branch.Interleaved other) : (branch.map f).Interleaved (other.map f) := by
  refine List.forall₂_map_left_iff.mpr (List.forall₂_map_right_iff.mpr (h.imp ?_))
  rintro _ _ (mixed | relation)
  · exact .compound (mixed.map f)
  · exact .combinator relation

end Shapes

variable {N : Type}

namespace Setting

variable {s : Setting N} {simples : List (Simple (Query N))}

theorem plainPart_evaluationOrder (simples : List (Simple (Query N))) :
    plainPart (evaluationOrder simples) = plainPart simples := by
  have free : ∀ simple ∈ simples.filter (·.isPlain), simple.isPositional = false := by
    intro simple hs
    have plain := (List.mem_filter.mp hs).2
    cases simple with
    | position => cases plain
    | _ => rfl
  rw [plainPart, filter_evaluationOrder, evaluationOrder_free free]
  rfl

/-- Without a star or a tag in front, the tag to look up is a star. -/
theorem candidatesByTag_headless (headless : ∀ simple ∈ simples, simple.isHead = false)
    (scope : N) :
    s.candidatesByTag simples scope = ⟨s.view.elementsByTag scope "*", simples⟩ := by
  rcases simples with _ | ⟨simple, simples⟩
  · rfl
  · have first := headless simple List.mem_cons_self
    cases simple with
    | universal | tag => cases first
    | _ => rfl

theorem candidatesByTag_evaluationOrder (heads : ∀ simple ∈ simples.tail, simple.isHead = false)
    (scope : N) : s.candidatesByTag (evaluationOrder simples) scope =
      (s.candidatesByTag simples scope).leave evaluationOrder := by
  rcases simples with _ | ⟨simple, simples⟩
  · rfl
  · cases simple with
    | position place =>
      have headless : ∀ simple ∈ .position place :: simples, simple.isHead = false :=
        List.forall_mem_cons.mpr ⟨rfl, heads⟩
      rw [candidatesByTag_headless headless, candidatesByTag_headless fun simple hs =>
        headless simple ((mem_evaluationOrder _).mp hs)]
      rfl
    | _ => rfl

variable [DecidableEq N]

theorem alike_evaluationOrder (heads : ∀ simple ∈ simples.tail, simple.isHead = false) :
    s.Alike (evaluationOrder simples) simples where
  sift := by rw [evaluationOrder_self]
  search := by
    funext scope
    rw [search, search, candidates_leave (f := evaluationOrder)
      (fun use hu => extract?_evaluationOrder hu simples)
        (candidatesByTag_evaluationOrder heads scope)]
    exact congrArg (s.sift · _) (evaluationOrder_self _)
  admits := by
    funext n
    exact all_evaluationOrder _ simples
  named := any_evaluationOrder _ simples
  counts := any_evaluationOrder _ simples
  plain := plainPart_evaluationOrder simples
  rest := by rw [filter_evaluationOrder, evaluationOrder_self]

theorem answerBranch_interleaved {branch other : Complex (Query N)}
    (mixed : branch.Interleaved other)
    (heads : branch.Headed) (heads' : other.Headed) (context : N) (seed : Option (List N)) :
    s.answerBranch branch context seed = s.answerBranch other context seed := by
  rw [answerBranch_rewrite (fun simples hs => alike_evaluationOrder (heads simples hs)),
    answerBranch_rewrite (fun simples hs => alike_evaluationOrder (heads' simples hs)),
    Chain.ofParts?_interleaved mixed]

end Setting
end SelectorEngine
