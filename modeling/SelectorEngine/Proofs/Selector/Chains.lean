import Mathlib.Data.List.Basic
import SelectorEngine.Selector.Chain

/-! # Branches and their chains

A chain holds the same simple selectors as the parts it is made of, and replacing arguments in the
parts replaces them in the chain. -/
namespace SelectorEngine

variable {A B : Type}

def Part.simples : Part A → List (Simple A)
  | .compound block => block.simples
  | .combinator _ => []

def Part.compound? : Part A → Option (List (Simple A))
  | .compound block => some block.simples
  | .combinator _ => none

namespace Complex

def simples (c : Complex A) : List (Simple A) := c.parts.flatMap Part.simples

def compounds (c : Complex A) : List (List (Simple A)) := c.parts.filterMap Part.compound?

theorem simples_eq (c : Complex A) : c.simples = c.compounds.flatten := by
  rw [simples, compounds]
  induction c.parts with
  | nil => rfl
  | cons part parts ih =>
    rw [List.flatMap_cons, ih]
    cases part <;> rfl

theorem mem_simples {c : Complex A} {simples : List (Simple A)} (h : simples ∈ c.compounds)
    {simple : Simple A} (hs : simple ∈ simples) : simple ∈ c.simples := by
  rw [simples_eq]
  exact List.mem_flatten_of_mem h hs

theorem hasPositional_eq (argument : A → Bool) (c : Complex A) :
    c.hasPositional argument = c.simples.any (Simple.hasPositional argument) := by
  rw [hasPositional, simples, List.any_flatMap]
  congr 1
  funext part
  cases part <;> simp [Part.hasPositional, Compound.hasPositional, Part.simples]

end Complex

namespace Chain

def simples (c : Chain A) : List (Simple A) := c.head.getD [] ++ c.links.flatMap (·.simples)

def compounds (c : Chain A) : List (List (Simple A)) := c.head.toList ++ c.links.map (·.simples)

def All (P : Simple A → Prop) (c : Chain A) : Prop := ∀ simple ∈ c.simples, P simple

variable {P : Simple A → Prop} {head : Option (List (Simple A))} {links : List (Link A)}
  {link : Link A} {c : Chain A} {simples : List (Simple A)}

theorem simples_eq (c : Chain A) : c.simples = c.compounds.flatten := by
  rw [Chain.simples, compounds, List.flatten_append, List.flatMap_def]
  cases c.head <;> simp

theorem hasPositional_eq (argument : A → Bool) (c : Chain A) :
    c.hasPositional argument = c.simples.any (Simple.hasPositional argument) := by
  rw [hasPositional, Chain.simples, List.any_append, List.any_flatMap]

theorem last?_concat : last? ⟨head, links ++ [link]⟩ = some link.simples := by
  simp [last?]

theorem last?_cons : last? ⟨head, link :: links⟩ = last? ⟨some link.simples, links⟩ := by
  rw [last?, last?, List.getLast?_cons]
  cases links.getLast? <;> rfl

theorem isSome_last?_cons : (last? ⟨head, link :: links⟩).isSome = true := by
  rw [last?, List.getLast?_cons]
  rfl

theorem last?_eq_none : last? ⟨head, links⟩ = none ↔ head = none ∧ links = [] := by
  cases links with
  | nil => simp [last?]
  | cons link links =>
    have hs : (last? ⟨head, link :: links⟩).isSome = true := isSome_last?_cons
    rw [Option.isSome_iff_ne_none] at hs
    simp [hs]

theorem compounds_dropHead :
    (dropHead ⟨head, link :: links⟩).compounds = (link :: links).map (·.simples) := by
  rw [dropHead]
  by_cases hk : link.combinator = .descendant
  · simp only [hk, if_true]
    rfl
  · simp only [hk, if_false]
    rfl

theorem simples_dropHead :
    (dropHead ⟨head, link :: links⟩).simples = (link :: links).flatMap (·.simples) := by
  rw [simples_eq, compounds_dropHead, List.flatMap_def]

theorem isSome_last?_dropHead : (dropHead ⟨head, link :: links⟩).last?.isSome = true := by
  rw [dropHead]
  by_cases hk : link.combinator = .descendant
  · simp only [hk, if_true]
    have hs : (last? ⟨none, link :: links⟩).isSome = true := isSome_last?_cons
    rwa [last?_cons] at hs
  · simp only [hk, if_false]
    exact isSome_last?_cons

theorem leftwards_concat : leftwards ⟨head, links ++ [link]⟩ =
    (link.combinator, last? ⟨head, links⟩) :: leftwards ⟨head, links⟩ := by
  suffices h : ((links ++ [link]).map (·.combinator)).zip
      (head :: (links ++ [link]).map fun link => some link.simples) =
        ((links.map (·.combinator)).zip (head :: links.map fun link => some link.simples)) ++
          [(link.combinator, last? ⟨head, links⟩)] by
    rw [leftwards, leftwards, h, List.reverse_concat]
  induction links generalizing head with
  | nil => rfl
  | cons next links ih =>
    rw [last?_cons, List.cons_append, List.map_cons, List.map_cons, List.zip_cons_cons, ih]
    rfl

theorem last?_mem_compounds (h : c.last? = some simples) :
    simples ∈ c.compounds := by
  rw [last?] at h
  rw [compounds, List.mem_append]
  cases hl : c.links.getLast? with
  | none =>
    rw [hl] at h
    exact .inl (by simp [h])
  | some link =>
    simp only [hl, Option.some.injEq] at h
    exact .inr (List.mem_map.mpr ⟨link, List.mem_of_getLast? hl, h⟩)

theorem mem_compounds_of_leftwards {combinator : Combinator}
    (h : (combinator, some simples) ∈ c.leftwards) : simples ∈ c.compounds := by
  rw [leftwards, List.mem_reverse] at h
  rcases List.mem_cons.mp (List.of_mem_zip h).2 with first | later
  · exact List.mem_append_left _ (by simp [← first])
  · obtain ⟨link, hm, hs⟩ := List.mem_map.mp later
    exact List.mem_append_right _ (List.mem_map.mpr ⟨link, hm, Option.some.inj hs⟩)

theorem All.of_compound (h : c.All P) (hs : simples ∈ c.compounds) :
    ∀ simple ∈ simples, P simple := by
  intro simple hm
  refine h simple ?_
  rw [simples_eq]
  exact List.mem_flatten_of_mem hs hm

theorem All.of_head (h : c.All P) (hs : c.head = some simples) : ∀ simple ∈ simples, P simple :=
  h.of_compound (List.mem_append_left _ (by simp [hs]))

theorem All.of_link (h : c.All P) (hl : link ∈ c.links) : ∀ simple ∈ link.simples, P simple :=
  h.of_compound (List.mem_append_right _ (List.mem_map_of_mem hl))

theorem All.of_last (h : c.All P) (hs : c.last? = some simples) : ∀ simple ∈ simples, P simple :=
  h.of_compound (last?_mem_compounds hs)

theorem All.leftwards (h : c.All P) :
    ∀ k simples, (k, some simples) ∈ c.leftwards → ∀ simple ∈ simples, P simple :=
  fun _ _ hk => h.of_compound (mem_compounds_of_leftwards hk)

theorem All.dropHead (h : (⟨head, link :: links⟩ : Chain A).All P) :
    (Chain.dropHead ⟨head, link :: links⟩).All P := by
  intro simple hs
  rw [simples_dropHead] at hs
  exact h simple (List.mem_append_right _ hs)

end Chain

theorem linksOf?_compounds {parts : List (Part A)} {links : List (Link A)}
    (h : linksOf? parts = some links) :
    links.map (·.simples) = parts.filterMap Part.compound? := by
  fun_induction linksOf? parts generalizing links with
  | case1 =>
    cases h
    rfl
  | case2 block rest ih =>
    obtain ⟨others, ho, rfl⟩ := Option.map_eq_some_iff.mp h
    rw [List.map_cons, ih ho]
    rfl
  | case3 relation block rest ih =>
    obtain ⟨others, ho, rfl⟩ := Option.map_eq_some_iff.mp h
    rw [List.map_cons, ih ho]
    rfl
  | case4 => cases h

theorem Chain.compounds_ofParts? {branch : Complex A} {chain : Chain A}
    (h : Chain.ofParts? branch.parts = some chain) : chain.compounds = branch.compounds := by
  obtain ⟨parts, rest⟩ := branch
  unfold Chain.ofParts? at h
  split at h
  · next block others hp =>
    obtain ⟨links, hl, rfl⟩ := Option.map_eq_some_iff.mp h
    rw [compounds, linksOf?_compounds hl, Complex.compounds, hp]
    rfl
  · obtain ⟨links, hl, rfl⟩ := Option.map_eq_some_iff.mp h
    rw [compounds, linksOf?_compounds hl]
    rfl

theorem Chain.simples_ofParts? {parts : List (Part A)} {chain : Chain A}
    (h : Chain.ofParts? parts = some chain) : chain.simples = parts.flatMap Part.simples := by
  let branch : Complex A := { parts }
  have same : chain.compounds = branch.compounds := compounds_ofParts? h
  rw [simples_eq, same, ← Complex.simples_eq, Complex.simples]

theorem Chain.hasPositional_ofParts? {branch : Complex A} {chain : Chain A}
    (h : Chain.ofParts? branch.parts = some chain) (argument : A → Bool) :
    chain.hasPositional argument = branch.hasPositional argument := by
  rw [hasPositional_eq, simples_ofParts? h, Complex.hasPositional_eq, Complex.simples]

/-- What stands before a last compound decides whether there are links and all but the simple
selectors of the last one. -/
theorem linksOf?_concat (before : List (Part A)) :
    ∃ front : Option (List (Link A) × Combinator), ∀ block,
      linksOf? (before ++ [.compound block]) =
        front.map fun (links, combinator) => links ++ [⟨combinator, block.simples⟩] := by
  fun_induction linksOf? before with
  | case1 => exact ⟨some ([], .descendant), fun _ => rfl⟩
  | case2 left rest ih =>
    obtain ⟨front, found⟩ := ih
    refine ⟨front.map fun (links, combinator) => (⟨.descendant, left.simples⟩ :: links, combinator),
      fun block => ?_⟩
    rw [List.cons_append, linksOf?, found]
    cases front <;> rfl
  | case3 relation left rest ih =>
    obtain ⟨front, found⟩ := ih
    refine ⟨front.map fun (links, combinator) => (⟨relation, left.simples⟩ :: links, combinator),
      fun block => ?_⟩
    rw [List.cons_append, List.cons_append, linksOf?, found]
    cases front <;> rfl
  | case4 relation rest bare =>
    rcases rest with _ | ⟨block | other, rest⟩
    · exact ⟨some ([], relation), fun _ => rfl⟩
    · exact (bare block rest rfl).elim
    · exact ⟨none, fun _ => rfl⟩

theorem Chain.ofParts?_concat {before : List (Part A)} (more : before ≠ []) :
    ∃ front : Option (Option (List (Simple A)) × List (Link A) × Combinator), ∀ block,
      ofParts? (before ++ [.compound block]) = front.map fun (head, links, combinator) =>
        ⟨head, links ++ [⟨combinator, block.simples⟩]⟩ := by
  rcases before with _ | ⟨first | relation, before⟩
  · exact (more rfl).elim
  · obtain ⟨front, found⟩ := linksOf?_concat before
    refine ⟨front.map (some first.simples, ·), fun block => ?_⟩
    rw [List.cons_append, ofParts?, found]
    cases front <;> rfl
  · obtain ⟨front, found⟩ := linksOf?_concat (.combinator relation :: before)
    refine ⟨front.map (none, ·), fun block => ?_⟩
    change (linksOf? (.combinator relation :: before ++ [.compound block])).map _ = _
    rw [found]
    cases front <;> rfl

def Link.map (f : A → B) (link : Link A) : Link B :=
  ⟨link.combinator, link.simples.map (Simple.map f)⟩

def Chain.map (f : A → B) (c : Chain A) : Chain B :=
  ⟨c.head.map (List.map (Simple.map f)), c.links.map (Link.map f)⟩

theorem linksOf?_map (f : A → B) (parts : List (Part A)) :
    linksOf? (parts.map (Part.map f)) = (linksOf? parts).map (List.map (Link.map f)) := by
  fun_induction linksOf? parts with
  | case1 => rfl
  | case2 block rest ih => simp [linksOf?, Part.map, ih, Compound.map, Link.map, Function.comp_def]
  | case3 relation block rest ih =>
    simp [linksOf?, Part.map, ih, Compound.map, Link.map, Function.comp_def]
  | case4 relation rest hr =>
    rcases rest with _ | ⟨part, rest⟩
    · rfl
    · cases part with
      | compound block => exact (hr block rest rfl).elim
      | combinator relation => rfl

theorem Chain.ofParts?_map (f : A → B) (parts : List (Part A)) :
    Chain.ofParts? (parts.map (Part.map f)) = (Chain.ofParts? parts).map (Chain.map f) := by
  rcases parts with _ | ⟨part, rest⟩
  · rfl
  · cases part with
    | compound block =>
      simp [ofParts?, Part.map, linksOf?_map, Compound.map, Chain.map, Function.comp_def]
    | combinator relation =>
      change (linksOf? ((.combinator relation :: rest).map (Part.map f))).map _ =
        Option.map _ ((linksOf? (.combinator relation :: rest)).map _)
      rw [linksOf?_map, Option.map_map, Option.map_map]
      rfl

theorem Chain.simples_map (f : A → B) (c : Chain A) :
    (c.map f).simples = c.simples.map (Simple.map f) := by
  obtain ⟨head, links⟩ := c
  rw [simples, simples, Chain.map, List.map_append, List.map_flatMap, List.flatMap_map]
  cases head <;> rfl

theorem Chain.All.map {f : A → B} {P : Simple B → Prop} {c : Chain A}
    (h : c.All fun simple => P (simple.map f)) : (c.map f).All P := by
  intro simple hs
  rw [Chain.simples_map] at hs
  obtain ⟨written, hw, rfl⟩ := List.mem_map.mp hs
  exact h written hw

theorem Chain.last?_map (f : A → B) (c : Chain A) :
    (c.map f).last? = c.last?.map (List.map (Simple.map f)) := by
  rw [last?, last?, Chain.map, List.getLast?_map]
  cases c.links.getLast? <;> rfl

theorem Complex.compounds_map (f : A → B) (c : Complex A) :
    (c.map f).compounds = c.compounds.map (List.map (Simple.map f)) := by
  rw [compounds, compounds, Complex.map, List.filterMap_map, List.map_filterMap]
  congr 1
  funext part
  cases part <;> rfl

theorem Complex.simples_map (f : A → B) (c : Complex A) :
    (c.map f).simples = c.simples.map (Simple.map f) := by
  rw [simples_eq, simples_eq, compounds_map, List.map_flatten]

theorem Simple.map_congr {f g : A → B} {simple : Simple A}
    (h : ∀ a, simple = .has a ∨ simple = .not a → f a = g a) : simple.map f = simple.map g := by
  cases simple with
  | has a => rw [Simple.map, Simple.map, h a (.inl rfl)]
  | not a => rw [Simple.map, Simple.map, h a (.inr rfl)]
  | _ => rfl

theorem Complex.map_congr {f g : A → B} {c : Complex A}
    (h : ∀ a, .has a ∈ c.simples ∨ .not a ∈ c.simples → f a = g a) : c.map f = c.map g := by
  rw [Complex.map, Complex.map]
  congr 1
  refine List.map_congr_left fun part hp => ?_
  cases part with
  | combinator => rfl
  | compound block =>
    rw [Part.map, Part.map, Compound.map, Compound.map]
    congr 2
    refine List.map_congr_left fun simple hs => Simple.map_congr fun a ha => h a ?_
    have hm : simple ∈ c.simples := List.mem_flatMap.mpr ⟨_, hp, hs⟩
    rcases ha with rfl | rfl
    · exact .inl hm
    · exact .inr hm

theorem Simple.hasPositional_map (f : A → B) (argument : B → Bool) (simple : Simple A) :
    (simple.map f).hasPositional argument = simple.hasPositional fun list => argument (f list) := by
  cases simple <;> rfl

theorem Complex.hasPositional_map (f : A → B) (argument : B → Bool) (c : Complex A) :
    (c.map f).hasPositional argument = c.hasPositional fun list => argument (f list) := by
  rw [Complex.hasPositional_eq, Complex.hasPositional_eq, Complex.simples_map, List.any_map]
  congr 1
  funext simple
  exact simple.hasPositional_map f argument

theorem Chain.hasPositional_map (f : A → B) (positional : B → Bool) (c : Chain A) :
    (c.map f).hasPositional positional = c.hasPositional fun list => positional (f list) := by
  rw [hasPositional_eq, hasPositional_eq, simples_map, List.any_map]
  congr 1
  funext simple
  exact simple.hasPositional_map f positional

theorem Chain.isEmpty_links_map (f : A → B) (c : Chain A) :
    (c.map f).links.isEmpty = c.links.isEmpty := by
  rw [map, List.isEmpty_map]

theorem Complex.any_hasPositional_map (positional : A → Bool) (branches : List (Complex A)) :
    (branches.map (Complex.map positional)).any (Complex.hasPositional fun nested => nested) =
      branches.any (Complex.hasPositional positional) := by
  rw [List.any_map]
  congr 1
  funext branch
  exact branch.hasPositional_map positional _

theorem Simple.map_map {C : Type} (f : A → B) (g : B → C) (simple : Simple A) :
    (simple.map f).map g = simple.map (g ∘ f) := by
  cases simple <;> rfl

theorem Complex.map_map {C : Type} (f : A → B) (g : B → C) (c : Complex A) :
    (c.map f).map g = c.map (g ∘ f) := by
  have simples : Simple.map g ∘ Simple.map f = Simple.map (g ∘ f) := funext (Simple.map_map f g)
  have parts : Part.map g ∘ Part.map f = Part.map (g ∘ f) := by
    funext part
    cases part with
    | combinator => rfl
    | compound block =>
      simp only [Function.comp_apply, Part.map, Compound.map, List.map_map, simples]
  rw [map, map, map, List.map_map, parts]

theorem sizeOf_argument_lt {nested : SelectorList} {simple : Simple SelectorList}
    (h : simple = .has nested ∨ simple = .not nested) {branch : Complex SelectorList}
    (hs : simple ∈ branch.simples) : sizeOf nested < sizeOf branch := by
  have harg : sizeOf nested < sizeOf simple := by
    rcases h with rfl | rfl <;> simp
  obtain ⟨part, hp, hm⟩ := List.mem_flatMap.mp hs
  have hpart := List.sizeOf_lt_of_mem hp
  cases part with
  | combinator => cases hm
  | compound block =>
    have hsimple := List.sizeOf_lt_of_mem (show simple ∈ block.simples from hm)
    obtain ⟨parts, rest⟩ := branch
    obtain ⟨source, simples⟩ := block
    simp only [Complex.mk.sizeOf_spec, Part.compound.sizeOf_spec, Compound.mk.sizeOf_spec] at *
    omega

/-- What holds of a list whenever it holds of its arguments holds of every list. -/
theorem SelectorList.induction {P : SelectorList → Prop}
    (step : ∀ list : SelectorList, (∀ branch ∈ list.branches, ∀ nested,
      .has nested ∈ branch.simples ∨ .not nested ∈ branch.simples → P nested) → P list)
    (list : SelectorList) : P list :=
  step list fun branch hb nested hn =>
    have : sizeOf nested < sizeOf list := by
      have hbranch := List.sizeOf_lt_of_mem hb
      obtain ⟨source, branches⟩ := list
      have harg : sizeOf nested < sizeOf branch := by
        rcases hn with hn | hn
        · exact sizeOf_argument_lt (.inl rfl) hn
        · exact sizeOf_argument_lt (.inr rfl) hn
      have hlist : sizeOf branches < sizeOf (mk source branches) := by
        rw [SelectorList.mk.sizeOf_spec]
        omega
      change sizeOf branch < sizeOf branches at hbranch
      omega
    induction step nested
termination_by sizeOf list

/-- What is computed from the value of a list can be computed along with it. -/
theorem SelectorList.fold_fusion {f : String → List (Complex A) → A}
    {g : String → List (Complex B) → B}
    (h : A → B) (step : ∀ source branches, h (f source branches) =
      g source (branches.map (Complex.map h))) (list : SelectorList) :
    h (list.fold f) = list.fold g := by
  induction list using SelectorList.induction with
  | step list ih =>
    rw [fold_eq, fold_eq, step, List.map_map]
    congr 1
    refine List.map_congr_left fun branch hb => ?_
    rw [Function.comp_apply, Complex.map_map]
    exact Complex.map_congr fun nested hn => ih branch hb nested hn

end SelectorEngine
