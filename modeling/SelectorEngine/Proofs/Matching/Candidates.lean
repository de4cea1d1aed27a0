import SelectorEngine.Matching.Candidates
import SelectorEngine.Proofs.Matching.Verdicts

/-! # Candidates and what they still have to satisfy

An index answers one simple selector of a compound; the others are left. -/
namespace SelectorEngine

theorem extract?_eq_some {A B : Type} {use : Simple A → Option B} {simples others : List (Simple A)}
    {value : B} (h : extract? use simples = some (value, others)) :
    ∃ before simple after, simples = before ++ simple :: after ∧ use simple = some value ∧
      others = before ++ after := by
  induction simples generalizing others with
  | nil => cases h
  | cons simple simples ih =>
    rw [extract?] at h
    cases hu : use simple with
    | some v =>
      simp only [hu, Option.some.injEq, Prod.mk.injEq] at h
      obtain ⟨rfl, rfl⟩ := h
      exact ⟨[], simple, simples, rfl, hu, rfl⟩
    | none =>
      simp only [hu, Option.map_eq_some_iff, Prod.exists, Prod.mk.injEq] at h
      obtain ⟨v, others, he, rfl, rfl⟩ := h
      obtain ⟨before, found, after, rfl, hf, rfl⟩ := ih he
      exact ⟨simple :: before, found, after, rfl, hf, rfl⟩

theorem extract?_append {A B : Type} {use : Simple A → Option B} {unused : List (Simple A)}
    (idle : ∀ simple ∈ unused, use simple = none) (simples : List (Simple A)) :
    extract? use (simples ++ unused) =
      (extract? use simples).map fun (value, others) => (value, others ++ unused) := by
  induction simples with
  | nil =>
    induction unused with
    | nil => rfl
    | cons simple unused ih =>
      obtain ⟨first, rest⟩ := List.forall_mem_cons.mp idle
      have found : extract? use unused = none := ih rest
      simp only [List.nil_append, extract?, first, found, Option.map_none]
  | cons simple simples ih =>
    rw [List.cons_append, extract?, extract?, ih]
    cases use simple with
    | some value => rfl
    | none =>
      rw [Option.map_map, Option.map_map]
      rfl

def indexUses {A : Type} : List (Simple A → Option String) :=
  [Simple.id?, Simple.className?, Simple.exactName?]

theorem indexUses_position {A : Type} {use : Simple A → Option String} (h : use ∈ indexUses)
    (place : Position) : use (.position place) = none := by
  simp only [indexUses, List.mem_cons, List.not_mem_nil, or_false] at h
  rcases h with rfl | rfl | rfl <;> rfl

variable {N : Type}

def Candidates.leave (rest : List (Simple (Query N)) → List (Simple (Query N))) (c : Candidates N) :
    Candidates N :=
  ⟨c.nodes, rest c.remaining⟩

namespace Setting

variable {s : Setting N} {simples : List (Simple (Query N))} {scope : N}

/-- Rewriting a compound rewrites what an index leaves of it, if every index finds it by the same
simple selector as before. -/
theorem candidates_leave {f : List (Simple (Query N)) → List (Simple (Query N))}
    (same : ∀ use ∈ indexUses, extract? use (f simples) =
      (extract? use simples).map fun (value, others) => (value, f others))
    (tag : s.candidatesByTag (f simples) scope = (s.candidatesByTag simples scope).leave f) :
    s.candidates (f simples) scope = (s.candidates simples scope).leave f := by
  -- Each index is asked for one kind of simple selector, and `f` leaves the first of each kind.
  have byId : s.candidatesById (f simples) scope =
      (s.candidatesById simples scope).map (Candidates.leave f) := by
    rw [candidatesById, candidatesById, same Simple.id? (by simp [indexUses])]
    split
    · rw [Option.map_map, Option.map_map]
      rfl
    · rfl
  have byClass : s.candidatesByClass (f simples) scope =
      (s.candidatesByClass simples scope).map (Candidates.leave f) := by
    rw [candidatesByClass, candidatesByClass, same Simple.className? (by simp [indexUses])]
    split
    · rcases extract? Simple.className? simples with _ | ⟨name, remaining⟩
      · rfl
      · change (s.view.elementsByClass scope name).bind _ =
          ((s.view.elementsByClass scope name).bind _).map _
        cases s.view.elementsByClass scope name <;> rfl
    · rfl
  have byName : s.candidatesByName (f simples) scope =
      (s.candidatesByName simples scope).map (Candidates.leave f) := by
    rw [candidatesByName, candidatesByName, same Simple.exactName? (by simp [indexUses])]
    split
    · rcases extract? Simple.exactName? simples with _ | ⟨value, remaining⟩
      · rfl
      · change (s.view.elementsByName scope value).bind _ =
          ((s.view.elementsByName scope value).bind _).map _
        rcases s.view.elementsByName scope value with _ | found
        · rfl
        · dsimp only [Option.bind_some]
          split <;> rfl
    · rfl
  rw [candidates, candidates, byId, byClass, byName, tag]
  cases s.candidatesById simples scope <;> cases s.candidatesByClass simples scope <;>
    cases s.candidatesByName simples scope <;> rfl

/-- Every way to look up candidates: by an index that answers one simple selector, or by tag. -/
theorem candidates_cases (s : Setting N) (simples : List (Simple (Query N))) (scope : N) :
    s.candidatesById simples scope = some (s.candidates simples scope) ∨
      s.candidatesByClass simples scope = some (s.candidates simples scope) ∨
      s.candidatesByName simples scope = some (s.candidates simples scope) ∨
      s.candidatesByTag simples scope = s.candidates simples scope := by
  rw [candidates]
  cases s.candidatesById simples scope with
  | some found => exact .inl rfl
  | none =>
    cases s.candidatesByClass simples scope with
    | some found => exact .inr (.inl rfl)
    | none =>
      cases s.candidatesByName simples scope with
      | some found => exact .inr (.inr (.inl rfl))
      | none => exact .inr (.inr (.inr rfl))

theorem candidatesById_eq_some {found : Candidates N}
    (h : s.candidatesById simples scope = some found) :
    s.view.isDocumentRoot scope = true ∧ s.xml = false ∧ ∃ before id after,
      simples = before ++ .id id :: after ∧
        found = ⟨(s.view.elementById scope id).toList, before ++ after⟩ := by
  rw [candidatesById] at h
  split at h
  · next hroot =>
    rw [Bool.and_eq_true, Bool.not_eq_true'] at hroot
    obtain ⟨⟨id, others⟩, he, rfl⟩ := Option.map_eq_some_iff.mp h
    obtain ⟨before, simple, after, rfl, hu, rfl⟩ := extract?_eq_some he
    refine ⟨hroot.1, hroot.2, before, id, after, ?_, rfl⟩
    cases simple <;> cases hu
    rfl
  · cases h

theorem candidatesByClass_eq_some {found : Candidates N}
    (h : s.candidatesByClass simples scope = some found) :
    s.xml = false ∧ s.config.classLookup = true ∧ ∃ before name after nodes,
      simples = before ++ .className name :: after ∧
        s.view.elementsByClass scope name = some nodes ∧ found = ⟨nodes, before ++ after⟩ := by
  rw [candidatesByClass] at h
  split at h
  · next hroot =>
    rw [Bool.and_eq_true, Bool.not_eq_true'] at hroot
    obtain ⟨⟨name, others⟩, he, h⟩ := Option.bind_eq_some_iff.mp h
    obtain ⟨nodes, hn, h⟩ := Option.bind_eq_some_iff.mp h
    obtain ⟨before, simple, after, rfl, hu, rfl⟩ := extract?_eq_some he
    refine ⟨hroot.1, hroot.2, before, name, after, nodes, ?_, hn, (Option.some.inj h).symm⟩
    cases simple <;> cases hu
    rfl
  · cases h

theorem exactName?_eq_some {A : Type} {simple : Simple A} {value : String}
    (h : simple.exactName? = some value) :
    value.isEmpty = false ∧ simple = .attr ⟨"name", some (.equals, value)⟩ := by
  unfold Simple.exactName? at h
  split at h
  · split at h
    · cases h
    · next hne =>
      obtain rfl := Option.some.inj h
      exact ⟨Bool.not_eq_true _ ▸ hne, rfl⟩
  · cases h

theorem candidatesByName_eq_some {found : Candidates N}
    (h : s.candidatesByName simples scope = some found) :
    s.view.isDocumentRoot scope = true ∧ s.xml = false ∧ ∃ before value after nodes,
      value.isEmpty = false ∧ simples = before ++ .attr ⟨"name", some (.equals, value)⟩ :: after ∧
        s.view.elementsByName scope value = some nodes ∧
        found = ⟨nodes.filter fun n => s.view.attr n "name" == some value, before ++ after⟩ := by
  rw [candidatesByName] at h
  split at h
  · next hroot =>
    simp only [Bool.and_eq_true, Bool.not_eq_true'] at hroot
    obtain ⟨⟨value, others⟩, he, h⟩ := Option.bind_eq_some_iff.mp h
    obtain ⟨nodes, hn, h⟩ := Option.bind_eq_some_iff.mp h
    obtain ⟨before, simple, after, rfl, hu, rfl⟩ := extract?_eq_some he
    simp only at h
    split at h
    · cases h
    · obtain ⟨hv, hs⟩ := exactName?_eq_some hu
      refine ⟨hroot.1.1, hroot.1.2, before, value, after, nodes, hv, ?_, hn,
        (Option.some.inj h).symm⟩
      rw [hs]
  · cases h

theorem candidatesByTag_remaining : (s.candidatesByTag simples scope).remaining ⊆ simples := by
  unfold candidatesByTag
  split
  · exact List.subset_cons_self _ _
  · exact List.subset_cons_self _ _
  · exact List.Subset.refl _

theorem candidates_remaining : (s.candidates simples scope).remaining ⊆ simples := by
  have drop : ∀ (before : List (Simple (Query N))) simple after,
      before ++ after ⊆ before ++ simple :: after := fun before simple after =>
    ((List.sublist_cons_self simple after).append_left before).subset
  rcases s.candidates_cases simples scope with h | h | h | h
  · obtain ⟨-, -, before, id, after, rfl, hf⟩ := candidatesById_eq_some h
    rw [hf]
    exact drop ..
  · obtain ⟨-, -, before, name, after, nodes, rfl, -, hf⟩ := candidatesByClass_eq_some h
    rw [hf]
    exact drop ..
  · obtain ⟨-, -, before, value, after, nodes, -, rfl, -, hf⟩ := candidatesByName_eq_some h
    rw [hf]
    exact drop ..
  · rw [← h]
    exact candidatesByTag_remaining

end Setting
end SelectorEngine
