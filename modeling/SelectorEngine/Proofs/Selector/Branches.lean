import SelectorEngine.Proofs.Selector.Blocks
import SelectorEngine.Proofs.Selector.Compounds

/-! # Branches

What the readers of branches and lists make of a text, without their limits. -/
namespace SelectorEngine
open Text

/-- The text of one branch is read as the parts, after a previous one if there is one. -/
inductive Yields {A : Type} (nested : List Char → Except SelectorError A) :
    Option (Part A) → List Char → List (Part A) → Prop where
  | done {previous blanks} : isOpenEnd previous = false → (∀ c ∈ blanks, isBlank c = true) →
      Yields nested previous blanks []
  | combinator {previous blanks c relation rest parts} : isOpenEnd previous = false →
      (∀ c ∈ blanks, isBlank c = true) → Combinator.ofChar? c = some relation →
      Yields nested (some (.combinator relation)) rest parts →
      Yields nested previous (blanks ++ c :: rest) (.combinator relation :: parts)
  | compound {previous blanks block rest compound parts} : (∀ c ∈ blanks, isBlank c = true) →
      IsBlock .outside block → Stops rest → readCompound nested block = .ok compound →
      Yields nested (some (.compound compound)) rest parts →
      Yields nested previous (blanks ++ (block ++ rest)) (.compound compound :: parts)

/-- The text is read as the branches. What follows a comma is trimmed before it is read. -/
inductive YieldsAll {A : Type} (nested : List Char → Except SelectorError A) :
    List Char → List (Complex A) → Prop where
  | single {text parts} : Yields nested none text parts → parts ≠ [] →
      YieldsAll nested text [⟨parts, none⟩]
  | comma {first others parts branches} : Yields nested none first parts → parts ≠ [] →
      YieldsAll nested (trim others) branches →
      YieldsAll nested (first ++ ',' :: others)
        (⟨parts, some (String.ofList (trim others))⟩ :: branches)

variable {A : Type} {nested nested' : List Char → Except SelectorError A}
  {previous : Option (Part A)}
  {text source first others blanks : List Char} {parts : List (Part A)} {limit : Nat}

theorem isBlank_of_ofChar? {c : Char} {relation : Combinator}
    (h : Combinator.ofChar? c = some relation) : isBlank c = false := by
  unfold Combinator.ofChar? at h
  split at h
  · decide
  · decide
  · decide
  · cases h

theorem Stops.of_append {rest : List Char} (h : Stops (rest ++ others)) : Stops rest := by
  cases rest with
  | nil => exact stops_nil
  | cons c rest => exact h

theorem Stops.append {rest : List Char} (h : Stops rest) (ho : Stops others) :
    Stops (rest ++ others) := by
  cases rest with
  | nil => exact ho
  | cons c rest => exact h

theorem IsBlock.not_boundary {c : Char} {block : List Char} (h : IsBlock .outside (c :: block)) :
    isBoundary c = false :=
  Bool.not_eq_true _ ▸ fun hc => (IsBlock.cons_iff.mp h).1 ⟨rfl, hc⟩

theorem readParts_skipBlank (blank : ∀ c ∈ blanks, isBlank c = true) :
    readParts nested source (limit + 1) previous (blanks ++ text) =
      readParts nested source (limit + 1) previous text := by
  rw [readParts, readParts, skipBlank_append blank]

theorem readParts_combinator {c : Char} {relation : Combinator}
    (skip : skipBlank text = c :: others)
    (hc : Combinator.ofChar? c = some relation) (closed : isOpenEnd previous = false) :
    readParts nested source (limit + 1) previous text =
      (readParts nested source limit (some (.combinator relation)) others).map
        fun (parts, rest) => (.combinator relation :: parts, rest) := by
  rw [readParts, skip]
  split
  · next he => cases he
  · next he =>
    cases he
    cases hc
  · next he =>
    cases he
    simp only [hc, closed, Bool.false_eq_true, if_false]

theorem readParts_compound {block : List Char} {compound : Compound A}
    (skip : skipBlank text = block ++ others) (hb : IsBlock .outside block) (stops : Stops others)
    (hc : readCompound nested block = .ok compound) :
    readParts nested source (limit + 1) previous text =
      (readParts nested source limit (some (.compound compound)) others).map
        fun (parts, rest) => (.compound compound :: parts, rest) := by
  cases block with
  | nil => cases hc
  | cons c block =>
    have boundary := hb.not_boundary
    have hs : readBlock (c :: (block ++ others)) = .ok (c :: block, others) :=
      scanBlock_iff.mpr ⟨rfl, hb, stops⟩
    rw [readParts, skip, List.cons_append]
    split
    · next he => cases he
    · next he =>
      cases he
      exact absurd boundary (by decide)
    · next he =>
      cases he
      have relation := ofChar?_of_not_boundary boundary
      simp only [relation, hs, hc, Except.mapError, bind, Except.bind, Except.map, pure,
        Except.pure]

theorem Yields.block {block : List Char} {compound : Compound A}
    (blank : ∀ c ∈ blanks, isBlank c = true) (hb : IsBlock .outside block)
    (hc : readCompound nested block = .ok compound) :
    Yields nested previous (blanks ++ block) [.compound compound] := by
  have yields : Yields nested previous (blanks ++ (block ++ [])) [.compound compound] :=
    .compound blank hb stops_nil hc (.done rfl nofun)
  rwa [List.append_nil] at yields

theorem readParts_yields {tail : List Char}
    {result : Except SelectorError (List (Part A) × Option (List Char))}
    (ends : ∀ limit previous blanks, isOpenEnd previous = false → previous.isSome = true →
      (∀ c ∈ blanks, isBlank c = true) →
      readParts nested source (limit + 1) previous (blanks ++ tail) = result)
    (stops : Stops tail) (h : Yields nested previous text parts)
    (some_part : previous.isSome = true ∨ parts ≠ []) (enough : text.length < limit) :
    readParts nested source limit previous (text ++ tail) =
      result.map fun (others, rest) => (parts ++ others, rest) := by
  obtain ⟨limit, rfl⟩ : ∃ l, limit = l + 1 := ⟨limit - 1, by omega⟩
  induction h generalizing limit with
  | done closed blank =>
    rw [ends _ _ _ closed (some_part.resolve_right fun h => h rfl) blank]
    cases result <;> rfl
  | @combinator previous blanks c relation rest parts closed blank hc _ ih =>
    rw [List.length_append, List.length_cons] at enough
    obtain ⟨l, rfl⟩ : ∃ l, limit = l + 1 := ⟨limit - 1, by omega⟩
    have skip : skipBlank (blanks ++ c :: rest ++ tail) = c :: (rest ++ tail) := by
      rw [List.append_assoc, skipBlank_append blank, List.cons_append,
        skipBlank_cons (isBlank_of_ofChar? hc)]
    rw [readParts_combinator skip hc closed, ih (.inl rfl) l (by omega)]
    cases result <;> rfl
  | @compound previous blanks block rest compound parts blank hb hs hc _ ih =>
    rw [List.length_append, List.length_append] at enough
    obtain ⟨c, block, rfl⟩ : ∃ c tail, block = c :: tail := by
      cases block with
      | nil => cases hc
      | cons c block => exact ⟨c, block, rfl⟩
    rw [List.length_cons] at enough
    obtain ⟨l, rfl⟩ : ∃ l, limit = l + 1 := ⟨limit - 1, by omega⟩
    have skip : skipBlank (blanks ++ (c :: block ++ rest) ++ tail) =
        c :: block ++ (rest ++ tail) := by
      rw [List.append_assoc, skipBlank_append blank, List.append_assoc, List.cons_append,
        skipBlank_cons (isBlank_of_not_boundary hb.not_boundary)]
    rw [readParts_compound skip hb (hs.append stops) hc, ih (.inl rfl) l (by omega)]
    cases result <;> rfl

theorem readParts_yields_end (h : Yields nested previous text parts)
    (some_part : previous.isSome = true ∨ parts ≠ []) (enough : text.length < limit) :
    readParts nested source limit previous text = .ok (parts, none) := by
  have ends : ∀ limit previous blanks, isOpenEnd previous = false → previous.isSome = true →
      (∀ c ∈ blanks, isBlank c = true) →
      readParts nested source (limit + 1) previous (blanks ++ []) = .ok ([], none) := by
    intro limit previous blanks closed _ blank
    rw [readParts, skipBlank_append blank]
    simp [skipBlank, closed]
  have hr := readParts_yields ends stops_nil h some_part enough
  rw [List.append_nil] at hr
  rw [hr]
  simp [Except.map]

theorem readParts_yields_comma (h : Yields nested none first parts) (hne : parts ≠ [])
    (enough : first.length < limit) :
    readParts nested source limit none (first ++ ',' :: others) =
      if (trim others).isEmpty then .error (Fault.unrecognized.within source)
      else .ok (parts, some (trim others)) := by
  have ends : ∀ limit (previous : Option (Part A)) blanks, isOpenEnd previous = false →
      previous.isSome = true → (∀ c ∈ blanks, isBlank c = true) →
      readParts nested source (limit + 1) previous (blanks ++ ',' :: others) =
        if (trim others).isEmpty then .error (Fault.unrecognized.within source)
        else .ok ([], some (trim others)) := by
    intro limit previous blanks closed hs blank
    have some_part : previous.isNone = false := by
      cases previous with
      | none => cases hs
      | some => rfl
    rw [readParts, skipBlank_append blank, skipBlank_cons (by decide)]
    simp only [some_part, closed, Bool.false_or]
  rw [readParts_yields ends (stops_cons (by decide)) h (.inr hne) enough]
  split
  · rfl
  · simp [Except.map]

theorem yields_of_readParts {rest : Option (List Char)}
    (h : readParts nested source limit previous text = .ok (parts, rest)) :
    ∃ first, Yields nested previous first parts ∧ (text = first ∧ rest = none ∨
      ∃ others, text = first ++ ',' :: others ∧ rest = some (trim others)) := by
  induction limit generalizing previous text parts rest with
  | zero => cases h
  | succ limit ih =>
    obtain ⟨blanks, blank, ht⟩ := exists_blanks text
    rw [readParts] at h
    split at h
    -- The text ends.
    · next he =>
      split at h
      · cases h
      · next hopen =>
        cases h
        rw [he, List.append_nil] at ht
        exact ⟨text, .done (Bool.not_eq_true _ ▸ hopen) (ht ▸ blank), .inl ⟨rfl, rfl⟩⟩
    -- A comma ends the branch.
    · next others he =>
      split at h
      · cases h
      · next hopen =>
        cases h
        have closed : isOpenEnd previous = false := by
          cases ho : isOpenEnd previous <;> simp_all
        exact ⟨blanks, .done closed blank, .inr ⟨others, he ▸ ht, rfl⟩⟩
    · next c others _ he =>
      rw [he] at ht
      split at h
      -- A combinator is read.
      · next relation hc =>
        split at h
        · cases h
        · next hopen =>
          obtain ⟨⟨parts, rest⟩, hr, he⟩ := map_eq_ok.mp h
          cases he
          obtain ⟨first, hy, hrest⟩ := ih hr
          refine ⟨_, .combinator (Bool.not_eq_true _ ▸ hopen) blank hc hy, ?_⟩
          rcases hrest with ⟨rfl, rfl⟩ | ⟨others, rfl, rfl⟩
          · exact .inl ⟨ht, rfl⟩
          · exact .inr ⟨others, by rw [ht, List.append_assoc, List.cons_append], rfl⟩
      -- A compound is read.
      · obtain ⟨⟨block, left⟩, hb, h⟩ := bind_eq_ok.mp h
        obtain ⟨compound, hc, h⟩ := bind_eq_ok.mp h
        obtain ⟨⟨parts, rest⟩, hr, he⟩ := bind_eq_ok.mp h
        cases he
        obtain ⟨hl, block_read, stops⟩ := scanBlock_iff.mp (mapError_eq_ok.mp hb)
        rw [hl] at ht
        obtain ⟨first, hy, hrest⟩ := ih hr
        rcases hrest with ⟨rfl, rfl⟩ | ⟨others, rfl, rfl⟩
        · exact ⟨_, .compound blank block_read stops hc hy, .inl ⟨ht, rfl⟩⟩
        · exact ⟨_, .compound blank block_read stops.of_append hc hy,
            .inr ⟨others, by rw [ht]; simp, rfl⟩⟩

theorem Yields.exists_solid (h : Yields nested previous text parts) (hne : parts ≠ []) :
    ∃ c ∈ text, isBlank c = false := by
  cases h with
  | done => exact absurd rfl hne
  | @combinator _ _ c _ _ _ _ _ hc _ => exact ⟨c, by simp, isBlank_of_ofChar? hc⟩
  | @compound _ _ block _ _ _ _ hb _ hc _ =>
    cases block with
    | nil => cases hc
    | cons c block => exact ⟨c, by simp, isBlank_of_not_boundary hb.not_boundary⟩

theorem YieldsAll.exists_solid {branches : List (Complex A)} (h : YieldsAll nested text branches) :
    ∃ c ∈ text, isBlank c = false := by
  cases h with
  | single hy hne => exact hy.exists_solid hne
  | comma => exact ⟨',', by simp, by decide⟩

theorem YieldsAll.text_ne_nil {branches : List (Complex A)} (h : YieldsAll nested text branches) :
    text ≠ [] := by
  obtain ⟨c, hc, -⟩ := h.exists_solid
  exact List.ne_nil_of_mem hc

theorem readBranches_comma (h : Yields nested none first parts) (hne : parts ≠ []) :
    readBranches nested source (limit + 1) (first ++ ',' :: others) =
      if (trim others).isEmpty then
        .error (Fault.unrecognized.within (first ++ ',' :: others))
      else (readBranches nested source limit (trim others)).map
        (⟨parts, some (String.ofList (trim others))⟩ :: ·) := by
  have enough : first.length < (first ++ ',' :: others).length + 1 := by
    rw [List.length_append]
    omega
  rw [readBranches, readComplex, readParts_yields_comma h hne enough]
  split
  · rfl
  · simp only [Except.map, bind, Except.bind, pure, Except.pure, List.isEmpty_eq_false_iff.mpr hne,
      Bool.false_eq_true, if_false, Option.map_some, String.toList_ofList]

/-- With a limit above the length of the text, a list is read as the relation says. -/
theorem readBranches_iff {branches : List (Complex A)} (enough : text.length < limit) :
    readBranches nested source limit text = .ok branches ↔ YieldsAll nested text branches := by
  constructor
  · intro h
    clear enough
    -- The limit bounds how many branches are read, so the induction is on it.
    induction limit generalizing text branches with
    | zero => cases h
    | succ limit ih =>
      obtain ⟨branch, hb, h⟩ := bind_eq_ok.mp h
      obtain ⟨⟨parts, rest⟩, hr, rfl⟩ := map_eq_ok.mp hb
      simp only at h
      split at h
      · cases h
      · next hne =>
        have hne : parts ≠ [] := fun he => hne (List.isEmpty_iff.mpr he)
        obtain ⟨first, hy, ⟨rfl, rfl⟩ | ⟨others, rfl, rfl⟩⟩ := yields_of_readParts hr
        · cases h
          exact .single hy hne
        · obtain ⟨branches, hbs, h⟩ := bind_eq_ok.mp h
          cases h
          rw [String.toList_ofList] at hbs
          exact .comma hy hne (ih hbs)
  · intro h
    obtain ⟨limit, rfl⟩ : ∃ l, limit = l + 1 := ⟨limit - 1, by omega⟩
    induction h generalizing limit with
    | single hy hne =>
      rw [readBranches, readComplex, readParts_yields_end hy (.inr hne) (Nat.lt_succ_self _)]
      simp [bind, Except.bind, Except.map, hne, pure, Except.pure]
    | @comma first others parts branches hy hne hall ih =>
      rw [List.length_append, List.length_cons] at enough
      -- Trimming only shortens the rest, so the limit is still large enough for it.
      have shorter := length_trim_le others
      obtain ⟨limit, rfl⟩ : ∃ l, limit = l + 1 := ⟨limit - 1, by omega⟩
      rw [readBranches_comma hy hne, if_neg (by simpa using hall.text_ne_nil), ih limit (by omega)]
      rfl

theorem YieldsAll.of_comma {branches : List (Complex A)} (h : Yields nested none first parts)
    (hne : parts ≠ []) (hall : YieldsAll nested (first ++ ',' :: others) branches) :
    ∃ more, YieldsAll nested (trim others) more := by
  have read : readBranches nested [] ((first ++ ',' :: others).length + 1)
      (first ++ ',' :: others) = .ok branches :=
    (readBranches_iff (Nat.lt_succ_self _)).mpr hall
  rw [readBranches_comma h hne] at read
  split at read
  · cases read
  · obtain ⟨more, hm, -⟩ := map_eq_ok.mp read
    have shorter := length_trim_le others
    refine ⟨more, (readBranches_iff ?_).mp hm⟩
    rw [List.length_append, List.length_cons]
    omega

theorem Yields.agree (h : Yields nested previous text parts)
    (agree : AgreeBelow text.length nested nested') : Yields nested' previous text parts := by
  induction h with
  | done closed blank => exact .done closed blank
  | combinator closed blank hc _ ih =>
    refine .combinator closed blank hc (ih (agree.mono ?_))
    rw [List.length_append, List.length_cons]
    omega
  | compound blank hb stops hc _ ih =>
    rw [List.length_append, List.length_append] at agree
    exact .compound blank hb stops (readCompound_agree (agree.mono (by omega)) hc)
      (ih (agree.mono (by omega)))

theorem YieldsAll.agree {branches : List (Complex A)} (h : YieldsAll nested text branches)
    (agree : AgreeBelow text.length nested nested') : YieldsAll nested' text branches := by
  induction h with
  | single hy hne => exact .single (hy.agree agree) hne
  | @comma first others parts branches hy hne _ ih =>
    have shorter := length_trim_le others
    rw [List.length_append, List.length_cons] at agree
    exact .comma (hy.agree (agree.mono (by omega))) hne (ih (agree.mono (by omega)))

/-- Any depth that exceeds the length of the text will do. -/
theorem readListWithin_deep {depth depth' : Nat} {list : SelectorList}
    (h : readListWithin depth text = .ok list) (enough : text.length < depth') :
    readListWithin depth' text = .ok list := by
  induction depth generalizing depth' text list with
  | zero => cases h
  | succ depth ih =>
    obtain ⟨depth', rfl⟩ : ∃ d, depth' = d + 1 := ⟨depth' - 1, by omega⟩
    obtain ⟨branches, hb, rfl⟩ := map_eq_ok.mp h
    have hall := (readBranches_iff (Nat.lt_succ_self _)).mp hb
    have agree : AgreeBelow text.length (readListWithin depth) (readListWithin depth') :=
      fun argument list short hr => ih hr (by omega)
    exact map_eq_ok.mpr ⟨branches,
      (readBranches_iff (Nat.lt_succ_self _)).mpr (hall.agree agree), rfl⟩

theorem agree_readListWithin {depth depth' : Nat} (deep : text.length ≤ depth') :
    AgreeBelow text.length (readListWithin depth) (readListWithin depth') :=
  fun _ _ short h => readListWithin_deep h (short.trans_le deep)

namespace SelectorList

variable {selector : String}

theorem readBranches_of_parse {list : SelectorList} (h : parse selector = .ok list) :
    readBranches (readListWithin selector.toList.length) selector.toList
      (selector.toList.length + 1) selector.toList = .ok list.branches := by
  obtain ⟨branches, hb, rfl⟩ := map_eq_ok.mp h
  exact hb

theorem parse_iff {branches : List (Complex SelectorList)}
    {depth : Nat} (deep : selector.toList.length ≤ depth) :
    (∃ list, parse selector = .ok list ∧ list.branches = branches) ↔
      YieldsAll (readListWithin depth) selector.toList branches := by
  constructor
  · rintro ⟨list, h, rfl⟩
    exact ((readBranches_iff (Nat.lt_succ_self _)).mp (readBranches_of_parse h)).agree
      (agree_readListWithin deep)
  · intro h
    have read : readBranches (readListWithin selector.toList.length) selector.toList
        (selector.toList.length + 1) selector.toList = .ok branches :=
      (readBranches_iff (Nat.lt_succ_self _)).mpr (h.agree (agree_readListWithin (Nat.le_refl _)))
    exact ⟨_, map_eq_ok.mpr ⟨branches, read, rfl⟩, rfl⟩

end SelectorList
end SelectorEngine
