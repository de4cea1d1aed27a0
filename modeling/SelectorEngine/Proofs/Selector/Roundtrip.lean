import SelectorEngine.Proofs.Selector.GroupEnds
import SelectorEngine.Proofs.Selector.Sources
import SelectorEngine.Proofs.Selector.Writing

/-! # Written chains are read back

Each simple selector ends where the next one of its compound starts, each compound at the space
behind it. So the readers find what was written, whatever characters names and values have. -/
namespace SelectorEngine
open Text

variable {A : Type} {nested : List Char → Except SelectorError A} {simple : Simple A}
  {simples : List (Simple A)} {c : Char} {block rest : List Char}

/-- The simple selector is made of a keyword and perhaps a number. -/
structure Keyworded (simple : Simple A) (keyword : String) (argument : Option (List Char)) :
    Prop where
  written : simple.written = ':' :: (keyword.toList ++ bracketed argument)
  label : Shape.isHyphenated keyword.toList = true
  numeric : ∀ text ∈ argument, text ≠ [] ∧ ∀ c ∈ text, isFormulaChar c = true
  made : ∃ form, PseudoForm.ofKeyword? (lowered keyword) = some form ∧
    ∀ nested, form.Makes nested argument simple

namespace Keyworded

theorem bare {keyword : String} {form : PseudoForm}
    (written : simple.written = ':' :: keyword.toList)
    (label : Shape.isHyphenated keyword.toList = true)
    (found : PseudoForm.ofKeyword? (lowered keyword) = some form)
    (made : ∀ nested, form.Makes nested none simple) :
    Keyworded simple keyword none where
  written := by rw [written, bracketed, List.append_nil]
  label := label
  numeric := nofun
  made := ⟨form, found, made⟩

theorem indexed {keyword : String} {place : Nat → Position} {index : Nat}
    (bound : index ≤ maxUnsigned)
    (display : (place index).display = ":" ++ keyword ++ "(" ++ toString index ++ ")")
    (label : Shape.isHyphenated keyword.toList = true)
    (found : PseudoForm.ofKeyword? (lowered keyword) = some (.indexed place)) :
    Keyworded (.position (place index) : Simple A) keyword (some (toString index).toList) where
  written := by
    rw [Simple.written, display]
    simp [bracketed]
  label := label
  numeric := by
    rintro text ⟨⟩
    rw [toList_toString]
    exact ⟨Nat.toDigits_ne_nil, fun c hc => isFormulaChar_of_mem hc⟩
  made := ⟨_, found, fun _ => .indexed (readIndex_toString bound)⟩

theorem nthChild {formula : AnPlusB} (hs : formula.step.natAbs ≤ maxSigned)
    (ho : formula.offset.natAbs ≤ maxSigned) :
    Keyworded (.child (.nth formula) : Simple A) "nth-child" (some formula.display.toList) where
  written := by
    rw [Simple.written, ChildPosition.display]
    simp [bracketed]
  label := by decide
  numeric := by
    rintro text ⟨⟩
    refine ⟨?_, AnPlusB.isFormulaChar_display⟩
    rw [AnPlusB.toList_display]
    simp
  made := ⟨.nthChild, rfl, fun _ => .nthChild (AnPlusB.read_display hs ho)⟩

end Keyworded

namespace Simple

theorem exists_keyworded_child {place : ChildPosition} (h : (child place : Simple A).Writable) :
    ∃ keyword argument, Keyworded (child place : Simple A) keyword argument := by
  cases place with
  | first => exact ⟨"first-child", none, .bare rfl (by decide) rfl fun _ => .child⟩
  | last => exact ⟨"last-child", none, .bare rfl (by decide) rfl fun _ => .child⟩
  | only => exact ⟨"only-child", none, .bare rfl (by decide) rfl fun _ => .child⟩
  | nth formula => exact ⟨_, _, .nthChild h.1 h.2⟩

theorem exists_keyworded_position {place : Position} (h : (position place : Simple A).Writable) :
    ∃ keyword argument, Keyworded (position place : Simple A) keyword argument := by
  cases place with
  | first => exact ⟨"first", none, .bare rfl (by decide) rfl fun _ => .position⟩
  | last => exact ⟨"last", none, .bare rfl (by decide) rfl fun _ => .position⟩
  | even => exact ⟨"even", none, .bare rfl (by decide) rfl fun _ => .position⟩
  | odd => exact ⟨"odd", none, .bare rfl (by decide) rfl fun _ => .position⟩
  | eq index => exact ⟨"eq", _, .indexed h rfl (by decide) rfl⟩
  | lt index => exact ⟨"lt", _, .indexed h rfl (by decide) rfl⟩
  | gt index => exact ⟨"gt", _, .indexed h rfl (by decide) rfl⟩

theorem exists_keyworded_pseudo (kind : PseudoClass) :
    ∃ keyword argument, Keyworded (pseudo kind : Simple A) keyword argument := by
  have label : Shape.isHyphenated kind.keyword.toList = true := by cases kind <;> decide
  have found : PseudoForm.ofKeyword? (lowered kind.keyword) = some (.state kind) := by
    cases kind <;> rfl
  exact ⟨kind.keyword, none, .bare rfl label found fun _ => .state⟩

def isWorded : Simple A → Bool
  | child _ | pseudo _ | position _ => true
  | _ => false

theorem exists_keyworded (h : simple.Writable) (worded : simple.isWorded = true) :
    ∃ keyword argument, Keyworded simple keyword argument := by
  cases simple with
  | child => exact exists_keyworded_child h
  | pseudo kind => exact exists_keyworded_pseudo kind
  | position => exact exists_keyworded_position h
  | _ => cases worded

end Simple

theorem readArgument_bracketed {argument : Option (List Char)}
    (h : ∀ content ∈ argument, IsArgument content) (resumes : Resumes rest) :
    EndsName (bracketed argument ++ rest) ∧
      readArgument (bracketed argument ++ rest) = .ok (argument, rest) := by
  have closed : '(' ∉ rest.head? := fun opened => absurd (resumes '(' opened) (by decide)
  refine ⟨?_, readArgument_iff.mpr ⟨h, fun _ => closed, rfl⟩⟩
  cases argument with
  | none => exact resumes.endsName
  | some content =>
    rintro c ⟨⟩
    exact ⟨by decide, by decide⟩

namespace Keyworded

variable {keyword : String} {argument : Option (List Char)}

theorem balanced (h : Keyworded simple keyword argument) :
    ∀ content ∈ argument, IsArgument content := by
  intro content hc
  exact isArgument_formula (h.numeric content hc).2

theorem passes (h : Keyworded simple keyword argument) :
    Passes .outside simple.written .outside := by
  have label : Passes .outside keyword.toList .outside := by
    apply Passes.inert
    intro c hc
    exact inert_of_isLabelChar ((Shape.isHyphenated_iff.mp h.label).2 c hc)
  have group : Passes .outside (bracketed argument) .outside := by
    cases argument with
    | none => exact .nil
    | some text => exact (h.balanced text rfl).passes
  rw [h.written]
  exact .cons (by decide) rfl (label.append group)

theorem reads (h : Keyworded simple keyword argument) (resumes : Resumes rest) :
    ReadsPseudo nested (keyword.toList ++ bracketed argument ++ rest) simple rest := by
  obtain ⟨form, found, made⟩ := h.made
  obtain ⟨hne, labels⟩ := Shape.isHyphenated_iff.mp h.label
  obtain ⟨ends, argued⟩ := readArgument_bracketed h.balanced resumes
  rw [List.append_assoc]
  refine .intro (readFullName_eq (readName_of_spells (spells_label labels) ends) hne) ?_ argued
    (made nested)
  rw [String.ofList_toList, found]

end Keyworded

theorem Passes.written (h : simple.Writable) : Passes .outside simple.written .outside := by
  cases simple with
  | universal => exact .cons (by decide) rfl .nil
  | tag name => exact .spell _
  | id name => exact .cons (by decide) rfl (.spell _)
  | className name => exact .cons (by decide) rfl (.spell _)
  | attr test => exact .test test
  | child | pseudo | position =>
    obtain ⟨keyword, argument, worded⟩ := Simple.exists_keyworded h rfl
    exact worded.passes
  | contains | has | not => exact h.elim

theorem Passes.compound (h : ∀ simple ∈ simples, simple.Writable) :
    Passes .outside (simples.flatMap Simple.written) .outside := by
  induction simples with
  | nil => exact .nil
  | cons simple simples ih =>
    obtain ⟨hs, h⟩ := List.forall_mem_cons.mp h
    rw [List.flatMap_cons]
    exact (Passes.written hs).append (ih h)

theorem Simple.exists_mark (h : simple.Writable) (behind : simple.isHead = false) :
    ∃ c tail, simple.written = c :: tail ∧ isMark c = true := by
  cases simple with
  | universal | tag => cases behind
  | id | className | attr => exact ⟨_, _, rfl, rfl⟩
  | child | pseudo | position =>
    obtain ⟨keyword, argument, worded⟩ := exists_keyworded h rfl
    exact ⟨_, _, worded.written, rfl⟩
  | contains | has | not => exact h.elim

/-- Behind the head of a compound, a simple selector is read up to the mark of the next one. -/
theorem Simple.reads {tail : List Char} (h : simple.Writable) (behind : simple.isHead = false)
    (written : simple.written = c :: tail) (resumes : Resumes rest) :
    ReadsSimple nested c (tail ++ rest) simple rest := by
  have named {name : String} (hne : name ≠ "") :
      readFullName (spell name.toList ++ rest) = .ok (name.toList, rest) :=
    readFullName_spell (fun he => hne (String.toList_inj.mp he)) resumes.endsName
  cases simple with
  | universal | tag => cases behind
  | id name =>
    obtain ⟨rfl, rfl⟩ := List.cons.inj written
    have read : ReadsSimple nested '#' _ (.id (String.ofList name.toList)) rest := .id (named h)
    rwa [String.ofList_toList] at read
  | className name =>
    obtain ⟨rfl, rfl⟩ := List.cons.inj written
    have read : ReadsSimple nested '.' _ (.className (String.ofList name.toList)) rest :=
      .className (named h)
    rwa [String.ofList_toList] at read
  | attr test =>
    obtain ⟨inner, start, read⟩ := readAttribute_written test h rest
    obtain ⟨rfl, rfl⟩ := List.cons.inj (start.symm.trans written)
    exact .attr read
  | child | pseudo | position =>
    obtain ⟨keyword, argument, worded⟩ := Simple.exists_keyworded h rfl
    obtain ⟨rfl, rfl⟩ := List.cons.inj (worded.written.symm.trans written)
    exact .pseudo (worded.reads resumes)
  | contains | has | not => exact h.elim

section Behind

variable (h : ∀ simple ∈ simples, simple.Writable)
  (behind : ∀ simple ∈ simples, simple.isHead = false)

include h behind

theorem resumes_written : Resumes (simples.flatMap Simple.written) := by
  cases simples with
  | nil => nofun
  | cons simple simples =>
    obtain ⟨c, tail, written, mark⟩ := Simple.exists_mark (h simple List.mem_cons_self)
      (behind simple List.mem_cons_self)
    rw [List.flatMap_cons, written]
    rintro d ⟨⟩
    exact mark

theorem readsSimples_written : ReadsSimples nested (simples.flatMap Simple.written) simples := by
  induction simples with
  | nil => exact .nil
  | cons simple simples ih =>
    obtain ⟨hs, h⟩ := List.forall_mem_cons.mp h
    obtain ⟨hb, behind⟩ := List.forall_mem_cons.mp behind
    obtain ⟨c, tail, written, -⟩ := Simple.exists_mark hs hb
    rw [List.flatMap_cons, written, List.cons_append]
    exact .cons (Simple.reads hs hb written (resumes_written h behind)) (ih h behind)

end Behind

theorem Simple.readsHead (h : simple.Writable) (head : simple.isHead = true)
    (resumes : Resumes rest) : ReadsHead (simple.written ++ rest) [simple] rest := by
  cases simple with
  | universal => exact .star
  | tag name =>
    have named : name.toList ≠ [] := fun he => h (String.toList_inj.mp he)
    have read : ReadsHead (A := A) _ [.tag (String.ofList name.toList)] rest :=
      .tag (readFullName_spell named resumes.endsName)
    rwa [String.ofList_toList] at read
  | _ => cases head

theorem readsHead_written (h : ∀ simple ∈ simples, simple.Writable)
    (heads : ∀ simple ∈ simples.tail, simple.isHead = false) :
    ∃ head others, simples = head ++ others ∧ (∀ simple ∈ others, simple.isHead = false) ∧
      ReadsHead (simples.flatMap Simple.written) head (others.flatMap Simple.written) := by
  cases simples with
  | nil => exact ⟨[], [], rfl, nofun, .nothing endsName_nil nofun⟩
  | cons simple simples =>
    obtain ⟨hs, others⟩ := List.forall_mem_cons.mp h
    cases hb : simple.isHead with
    | true =>
      exact ⟨[simple], simples, rfl, heads, Simple.readsHead hs hb (resumes_written others heads)⟩
    | false =>
      have behind : ∀ other ∈ simple :: simples, other.isHead = false :=
        List.forall_mem_cons.mpr ⟨hb, heads⟩
      exact ⟨[], simple :: simples, rfl, behind, (resumes_written h behind).readsHead⟩

theorem readCompound_written {block : Compound A} (h : block.Writable) :
    readCompound nested (block.simples.flatMap Simple.written) =
      .ok (Compound.written block.simples) := by
  obtain ⟨head, others, hs, behind, read⟩ := readsHead_written h.simples h.heads
  have writable : ∀ simple ∈ others, simple.Writable := by
    intro simple ho
    apply h.simples
    rw [hs]
    exact List.mem_append_right head ho
  have reads : ReadsCompound nested _ ⟨_, head ++ others⟩ :=
    .intro read (readsSimples_written writable behind) (hs ▸ h.some_simple)
  rw [← hs] at reads
  exact readCompound_iff.mpr reads

section Parts

variable {previous : Option (Part A)} {part : Part A} {parts : List (Part A)} {blanks : List Char}

theorem follow_of_alternating (h : (Chain.ofParts? parts).isSome = true) : Follow none parts := by
  unfold Chain.ofParts? at h
  split at h
  · simpa [Follow, linksOf?] using h
  · simpa [Follow] using h

theorem isOpenEnd_written (part : Part A) :
    isOpenEnd (some part.written) = isOpenEnd (some part) := by
  cases part <;> rfl

def spaced (parts : List (Part A)) : List Char :=
  parts.flatMap fun part => ' ' :: part.written.source.toList

theorem stops_spaced : Stops (spaced parts) := by
  cases parts with
  | nil => exact stops_nil
  | cons => exact stops_cons (by decide)

theorem Part.Writable.reads (h : part.Writable) : part.written.Reads nested := by
  cases part with
  | compound block =>
    have text : (Compound.written block.simples).source.toList =
        block.simples.flatMap Simple.written :=
      String.toList_ofList
    rw [Part.written, Part.Reads, text]
    exact ⟨(Passes.compound h.simples).isBlock, readCompound_written h⟩
  | combinator relation => exact h

theorem yields_cons (hp : part.Writable) (blank : ∀ c ∈ blanks, isBlank c = true)
    (stops : Stops rest) (closed : isOpenEnd (some part) = true → isOpenEnd previous = false)
    (h : Yields nested (some part.written) rest parts) :
    Yields nested previous (blanks ++ (part.written.source.toList ++ rest))
      (part.written :: parts) :=
  hp.reads.yields blank (fun _ _ => stops) (fun ho => closed (isOpenEnd_written part ▸ ho)) h

theorem yields_spaced (h : Follow (some part) parts) (hp : ∀ part ∈ parts, part.Writable) :
    Yields nested (some part.written) (spaced parts) (parts.map Part.written) := by
  induction parts generalizing part with
  | nil => exact .done ((isOpenEnd_written part).trans h.closed) nofun
  | cons next parts ih =>
    obtain ⟨hn, hp⟩ := List.forall_mem_cons.mp hp
    obtain ⟨follow, closed⟩ := h.of_cons
    have blank : ∀ c ∈ [' '], isBlank c = true := by simp [isBlank, blankCodes]
    exact yields_cons hn blank stops_spaced (fun ho => (isOpenEnd_written part).trans (closed ho))
      (ih follow hp)

theorem toList_display_written (part : Part A) (parts : List (Part A)) :
    (Complex.written (part :: parts)).display.toList =
      part.written.source.toList ++ spaced parts := by
  rw [Complex.written, List.map_cons, Complex.toList_display, List.map_map, List.flatMap_map]
  rfl

end Parts

theorem SelectorList.parse_compound {block : Compound SelectorList} (h : block.Writable) :
    ∃ list, parse (Compound.written block.simples).source = .ok list ∧
      list.branches = [{ parts := [.compound (.written block.simples)] }] := by
  refine (SelectorList.parse_iff (Nat.le_refl _)).mpr (.single ?_ (List.cons_ne_nil _ _))
  generalize readListWithin _ = nested
  rw [Compound.written, String.toList_ofList]
  exact .block (List.forall_mem_nil _) (Passes.compound h.simples).isBlock (readCompound_written h)

/-- A chain is read back from what is written for it. -/
theorem Complex.parse_written {parts : List (Part SelectorList)} (h : Writable parts) :
    parse (written parts).display = .ok (written parts) := by
  obtain ⟨part, parts, rfl⟩ := List.exists_cons_of_ne_nil h.some_part
  obtain ⟨hp, others⟩ := List.forall_mem_cons.mp h.parts
  obtain ⟨follow, -⟩ := (follow_of_alternating h.alternating).of_cons
  rw [parse, toList_display_written]
  generalize readListWithin _ = nested
  have yields : Yields nested none (part.written.source.toList ++ spaced parts)
      (part.written :: parts.map Part.written) :=
    yields_cons hp (List.forall_mem_nil _) stops_spaced (fun _ => rfl) (yields_spaced follow others)
  rw [readComplex, readParts_yields_end yields (.inr (List.cons_ne_nil _ _)) (Nat.lt_succ_self _)]
  rfl

def markedParts : List (Part SelectorList) :=
  [.compound ⟨"", [.tag "a, b", .id ")", .className "\"", .attr ⟨"]", some (.includes, "\\\"'")⟩,
    .child (.nth ⟨-2, 3⟩), .position (.gt 7)]⟩, .combinator .child,
    .compound ⟨"", [.universal, .pseudo .checked]⟩, .compound ⟨"", [.className " "]⟩]

theorem Complex.parse_written_marked : Writable markedParts ∧
    parse "\\a\\,\\ \\b#\\).\\\"[\\]~=\"\\\\\\\"'\"]:nth-child(-2n+3):gt(7) > *:checked .\\ " =
      .ok (written markedParts) := by
  have writable : Writable markedParts := by
    refine ⟨List.cons_ne_nil _ _, rfl, ?_⟩
    simp only [markedParts, List.forall_mem_cons]
    refine ⟨⟨List.cons_ne_nil _ _, ?_, ?_⟩, Combinator.noConfusion, ⟨List.cons_ne_nil _ _, ?_, ?_⟩,
      ⟨List.cons_ne_nil _ _, ?_, nofun⟩, nofun⟩
    all_goals simp [Simple.Writable, Simple.isHead]
    -- The numbers are in bounds.
    decide
  have display : (written markedParts).display =
      "\\a\\,\\ \\b#\\).\\\"[\\]~=\"\\\\\\\"'\"]:nth-child(-2n+3):gt(7) > *:checked .\\ " := by
    decide +kernel
  exact ⟨writable, display ▸ parse_written writable⟩

end SelectorEngine
