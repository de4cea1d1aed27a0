import SelectorEngine.Proofs.Selector.Attributes
import SelectorEngine.Proofs.Selector.Roundtrip

/-! # The grammar of compounds

A compound is a star or a name, either of which may be missing, and then any number of pieces behind
marks. Every text that is put together in this way is read, and no other text is. -/
namespace SelectorEngine
open Text

def IsIndex (text : List Char) : Prop :=
  ∃ digits, (trim text = digits ∨ trim text = '+' :: digits) ∧ digits ≠ [] ∧
    (∀ c ∈ digits, c.isDigit = true) ∧ digitsValue digits ≤ maxUnsigned

/-- The inner text is what is left of an argument once a pair of quotes around it is gone. -/
def Strips (argument inner : List Char) : Prop :=
  (∃ quote, isQuote quote = true ∧ trim argument = quote :: (inner ++ [quote])) ∨
    inner = argument ∧ ∀ quote text, isQuote quote = true →
      trim argument ≠ quote :: (text ++ [quote])

/-- Whether a pseudo-class stands with the argument, or with none. -/
def PseudoForm.Takes : PseudoForm → (argument : Option (List Char)) → Prop
  | child _, none | state _, none | position _, none => True
  | nthChild, some text => ∃ formula, AnPlusB.read text = some formula
  | indexed _, some text => IsIndex text
  | contains, some _ => True
  | has, some text | not, some text =>
    ∃ inner list, Strips text inner ∧ SelectorList.parse (String.ofList inner) = .ok list
  | _, _ => False

def IsKeyword (text : List Char) (form : PseudoForm) : Prop :=
  ∃ name keyword, Spells text name ∧ sameLetters (String.ofList name) keyword = true ∧
    PseudoForm.ofKeyword? keyword = some form

inductive IsPiece : List Char → Prop where
  | id {name} : IsName name → IsPiece ('#' :: name)
  | className {name} : IsName name → IsPiece ('.' :: name)
  | test {text} : IsAttribute text → IsPiece ('[' :: text)
  | pseudo {keyword form argument} : IsKeyword keyword form →
      (∀ content ∈ argument, IsArgument content) → form.Takes argument →
      IsPiece (':' :: (keyword ++ bracketed argument))

def IsHead (text : List Char) : Prop := text = ['*'] ∨ ∃ name, Spells text name

/-- A head and pieces of which not every one is empty. -/
def IsCompound (text : List Char) : Prop :=
  text ≠ [] ∧ ∃ (head : List Char) (pieces : List (List Char)), IsHead head ∧
    (∀ piece ∈ pieces, IsPiece piece) ∧ text = head ++ pieces.flatten

variable {A : Type} {nested : List Char → Except SelectorError A} {simple : Simple A}
  {simples : List (Simple A)} {c : Char} {text rest name inner argument block : List Char}
  {form : PseudoForm}

theorem isIndex_iff : IsIndex text ↔ ∃ index, readIndex text = some index := by
  constructor
  · rintro ⟨digits, ht, hne, hd, bound⟩
    refine ⟨digitsValue digits, ?_⟩
    have read := readNumeral_eq_some.mpr ⟨hne, hd, bound, rfl⟩
    rw [readIndex]
    rcases ht with rfl | ht
    · split
      · next digits he =>
        -- A plus sign is no digit.
        have plus : '+' ∈ trim text := he ▸ List.mem_cons_self
        cases hd _ plus
      · exact read
    · rw [ht]
      exact read
  · rintro ⟨index, h⟩
    rw [readIndex] at h
    split at h
    · next digits he =>
      obtain ⟨hne, hd, bound, -⟩ := readNumeral_eq_some.mp h
      exact ⟨digits, .inr he, hne, hd, bound⟩
    · obtain ⟨hne, hd, bound, -⟩ := readNumeral_eq_some.mp h
      exact ⟨trim text, .inl rfl, hne, hd, bound⟩

theorem unquote_pair {quote : Char} (hq : isQuote quote = true)
    (h : trim argument = quote :: (inner ++ [quote])) : unquote argument = inner := by
  rw [unquote, h]
  simp [hq]

theorem unquote_self
    (h : ∀ quote text, isQuote quote = true → trim argument ≠ quote :: (text ++ [quote])) :
    unquote argument = argument := by
  unfold unquote
  simp only
  split
  · next opening closing first last =>
    split
    · next pair =>
      obtain ⟨hq, rfl⟩ := pair
      obtain ⟨tail, ht⟩ := List.head?_eq_some_iff.mp first
      rw [ht, List.tail_cons] at last
      obtain ⟨text, rfl⟩ := List.getLast?_eq_some_iff.mp last
      exact absurd ht (h opening text hq)
    · rfl
  · rfl

theorem strips_iff : Strips argument inner ↔ unquote argument = inner := by
  constructor
  · rintro (⟨quote, hq, h⟩ | ⟨rfl, h⟩)
    · exact unquote_pair hq h
    · exact unquote_self h
  · rintro rfl
    by_cases h : ∃ quote text, isQuote quote = true ∧ trim argument = quote :: (text ++ [quote])
    · obtain ⟨quote, text, hq, h⟩ := h
      refine .inl ⟨quote, hq, ?_⟩
      rw [unquote_pair hq h]
      exact h
    · have unpaired (quote : Char) (text : List Char) (hq : isQuote quote = true) :
          trim argument ≠ quote :: (text ++ [quote]) := fun he => h ⟨quote, text, hq, he⟩
      exact .inr ⟨unquote_self unpaired, unpaired⟩

theorem lowered_keyword {keyword : String} (h : PseudoForm.ofKeyword? keyword = some form) :
    lowered keyword = keyword := by
  unfold PseudoForm.ofKeyword? at h
  split at h
  case h_16 =>
    obtain ⟨kind, found, -⟩ := Option.map_eq_some_iff.mp h
    have written := List.find?_some found
    rw [beq_iff_eq] at written
    subst written
    cases kind <;> decide
  all_goals decide

theorem sameLetters_iff {a b : String} : sameLetters a b = true ↔ lowered a = lowered b := by
  rw [sameLetters, lowered, lowered, beq_iff_eq, String.ofList_inj]

theorem isKeyword_iff : IsKeyword text form ↔
    ∃ name, Spells text name ∧
      PseudoForm.ofKeyword? (lowered (String.ofList name)) = some form := by
  constructor
  · rintro ⟨name, keyword, hs, same, h⟩
    rw [sameLetters_iff, lowered_keyword h] at same
    exact ⟨name, hs, same ▸ h⟩
  · rintro ⟨name, hs, h⟩
    exact ⟨name, _, hs, sameLetters_iff.mpr (lowered_keyword h).symm, h⟩

def readList (text : List Char) : Except SelectorError SelectorList :=
  SelectorList.parse (String.ofList text)

theorem readList_eq (text : List Char) : readList text = readListWithin (text.length + 1) text := by
  rw [readList, SelectorList.parse, String.toList_ofList]

theorem exists_makes_iff {argument : Option (List Char)} :
    (∃ simple, form.Makes readList argument simple) ↔ form.Takes argument := by
  constructor
  · rintro ⟨_, makes⟩
    cases makes with
    | child | state | position | contains => trivial
    | nthChild read => exact ⟨_, read⟩
    | indexed read => exact isIndex_iff.mpr ⟨_, read⟩
    | has read | not read => exact ⟨_, _, strips_iff.mpr rfl, read⟩
  · intro takes
    cases argument with
    | none =>
      cases form with
      | child => exact ⟨_, .child⟩
      | state => exact ⟨_, .state⟩
      | position => exact ⟨_, .position⟩
      | _ => exact takes.elim
    | some text =>
      cases form with
      | nthChild =>
        obtain ⟨formula, read⟩ := takes
        exact ⟨_, .nthChild read⟩
      | indexed =>
        obtain ⟨index, read⟩ := isIndex_iff.mp takes
        exact ⟨_, .indexed read⟩
      | contains => exact ⟨_, .contains⟩
      | has =>
        obtain ⟨inner, list, strips, read⟩ := takes
        obtain rfl := strips_iff.mp strips
        exact ⟨_, .has read⟩
      | not =>
        obtain ⟨inner, list, strips, read⟩ := takes
        obtain rfl := strips_iff.mp strips
        exact ⟨_, .not read⟩
      | _ => exact takes.elim

theorem exists_readFullName_iff : (∃ name, readFullName text = .ok (name, rest)) ↔
    ∃ spelling, IsName spelling ∧ EndsName rest ∧ text = spelling ++ rest := by
  constructor
  · rintro ⟨name, h⟩
    obtain ⟨hne, spelling, hs, ends, ht⟩ := readFullName_iff.mp h
    exact ⟨spelling, ⟨name, hne, hs⟩, ends, ht⟩
  · rintro ⟨spelling, ⟨name, hne, hs⟩, ends, ht⟩
    exact ⟨name, readFullName_iff.mpr ⟨hne, spelling, hs, ends, ht⟩⟩

theorem name_ne_nil (h : PseudoForm.ofKeyword? (lowered (String.ofList name)) = some form) :
    name ≠ [] := by
  rintro rfl
  cases h

theorem IsPiece.exists_mark (h : IsPiece text) : ∃ c tail, text = c :: tail ∧ isMark c = true := by
  cases h <;> exact ⟨_, _, rfl, rfl⟩

theorem IsPiece.reads (h : IsPiece (c :: text)) (resumes : Resumes rest) :
    ∃ simple, ReadsSimple readList c (text ++ rest) simple rest := by
  cases h with
  | id hn =>
    obtain ⟨name, read⟩ := exists_readFullName_iff.mpr ⟨text, hn, resumes.endsName, rfl⟩
    exact ⟨_, .id read⟩
  | className hn =>
    obtain ⟨name, read⟩ := exists_readFullName_iff.mpr ⟨text, hn, resumes.endsName, rfl⟩
    exact ⟨_, .className read⟩
  | test ha =>
    obtain ⟨test, read⟩ := exists_readAttribute_iff.mpr ⟨text, ha, rfl⟩
    exact ⟨_, .attr read⟩
  | pseudo hk ha ht =>
    obtain ⟨name, hs, found⟩ := isKeyword_iff.mp hk
    obtain ⟨ends, argued⟩ := readArgument_bracketed ha resumes
    obtain ⟨simple, makes⟩ := exists_makes_iff.mpr ht
    have named := readFullName_iff.mpr ⟨name_ne_nil found, _, hs, ends, rfl⟩
    rw [List.append_assoc]
    exact ⟨simple, .pseudo (.intro named found argued makes)⟩

theorem ReadsSimple.piece {simple : Simple SelectorList}
    (h : ReadsSimple readList c text simple rest) :
    ∃ tail, IsPiece (c :: tail) ∧ text = tail ++ rest := by
  cases h with
  | id read =>
    obtain ⟨spelling, hn, -, ht⟩ := exists_readFullName_iff.mp ⟨_, read⟩
    exact ⟨spelling, .id hn, ht⟩
  | className read =>
    obtain ⟨spelling, hn, -, ht⟩ := exists_readFullName_iff.mp ⟨_, read⟩
    exact ⟨spelling, .className hn, ht⟩
  | attr read =>
    obtain ⟨piece, ha, ht⟩ := exists_readAttribute_iff.mp ⟨_, read⟩
    exact ⟨piece, .test ha, ht⟩
  | pseudo h =>
    obtain @⟨name, _, form, argument, hn, found, ha, makes⟩ := h
    obtain ⟨-, keyword, hs, -, rfl⟩ := readFullName_iff.mp hn
    obtain ⟨balanced, -, rfl⟩ := readArgument_iff.mp ha
    exact ⟨keyword ++ bracketed argument, .pseudo (isKeyword_iff.mpr ⟨name, hs, found⟩) balanced
      (exists_makes_iff.mp ⟨_, makes⟩), (List.append_assoc ..).symm⟩

section Pieces

variable {pieces : List (List Char)} {limit : Nat}

theorem resumes_pieces (h : ∀ piece ∈ pieces, IsPiece piece) : Resumes pieces.flatten := by
  cases pieces with
  | nil => nofun
  | cons piece pieces =>
    obtain ⟨c, tail, rfl, mark⟩ := (h piece List.mem_cons_self).exists_mark
    rintro d ⟨⟩
    exact mark

theorem reads_pieces (h : ∀ piece ∈ pieces, IsPiece piece) :
    ∃ simples, ReadsSimples readList pieces.flatten simples := by
  induction pieces with
  | nil => exact ⟨[], .nil⟩
  | cons piece pieces ih =>
    obtain ⟨hp, behind⟩ := List.forall_mem_cons.mp h
    obtain ⟨c, tail, rfl, -⟩ := hp.exists_mark
    obtain ⟨simple, first⟩ := hp.reads (resumes_pieces behind)
    obtain ⟨simples, others⟩ := ih behind
    exact ⟨simple :: simples, .cons first others⟩

end Pieces

theorem ReadsSimples.pieces {simples : List (Simple SelectorList)}
    (h : ReadsSimples readList text simples) :
    ∃ pieces : List (List Char), (∀ piece ∈ pieces, IsPiece piece) ∧ text = pieces.flatten := by
  induction h with
  | nil => exact ⟨[], nofun, rfl⟩
  | cons hs _ ih =>
    obtain ⟨tail, hp, rfl⟩ := hs.piece
    obtain ⟨pieces, behind, rfl⟩ := ih
    exact ⟨_ :: pieces, List.forall_mem_cons.mpr ⟨hp, behind⟩, rfl⟩

theorem ReadsSimples.nil_iff (h : ReadsSimples nested text simples) : simples = [] ↔ text = [] := by
  cases h <;> simp

theorem Spells.nil_iff (h : Spells text name) : name = [] ↔ text = [] := by
  cases h <;> simp

theorem IsHead.reads {head : List Char} (h : IsHead head) (resumes : Resumes rest) :
    ∃ simples, ReadsHead (A := A) (head ++ rest) simples rest ∧ (simples = [] ↔ head = []) := by
  rcases h with rfl | ⟨name, hs⟩
  · exact ⟨_, .star, by simp⟩
  · cases name with
    | nil =>
      obtain rfl := hs.nil_iff.mp rfl
      exact ⟨_, resumes.readsHead, by simp⟩
    | cons c name =>
      have hne := List.cons_ne_nil c name
      have read := readFullName_iff.mpr ⟨hne, head, hs, resumes.endsName, rfl⟩
      exact ⟨_, .tag read, by simp [mt hs.nil_iff.mpr hne]⟩

theorem ReadsHead.isHead (h : ReadsHead text simples rest) :
    ∃ head, IsHead head ∧ (simples = [] ↔ head = []) ∧ text = head ++ rest := by
  cases h with
  | star => exact ⟨['*'], .inl rfl, by simp, rfl⟩
  | tag read =>
    obtain ⟨hne, spelling, hs, -, ht⟩ := readFullName_iff.mp read
    exact ⟨spelling, .inr ⟨_, hs⟩, by simp [mt hs.nil_iff.mpr hne], ht⟩
  | nothing => exact ⟨[], .inr ⟨[], .nil⟩, by simp, rfl⟩

theorem exists_readCompound_iff : (∃ compound, readCompound readList text = .ok compound) ↔
    IsCompound text := by
  constructor
  · rintro ⟨compound, h⟩
    obtain ⟨hh, hs, some_simple⟩ := readCompound_iff.mp h
    obtain ⟨head, hd, none_first, rfl⟩ := hh.isHead
    obtain ⟨pieces, hp, rfl⟩ := hs.pieces
    refine ⟨fun empty => some_simple ?_, head, pieces, hd, hp, rfl⟩
    obtain ⟨no_head, no_pieces⟩ := List.append_eq_nil_iff.mp empty
    rw [none_first.mpr no_head, hs.nil_iff.mpr no_pieces]
    rfl
  · rintro ⟨hne, head, pieces, hd, hp, rfl⟩
    obtain ⟨first, hh, none_first⟩ := hd.reads (resumes_pieces hp)
    obtain ⟨others, hs⟩ := reads_pieces hp
    refine ⟨_, readCompound_iff.mpr (.intro hh hs fun missing => hne ?_)⟩
    obtain ⟨no_first, no_others⟩ := List.append_eq_nil_iff.mp missing
    rw [none_first.mp no_first, hs.nil_iff.mp no_others]
    rfl

/-- A text is read as a compound if and only if it follows the grammar. -/
theorem Compound.exists_parse_iff (block : String) :
    (∃ compound, parse block = .ok compound) ↔ IsCompound block.toList := by
  have shallow : AgreeBelow block.toList.length (readListWithin block.toList.length) readList := by
    intro text list _ h
    rw [readList_eq]
    exact readListWithin_deep h (Nat.lt_succ_self _)
  have deep : AgreeBelow block.toList.length readList (readListWithin block.toList.length) := by
    intro text list short h
    rw [readList_eq] at h
    exact readListWithin_deep h short
  rw [← exists_readCompound_iff]
  constructor
  · rintro ⟨compound, h⟩
    exact ⟨compound, readCompound_agree shallow h⟩
  · rintro ⟨compound, h⟩
    exact ⟨compound, readCompound_agree deep h⟩

end SelectorEngine
