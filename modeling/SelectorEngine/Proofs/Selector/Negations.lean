import SelectorEngine.Proofs.Selector.Reading
import SelectorEngine.Proofs.Selector.Grammar

/-! # Lists as arguments of negations

Every selector that is read can stand between the brackets of a negation: its own brackets and
escapes are closed again, and it does not start with a quote. There it is read as the list that it
is read as on its own. -/
namespace SelectorEngine
open Text

namespace Nesting

def enclosed (n : Nesting) : Nesting := ⟨n.brackets ++ [Bracket.round], n.mode⟩

theorem enclosed_inside (n : Nesting) : n.enclosed.brackets ≠ [] := by simp [enclosed]

variable {n next : Nesting} {c : Char}

theorem close_enclosed {b : Bracket} {brackets : List Bracket} (h : close b brackets = some next) :
    close b (brackets ++ [Bracket.round]) = some next.enclosed := by
  cases brackets with
  | nil => cases h
  | cons innermost outer =>
    rw [close] at h
    rw [List.cons_append, close]
    split at h
    · next same =>
      cases h
      rw [if_pos same]
      rfl
    · cases h

theorem advancePlain_enclosed {brackets : List Bracket} (h : advancePlain brackets c = some next) :
    advancePlain (brackets ++ [Bracket.round]) c = some next.enclosed := by
  -- A quote opens a string in square brackets only, and the outermost ones are round.
  have square : ((brackets ++ [Bracket.round]).head? == some Bracket.square) =
      (brackets.head? == some .square) := by
    cases brackets <;> rfl
  unfold advancePlain at h ⊢
  rw [square]
  split_ifs at h ⊢
  case pos => cases h; rfl
  case pos => cases h; rfl
  case pos => cases h; rfl
  case pos => cases h; rfl
  case pos => exact close_enclosed h
  case pos => exact close_enclosed h
  case neg => cases h; rfl

theorem advance_enclosed (h : n.advance c = some next) :
    n.enclosed.advance c = some next.enclosed := by
  obtain ⟨brackets, mode⟩ := n
  cases mode with
  | plain => exact advancePlain_enclosed h
  | opened =>
    simp only [advance, enclosed] at h ⊢
    split_ifs at h ⊢
    · cases h
      rfl
    · cases h
      rfl
    · exact advancePlain_enclosed h
  | quoted quote =>
    simp only [advance, enclosed] at h ⊢
    split_ifs at h ⊢ <;> cases h <;> rfl
  | escaped quote => cases quote <;> cases h <;> rfl

end Nesting

def Nesting.between : Nesting := Nesting.outside.enclosed

namespace Scans

variable {n : Nesting} {text block blanks : List Char}

/-- A block is closed again, whatever stands around it. -/
theorem of_block (h : IsBlock n block) : Scans n.enclosed block .between := by
  induction block generalizing n with
  | nil =>
    obtain rfl := IsBlock.nil_iff.mp h
    exact .nil
  | cons c block ih =>
    obtain ⟨-, next, ha, hb⟩ := IsBlock.cons_iff.mp h
    exact .cons (Nesting.advance_enclosed ha) next.enclosed_inside (ih hb)

theorem of_ordinary (h : ∀ c ∈ text, Bracket.round.isOrdinary c = true) :
    Scans .between text .between :=
  stay (fun c hc => advancePlain_ordinary (h c hc)) (List.cons_ne_nil _ _)

theorem of_blanks (blank : ∀ c ∈ blanks, isBlank c = true) : Scans .between blanks .between :=
  of_ordinary fun c hc => isOrdinary_of_class (by decide) (blank c hc)

end Scans

section Reading

variable {A : Type} {nested : List Char → Except SelectorError A} {previous : Option (Part A)}
  {text : List Char} {parts : List (Part A)} {branches : List (Complex A)}

theorem isOrdinary_of_ofChar? {c : Char} {relation : Combinator}
    (h : Combinator.ofChar? c = some relation) : Bracket.round.isOrdinary c = true := by
  unfold Combinator.ofChar? at h
  split at h
  case h_4 => cases h
  all_goals decide

theorem Yields.scans (h : Yields nested previous text parts) : Scans .between text .between := by
  induction h with
  | done _ blank => exact .of_blanks blank
  | combinator _ blank hc _ ih =>
    have step : Scans .between [_] .between := .of_ordinary fun c he =>
      List.mem_singleton.mp he ▸ isOrdinary_of_ofChar? hc
    exact (Scans.of_blanks blank).append (step.append ih)
  | compound blank hb _ _ _ ih =>
    exact (Scans.of_blanks blank).append ((Scans.of_block hb).append ih)

theorem YieldsAll.scans (h : YieldsAll nested text branches) : Scans .between text .between := by
  induction h with
  | single hy _ => exact hy.scans
  | @comma first others parts branches hy _ _ ih =>
    obtain ⟨before, after, hb, ha, -, ho⟩ := exists_trimmed others
    have comma : Scans .between [','] .between :=
      .of_ordinary (List.forall_mem_singleton.mpr rfl)
    have behind : Scans .between others .between := by
      rw [ho]
      exact (Scans.of_blanks hb).append (ih.append (.of_blanks ha))
    exact hy.scans.append (comma.append behind)

/-- Behind its blanks the text starts with a character that is no quote. -/
def StartsBare (text : List Char) : Prop :=
  ∃ blanks c rest, (∀ c ∈ blanks, isBlank c = true) ∧ isBlank c = false ∧ isQuote c = false ∧
    text = blanks ++ c :: rest

theorem StartsBare.append (h : StartsBare text) (others : List Char) :
    StartsBare (text ++ others) := by
  obtain ⟨blanks, c, rest, blank, solid, quote, rfl⟩ := h
  exact ⟨blanks, c, rest ++ others, blank, solid, quote, by simp⟩

theorem StartsBare.head? (h : StartsBare text) :
    ∀ c ∈ (skipBlank text).head?, isQuote c = false := by
  obtain ⟨blanks, c, rest, blank, solid, quote, rfl⟩ := h
  rw [skipBlank_append blank, skipBlank_cons solid]
  rintro d ⟨⟩
  exact quote

theorem isQuote_of_readCompound {c : Char} {block : List Char} {compound : Compound A}
    (h : readCompound nested (c :: block) = .ok compound) : isQuote c = false := by
  obtain ⟨hh, hs, -⟩ := readCompound_iff.mp h
  have first : isNameChar c = true ∨ c = '\\' ∨ c = '*' ∨ isMark c = true := by
    cases hh with
    | star => exact .inr (.inr (.inl rfl))
    | tag hn => exact (head?_of_readFullName hn c rfl).imp_right .inl
    | nothing => exact .inr (.inr (.inr (hs.resumes c rfl)))
  rw [isQuote, Bool.or_eq_false_iff, beq_eq_false_iff_ne, beq_eq_false_iff_ne]
  constructor <;>
  · rintro rfl
    revert first
    decide

theorem Yields.startsBare (h : Yields nested previous text parts) (hne : parts ≠ []) :
    StartsBare text := by
  cases h with
  | done => exact absurd rfl hne
  | @combinator _ blanks c _ rest _ _ blank hc _ =>
    refine ⟨blanks, c, rest, blank, isBlank_of_ofChar? hc, ?_, rfl⟩
    by_contra quote
    rw [Bool.not_eq_false, isQuote, Bool.or_eq_true, beq_iff_eq, beq_iff_eq] at quote
    rcases quote with rfl | rfl <;> cases hc
  | @compound _ blanks block rest _ _ blank hb _ hc _ =>
    cases block with
    | nil => cases hc
    | cons c block =>
      exact ⟨blanks, c, block ++ rest, blank, isBlank_of_not_boundary hb.not_boundary,
        isQuote_of_readCompound hc, rfl⟩

theorem YieldsAll.startsBare (h : YieldsAll nested text branches) : StartsBare text := by
  cases h with
  | single hy hne => exact hy.startsBare hne
  | comma hy hne _ => exact (hy.startsBare hne).append _

theorem YieldsAll.isArgument (h : YieldsAll nested text branches) : IsArgument text := by
  obtain ⟨mode, hm, scans⟩ := Scans.opened h.scans h.startsBare.head?
  have closes : scanGroup ⟨[.round], mode⟩ [')'] = .ok ([], []) := by
    rcases hm with rfl | rfl <;> rfl
  have group : readGroup .round (text ++ [')']) = .ok (text, []) := by
    rw [readGroup, Nesting.inside, scans.scanGroup, closes]
    simp [Except.map]
  exact (readGroup_round_iff.mp group).1

theorem unquote_bare (h : StartsBare text) : unquote text = text := by
  refine unquote_self fun quote inner hq ht => ?_
  obtain ⟨before, after, hb, -, bare, hs⟩ := exists_trimmed text
  have solid : isBlank quote = false := bare.1 quote (by rw [ht]; rfl)
  have first : skipBlank text = quote :: (inner ++ [quote] ++ after) := by
    rw [hs, ht, skipBlank_append hb, List.cons_append, skipBlank_cons solid]
  cases hq.symm.trans (h.head? quote (by rw [first]; rfl))

end Reading

def negation (argument : List Char) : List Char :=
  ':' :: ("not".toList ++ bracketed (some argument))

variable {argument : List Char} {list : SelectorList}

theorem passes_negation (h : IsArgument argument) :
    Passes .outside (negation argument) .outside := by
  have labels : ∀ c ∈ "not".toList, isLabelChar c = true := List.all_eq_true.mp rfl
  have word : Passes .outside "not".toList .outside :=
    Passes.inert fun c hc => inert_of_isLabelChar (labels c hc)
  exact .cons (by decide) rfl (word.append h.passes)

theorem readCompound_negation {nested : List Char → Except SelectorError SelectorList}
    (h : IsArgument argument) (read : nested (unquote argument) = .ok list) :
    readCompound nested (negation argument) =
      .ok ⟨String.ofList (negation argument), [.not list]⟩ := by
  have balanced : ∀ content ∈ some argument, IsArgument content := by
    rintro _ ⟨⟩
    exact h
  have last : Resumes [] := nofun
  obtain ⟨ends, argued⟩ := readArgument_bracketed balanced last
  rw [List.append_nil] at ends argued
  have labels : ∀ c ∈ "not".toList, isLabelChar c = true := List.all_eq_true.mp rfl
  have named := readFullName_eq (readName_of_spells (spells_label labels) ends) (by decide)
  have keyword : lowered (String.ofList "not".toList) = "not" := by decide
  have found : PseudoForm.ofKeyword? (lowered (String.ofList "not".toList)) = some .not := by
    rw [keyword]
    rfl
  exact readCompound_mark nested (.pseudo (.intro named found argued (.not read)))

/-- A negation of what is read on its own is read as the negation of the list that it is read as. -/
theorem SelectorList.parse_negation {selector : String} (read : parse selector = .ok list) :
    ∃ negated source, parse (":not(" ++ selector ++ ")") = .ok negated ∧
      negated.branches = [{ parts := [.compound ⟨source, [.not list]⟩] }] := by
  have text : (":not(" ++ selector ++ ")").toList = negation selector.toList := by
    simp [negation, bracketed]
  have yields := yieldsAll_of_parse read
  have inner : readListWithin (negation selector.toList).length (unquote selector.toList) =
      .ok list := by
    rw [unquote_bare yields.startsBare]
    refine readListWithin_deep read ?_
    simp [negation, bracketed]
    omega
  have block := readCompound_negation yields.isArgument inner
  have whole : Yields (readListWithin (negation selector.toList).length) none
      (negation selector.toList) [.compound ⟨_, [.not list]⟩] :=
    .block (List.forall_mem_nil _) (passes_negation yields.isArgument).isBlock block
  rw [← text] at whole
  obtain ⟨negated, parsed, branches⟩ :=
    (parse_iff (Nat.le_refl _)).mpr (YieldsAll.single whole (List.cons_ne_nil _ _))
  exact ⟨negated, _, parsed, branches⟩

end SelectorEngine
