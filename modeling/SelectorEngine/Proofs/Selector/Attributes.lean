import SelectorEngine.Proofs.Selector.Lexemes

/-! # The grammar of attribute tests

An attribute test is a name, and perhaps an operator and its operand. Blanks may stand around each
of them. Every test that is put together in this way is read, and no other text is. -/
namespace SelectorEngine
open Text

def IsName (text : List Char) : Prop := ∃ name, name ≠ [] ∧ Spells text name

/-- The text is the operand of a comparison in front of the rest: a string, or a name that may be
empty and may have a number sign in front. -/
inductive IsOperand : (text rest : List Char) → Prop where
  | string {quote text content rest} : isQuote quote = true → Quotes quote text content →
      IsOperand (quote :: (text ++ [quote])) rest
  | name {text name rest} : Spells text name → EndsName rest → IsOperand text rest
  | hash {text name rest} : Spells text name → EndsName rest → IsOperand ('#' :: text) rest

/-- What follows the name of an attribute: a comparison, if there is one, and the closing
bracket. -/
inductive IsAttributeEnd : List Char → Prop where
  | bare {blanks} : Blanks blanks [']'] → IsAttributeEnd (blanks ++ [']'])
  | compared {blanks more operand last} (operator : AttributeOperator) :
      Blanks blanks operator.symbol.toList → Blanks more (operand ++ (last ++ [']'])) →
      IsOperand operand (last ++ [']']) → Blanks last [']'] →
      IsAttributeEnd
        (blanks ++ (operator.symbol.toList ++ (more ++ (operand ++ (last ++ [']'])))))

inductive IsAttribute : List Char → Prop where
  | intro {blanks name rest} : Blanks blanks (name ++ rest) → IsName name → EndsName rest →
      IsAttributeEnd rest → IsAttribute (blanks ++ (name ++ rest))

variable {text rest name : List Char} {c : Char}

theorem AttributeOperator.symbol_cons (operator : AttributeOperator) :
    ∃ c tail, operator.symbol.toList = c :: tail ∧ isNameChar c = false ∧ c ≠ '\\' ∧
      isBlank c = false ∧ c ≠ ']' := by
  cases operator <;> exact ⟨_, _, rfl, by decide, by decide, by decide, by decide⟩

theorem readOperator_symbol (operator : AttributeOperator) (rest : List Char) :
    readOperator (operator.symbol.toList ++ rest) = .ok (operator, rest) := by
  cases operator <;> rfl

theorem readOperator_iff {operator : AttributeOperator} :
    readOperator text = .ok (operator, rest) ↔ text = operator.symbol.toList ++ rest := by
  constructor
  · intro h
    unfold readOperator at h
    split at h
    · cases h
    · cases h
      rfl
    · split at h
      · next lead _ _ _ known =>
        cases h
        unfold AttributeOperator.ofLead? at known
        split at known <;> cases known <;> rfl
      · cases h
  · rintro rfl
    exact readOperator_symbol operator rest

theorem operand_of_readOperand {content : List Char} (h : readOperand text = .ok (content, rest)) :
    ∃ operand, IsOperand operand rest ∧ text = operand ++ rest := by
  unfold readOperand at h
  split at h
  · obtain ⟨spelling, hs, rfl⟩ := quotes_of_readQuoted h
    exact ⟨_, .string rfl hs, by simp⟩
  · obtain ⟨spelling, hs, rfl⟩ := quotes_of_readQuoted h
    exact ⟨_, .string rfl hs, by simp⟩
  · obtain ⟨⟨name, rest⟩, hr, he⟩ := map_eq_ok.mp h
    cases he
    obtain ⟨spelling, hs, ends, rfl⟩ := spells_of_readName hr
    exact ⟨_, .hash hs ends, rfl⟩
  · obtain ⟨spelling, hs, ends, rfl⟩ := spells_of_readName h
    exact ⟨_, .name hs ends, rfl⟩

theorem Spells.head? (h : Spells text name) : ∀ c ∈ text.head?, isNameChar c = true ∨ c = '\\' := by
  intro c hc
  cases h with
  | nil => cases hc
  | char hd =>
    obtain rfl := Option.some.inj hc
    exact .inl hd
  | escape =>
    obtain rfl := Option.some.inj hc
    exact .inr rfl

theorem readOperand_name (h : ∀ c ∈ text.head?, c ≠ '"' ∧ c ≠ '\'' ∧ c ≠ '#') :
    readOperand text = readName text := by
  unfold readOperand
  split
  · exact absurd rfl (h _ rfl).1
  · exact absurd rfl (h _ rfl).2.1
  · exact absurd rfl (h _ rfl).2.2
  · rfl

theorem ne_marks (h : isNameChar c = true ∨ c = '\\' ∨ isBlank c = true ∨ c = ']') :
    c ≠ '"' ∧ c ≠ '\'' ∧ c ≠ '#' := by
  rcases h with h | rfl | h | rfl
  · exact ⟨ne_of_class h (by decide), ne_of_class h (by decide), ne_of_class h (by decide)⟩
  · decide
  · exact ⟨ne_of_class h (by decide), ne_of_class h (by decide), ne_of_class h (by decide)⟩
  · decide

theorem readOperand_of_operand {operand blanks : List Char}
    (h : IsOperand operand (blanks ++ [']'])) (hb : Blanks blanks [']']) : ∃ content, ∀ rest,
      readOperand (operand ++ (blanks ++ ']' :: rest)) = .ok (content, blanks ++ ']' :: rest) := by
  have follow (rest : List Char) : blanks ++ ']' :: rest = (blanks ++ [']']) ++ rest := by simp
  have some_char : blanks ++ [']'] ≠ [] := by simp
  cases h with
  | @string quote text content _ hq hs =>
    refine ⟨content, fun rest => ?_⟩
    have split : quote :: (text ++ [quote]) ++ (blanks ++ ']' :: rest) =
        quote :: (text ++ quote :: (blanks ++ ']' :: rest)) := by simp
    have read := readQuoted_of_quotes hq hs (blanks ++ ']' :: rest)
    rw [split]
    simp only [isQuote, Bool.or_eq_true, beq_iff_eq] at hq
    rcases hq with rfl | rfl
    · exact read
    · exact read
  | @name _ name _ hs ends =>
    refine ⟨name, fun rest => ?_⟩
    have read := readName_of_spells hs ((endsName_append some_char rest).mpr ends)
    rw [← follow] at read
    rw [readOperand_name, read]
    intro c hc
    refine ne_marks ?_
    rw [List.head?_append] at hc
    cases ho : operand.head? with
    | some d =>
      rw [ho] at hc
      obtain rfl := Option.some.inj hc
      exact (hs.head? d ho).imp_right .inl
    | none =>
      rw [ho, Option.none_or, List.head?_append] at hc
      cases hl : blanks.head? with
      | some d =>
        rw [hl] at hc
        obtain rfl := Option.some.inj hc
        exact .inr (.inr (.inl (hb.blank d (List.mem_of_mem_head? hl))))
      | none =>
        rw [hl] at hc
        obtain rfl := Option.some.inj hc
        exact .inr (.inr (.inr rfl))
  | @hash text name _ hs ends =>
    refine ⟨'#' :: name, fun rest => ?_⟩
    have read := readName_of_spells hs ((endsName_append some_char rest).mpr ends)
    rw [← follow] at read
    rw [List.cons_append, readOperand, read]
    rfl

theorem IsOperand.before {operand rest' : List Char} (h : IsOperand operand rest)
    (ends : EndsName rest → EndsName rest') : IsOperand operand rest' := by
  cases h with
  | string hq hs => exact .string hq hs
  | name hs he => exact .name hs (ends he)
  | hash hs he => exact .hash hs (ends he)

theorem IsAttributeEnd.ne_nil (h : IsAttributeEnd text) : text ≠ [] := by
  cases h <;> simp

/-- The test does not depend on what follows its closing bracket. -/
theorem readAttribute_of_attribute (h : IsAttribute text) :
    ∃ test, ∀ rest, readAttribute (text ++ rest) = .ok (test, rest) := by
  obtain @⟨blanks, spelling, tail, hb, ⟨name, hne, hs⟩, ends, he⟩ := h
  have some_char : tail ≠ [] := he.ne_nil
  have skip (rest : List Char) :
      skipBlank (blanks ++ (spelling ++ tail) ++ rest) = spelling ++ (tail ++ rest) := by
    rw [List.append_assoc, ← List.append_assoc spelling]
    exact ((blanks_append (by simp [some_char]) rest).mpr hb).skip
  have named (rest : List Char) :
      readFullName (spelling ++ (tail ++ rest)) = .ok (name, tail ++ rest) :=
    readFullName_iff.mpr ⟨hne, spelling, hs, (endsName_append some_char rest).mpr ends, rfl⟩
  cases he with
  | @bare last hl =>
    refine ⟨⟨String.ofList name, none⟩, fun rest => ?_⟩
    have closed : skipBlank (last ++ [']'] ++ rest) = ']' :: rest := by
      rw [List.append_assoc]
      exact ((blanks_append (by simp) rest).mpr hl).skip
    refine bind_eq_ok.mpr ⟨_, skip rest ▸ named rest, ?_⟩
    dsimp only
    rw [closed]
    rfl
  | @compared first second operand last operator hf hm ho hl =>
    obtain ⟨content, compared⟩ := readOperand_of_operand ho hl
    obtain ⟨c, symbol, hc, -, -, -, apart⟩ := operator.symbol_cons
    refine ⟨⟨String.ofList name, some (operator, String.ofList content)⟩, fun rest => ?_⟩
    have follow :
        first ++ (operator.symbol.toList ++ (second ++ (operand ++ (last ++ [']'])))) ++ rest =
          first ++ (operator.symbol.toList ++ (second ++ (operand ++ (last ++ ']' :: rest)))) := by
      simp
    have skip₁ : skipBlank (first ++ (operator.symbol.toList ++
          (second ++ (operand ++ (last ++ ']' :: rest))))) =
        operator.symbol.toList ++ (second ++ (operand ++ (last ++ ']' :: rest))) :=
      ((blanks_append (by simp [hc]) _).mpr hf).skip
    have skip₂ : skipBlank (second ++ (operand ++ (last ++ ']' :: rest))) =
        operand ++ (last ++ ']' :: rest) := by
      have hm := (blanks_append (by simp) rest).mpr hm
      simp only [List.append_assoc, List.singleton_append] at hm
      exact hm.skip
    have skip₃ : skipBlank (last ++ ']' :: rest) = ']' :: rest :=
      ((blanks_append (by simp) rest).mpr hl).skip
    refine bind_eq_ok.mpr ⟨_, skip rest ▸ named rest, ?_⟩
    dsimp only
    rw [follow, skip₁]
    split
    · next he =>
      rw [hc, List.cons_append] at he
      exact absurd (List.cons.inj he).1 apart
    · refine bind_eq_ok.mpr ⟨_, readOperator_symbol operator _, ?_⟩
      refine bind_eq_ok.mpr ⟨_, skip₂ ▸ compared rest, ?_⟩
      dsimp only
      rw [skip₃]
      rfl

theorem attribute_of_readAttribute {test : AttributeTest}
    (h : readAttribute text = .ok (test, rest)) :
    ∃ piece, IsAttribute piece ∧ text = piece ++ rest := by
  obtain ⟨⟨name, rest₁⟩, hn, h⟩ := bind_eq_ok.mp h
  obtain ⟨blanks, hb, ht⟩ := exists_skipped text
  obtain ⟨hne, spelling, hs, ends, hsplit⟩ := readFullName_iff.mp hn
  obtain ⟨first, hf, ht₁⟩ := exists_skipped rest₁
  rw [hsplit] at hb ht
  have whole {tail : List Char} (he : IsAttributeEnd tail) (hr : rest₁ = tail ++ rest) :
      ∃ piece, IsAttribute piece ∧ text = piece ++ rest := by
    subst hr
    have some_char := he.ne_nil
    rw [← List.append_assoc, blanks_append (by simp [some_char])] at hb
    rw [endsName_append some_char] at ends
    exact ⟨_, .intro hb ⟨name, hne, hs⟩ ends he, by simpa using ht⟩
  simp only at h
  split at h
  · next closed =>
    cases h
    rw [closed] at hf ht₁
    exact whole (.bare ((blanks_append (by simp) rest).mp hf)) (by simpa using ht₁)
  · obtain ⟨⟨operator, rest₂⟩, hop, h⟩ := bind_eq_ok.mp h
    obtain ⟨⟨content, rest₃⟩, hc, h⟩ := bind_eq_ok.mp h
    obtain ⟨second, hm, ht₂⟩ := exists_skipped rest₂
    obtain ⟨last, hl, ht₃⟩ := exists_skipped rest₃
    obtain ⟨operand, ho, hsplit₂⟩ := operand_of_readOperand hc
    rw [readOperator_iff.mp hop] at hf ht₁
    simp only at h
    split at h
    · next closed =>
      cases h
      rw [closed] at hl ht₃
      subst ht₃
      obtain ⟨c, symbol, hc, -, -, -, -⟩ := operator.symbol_cons
      have follow : operand ++ (last ++ ']' :: rest) = operand ++ (last ++ [']']) ++ rest := by simp
      have some_char : last ++ [']'] ≠ [] := by simp
      rw [hsplit₂, follow, blanks_append (by simp)] at hm
      rw [blanks_append (by simp [hc])] at hf
      have ends_operand : IsOperand operand (last ++ [']']) :=
        ho.before fun ends => (endsName_append some_char rest).mp (by simpa using ends)
      refine whole (.compared operator hf hm ends_operand ((blanks_append (by simp) rest).mp hl)) ?_
      rw [ht₁, ht₂, hsplit₂]
      simp
    · cases h
    · cases h

theorem exists_readAttribute_iff : (∃ test, readAttribute text = .ok (test, rest)) ↔
    ∃ piece, IsAttribute piece ∧ text = piece ++ rest := by
  constructor
  · rintro ⟨test, h⟩
    exact attribute_of_readAttribute h
  · rintro ⟨piece, h, rfl⟩
    obtain ⟨test, read⟩ := readAttribute_of_attribute h
    exact ⟨test, read rest⟩

theorem readAttribute_append {test : AttributeTest} (h : readAttribute text = .ok (test, rest))
    (more : List Char) : readAttribute (text ++ more) = .ok (test, rest ++ more) := by
  obtain ⟨piece, ha, rfl⟩ := attribute_of_readAttribute h
  obtain ⟨same, read⟩ := readAttribute_of_attribute ha
  cases h.symm.trans (read rest)
  rw [List.append_assoc]
  exact read _

end SelectorEngine
