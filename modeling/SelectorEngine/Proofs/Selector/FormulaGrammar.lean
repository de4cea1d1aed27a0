import Mathlib.Data.List.Induction
import Mathlib.Data.Nat.Digits.Defs
import SelectorEngine.Proofs.Selector.Formulas

/-! # The grammar of formulas

Once its blanks and one leading plus sign are gone, a formula is a keyword, a number, or an `n` with
a number in front of it and one behind it, both of which may be missing. Every text of this form is
read as what it denotes, and no other text is read. -/
namespace SelectorEngine.AnPlusB
open Text

def compact (argument : List Char) : List Char :=
  match argument.filter (!isBlank ·) with
  | '+' :: text => text
  | text => text

structure IsAmount (text : List Char) (value : Nat) : Prop where
  some_digit : text ≠ []
  digits : ∀ c ∈ text, c.isDigit = true
  value_eq : Nat.ofDigits 10 (text.reverse.map fun c => c.toNat - '0'.toNat) = value
  bound : value ≤ 2 ^ 63 - 1

inductive IsSign : (text : List Char) → (factor : Int) → Prop where
  | none : IsSign [] 1
  | minus : IsSign ['-'] (-1)

/-- What stands in front of the `n`. A missing number is 1. -/
inductive IsCoefficient : (text : List Char) → (value : Nat) → Prop where
  | none : IsCoefficient [] 1
  | amount {text value} : IsAmount text value → IsCoefficient text value

inductive IsConstant : (text : List Char) → (value : Int) → Prop where
  | none : IsConstant [] 0
  | plus {text value} : IsAmount text value → IsConstant ('+' :: text) value
  | minus {text value} : IsAmount text value → IsConstant ('-' :: text) (-value)

inductive Denotes : List Char → AnPlusB → Prop where
  | even : Denotes "even".toList ⟨2, 0⟩
  | odd : Denotes "odd".toList ⟨2, 1⟩
  | number {sign factor digits value} : IsSign sign factor → IsAmount digits value →
      Denotes (sign ++ digits) ⟨0, factor * value⟩
  | formula {sign factor coefficient step constant offset} : IsSign sign factor →
      IsCoefficient coefficient step → IsConstant constant offset →
      Denotes (sign ++ (coefficient ++ 'n' :: constant)) ⟨factor * step, offset⟩

variable {text coefficient constant : List Char} {n : AnPlusB} {value : Nat}

theorem digitsValue_eq (digits : List Char) :
    digitsValue digits = Nat.ofDigits 10 (digits.reverse.map fun c => c.toNat - '0'.toNat) := by
  induction digits using List.reverseRecOn with
  | nil => rfl
  | append_singleton digits c ih =>
    rw [digitsValue] at ih ⊢
    rw [List.foldl_concat, List.reverse_concat, List.map_cons, Nat.ofDigits_cons, ih]
    simp
    omega

theorem isAmount_iff : IsAmount text value ↔ readNumeral maxSigned text = some value := by
  rw [readNumeral_eq_some, digitsValue_eq]
  constructor
  · rintro ⟨some_digit, digits, rfl, bound⟩
    exact ⟨some_digit, digits, bound, rfl⟩
  · rintro ⟨some_digit, digits, bound, rfl⟩
    exact ⟨some_digit, digits, rfl, bound⟩

theorem readAmount_eq_some {amount : Int} : readAmount text = some amount ↔
    ∃ value : Nat, IsAmount text value ∧ amount = value := by
  rw [readAmount, Option.map_eq_some_iff]
  refine exists_congr fun value => ?_
  rw [isAmount_iff, Int.ofNat_eq_natCast, eq_comm (a := amount)]

theorem IsAmount.readAmount_eq (h : IsAmount text value) : readAmount text = some (value : Int) :=
  readAmount_eq_some.mpr ⟨value, h, rfl⟩

theorem readConstant_eq_some {offset : Int} :
    readConstant text = some offset ↔ IsConstant text offset := by
  constructor
  · intro h
    unfold readConstant at h
    split at h
    · obtain rfl := Option.some.inj h
      exact .none
    · obtain ⟨value, amount, rfl⟩ := readAmount_eq_some.mp h
      exact .plus amount
    · obtain ⟨amount, read, rfl⟩ := Option.map_eq_some_iff.mp h
      obtain ⟨value, amount, rfl⟩ := readAmount_eq_some.mp read
      exact .minus amount
    · cases h
  · intro h
    cases h with
    | none => rfl
    | plus amount => exact amount.readAmount_eq
    | minus amount => rw [readConstant, amount.readAmount_eq, Option.map_some]

theorem readCoefficient_eq_some {step : Int} : readCoefficient text = some step ↔
    ∃ value : Nat, IsCoefficient text value ∧ step = value := by
  constructor
  · intro h
    rw [readCoefficient] at h
    split at h
    · next empty =>
      obtain rfl := List.isEmpty_iff.mp empty
      obtain rfl := Option.some.inj h
      exact ⟨1, .none, rfl⟩
    · obtain ⟨value, amount, rfl⟩ := readAmount_eq_some.mp h
      exact ⟨value, .amount amount, rfl⟩
  · rintro ⟨value, h, rfl⟩
    cases h with
    | none => rfl
    | amount amount =>
      rw [readCoefficient, if_neg (by simpa using amount.some_digit)]
      exact amount.readAmount_eq

theorem IsAmount.not_mem_n (h : IsAmount text value) : 'n' ∉ text := by
  intro hn
  exact absurd (h.digits 'n' hn) (by decide)

theorem IsCoefficient.not_mem_n (h : IsCoefficient text value) : 'n' ∉ text := by
  cases h with
  | none => exact List.not_mem_nil
  | amount amount => exact amount.not_mem_n

theorem IsCoefficient.bound (h : IsCoefficient text value) : value ≤ maxSigned := by
  cases h with
  | none => decide
  | amount amount => exact amount.bound

theorem readUnsigned_eq_some : readUnsigned text = some n ↔
    (∃ value : Nat, IsAmount text value ∧ n = ⟨0, value⟩) ∨
      ∃ coefficient constant, ∃ step : Nat, ∃ offset, text = coefficient ++ 'n' :: constant ∧
        IsCoefficient coefficient step ∧ IsConstant constant offset ∧ n = ⟨step, offset⟩ := by
  constructor
  · intro h
    by_cases hn : 'n' ∈ text
    · obtain ⟨coefficient, constant, rfl, free⟩ := List.eq_append_cons_of_mem hn
      rw [readUnsigned_formula free] at h
      obtain ⟨step, hs, h⟩ := Option.bind_eq_some_iff.mp h
      obtain ⟨offset, ho, h⟩ := Option.bind_eq_some_iff.mp h
      obtain rfl := Option.some.inj h
      obtain ⟨step, front, rfl⟩ := readCoefficient_eq_some.mp hs
      exact .inr ⟨coefficient, constant, step, offset, rfl, front, readConstant_eq_some.mp ho, rfl⟩
    · rw [readUnsigned_number hn] at h
      obtain ⟨amount, ha, rfl⟩ := Option.map_eq_some_iff.mp h
      obtain ⟨value, amount, rfl⟩ := readAmount_eq_some.mp ha
      exact .inl ⟨value, amount, rfl⟩
  · rintro (⟨value, amount, rfl⟩ | ⟨coefficient, constant, step, offset, rfl, hs, ho, rfl⟩)
    · rw [readUnsigned_number amount.not_mem_n, amount.readAmount_eq]
      rfl
    · rw [readUnsigned_formula hs.not_mem_n, readCoefficient_eq_some.mpr ⟨step, hs, rfl⟩,
        readConstant_eq_some.mpr ho]
      rfl

theorem head_of_readUnsigned (h : readUnsigned text = some n) :
    ∀ c ∈ text.head?, c.isDigit = true ∨ c = 'n' := by
  have digit {digits : List Char} {value : Nat} (amount : IsAmount digits value)
      (rest : List Char) :
      ∀ c ∈ (digits ++ rest).head?, c.isDigit = true := by
    intro c hc
    rw [List.head?_append_of_ne_nil _ amount.some_digit] at hc
    exact amount.digits c (List.mem_of_mem_head? hc)
  intro c hc
  rcases readUnsigned_eq_some.mp h with ⟨value, amount, -⟩ | ⟨_, _, _, _, rfl, hs, -, -⟩
  · rw [← List.append_nil text] at hc
    exact .inl (digit amount [] c hc)
  · cases hs with
    | none => exact .inr (Option.some.inj hc).symm
    | amount amount => exact .inl (digit amount _ c hc)

/-- A sign belongs to the first number only. -/
def scaleFirst (factor : Int) (hasStep : Bool) (n : AnPlusB) : AnPlusB :=
  if hasStep then ⟨factor * n.step, n.offset⟩ else ⟨n.step, factor * n.offset⟩

theorem scaleFirst_one (hasStep : Bool) (n : AnPlusB) : scaleFirst 1 hasStep n = n := by
  cases hasStep <;> simp [scaleFirst]

theorem negateFirst_eq (hasStep : Bool) (n : AnPlusB) :
    negateFirst hasStep n = scaleFirst (-1) hasStep n := by
  cases hasStep <;> simp [scaleFirst, negateFirst]

theorem readCompact_of_unsigned (h : readUnsigned text = some n) : readCompact text = some n := by
  rw [readCompact_unsigned, h]
  intro c hc
  rcases head_of_readUnsigned h c hc with digit | rfl
  · exact ⟨ne_of_class digit (by decide), ne_of_class digit (by decide),
      ne_of_class digit (by decide)⟩
  · decide

theorem denotes_of_readUnsigned {sign : List Char} {factor : Int} (hs : IsSign sign factor)
    (h : readUnsigned text = some n) :
    Denotes (sign ++ text) (scaleFirst factor (text.contains 'n') n) := by
  rcases readUnsigned_eq_some.mp h with ⟨value, amount, rfl⟩ | ⟨_, _, _, _, rfl, front, behind, rfl⟩
  · rw [scaleFirst, if_neg (by simpa using amount.not_mem_n)]
    exact .number hs amount
  · rw [scaleFirst, if_pos (by simp)]
    exact .formula hs front behind

/-- A text is read as what it denotes, and a text that denotes nothing is not read. -/
theorem readCompact_eq_some : readCompact text = some n ↔ Denotes text n := by
  constructor
  · intro h
    unfold readCompact at h
    split at h
    · next keyword =>
      obtain rfl := Option.some.inj h
      exact keyword ▸ .even
    split at h
    · next keyword =>
      obtain rfl := Option.some.inj h
      exact keyword ▸ .odd
    split at h
    · next unsigned _ _ =>
      obtain ⟨m, hm, rfl⟩ := Option.map_eq_some_iff.mp h
      rw [negateFirst_eq]
      exact denotes_of_readUnsigned .minus hm
    · have denoted := denotes_of_readUnsigned .none h
      rwa [scaleFirst_one] at denoted
  · intro h
    cases h with
    | even => rfl
    | odd => rfl
    | @number sign factor digits value hs amount =>
      have read := readUnsigned_eq_some.mpr (.inl ⟨value, amount, rfl⟩)
      cases hs with
      | none => rw [Int.one_mul]; exact readCompact_of_unsigned read
      | minus =>
        rw [List.singleton_append, readCompact_minus, read]
        simp [negateFirst, amount.not_mem_n]
    | @formula sign factor coefficient step constant offset hs front behind =>
      have read := readUnsigned_eq_some.mpr
        (.inr ⟨coefficient, constant, step, offset, rfl, front, behind, rfl⟩)
      cases hs with
      | none => rw [Int.one_mul]; exact readCompact_of_unsigned read
      | minus =>
        rw [List.singleton_append, readCompact_minus, read]
        simp [negateFirst]

theorem Denotes.bounded (h : Denotes text n) :
    n.step.natAbs ≤ maxSigned ∧ n.offset.natAbs ≤ maxSigned := by
  have signed {sign : List Char} {factor : Int} (hs : IsSign sign factor) (value : Nat)
      (hv : value ≤ maxSigned) : (factor * value).natAbs ≤ maxSigned := by
    cases hs <;> omega
  cases h with
  | even => decide
  | odd => decide
  | number hs amount => exact ⟨Nat.zero_le _, signed hs _ amount.bound⟩
  | formula hs front behind =>
    constructor
    · exact signed hs _ front.bound
    · cases behind with
      | none => exact Nat.zero_le _
      | plus amount => exact amount.bound
      | minus amount => rw [Int.natAbs_neg]; exact amount.bound

theorem read_eq (argument : List Char) : read argument = readCompact (compact argument) := by
  unfold read compact
  generalize argument.filter (!isBlank ·) = solid
  cases solid with
  | nil => rfl
  | cons c text =>
    by_cases plus : c = '+'
    · rw [plus]
      rfl
    · simp [plus]

end SelectorEngine.AnPlusB
