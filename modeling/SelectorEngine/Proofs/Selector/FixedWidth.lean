import SelectorEngine.Proofs.Selector.FormulaGrammar

/-! # Formulas in 64 bits

The numbers of a formula are read digit by digit, and negated, in signed numbers of 64 bits. A
number that is too large is refused while its digits are read, so that no operation behind it can
overflow. -/
namespace SelectorEngine.AnPlusB
open Text

structure Overflow where
  result : Int
  deriving DecidableEq, Repr

def narrow (result : Int) : Except Overflow Int :=
  if -2 ^ 63 ≤ result ∧ result ≤ 2 ^ 63 - 1 then .ok result else .error ⟨result⟩

variable {result : Int}

theorem narrow_eq_ok (low : -2 ^ 63 ≤ result) (high : result ≤ 2 ^ 63 - 1) :
    narrow result = .ok result := if_pos ⟨low, high⟩

theorem narrow_eq_error (h : 2 ^ 63 - 1 < result) : narrow result = .error ⟨result⟩ :=
  if_neg fun fits => absurd fits.2 (by omega)

def addDigit (value : Int) (digit : Char) : Option Int := do
  let scaled ← (narrow (value * 10)).toOption
  (narrow (scaled + (digit.toNat - '0'.toNat : Nat))).toOption

def addDigits (value : Int) (digits : List Char) : Option Int := digits.foldlM addDigit value

def valueFrom (value : Nat) (digits : List Char) : Nat :=
  digits.foldl (fun value digit => 10 * value + (digit.toNat - '0'.toNat)) value

theorem le_valueFrom (digits : List Char) (value : Nat) : value ≤ valueFrom value digits := by
  induction digits generalizing value with
  | nil => exact Nat.le_refl value
  | cons digit digits ih =>
    have step : value ≤ 10 * value + (digit.toNat - '0'.toNat) := by omega
    exact step.trans (ih _)

theorem addDigit_eq (value : Nat) (digit : Char) : addDigit value digit =
    if 10 * value + (digit.toNat - '0'.toNat) ≤ maxSigned then
      some ((10 * value + (digit.toNat - '0'.toNat) : Nat) : Int) else none := by
  have limit : maxSigned = 2 ^ 63 - 1 := rfl
  rw [addDigit]
  generalize digit.toNat - '0'.toNat = amount
  by_cases scaled : 10 * value ≤ maxSigned
  · rw [narrow_eq_ok (by omega) (by omega)]
    by_cases sum : 10 * value + amount ≤ maxSigned
    · rw [if_pos sum, Int.mul_comm, Except.toOption, Option.bind_eq_bind, Option.bind_some,
        narrow_eq_ok (by omega) (by omega)]
      rfl
    · rw [if_neg sum, Int.mul_comm, Except.toOption, Option.bind_eq_bind, Option.bind_some,
        narrow_eq_error (by omega)]
      rfl
  · rw [narrow_eq_error (by omega), if_neg (by omega)]
    rfl

/-- Digits added one by one are too many as soon as their value is too large. -/
theorem addDigits_eq (digits : List Char) (value : Nat) (h : value ≤ maxSigned) :
    addDigits value digits =
      if valueFrom value digits ≤ maxSigned then some (valueFrom value digits : Int) else none := by
  induction digits generalizing value with
  | nil => exact (if_pos h).symm
  | cons digit digits ih =>
    rw [addDigits, List.foldlM_cons, addDigit_eq]
    split
    · next fits => exact ih _ fits
    · next large =>
      have larger := le_valueFrom digits (10 * value + (digit.toNat - '0'.toNat))
      rw [if_neg]
      · rfl
      · exact fun fits => large (larger.trans fits)

theorem addDigits_zero (digits : List Char) : addDigits 0 digits =
    if digitsValue digits ≤ maxSigned then some (digitsValue digits : Int) else none :=
  addDigits_eq digits 0 (Nat.zero_le _)

/-- Reading with operations that may overflow. -/
abbrev Fixed := OptionT (Except Overflow)

namespace Fixed

def exactly {α : Type} (read : Option α) : Fixed α := OptionT.mk (.ok read)

def operation (result : Int) : Fixed Int := OptionT.lift (narrow result)

def amount (text : List Char) : Fixed Int :=
  if text.isEmpty || !text.all Char.isDigit then failure else exactly (addDigits 0 text)

def constant : List Char → Fixed Int
  | [] => pure 0
  | '+' :: text => amount text
  | '-' :: text => do operation (-(← amount text))
  | _ => failure

def coefficient (text : List Char) : Fixed Int :=
  if text.isEmpty then pure 1 else amount text

/-- An argument without its sign, which is the factor `1` or `-1`. -/
def unsigned (factor : Int) (text : List Char) : Fixed AnPlusB :=
  match text.dropWhile (· != 'n') with
  | [] => do return ⟨0, ← operation (factor * (← amount text))⟩
  | _ :: behind => do
    let step ← coefficient (text.takeWhile (· != 'n'))
    let offset ← constant behind
    return ⟨← operation (factor * step), offset⟩

def compact (text : List Char) : Fixed AnPlusB :=
  if text = "even".toList then pure ⟨2, 0⟩
  else if text = "odd".toList then pure ⟨2, 1⟩
  else match text with
    | '-' :: text => unsigned (-1) text
    | text => unsigned 1 text

def read (argument : List Char) : Fixed AnPlusB := compact (AnPlusB.compact argument)

variable {α β : Type} {text : List Char} {factor : Int}

theorem exactly_some_bind (value : α) (next : α → Fixed β) :
    (exactly (some value) >>= next) = next value := rfl

theorem operation_eq (low : -2 ^ 63 ≤ result) (high : result ≤ 2 ^ 63 - 1) :
    operation result = exactly (some result) := by
  rw [operation, narrow_eq_ok low high]
  rfl

theorem operation_factor {sign : List Char} (hs : IsSign sign factor) {value : Nat}
    (h : value ≤ maxSigned) : operation (factor * value) = exactly (some (factor * value)) := by
  have limit : maxSigned = 2 ^ 63 - 1 := rfl
  apply operation_eq
  · cases hs <;> omega
  · cases hs <;> omega

theorem amount_eq (text : List Char) : amount text = exactly (readAmount text) := by
  rw [amount, readAmount, readNumeral]
  by_cases run : (!text.isEmpty && text.all Char.isDigit) = true
  · have digits : ¬ (text.isEmpty || !text.all Char.isDigit) = true := by
      simpa using run
    rw [if_neg digits, run, Bool.true_and, addDigits_zero]
    by_cases fits : digitsValue text ≤ maxSigned
    · rw [if_pos fits, if_pos (decide_eq_true fits)]
      rfl
    · rw [if_neg fits, if_neg (by simpa using fits)]
      rfl
  · have digits : (text.isEmpty || !text.all Char.isDigit) = true := by
      simpa [-List.isEmpty_iff, or_iff_not_imp_left] using run
    rw [if_pos digits, Bool.eq_false_iff.mpr run]
    rfl

theorem constant_eq (text : List Char) : constant text = exactly (readConstant text) := by
  fun_cases readConstant text with
  | case1 => rfl
  | case2 text => exact amount_eq text
  | case3 text =>
    rw [constant, amount_eq]
    cases read : readAmount text with
    | none => rfl
    | some amount =>
      obtain ⟨value, digits, rfl⟩ := readAmount_eq_some.mp read
      have negated := operation_factor .minus digits.bound
      rwa [Int.neg_one_mul] at negated
  | case4 text empty plus minus =>
    rw [constant]
    · rfl
    · exact empty
    · exact plus
    · exact minus

theorem coefficient_eq (text : List Char) : coefficient text = exactly (readCoefficient text) := by
  rw [coefficient, readCoefficient, amount_eq]
  split <;> rfl

theorem unsigned_eq {sign : List Char} (hs : IsSign sign factor) (text : List Char) :
    unsigned factor text =
      exactly ((readUnsigned text).map (scaleFirst factor (text.contains 'n'))) := by
  by_cases hn : 'n' ∈ text
  · obtain ⟨front, behind, rfl, free⟩ := List.eq_append_cons_of_mem hn
    rw [readUnsigned_formula free, List.contains_iff_mem.mpr hn]
    unfold unsigned
    rw [dropWhile_of_free free]
    simp only [takeWhile_of_free free, coefficient_eq, constant_eq]
    cases step : readCoefficient front with
    | none => rfl
    | some step =>
      cases offset : readConstant behind with
      | none => rfl
      | some offset =>
        obtain ⟨value, number, rfl⟩ := readCoefficient_eq_some.mp step
        rw [exactly_some_bind, exactly_some_bind, operation_factor hs number.bound]
        rfl
  · have free : text.contains 'n' = false := by simpa using hn
    rw [readUnsigned_number hn, free]
    unfold unsigned
    rw [dropWhile_eq_nil_of_free hn]
    simp only [amount_eq]
    cases read : readAmount text with
    | none => rfl
    | some amount =>
      obtain ⟨value, digits, rfl⟩ := readAmount_eq_some.mp read
      rw [exactly_some_bind, operation_factor hs digits.bound]
      rfl

theorem compact_eq (text : List Char) : compact text = exactly (readCompact text) := by
  unfold compact
  fun_cases readCompact text with
  | case1 => rfl
  | case2 => rfl
  | case3 unsigned even odd =>
    rw [if_neg even, if_neg odd, funext (negateFirst_eq _)]
    exact unsigned_eq .minus unsigned
  | case4 text other even odd =>
    have positive := unsigned_eq .none text
    rw [funext (scaleFirst_one _), Option.map_id'] at positive
    rw [if_neg even, if_neg odd]
    split
    · exact absurd rfl (other _)
    · exact positive

theorem read_eq (argument : List Char) : read argument = exactly (AnPlusB.read argument) := by
  rw [read, compact_eq, AnPlusB.read_eq]

end Fixed

/-- An argument is a formula exactly if it denotes one, which is then the one it is read as. Signed
numbers of 64 bits are wide enough for everything that is computed for it, and the formula is read
back from what it is displayed as. -/
theorem read_exact (argument : List Char) :
    (∀ n, read argument = some n ↔ Denotes (compact argument) n) ∧
      (Fixed.read argument).run = .ok (read argument) ∧
      ∀ n ∈ read argument, read n.display.toList = some n := by
  have language (n : AnPlusB) : read argument = some n ↔ Denotes (compact argument) n := by
    rw [read_eq, readCompact_eq_some]
  refine ⟨language, congrArg OptionT.run (Fixed.read_eq argument), ?_⟩
  intro n hn
  obtain ⟨step, offset⟩ := ((language n).mp hn).bounded
  exact read_display step offset

theorem read_exact_negative : read "-2n + 3".toList = some ⟨-2, 3⟩ ∧
    read (display ⟨-2, 3⟩).toList = some ⟨-2, 3⟩ :=
  ⟨rfl, (read_exact "-2n + 3".toList).2.2 ⟨-2, 3⟩ rfl⟩

end SelectorEngine.AnPlusB
