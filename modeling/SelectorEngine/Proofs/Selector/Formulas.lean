import SelectorEngine.Proofs.Text.Trimming
import SelectorEngine.Selector.Reader

/-! # Numbers of arguments

A number that does not exceed the bound of its place is read back from its digits, and so is a
formula from what it is displayed as. -/
namespace SelectorEngine
open Text

variable {n limit : Nat}

def isFormulaChar (c : Char) : Bool := c.isDigit || c == 'n' || c == '+' || c == '-'

theorem isBlank_of_isFormulaChar {c : Char} (h : isFormulaChar c = true) : isBlank c = false :=
  isBlank_eq_false (by decide) h

theorem isDigit_of_mem {c : Char} (h : c ∈ Nat.toDigits 10 n) : c.isDigit = true :=
  Nat.isDigit_of_mem_toDigits (by decide) (by decide) h

theorem isFormulaChar_of_mem {c : Char} (h : c ∈ Nat.toDigits 10 n) : isFormulaChar c = true := by
  rw [isFormulaChar, isDigit_of_mem h]
  rfl

theorem readNumeral_eq_some {text : List Char} : readNumeral limit text = some n ↔
    text ≠ [] ∧ (∀ c ∈ text, c.isDigit = true) ∧ digitsValue text ≤ limit ∧
    digitsValue text = n := by
  rw [readNumeral]
  simp [and_assoc]

theorem readNumeral_toDigits (h : n ≤ limit) : readNumeral limit (Nat.toDigits 10 n) = some n := by
  have value : digitsValue (Nat.toDigits 10 n) = n :=
    Nat.ofDigitChars_toDigits (by decide) (by decide)
  exact readNumeral_eq_some.mpr ⟨Nat.toDigits_ne_nil, fun c hc => isDigit_of_mem hc,
    value.le.trans h, value⟩

theorem toList_toString (n : Nat) : (toString n).toList = Nat.toDigits 10 n := Nat.toList_repr

theorem readIndex_toString (h : n ≤ maxUnsigned) : readIndex (toString n).toList = some n := by
  have solid : ∀ c ∈ Nat.toDigits 10 n, isBlank c = false := fun c hc =>
    isBlank_of_isFormulaChar (isFormulaChar_of_mem hc)
  rw [toList_toString, readIndex, trim_solid solid]
  split
  · next he =>
    have plus : '+' ∈ Nat.toDigits 10 n := he ▸ List.mem_cons_self
    cases isDigit_of_mem plus
  · exact readNumeral_toDigits h

namespace AnPlusB

theorem readAmount_toDigits (h : n ≤ maxSigned) :
    readAmount (Nat.toDigits 10 n) = some (n : Int) := by
  rw [readAmount, readNumeral_toDigits h]
  rfl

theorem toList_toString_int (value : Int) : (toString value).toList =
    (if value < 0 then ['-'] else []) ++ Nat.toDigits 10 value.natAbs := by
  cases value with
  | ofNat m =>
    have positive : ¬ Int.ofNat m < 0 := by simp
    rw [if_neg positive]
    exact toList_toString m
  | negSucc m =>
    rw [if_pos (Int.negSucc_lt_zero m)]
    change ("-" ++ (m + 1).repr).toList = _
    rw [String.toList_append]
    exact congrArg ('-' :: ·) Nat.toList_repr

theorem toList_signed (value : Int) : (signed value).toList =
    (if value < 0 then '-' else '+') :: Nat.toDigits 10 value.natAbs := by
  rw [signed]
  split
  · next negative => rw [toList_toString_int, if_pos negative, List.singleton_append]
  · next positive =>
    rw [String.toList_append, toList_toString_int, if_neg positive]
    rfl

theorem readConstant_signed {value : Int} (h : value.natAbs ≤ maxSigned) :
    readConstant (signed value).toList = some value := by
  rw [toList_signed]
  split
  · next negative =>
    rw [readConstant, readAmount_toDigits h, Option.map_some]
    congr 1
    omega
  · next positive =>
    rw [readConstant, readAmount_toDigits h]
    congr 1
    omega

variable {text coefficient constant : List Char}

theorem bne_of_free (free : 'n' ∉ text) : ∀ c ∈ text, (c != 'n') = true := by
  intro c hc
  apply bne_iff_ne.mpr
  rintro rfl
  exact free hc

theorem dropWhile_eq_nil_of_free (free : 'n' ∉ text) : text.dropWhile (· != 'n') = [] :=
  List.dropWhile_eq_nil_iff.mpr (bne_of_free free)

theorem dropWhile_of_free (free : 'n' ∉ coefficient) :
    (coefficient ++ 'n' :: constant).dropWhile (· != 'n') = 'n' :: constant := by
  rw [List.dropWhile_append_of_pos (bne_of_free free)]
  rfl

theorem takeWhile_of_free (free : 'n' ∉ coefficient) :
    (coefficient ++ 'n' :: constant).takeWhile (· != 'n') = coefficient := by
  rw [List.takeWhile_append_of_pos (bne_of_free free)]
  simp

def readCoefficient (text : List Char) : Option Int :=
  if text.isEmpty then some 1 else readAmount text

theorem readUnsigned_number (free : 'n' ∉ text) :
    readUnsigned text = (readAmount text).map fun value => ⟨0, value⟩ := by
  rw [readUnsigned, dropWhile_eq_nil_of_free free]

theorem readUnsigned_formula (free : 'n' ∉ coefficient) :
    readUnsigned (coefficient ++ 'n' :: constant) =
      (readCoefficient coefficient).bind fun step =>
        (readConstant constant).bind fun offset => some ⟨step, offset⟩ := by
  unfold readUnsigned
  rw [dropWhile_of_free free]
  simp only [takeWhile_of_free free]
  rw [readCoefficient]
  split <;> rfl

theorem readUnsigned_digits {offset : Int} (h : n ≤ maxSigned) (ho : offset.natAbs ≤ maxSigned) :
    readUnsigned (Nat.toDigits 10 n ++ 'n' :: (signed offset).toList) = some ⟨n, offset⟩ := by
  have free : 'n' ∉ Nat.toDigits 10 n := by
    intro hn
    cases isDigit_of_mem hn
  have some_digit : ¬ (Nat.toDigits 10 n).isEmpty = true := by simp
  rw [readUnsigned_formula free, readCoefficient, if_neg some_digit, readAmount_toDigits h,
    readConstant_signed ho]
  rfl

theorem toList_display (formula : AnPlusB) : formula.display.toList =
    (if formula.step < 0 then ['-'] else []) ++ (Nat.toDigits 10 formula.step.natAbs ++
      'n' :: (signed formula.offset).toList) := by
  rw [display, String.toList_append, String.toList_append, toList_toString_int, List.append_assoc,
    List.append_assoc]
  rfl

theorem isFormulaChar_display {formula : AnPlusB} :
    ∀ c ∈ formula.display.toList, isFormulaChar c = true := by
  intro c hc
  rw [toList_display, toList_signed] at hc
  simp only [List.mem_append, List.mem_cons] at hc
  rcases hc with hc | hc | rfl | rfl | hc
  · split at hc
    · obtain rfl := List.mem_singleton.mp hc
      rfl
    · cases hc
  · exact isFormulaChar_of_mem hc
  · rfl
  · split <;> rfl
  · exact isFormulaChar_of_mem hc

theorem readCompact_minus (text : List Char) : readCompact ('-' :: text) =
    (readUnsigned text).map (negateFirst (text.contains 'n')) := by
  rw [readCompact, if_neg (by simp), if_neg (by simp)]

theorem readCompact_unsigned {text : List Char}
    (other : ∀ c ∈ text.head?, c ≠ 'e' ∧ c ≠ 'o' ∧ c ≠ '-') :
    readCompact text = readUnsigned text := by
  have even : text ≠ "even".toList := by
    rintro rfl
    exact (other 'e' rfl).1 rfl
  have odd : text ≠ "odd".toList := by
    rintro rfl
    exact (other 'o' rfl).2.1 rfl
  rw [readCompact, if_neg even, if_neg odd]
  rintro unsigned rfl
  exact (other '-' rfl).2.2 rfl

/-- A formula is read back from what it is displayed as. -/
theorem read_display {formula : AnPlusB} (hs : formula.step.natAbs ≤ maxSigned)
    (ho : formula.offset.natAbs ≤ maxSigned) : read formula.display.toList = some formula := by
  have solid : formula.display.toList.filter (!isBlank ·) = formula.display.toList := by
    refine List.filter_eq_self.mpr fun c hc => ?_
    rw [isBlank_of_isFormulaChar (isFormulaChar_display c hc)]
    rfl
  have unsigned := readUnsigned_digits hs ho
  rw [read, solid, toList_display]
  by_cases negative : formula.step < 0
  · have some_step : (Nat.toDigits 10 formula.step.natAbs ++
        'n' :: (signed formula.offset).toList).contains 'n' = true := by simp
    rw [if_pos negative]
    change readCompact ('-' :: (Nat.toDigits 10 formula.step.natAbs ++
      'n' :: (signed formula.offset).toList)) = _
    have restored : -(formula.step.natAbs : Int) = formula.step := by omega
    rw [readCompact_minus, unsigned, some_step, Option.map_some, negateFirst, if_pos rfl]
    dsimp only
    rw [restored]
  · obtain ⟨d, digits, hd⟩ := List.exists_cons_of_ne_nil
      (Nat.toDigits_ne_nil : Nat.toDigits 10 formula.step.natAbs ≠ [])
    have apart {c : Char} (hc : c.isDigit = false) : d ≠ c :=
      ne_of_class (isDigit_of_mem (hd ▸ List.mem_cons_self)) hc
    have restored : (formula.step.natAbs : Int) = formula.step := by omega
    rw [hd, List.cons_append] at unsigned
    rw [if_neg negative, List.nil_append, hd, List.cons_append]
    split
    · next he => exact absurd (List.cons.inj he).1 (apart (by decide))
    · rw [readCompact_unsigned, unsigned, restored]
      rintro c ⟨⟩
      exact ⟨apart (by decide), apart (by decide), apart (by decide)⟩

end AnPlusB
end SelectorEngine
