import Mathlib.Algebra.Group.Int.Defs
import Mathlib.Algebra.Group.Nat.Defs
import SelectorEngine.Selector.AnPlusB

/-! # The places of a formula

A place counted from one is meant by a formula exactly if it is a value of the formula. Whether it
is shows from a difference, a remainder and a quotient, for which signed numbers of 128 bits are
wide enough if the place and the numbers of the formula are signed numbers of 64 bits. -/
namespace SelectorEngine.AnPlusB

variable {n : AnPlusB} {place divisor dividend result : Int}

theorem exists_multiple_iff (nonzero : divisor ≠ 0) :
    (dividend.tmod divisor = 0 ∧ 0 ≤ dividend.tdiv divisor) ↔
      ∃ k : Nat, dividend = divisor * k := by
  constructor
  · rintro ⟨exact, nonneg⟩
    refine ⟨(dividend.tdiv divisor).toNat, ?_⟩
    have whole : divisor * dividend.tdiv divisor + dividend.tmod divisor = dividend :=
      Int.mul_tdiv_add_tmod dividend divisor
    rw [Int.toNat_of_nonneg nonneg]
    omega
  · rintro ⟨k, rfl⟩
    refine ⟨Int.mul_tmod_right divisor k, ?_⟩
    rw [Int.mul_tdiv_cancel_left _ nonzero]
    exact Int.natCast_nonneg k

theorem holds_iff (n : AnPlusB) (counted : 1 ≤ place) :
    n.holds place = true ↔ ∃ k : Nat, place = n.step * k + n.offset := by
  by_cases everywhere : n.step = 1 ∧ n.offset = 0
  · have always : n.holds place = true := by rw [holds, if_pos everywhere]
    refine iff_of_true always ⟨place.toNat, ?_⟩
    rw [everywhere.1, everywhere.2]
    omega
  by_cases constant : n.step = 0
  · rw [holds, if_neg everywhere, if_pos constant, decide_eq_true_iff, constant]
    constructor
    · intro same
      exact ⟨0, by omega⟩
    · rintro ⟨k, hk⟩
      omega
  · rw [holds, if_neg everywhere, if_neg constant, decide_eq_true_iff, exists_multiple_iff constant]
    refine exists_congr fun k => ?_
    omega

inductive Failure where
  | overflow (result : Int)
  | zeroDivisor (dividend : Int)
  deriving DecidableEq, Repr

namespace Wide

def fit (result : Int) : Except Failure Int :=
  if -2 ^ 127 ≤ result ∧ result ≤ 2 ^ 127 - 1 then .ok result else .error (.overflow result)

def difference (a b : Int) : Except Failure Int := fit (a - b)

def quotient (dividend divisor : Int) : Except Failure Int :=
  if divisor = 0 then .error (.zeroDivisor dividend) else fit (dividend.tdiv divisor)

def remainder (dividend divisor : Int) : Except Failure Int :=
  (quotient dividend divisor).map fun _ => dividend.tmod divisor

/-- Whether a place matches, decided with operations that may fail. The quotient is not asked for
unless there is no remainder. -/
def holds (n : AnPlusB) (place : Int) : Except Failure Bool :=
  if n.step = 1 ∧ n.offset = 0 then .ok true
  else do
    let difference ← difference place n.offset
    if n.step = 0 then return difference = 0
    else if (← remainder difference n.step) = 0 then return 0 ≤ (← quotient difference n.step)
    else return false

theorem fit_eq_ok (small : result.natAbs ≤ 2 ^ 64) : fit result = .ok result :=
  if_pos (by omega)

theorem quotient_eq_ok (nonzero : divisor ≠ 0) (small : dividend.natAbs ≤ 2 ^ 64) :
    quotient dividend divisor = .ok (dividend.tdiv divisor) := by
  have shrinks : (dividend.tdiv divisor).natAbs ≤ dividend.natAbs :=
    Int.natAbs_tdiv_le_natAbs dividend divisor
  rw [quotient, if_neg nonzero, fit_eq_ok (Nat.le_trans shrinks small)]

theorem holds_eq_ok (near : (place - n.offset).natAbs ≤ 2 ^ 64) :
    holds n place = .ok (n.holds place) := by
  rw [holds, AnPlusB.holds]
  by_cases everywhere : n.step = 1 ∧ n.offset = 0
  · rw [if_pos everywhere, if_pos everywhere]
  rw [if_neg everywhere, if_neg everywhere, difference, fit_eq_ok near]
  by_cases constant : n.step = 0
  · simp only [bind, Except.bind, if_pos constant]
    rfl
  · have divides := quotient_eq_ok constant near
    simp only [bind, Except.bind, if_neg constant, remainder, divides, Except.map]
    by_cases exact : (place - n.offset).tmod n.step = 0
    · simp [exact]
      rfl
    · simp [exact]
      rfl

end Wide

/-- For all signed numbers of 64 bits, a place counted from one matches exactly if it is a value of
the formula, and signed numbers of 128 bits are wide enough for everything that is computed to
decide it. -/
theorem holds_exact (step offset place : Int64) (counted : 1 ≤ place.toInt) :
    ((⟨step.toInt, offset.toInt⟩ : AnPlusB).holds place.toInt = true ↔
        ∃ k : Nat, place.toInt = step.toInt * k + offset.toInt) ∧
      Wide.holds ⟨step.toInt, offset.toInt⟩ place.toInt =
        .ok ((⟨step.toInt, offset.toInt⟩ : AnPlusB).holds place.toInt) := by
  have near : (place.toInt - offset.toInt).natAbs ≤ 2 ^ 64 := by
    have := place.toInt_lt
    have := offset.le_toInt
    have := offset.toInt_lt
    omega
  exact ⟨holds_iff _ counted, Wide.holds_eq_ok near⟩

theorem holds_exact_widest :
    1 ≤ Int64.maxValue.toInt ∧ (⟨1, -2 ^ 63⟩ : AnPlusB).holds (2 ^ 63 - 1) = true ∧
      Wide.holds ⟨1, -2 ^ 63⟩ (2 ^ 63 - 1) = .ok true := by
  have counted : 1 ≤ Int64.maxValue.toInt := by decide
  obtain ⟨value, wide⟩ := holds_exact 1 Int64.minValue Int64.maxValue counted
  have holds : (⟨1, -2 ^ 63⟩ : AnPlusB).holds (2 ^ 63 - 1) = true :=
    value.mpr ⟨2 ^ 64 - 1, by decide⟩
  exact ⟨counted, holds, wide.trans (congrArg Except.ok holds)⟩

end SelectorEngine.AnPlusB
