import Mathlib.Data.List.Perm.Subperm
import Mathlib.Data.List.Range
import SelectorEngine.Walk

/-! # Walks that end

A walk that is shorter than its limit has come to its end, and no larger limit makes it longer. -/
namespace SelectorEngine

variable {N : Type} {step : N → Option N} {k l : Nat} {start : Option N}

theorem walk_of_short (short : (walk step k start).length < k) (h : k ≤ l) :
    walk step l start = walk step k start := by
  induction k generalizing l start with
  | zero => exact absurd short (Nat.not_lt_zero _)
  | succ k ih =>
    obtain ⟨l, rfl⟩ : ∃ m, l = m + 1 := ⟨l - 1, by omega⟩
    cases start with
    | none => simp
    | some n =>
      rw [walk_some, List.length_cons] at short
      rw [walk_some, walk_some, ih (by omega) (by omega)]

theorem walk_step {n m : N} (short : (walk step k (step n)).length < k) (h : step n = some m)
    (short' : (walk step k (step m)).length < k) :
    walk step k (step n) = m :: walk step k (step m) := by
  obtain ⟨j, rfl⟩ : ∃ j, k = j + 1 := ⟨k - 1, by omega⟩
  rw [h, walk_some, List.length_cons] at short
  rw [h, walk_some, walk_of_short (k := j) (l := j + 1) (by omega) (by omega)]

theorem walk_pairwise (rank : N → Nat) (h : ∀ n m, step n = some m → rank m < rank n) :
    (walk step k start).Pairwise fun a b => rank b < rank a := by
  have below : ∀ k n, ∀ m ∈ walk step k (step n), rank m < rank n := by
    intro k
    induction k with
    | zero => intro n m hm; cases hm
    | succ k ih =>
      intro n m hm
      cases hs : step n with
      | none => simp [hs] at hm
      | some p =>
        rw [hs, walk_some, List.mem_cons] at hm
        rcases hm with rfl | hm
        · exact h n m hs
        · exact (ih p m hm).trans (h n p hs)
  induction k generalizing start with
  | zero => exact .nil
  | succ k ih =>
    cases start with
    | none => simp
    | some n => exact .cons (below k n) ih

theorem mem_of_mem_walk {P : N → Prop} (first : ∀ n, start = some n → P n)
    (next : ∀ n m, step n = some m → P m) : ∀ n ∈ walk step k start, P n := by
  induction k generalizing start with
  | zero => intro n hn; cases hn
  | succ k ih =>
    intro n hn
    cases start with
    | none => simp at hn
    | some m =>
      rw [walk_some, List.mem_cons] at hn
      rcases hn with rfl | hn
      · exact first n rfl
      · exact ih (fun n hn => next m n hn) n hn

theorem length_le_of_nodup {xs : List Nat} {size : Nat} (nodup : xs.Nodup)
    (inside : ∀ n ∈ xs, n < size) : xs.length ≤ size := by
  have h : xs ⊆ List.range size := fun n hn => List.mem_range.mpr (inside n hn)
  simpa using (List.subperm_of_subset nodup h).length_le

end SelectorEngine
