import Mathlib.Data.List.Perm.Basic
import SelectorEngine.Proofs.Tree.DocumentOrder
import SelectorEngine.View.Document
import SelectorEngine.View.Order

/-! # Lists in document order

Arranging keeps the nodes of a list, whatever the view. Where the view compares by a strict total
order, the result follows that order and has no repeats. -/
namespace SelectorEngine

variable {N : Type} [DecidableEq N] {view : TreeView N}

theorem mem_dropRepeats {n : N} (nodes : List N) : n ∈ dropRepeats nodes ↔ n ∈ nodes := by
  fun_induction dropRepeats nodes with
  | case1 => rfl
  | case2 => rfl
  | case3 m rest ih => simp [ih]
  | case4 m k rest hne ih => simp [ih]

namespace TreeView

theorem perm_insertDescending (view : TreeView N) (n : N) (nodes : List N) :
    (view.insertDescending n nodes).Perm (n :: nodes) := by
  induction nodes with
  | nil => exact .refl _
  | cons m rest ih =>
    rw [insertDescending]
    split
    · exact (ih.cons m).trans (.swap n m rest)
    · exact .refl _

theorem perm_insertionSort (view : TreeView N) (nodes : List N) :
    (view.insertionSort nodes).Perm nodes := by
  have fold : ∀ nodes sorted : List N,
      (nodes.foldl (fun sorted n => view.insertDescending n sorted) sorted).Perm
        (nodes ++ sorted) := by
    intro nodes
    induction nodes with
    | nil => intro sorted; exact .refl _
    | cons n nodes ih =>
      intro sorted
      rw [List.foldl_cons]
      refine (ih _).trans ?_
      exact ((perm_insertDescending view n sorted).append_left nodes).trans List.perm_middle
  have h := fold nodes []
  rw [List.append_nil] at h
  exact (List.reverse_perm _).trans h

theorem mem_sort {n : N} (nodes : List N) : n ∈ view.sort nodes ↔ n ∈ nodes := by
  rw [sort]
  split
  · exact (perm_insertionSort view nodes).mem_iff
  · rw [(List.mergeSort_perm _ _).mem_iff, List.mem_eraseDups]

theorem mem_arrange {n : N} (nodes : List N) : n ∈ view.arrange nodes ↔ n ∈ nodes := by
  rw [arrange, mem_dropRepeats, mem_sort]

theorem arrange_congr {other : TreeView N} (same : ∀ a b, view.compare a b = other.compare a b)
    (nodes : List N) : view.arrange nodes = other.arrange nodes := by
  have insert (n : N) (nodes : List N) :
      view.insertDescending n nodes = other.insertDescending n nodes := by
    induction nodes with
    | nil => rfl
    | cons m rest ih => rw [insertDescending, insertDescending, same, ih]
  have sorted (nodes : List N) : view.sort nodes = other.sort nodes := by
    simp only [sort, insertionSort, insert, same]
  rw [arrange, arrange, sorted]

/-- The view compares nodes by the strict total order `R`. -/
structure OrderedBy (view : TreeView N) (R : N → N → Prop) : Prop where
  lt_iff : ∀ a b, view.compare a b = .lt ↔ R a b
  asymm : ∀ a b, R a b → ¬ R b a
  total : ∀ a b, a ≠ b → R a b ∨ R b a
  trans : ∀ a b c, R a b → R b c → R a c

namespace OrderedBy

variable {R : N → N → Prop}

theorem le_trans (h : view.OrderedBy R) {a b c : N} (hab : ¬ R b a) (hbc : ¬ R c b) : ¬ R c a := by
  intro hca
  by_cases he : b = c
  · exact hab (he ▸ hca)
  · rcases h.total b c he with hlt | hlt
    · exact hab (h.trans b c a hlt hca)
    · exact hbc hlt

theorem descending_insert (h : view.OrderedBy R) (n : N) {nodes : List N}
    (hs : nodes.Pairwise fun a b => ¬ R a b) :
    (view.insertDescending n nodes).Pairwise fun a b => ¬ R a b := by
  induction nodes with
  | nil => exact List.pairwise_singleton _ n
  | cons m rest ih =>
    obtain ⟨hm, hrest⟩ := List.pairwise_cons.mp hs
    rw [insertDescending]
    by_cases hlt : R n m
    · rw [if_pos ((h.lt_iff n m).mpr hlt)]
      refine .cons (fun x hx => ?_) (ih hrest)
      rcases List.mem_cons.mp ((perm_insertDescending view n rest).mem_iff.mp hx) with rfl | hx
      · exact h.asymm x m hlt
      · exact hm x hx
    · rw [if_neg (mt (h.lt_iff n m).mp hlt)]
      refine .cons (fun x hx => ?_) hs
      rcases List.mem_cons.mp hx with rfl | hx
      · exact hlt
      · exact h.le_trans (hm x hx) hlt

theorem pairwise_insertionSort (h : view.OrderedBy R) (nodes : List N) :
    (view.insertionSort nodes).Pairwise fun a b => ¬ R b a := by
  have fold : ∀ nodes sorted : List N, (sorted.Pairwise fun a b => ¬ R a b) →
      (nodes.foldl (fun sorted n => view.insertDescending n sorted) sorted).Pairwise
        fun a b => ¬ R a b := by
    intro nodes
    induction nodes with
    | nil => exact fun _ hs => hs
    | cons n nodes ih => exact fun _ hs => ih _ (h.descending_insert n hs)
  exact List.pairwise_reverse.mpr (fold nodes [] .nil)

theorem pairwise_sort (h : view.OrderedBy R) (nodes : List N) :
    (view.sort nodes).Pairwise fun a b => ¬ R b a := by
  rw [sort]
  split
  · exact h.pairwise_insertionSort nodes
  · have trans : ∀ a b c, (view.compare b a != .lt) = true → (view.compare c b != .lt) = true →
        (view.compare c a != .lt) = true := by
      intro a b c hab hbc
      simp only [bne_iff_ne, ne_eq, h.lt_iff] at hab hbc ⊢
      exact h.le_trans hab hbc
    have total : ∀ a b, (view.compare b a != .lt || view.compare a b != .lt) = true := by
      intro a b
      simp only [Bool.or_eq_true, bne_iff_ne, ne_eq, h.lt_iff]
      by_cases hba : R b a
      · exact .inr (h.asymm b a hba)
      · exact .inl hba
    exact (List.pairwise_mergeSort trans total nodes.eraseDups).imp
      fun {a b} hab => by simpa [h.lt_iff] using hab

theorem pairwise_dropRepeats (h : view.OrderedBy R) {nodes : List N}
    (hs : nodes.Pairwise fun a b => ¬ R b a) : (dropRepeats nodes).Pairwise R := by
  fun_induction dropRepeats nodes with
  | case1 => exact .nil
  | case2 n => exact List.pairwise_singleton _ n
  | case3 m rest ih => exact ih hs.tail
  | case4 n m rest hne ih =>
    obtain ⟨hn, hrest⟩ := List.pairwise_cons.mp hs
    refine .cons (fun x hx => ?_) (ih hrest)
    have hnm : R n m := (h.total n m hne).resolve_right (hn m List.mem_cons_self)
    rw [mem_dropRepeats, List.mem_cons] at hx
    rcases hx with rfl | hx
    · exact hnm
    · by_cases he : m = x
      · exact he ▸ hnm
      · exact h.trans n m x hnm
          ((h.total m x he).resolve_right (List.rel_of_pairwise_cons hrest hx))

theorem pairwise_arrange (h : view.OrderedBy R) (nodes : List N) :
    (view.arrange nodes).Pairwise R :=
  h.pairwise_dropRepeats (h.pairwise_sort nodes)

end OrderedBy
end TreeView

namespace Tree.Linked

variable {t : Tree} {nodes others : List NodeId}

theorem orderedBy (h : t.Linked) : t.view.OrderedBy t.Precedes where
  lt_iff a b := by
    rw [TreeView.compare]
    by_cases he : a = b
    · simp [he, t.not_precedes_self]
    · rw [if_neg he]
      change (if (t.placement a b).following = true then Ordering.lt else .gt) = .lt ↔ _
      rw [Precedes]
      split <;> simp_all
  asymm _ _ := precedes_asymm
  total _ _ := h.precedes_total
  trans _ _ _ := h.precedes_trans

theorem eq_arrange (h : t.Linked) (ordered : nodes.Pairwise t.Precedes)
    (same : ∀ n, n ∈ nodes ↔ n ∈ others) : nodes = t.view.arrange others := by
  refine eq_of_precedes ordered (h.orderedBy.pairwise_arrange others) ?_
  intro n
  rw [TreeView.mem_arrange, same n]

theorem arrange_congr (h : t.Linked) (same : ∀ n, n ∈ nodes ↔ n ∈ others) :
    t.view.arrange nodes = t.view.arrange others := by
  refine h.eq_arrange (h.orderedBy.pairwise_arrange nodes) ?_
  intro n
  rw [TreeView.mem_arrange, same n]

theorem arrange_sublist (h : t.Linked) (within : nodes ⊆ others) :
    (t.view.arrange nodes).Sublist (t.view.arrange others) := by
  have kept : (t.view.arrange others).filter (· ∈ nodes) = t.view.arrange nodes := by
    refine h.eq_arrange ((h.orderedBy.pairwise_arrange others).filter _) ?_
    intro n
    rw [List.mem_filter, TreeView.mem_arrange, decide_eq_true_eq]
    exact and_iff_right_of_imp fun hn => within hn
  rw [← kept]
  exact List.filter_sublist

end Tree.Linked
end SelectorEngine
