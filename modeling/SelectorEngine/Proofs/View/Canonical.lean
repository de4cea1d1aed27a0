import SelectorEngine.Proofs.View.Plain

/-! # One arrangement for each set of nodes

However a list is written down and however it is sorted, arranging it comes to the same. It makes no
difference whether the view knows the places of its nodes or follows their chains of ancestors. -/
namespace SelectorEngine.Tree

variable {t : Tree} {view : TreeView NodeId}

namespace Linked

/-- A view with the links of the tree compares as the tree does, for whichever nodes it knows their
places. -/
theorem compare_placed (h : t.Linked) (links : view.toOutline = t.outline)
    (placed : ∀ a b, view.placement a b = none ∨ view.placement a b = some (t.placement a b))
    (a b : NodeId) : view.compare a b = t.view.compare a b := by
  rcases placed a b with unknown | known
  · have chains : view.compare a b = t.plainView.compare a b := by
      rw [TreeView.compare, TreeView.compare, unknown, links]
      rfl
    rw [chains, h.compare_plain]
  · rw [TreeView.compare, TreeView.compare, known]
    rfl

theorem dropRepeats_sorted (h : t.Linked) {nodes sorted : List NodeId} (sorts : sorted.Perm nodes)
    (ascending : sorted.Pairwise fun a b => t.view.compare b a ≠ .lt) :
    dropRepeats sorted = t.view.arrange nodes := by
  have order : sorted.Pairwise fun a b => ¬ t.Precedes b a :=
    ascending.imp fun {a b} least hba => least ((h.orderedBy.lt_iff b a).mpr hba)
  refine h.eq_arrange (h.orderedBy.pairwise_dropRepeats order) ?_
  intro n
  rw [mem_dropRepeats, sorts.mem_iff]

end Linked

/-- An arranged list is strictly ascending and has exactly the nodes of the list, and lists are
arranged alike if and only if they have the same nodes. With the places of the nodes and without
them the arranged list is the same, and it is what is left of any sorted list without its
repeats. -/
theorem arrange_canonical (built : t.WellBuilt) (links : view.toOutline = t.outline)
    (placed : ∀ a b, view.placement a b = none ∨ view.placement a b = some (t.placement a b))
    (xs ys : List NodeId) :
    ((view.arrange xs).Pairwise fun a b => view.compare a b = .lt) ∧
    (∀ n, n ∈ view.arrange xs ↔ n ∈ xs) ∧
    (view.arrange xs = view.arrange ys ↔ ∀ n, n ∈ xs ↔ n ∈ ys) ∧
    view.arrange xs = t.view.arrange xs ∧
    ∀ sorted : List NodeId, sorted.Perm xs →
      (sorted.Pairwise fun a b => view.compare b a ≠ .lt) →
      dropRepeats sorted = view.arrange xs := by
  have h := built.linked
  have compares := h.compare_placed links placed
  have arranges (nodes : List NodeId) : view.arrange nodes = t.view.arrange nodes :=
    TreeView.arrange_congr compares nodes
  simp only [compares, arranges]
  refine ⟨?ascending, fun n => TreeView.mem_arrange xs, ⟨?members, h.arrange_congr⟩, trivial,
    fun sorted => h.dropRepeats_sorted⟩
  case ascending =>
    exact (h.orderedBy.pairwise_arrange xs).imp fun {a b} hab => (h.orderedBy.lt_iff a b).mpr hab
  case members =>
    intro same n
    have kept (nodes : List NodeId) : n ∈ t.view.arrange nodes ↔ n ∈ nodes :=
      TreeView.mem_arrange nodes
    rw [← kept xs, same, kept ys]

theorem arrange_canonical_fragment :
    fragment.plainView.arrange [7, 5, 6, 5] = [6, 5, 7] ∧
      fragment.view.arrange [7, 5, 6, 5] = fragment.view.arrange [6, 7, 6, 5, 7] ∧
      fragment.view.arrange [7, 5, 6, 5] ≠ fragment.view.arrange [7, 5] := by
  have plain : fragment.plainView.toOutline = fragment.outline := rfl
  have placed : fragment.view.toOutline = fragment.outline := rfl
  obtain ⟨-, -, -, -, sorted⟩ := arrange_canonical wellBuilt_fragment plain
    (fun _ _ => .inl rfl) [7, 5, 6, 5] []
  obtain ⟨-, -, more, -, -⟩ := arrange_canonical wellBuilt_fragment placed
    (fun _ _ => .inr rfl) [7, 5, 6, 5] [6, 7, 6, 5, 7]
  obtain ⟨-, -, fewer, -, -⟩ := arrange_canonical wellBuilt_fragment placed
    (fun _ _ => .inr rfl) [7, 5, 6, 5] [7, 5]
  refine ⟨(sorted [6, 5, 5, 7] (by decide) (by decide +kernel)).symm, more.mpr ?_, ?_⟩
  · intro n
    simp only [List.mem_cons, List.not_mem_nil, or_false]
    tauto
  · intro same
    exact absurd ((fewer.mp same 6).mp (by decide)) (by decide)

end SelectorEngine.Tree
