import SelectorEngine.Proofs.Tree.Positions
import SelectorEngine.Proofs.View.Links

/-! # The plain view of a tree

What the plain view finds by following links is what the tree answers in its own way: the text below
a node, and the order of two nodes. Only the indices and the focus are missing from it. -/
namespace SelectorEngine.Tree

variable {t : Tree} {a b n p : NodeId} {xs ys : List NodeId}

def onward (t : Tree) (n : NodeId) : List NodeId :=
  (n :: t.outline.laterSiblings n).flatMap fun c => c :: t.preorder c

namespace Linked

theorem laterSiblings_next (h : t.Linked) (n : NodeId) : t.outline.laterSiblings n =
    (t.nextSibling n).toList.flatMap fun m => m :: t.outline.laterSiblings m := by
  cases hn : t.parent n with
  | none =>
    have top : t.nextSibling n = none := h.nextSibling_eq_none hn
    have alone : t.outline.laterSiblings n = [] := by
      rw [Outline.laterSiblings, show t.outline.nextSibling n = none from top, walk_none]
    rw [top, alone]
    rfl
  | some p =>
    obtain ⟨before, after, hp⟩ := h.exists_split hn
    rw [h.laterSiblings_eq hp, h.nextSibling_eq hp]
    cases after with
    | nil => rfl
    | cons m after =>
      have hm : t.children p = (before ++ [n]) ++ m :: after := by rw [hp, List.append_assoc]; rfl
      simp [h.laterSiblings_eq hm]

theorem onward_eq (h : t.Linked) (n : NodeId) :
    t.onward n = n :: (t.preorder n ++ (t.nextSibling n).toList.flatMap t.onward) := by
  rw [onward, List.flatMap_cons, List.cons_append, h.laterSiblings_next]
  cases t.nextSibling n <;> simp [onward]

theorem preorder_onward (h : t.Linked) (n : NodeId) :
    t.preorder n = (t.firstChild n).toList.flatMap t.onward := by
  rw [h.preorder_eq, firstChild]
  cases hn : t.children n with
  | nil => rfl
  | cons c after =>
    have hc : t.children n = [] ++ c :: after := hn
    simp [onward, h.laterSiblings_eq hc]

/-- Gathering takes the text of everything that is put aside, in the order of the tree. What is put
aside in one round instead of a node stands for what the node stood for. -/
theorem gatherText_eq (h : t.Linked) {rounds : Nat} (content : String) {aside : List NodeId}
    (enough : (aside.flatMap t.onward).length ≤ rounds) :
    t.outline.gatherText rounds content aside =
      content ++ String.join ((aside.flatMap t.onward).filterMap t.text) := by
  induction rounds generalizing content aside with
  | zero =>
    rw [List.eq_nil_of_length_eq_zero (Nat.le_zero.mp enough)]
    simp [Outline.gatherText]
  | succ rounds ih =>
    cases aside with
    | nil => simp [Outline.gatherText]
    | cons n aside =>
      have next : (n :: aside).flatMap t.onward = n ::
          ((t.firstChild n).toList ++ (t.nextSibling n).toList ++ aside).flatMap t.onward := by
        rw [List.flatMap_cons, h.onward_eq, h.preorder_onward]
        simp
      rw [next] at enough ⊢
      rw [List.length_cons, Nat.add_le_add_iff_right] at enough
      calc t.outline.gatherText (rounds + 1) content (n :: aside)
          = t.outline.gatherText rounds (content ++ (t.text n).getD "")
              ((t.firstChild n).toList ++ (t.nextSibling n).toList ++ aside) := rfl
        _ = _ := by
          rw [ih _ enough, String.append_assoc, List.filterMap_cons]
          cases t.text n with
          | none => rw [Option.getD_none, String.empty_append]
          | some data => rw [Option.getD_some, String.join_cons]

theorem textContent_plain (h : t.Linked) (n : NodeId) :
    t.outline.textContent n = t.textContent n := by
  have enough : ((t.firstChild n).toList.flatMap t.onward).length ≤ Nat.pow 2 t.bound := by
    rw [← h.preorder_onward]
    exact (h.length_preorder_le n).trans (Nat.lt_succ_self _ |>.trans Nat.lt_two_pow_self).le
  have gathered := h.gatherText_eq "" enough
  rw [String.empty_append, ← h.preorder_onward, ← h.descendants_eq] at gathered
  have same : t.outline.text n = t.text n := rfl
  rw [Outline.textContent, Tree.textContent, same]
  cases t.text n with
  | none => exact gathered
  | some data => rfl

theorem compareSiblings_eq (h : t.Linked) (ha : t.parent a = some p) (hb : t.parent b = some p)
    (hne : a ≠ b) : t.outline.compareSiblings a b =
      if childBefore (t.children p) a b then .lt else .gt := by
  obtain ⟨before, after, hp⟩ := h.exists_split ha
  have hb : b ∈ before ++ a :: after := hp ▸ (h.child_iff p b).mpr hb
  rw [Outline.compareSiblings, h.laterSiblings_eq hp]
  by_cases later : b ∈ after
  · have hs : [a, b].Sublist (t.children p) := by
      rw [hp]
      exact ((List.singleton_sublist.mpr later).cons_cons a).trans
        (List.sublist_append_right before _)
    rw [if_pos (List.contains_iff_mem.mpr later), if_pos (childBefore_of_sublist (h.nodup p) hs)]
  · have earlier : b ∈ before := by
      rcases List.mem_append.mp hb with hb | hb
      · exact hb
      · exact absurd hb (by simp [hne.symm, later])
    have hs : [b, a].Sublist (t.children p) := by
      obtain ⟨x, y, rfl⟩ := List.append_of_mem earlier
      exact pair_sublist_iff.mpr ⟨x, y, after, hp⟩
    rw [if_neg (mt List.contains_iff_mem.mp later),
      childBefore_asymm (childBefore_of_sublist (h.nodup p) hs)]
    rfl

theorem compareBelow_eq (h : t.Linked)
    (hx : (p :: xs).IsChain fun a b => t.parent b = some a)
    (hy : (p :: ys).IsChain fun a b => t.parent b = some a) (hne : xs ≠ ys) :
    t.outline.compareBelow xs ys =
      if (t.placementBelow p xs ys).following then .lt else .gt := by
  induction xs generalizing p ys with
  | nil =>
    cases ys with
    | nil => exact absurd rfl hne
    | cons y ys => rfl
  | cons x xs ih =>
    cases ys with
    | nil => rfl
    | cons y ys =>
      obtain ⟨hpx, hx⟩ := List.isChain_cons_cons.mp hx
      obtain ⟨hpy, hy⟩ := List.isChain_cons_cons.mp hy
      rw [Outline.compareBelow, placementBelow]
      by_cases he : x = y
      · subst he
        rw [if_pos rfl, if_pos rfl]
        exact ih hx hy fun e => hne (by rw [e])
      · rw [if_neg he, if_neg he, h.compareSiblings_eq hpx hpy he]
        split <;> rfl

theorem isChain_path (h : t.Linked) (n : NodeId) :
    (t.path n).IsChain fun a b => t.parent b = some a := by
  induction n using h.induction_up with
  | step n ih =>
    cases hn : t.parent n with
    | none =>
      rw [path_top hn]
      exact .singleton n
    | some p =>
      rw [h.path_parent hn, List.isChain_append]
      refine ⟨ih p hn, .singleton n, fun x hx y hy => ?_⟩
      rw [getLast_path, Option.mem_some_iff] at hx
      rw [List.head?_cons, Option.mem_some_iff] at hy
      rw [← hx, ← hy, hn]

theorem chain_eq_path (t : Tree) (n : NodeId) : t.outline.chain n = t.path n := List.reverse_cons

theorem compareChains_eq (h : t.Linked) (hne : a ≠ b) :
    t.outline.compareChains a b = if (t.placement a b).following then .lt else .gt := by
  rw [Outline.compareChains]
  by_cases same : (t.outline.parent a).isSome = true ∧ t.outline.parent a = t.outline.parent b
  · obtain ⟨p, ha⟩ := Option.isSome_iff_exists.mp same.1
    have ha : t.parent a = some p := ha
    have hb : t.parent b = some p := same.2.symm.trans ha
    have hpa : t.path a = (t.ancestors p).reverse ++ p :: [a] := by
      rw [h.path_parent ha, path, List.append_assoc]
      rfl
    have hpb : t.path b = (t.ancestors p).reverse ++ p :: [b] := by
      rw [h.path_parent hb, path, List.append_assoc]
      rfl
    rw [if_pos same, h.compareSiblings_eq ha hb hne, placement_of_path hne hpa hpb,
      placementBelow, if_neg hne]
    split <;> rfl
  · rw [if_neg same, chain_eq_path, chain_eq_path, path_eq_top_cons t a, path_eq_top_cons t b]
    dsimp only
    by_cases ht : t.top a = t.top b
    · have hpa := h.isChain_path a
      have hpb := h.isChain_path b
      rw [path_eq_top_cons t a] at hpa
      rw [path_eq_top_cons t b, ← ht] at hpb
      have hne' : (t.path a).tail ≠ (t.path b).tail := fun he =>
        hne (path_injective (by rw [path_eq_top_cons t a, path_eq_top_cons t b, ht, he]))
      rw [if_pos ht, h.compareBelow_eq hpa hpb hne', placement_same_top hne ht]
    · rw [if_neg ht, placement_other_top ht]
      change compare (t.top a) (t.top b) = _
      rcases Nat.lt_or_gt_of_ne ht with hlt | hgt
      · simp [Nat.compare_eq_lt.mpr hlt, hlt]
      · simp [Nat.compare_eq_gt.mpr hgt, Nat.lt_asymm hgt]

theorem compare_plain (h : t.Linked) (a b : NodeId) :
    t.plainView.compare a b = t.view.compare a b := by
  rw [TreeView.compare, TreeView.compare]
  by_cases hne : a = b
  · rw [if_pos hne, if_pos hne]
  · rw [if_neg hne, if_neg hne]
    exact h.compareChains_eq hne

theorem plainView_eq (h : t.Linked) (unfocused : t.focused = none) :
    t.plainView =
      { t.view with
        elementsByName := fun _ _ => none
        elementsByClass := fun _ _ => none
        placement := fun _ _ => none } := by
  rw [plainView, Outline.plain, funext h.textContent_plain, ← unfocused]
  rfl

end Linked

/-- What lies below a node, the text of a node and the order of two nodes are the same for the plain
view as for the tree, whether the nodes are attached or not. The text is that of the text nodes
below a node, in the order of the tree. -/
theorem plain_answers (built : t.WellBuilt) (a b : NodeId) :
    (t.plainView.contains a b = t.isBelow b a ∧ (t.isBelow b a = true ↔ t.Above a b)) ∧
    (t.plainView.textContent a = t.textContent a ∧
      t.textContent a = (t.text a).getD (String.join ((t.preorder a).filterMap t.text))) ∧
    t.plainView.compare a b = t.view.compare a b := by
  have h := built.linked
  refine ⟨⟨rfl, h.isBelow_iff⟩, ⟨h.textContent_plain a, ?_⟩, h.compare_plain a b⟩
  rw [textContent, h.descendants_eq]
  cases t.text a <;> rfl

def sentence : Blueprint where
  children := [.element "p" [] [.text "to ", .element "b" [] [.text "be"], .text " or"]]

def fragment : Tree :=
  (((sentence.build.alloc (.text "!")).2.attachLast 4 sentence.build.size).alloc (.text "not")).2

theorem wellBuilt_fragment : fragment.WellBuilt :=
  .alloc _ (sentence.wellBuilt_build.grow (by decide) _)

theorem plain_answers_fragment :
    fragment.plainView.contains 1 6 = true ∧ fragment.plainView.contains 1 7 = false ∧
      fragment.plainView.textContent 1 = "to be! or" ∧ fragment.plainView.textContent 4 = "be" ∧
      fragment.plainView.compare 6 5 = .lt ∧ fragment.plainView.compare 5 7 = .lt := by
  obtain ⟨⟨inside, -⟩, ⟨text, -⟩, -⟩ := plain_answers wellBuilt_fragment 1 6
  obtain ⟨⟨outside, -⟩, -, -⟩ := plain_answers wellBuilt_fragment 1 7
  obtain ⟨-, ⟨word, -⟩, -⟩ := plain_answers wellBuilt_fragment 4 4
  obtain ⟨-, -, within⟩ := plain_answers wellBuilt_fragment 6 5
  obtain ⟨-, -, apart⟩ := plain_answers wellBuilt_fragment 5 7
  rw [inside, outside, text, word, within, apart]
  refine ⟨?_, ?_, ?_, ?_, ?_, ?_⟩ <;> decide +kernel

end SelectorEngine.Tree
