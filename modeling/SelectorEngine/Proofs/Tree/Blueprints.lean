import SelectorEngine.Blueprint
import SelectorEngine.Proofs.Tree.Building

/-! # Trees of blueprints

Every tree that a blueprint describes is well built. -/
namespace SelectorEngine

namespace Tree

variable {t : Tree} {parent : NodeId}

theorem size_attachLast (t : Tree) (parent child : NodeId) :
    (t.attachLast parent child).size = t.size := by
  rw [attachLast]
  cases (t.children parent).getLast? <;> simp [linkBehind]

theorem WellBuilt.grow (h : t.WellBuilt) (hp : parent < t.size) (kind : NodeKind) :
    ((t.alloc kind).2.attachLast parent t.size).WellBuilt := by
  have hn : t.size < (t.alloc kind).2.size := by rw [size_alloc]; exact Nat.lt_succ_self _
  have appended : t.append parent kind =
      some (t.size, (t.alloc kind).2.attachLast parent t.size) := by
    change Option.map _ ((t.alloc kind).2.appendChild parent t.size) = _
    rw [Tree.appendChild, if_pos ⟨Nat.lt_trans hp hn, hn⟩]
    rfl
  exact .append h hp appended

theorem lt_size_grow (t : Tree) (parent : NodeId) (kind : NodeKind) :
    t.size < ((t.alloc kind).2.attachLast parent t.size).size := by
  rw [size_attachLast, size_alloc]
  exact Nat.lt_succ_self _

end Tree

open SelectorEngine.Tree

namespace BlueprintNode

mutual

theorem wellBuilt_appendTo (node : BlueprintNode) {t : Tree} {parent : NodeId} (h : t.WellBuilt)
    (hp : parent < t.size) :
    (node.appendTo parent t).WellBuilt ∧ t.size ≤ (node.appendTo parent t).size := by
  cases node with
  | element tag attributes children =>
    have hlt := t.lt_size_grow parent
      (.element tag (attributes.foldl (fun table (name, value) => table.set name value) []))
    obtain ⟨hw, hle⟩ := wellBuilt_appendAllTo children (h.grow hp _) hlt
    exact ⟨hw, hlt.le.trans hle⟩
  | text data => exact ⟨h.grow hp (.text data), (t.lt_size_grow parent (.text data)).le⟩
  | comment data => exact ⟨h.grow hp (.comment data), (t.lt_size_grow parent (.comment data)).le⟩

theorem wellBuilt_appendAllTo (nodes : List BlueprintNode) {t : Tree} {parent : NodeId}
    (h : t.WellBuilt) (hp : parent < t.size) :
    (appendAllTo parent nodes t).WellBuilt ∧ t.size ≤ (appendAllTo parent nodes t).size := by
  cases nodes with
  | nil => exact ⟨h, Nat.le_refl _⟩
  | cons node nodes =>
    obtain ⟨hw, hle⟩ := wellBuilt_appendTo node h hp
    obtain ⟨hws, hles⟩ := wellBuilt_appendAllTo nodes hw (hp.trans_le hle)
    exact ⟨hws, hle.trans hles⟩

end

end BlueprintNode

theorem Blueprint.wellBuilt_build (b : Blueprint) : b.build.WellBuilt := by
  have he := WellBuilt.empty (if b.xml then .xml else .html)
  exact .focus _ (BlueprintNode.wellBuilt_appendAllTo b.children he Nat.zero_lt_one).1

end SelectorEngine
