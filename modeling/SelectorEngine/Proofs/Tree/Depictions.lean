import Mathlib.Data.List.Basic
import SelectorEngine.Proofs.Tree.Blueprints
import SelectorEngine.Proofs.Tree.Preorder
import SelectorEngine.Proofs.Tree.Runs

/-! # What a blueprint looks like as a tree

The nodes of a blueprint are drawn in the order in which they are written, each of them behind all
that is written before it. So the index of a node is its place in the text, and the tree is known
from the text alone. -/
namespace SelectorEngine

namespace BlueprintNode

def children : BlueprintNode → List BlueprintNode
  | element _ _ children => children
  | _ => []

def attr? (name : String) : BlueprintNode → Option String
  | element _ attributes _ => (attributes.reverse.find? (·.1 = name)).map (·.2)
  | _ => none

def Shown : BlueprintNode → NodeKind → Prop
  | element tag attributes children, .element tag' table =>
    tag' = tag ∧ (table.map (·.1)).Nodup ∧
      ∀ name, table.get? name = attr? name (element tag attributes children)
  | text data, .text data' => data' = data
  | comment data, .comment data' => data' = data
  | _, _ => False

mutual

def listing : BlueprintNode → List BlueprintNode
  | element tag attributes children => element tag attributes children :: listingAll children
  | text data => [text data]
  | comment data => [comment data]

def listingAll : List BlueprintNode → List BlueprintNode
  | [] => []
  | node :: nodes => listing node ++ listingAll nodes

end

/-- The indices of nodes that follow one another in a list of children, the first one at `start`. -/
def places (start : NodeId) : List BlueprintNode → List NodeId
  | [] => []
  | node :: nodes => start :: places (start + node.listing.length) nodes

theorem listing_eq (node : BlueprintNode) : node.listing = node :: listingAll node.children := by
  cases node <;> simp [listing, listingAll, children]

end BlueprintNode

open BlueprintNode (listingAll places)

namespace Tree

variable {t u v : Tree} {parent : NodeId} {nodes : List BlueprintNode} {node : BlueprintNode}
  {start : NodeId}

def content (t : Tree) (n : NodeId) : Option NodeKind := (t.node? n).map (·.kind)

/-- The node is a node of a blueprint, and its children are drawn right behind it. -/
structure Shows (t : Tree) (n : NodeId) (node : BlueprintNode) : Prop where
  content : ∃ kind, t.content n = some kind ∧ node.Shown kind
  children : t.children n = places (n + 1) node.children

def Draws (t : Tree) (start : NodeId) (written : List BlueprintNode) : Prop :=
  ∀ i node, written[i]? = some node → t.Shows (start + i) node

/-- The tree `u` is the tree `t` with blueprint nodes drawn behind all others, as the last children
of `parent`. -/
structure Extended (t u : Tree) (parent : NodeId) (nodes : List BlueprintNode) : Prop where
  kind : u.kind = t.kind
  size : u.size = t.size + (listingAll nodes).length
  content : ∀ m < t.size, u.content m = t.content m
  children : ∀ m < t.size,
    u.children m = t.children m ++ if m = parent then places t.size nodes else []
  draws : u.Draws t.size (listingAll nodes)

theorem draws_nil : t.Draws start [] := by
  intro i node h
  simp at h

theorem draws_cons {written : List BlueprintNode} :
    t.Draws start (node :: written) ↔ t.Shows start node ∧ t.Draws (start + 1) written := by
  constructor
  · refine fun h => ⟨h 0 node rfl, fun i inner hi => ?_⟩
    have := h (i + 1) inner hi
    rwa [Nat.add_assoc, Nat.add_comm 1 i]
  · rintro ⟨first, rest⟩ (_ | i) inner hi
    · obtain rfl := Option.some.inj hi
      exact first
    · have := rest i inner hi
      rwa [Nat.add_assoc, Nat.add_comm 1 i] at this

theorem draws_append {before after : List BlueprintNode} :
    t.Draws start (before ++ after) ↔
      t.Draws start before ∧ t.Draws (start + before.length) after := by
  induction before generalizing start with
  | nil => simp [draws_nil]
  | cons node before ih =>
    rw [List.cons_append, draws_cons, draws_cons, ih, and_assoc, List.length_cons, Nat.add_assoc,
      Nat.add_comm 1]

theorem Draws.congr {written : List BlueprintNode} (h : t.Draws start written)
    (same : ∀ m, start ≤ m → m < start + written.length →
      u.content m = t.content m ∧ u.children m = t.children m) : u.Draws start written := by
  intro i node hi
  have hlt := (List.getElem?_eq_some_iff.mp hi).1
  obtain ⟨hc, hk⟩ := same (start + i) (Nat.le_add_right _ _) (Nat.add_lt_add_left hlt _)
  exact ⟨hc ▸ (h i node hi).content, hk ▸ (h i node hi).children⟩

theorem content_update_of {change : Node → Node} (n m : NodeId)
    (keeps : ∀ node, (change node).kind = node.kind) :
    (t.update n change).content m = t.content m := by
  rw [content, node?_update]
  split <;> cases h : t.node? m <;> simp [content, h, keeps]

@[simp] theorem content_setParent (n m : NodeId) (v : Option NodeId) :
    (t.setParent n v).content m = t.content m :=
  content_update_of n m fun _ => rfl
@[simp] theorem content_setNext (n m : NodeId) (v : Option NodeId) :
    (t.setNext n v).content m = t.content m :=
  content_update_of n m fun _ => rfl
@[simp] theorem content_setPrevious (n m : NodeId) (v : Option NodeId) :
    (t.setPrevious n v).content m = t.content m :=
  content_update_of n m fun _ => rfl
@[simp] theorem content_changeChildren (n m : NodeId) (change : List NodeId → List NodeId) :
    (t.changeChildren n change).content m = t.content m :=
  content_update_of n m fun _ => rfl

theorem content_attachLast (t : Tree) (parent child m : NodeId) :
    (t.attachLast parent child).content m = t.content m := by
  unfold attachLast linkBehind
  cases (t.children parent).getLast? <;> simp

theorem kind_attachLast (t : Tree) (parent child : NodeId) :
    (t.attachLast parent child).kind = t.kind := by
  unfold attachLast linkBehind
  cases (t.children parent).getLast? <;> rfl

theorem children_alloc (t : Tree) (kind : NodeKind) (m : NodeId) :
    (t.alloc kind).2.children m = t.children m := by
  rw [children, node?_alloc, children]
  split
  · next h => rw [node?_eq_none h.ge]; rfl
  · rfl

theorem content_alloc (t : Tree) (kind : NodeKind) (m : NodeId) :
    (t.alloc kind).2.content m = if m = t.size then some kind else t.content m := by
  rw [content, node?_alloc]
  split <;> rfl

theorem children_eq_nil {n : NodeId} (h : t.size ≤ n) : t.children n = [] := by
  rw [children, node?_eq_none h]
  rfl

theorem children_grow (h : t.Linked) (hp : parent < t.size) (kind : NodeKind) (m : NodeId) :
    ((t.alloc kind).2.attachLast parent t.size).children m =
      t.children m ++ if m = parent then [t.size] else [] := by
  have hn : t.size < (t.alloc kind).2.size := by rw [size_alloc]; exact Nat.lt_succ_self _
  have g := Linked.grafted_attachLast (h.linked_alloc kind) (h.attachable_alloc hp kind)
    (hp.trans hn) hn
  rw [g.children, children_alloc, children_alloc]
  split
  · next he => rw [he]
  · rw [List.append_nil]

theorem Extended.single (h : t.WellBuilt) (hp : parent < t.size) (kind : NodeKind)
    (shown : node.Shown kind)
    (inner : Extended ((t.alloc kind).2.attachLast parent t.size) u t.size node.children) :
    Extended t u parent [node] := by
  have hsize : ((t.alloc kind).2.attachLast parent t.size).size = t.size + 1 := by
    rw [size_attachLast, size_alloc]
  have hlist : listingAll [node] = node :: listingAll node.children := by
    simp [listingAll, BlueprintNode.listing_eq node]
  have hchildren := children_grow h.linked hp kind
  have kept : ∀ m < t.size, m < ((t.alloc kind).2.attachLast parent t.size).size ∧ m ≠ t.size :=
    fun m hm => ⟨hsize ▸ Nat.lt_succ_of_lt hm, hm.ne⟩
  have hself : t.size < ((t.alloc kind).2.attachLast parent t.size).size := by
    rw [hsize]
    exact Nat.lt_succ_self _
  refine ⟨inner.kind.trans (kind_attachLast _ _ _), ?_, fun m hm => ?_, fun m hm => ?_, ?_⟩
  · rw [inner.size, hsize, hlist, List.length_cons]
    omega
  · rw [inner.content m (kept m hm).1, content_attachLast, content_alloc, if_neg (kept m hm).2]
  · rw [inner.children m (kept m hm).1, if_neg (kept m hm).2, List.append_nil, hchildren]
    rfl
  · rw [hlist, draws_cons, ← hsize]
    refine ⟨⟨⟨kind, ?_, shown⟩, ?_⟩, inner.draws⟩
    · rw [inner.content _ hself, content_attachLast, content_alloc, if_pos rfl]
    · rw [inner.children _ hself, if_pos rfl, hchildren, if_neg hp.ne',
        children_eq_nil (Nat.le_refl _), hsize]
      rfl

theorem Extended.refl (t : Tree) (parent : NodeId) : Extended t t parent [] :=
  ⟨rfl, rfl, fun _ _ => rfl, fun m _ => by split <;> simp [places], draws_nil⟩

theorem Extended.cons (hp : parent < t.size) (first : Extended t u parent [node])
    (rest : Extended u v parent nodes) : Extended t v parent (node :: nodes) := by
  have hone : listingAll [node] = node.listing := by simp [listingAll]
  have hsize := first.size
  rw [hone] at hsize
  have inside : ∀ m < t.size, m < u.size := fun m hm => hsize ▸ Nat.lt_add_right _ hm
  refine ⟨rest.kind.trans first.kind, ?_, fun m hm => ?_, fun m hm => ?_, ?_⟩
  · rw [rest.size, hsize, listingAll, List.length_append, Nat.add_assoc]
  · rw [rest.content m (inside m hm), first.content m hm]
  · rw [rest.children m (inside m hm), first.children m hm, hsize]
    split <;> simp [places]
  -- All that is drawn later gets greater indices and another parent.
  · rw [listingAll, draws_append, ← hsize, ← hone]
    refine ⟨first.draws.congr fun m hle hlt => ?_, rest.draws⟩
    rw [← first.size] at hlt
    rw [rest.content m hlt, rest.children m hlt, if_neg (hp.trans_le hle).ne', List.append_nil]
    exact ⟨rfl, rfl⟩

end Tree

namespace BlueprintNode

open SelectorEngine.Tree (Extended draws_cons draws_append)

theorem get?_entered (table : Table String String) (attributes : List (String × String))
    (name : String) :
    (attributes.foldl (fun table (name, value) => table.set name value) table).get? name =
      ((attributes.reverse.find? (·.1 = name)).map (·.2)).or (table.get? name) := by
  induction attributes generalizing table with
  | nil => rfl
  | cons pair attributes ih =>
    rw [List.foldl_cons, ih, Table.get?_set, List.reverse_cons, List.find?_append]
    cases attributes.reverse.find? (·.1 = name) with
    | some found => rfl
    | none => by_cases h : pair.1 = name <;> simp [h]

theorem nodup_entered (table : Table String String) (attributes : List (String × String))
    (h : (table.map (·.1)).Nodup) :
    ((attributes.foldl (fun table (name, value) => table.set name value) table).map
      (·.1)).Nodup := by
  induction attributes generalizing table with
  | nil => exact h
  | cons pair attributes ih =>
    obtain ⟨name, value⟩ := pair
    have other : name ∉ (table.filter fun pair => !decide (pair.1 = name)).map (·.1) := by simp
    exact ih _ (List.nodup_cons.mpr ⟨other, h.sublist (List.filter_sublist.map _)⟩)

mutual

theorem extended_appendTo (node : BlueprintNode) {t : Tree} {parent : NodeId} (h : t.WellBuilt)
    (hp : parent < t.size) : Extended t (node.appendTo parent t) parent [node] := by
  cases node with
  | element tag attributes children =>
    have shown : (element tag attributes children).Shown (.element tag
        (attributes.foldl (fun table (name, value) => table.set name value) [])) :=
      ⟨rfl, nodup_entered [] attributes .nil, fun name =>
        (get?_entered [] attributes name).trans Option.or_none⟩
    exact .single h hp _ shown
      (extended_appendAllTo children (h.grow hp _) (t.lt_size_grow parent _))
  | text data => exact .single h hp (.text data) rfl (.refl _ _)
  | comment data => exact .single h hp (.comment data) rfl (.refl _ _)

theorem extended_appendAllTo (nodes : List BlueprintNode) {t : Tree} {parent : NodeId}
    (h : t.WellBuilt) (hp : parent < t.size) :
    Extended t (appendAllTo parent nodes t) parent nodes := by
  cases nodes with
  | nil => exact .refl t parent
  | cons node nodes =>
    have first := extended_appendTo node h hp
    have hp' : parent < (node.appendTo parent t).size := by
      rw [first.size]
      exact Nat.lt_add_right _ hp
    exact .cons hp first (extended_appendAllTo nodes (wellBuilt_appendTo node h hp).1 hp')

end

mutual

theorem preorder_listing (node : BlueprintNode) {t : Tree} (h : t.Linked) {start : NodeId}
    (drawn : t.Draws start node.listing) :
    start :: t.preorder start = List.range' start node.listing.length := by
  rw [listing_eq, draws_cons] at drawn
  rw [h.preorder_eq, drawn.1.children, listing_eq, List.length_cons, List.range'_succ]
  cases node with
  | element tag attributes children => exact congrArg _ (preorder_places children h drawn.2)
  | text data => rfl
  | comment data => rfl

theorem preorder_places (nodes : List BlueprintNode) {t : Tree} (h : t.Linked) {start : NodeId}
    (drawn : t.Draws start (listingAll nodes)) :
    ((places start nodes).flatMap fun c => c :: t.preorder c) =
      List.range' start (listingAll nodes).length := by
  cases nodes with
  | nil => rfl
  | cons node nodes =>
    rw [listingAll, draws_append] at drawn
    rw [places, List.flatMap_cons, preorder_listing node h drawn.1, preorder_places nodes h drawn.2,
      listingAll, List.length_append, List.range'_append_1]

end

mutual

/-- What is written in a node of a listing stands right behind it. -/
theorem listing_inside (node : BlueprintNode) {i j : Nat} {outer inner : BlueprintNode}
    (ho : node.listing[i]? = some outer) (hi : (listingAll outer.children)[j]? = some inner) :
    node.listing[i + 1 + j]? = some inner := by
  cases i with
  | zero =>
    rw [listing_eq] at ho ⊢
    obtain rfl := Option.some.inj ho
    rwa [Nat.zero_add, Nat.add_comm, List.getElem?_cons_succ]
  | succ i =>
    cases node with
    | element tag attributes children =>
      rw [Nat.add_right_comm, listing, List.getElem?_cons_succ]
      exact listingAll_inside children ho hi
    | text data => cases ho
    | comment data => cases ho

theorem listingAll_inside (nodes : List BlueprintNode) {i j : Nat} {outer inner : BlueprintNode}
    (ho : (listingAll nodes)[i]? = some outer)
    (hi : (listingAll outer.children)[j]? = some inner) :
    (listingAll nodes)[i + 1 + j]? = some inner := by
  cases nodes with
  | nil => cases ho
  | cons node nodes =>
    rw [listingAll] at ho ⊢
    by_cases hlt : i < node.listing.length
    · rw [List.getElem?_append_left hlt] at ho
      have found := listing_inside node ho hi
      rwa [List.getElem?_append_left (List.getElem?_eq_some_iff.mp found).1]
    · rw [List.getElem?_append_right (Nat.le_of_not_lt hlt)] at ho
      have found := listingAll_inside nodes ho hi
      rw [List.getElem?_append_right (by omega)]
      rwa [show i + 1 + j - node.listing.length = i - node.listing.length + 1 + j by omega]

end

theorem map_places {nodes : List BlueprintNode} {start : NodeId} (f : NodeId → Option BlueprintNode)
    (hf : ∀ i node, (listingAll nodes)[i]? = some node → f (start + i) = some node) :
    (places start nodes).map f = nodes.map some := by
  induction nodes generalizing start with
  | nil => rfl
  | cons node nodes ih =>
    have first : f start = some node := hf 0 node (by rw [listingAll, listing_eq]; rfl)
    rw [places, List.map_cons, List.map_cons, first, ih]
    intro i inner hi
    rw [Nat.add_assoc]
    refine hf _ inner ?_
    rwa [listingAll, List.getElem?_append_right (Nat.le_add_right _ _), Nat.add_sub_cancel_left]

end BlueprintNode

namespace Tree

theorem Shows.attr {t : Tree} {n : NodeId} {node : BlueprintNode} (h : t.Shows n node)
    (name : String) : t.attr n name = node.attr? name := by
  obtain ⟨kind, hc, shown⟩ := h.content
  obtain ⟨found, hn, rfl⟩ := Option.map_eq_some_iff.mp hc
  obtain ⟨kind, parent, children, next, previous⟩ := found
  rw [Tree.attr, hn]
  cases node with
  | element tag attributes inner =>
    cases kind with
    | element tag' table => exact shown.2.2 name
    | _ => cases shown
  | text data =>
    cases kind with
    | text data' => rfl
    | _ => cases shown
  | comment data =>
    cases kind with
    | comment data' => rfl
    | _ => cases shown

theorem find?_range' {written : List BlueprintNode} {start : NodeId} {p : NodeId → Bool}
    {q : BlueprintNode → Bool}
    (same : ∀ i node, written[i]? = some node → p (start + i) = q node) :
    (List.range' start written.length).find? p = (written.findIdx? q).map (· + start) := by
  induction written generalizing start with
  | nil => rfl
  | cons node written ih =>
    have first : p start = q node := same 0 node rfl
    rw [List.length_cons, List.range'_succ, List.find?_cons, List.findIdx?_cons, first, ih]
    · cases q node with
      | true => simp
      | false => simp [Function.comp_def, Nat.add_assoc, Nat.add_comm 1]
    · intro i inner hi
      rw [Nat.add_assoc, Nat.add_comm 1]
      exact same (i + 1) inner hi

end Tree

namespace Blueprint

open BlueprintNode

def listing (b : Blueprint) : List BlueprintNode := listingAll b.children

def node? (b : Blueprint) : NodeId → Option BlueprintNode
  | 0 => none
  | i + 1 => b.listing[i]?

def childrenOf (b : Blueprint) : NodeId → List BlueprintNode
  | 0 => b.children
  | i + 1 => (b.listing[i]?.map (·.children)).getD []

/-- The tree is the picture of a blueprint: its nodes are the nodes of the blueprint in the order of
the text, linked as they are written. -/
structure Depicted (b : Blueprint) (t : Tree) : Prop where
  kind : t.kind = if b.xml then .xml else .html
  size : t.size = b.listing.length + 1
  document : t.content Tree.root = some .document
  shown : ∀ n node, b.node? n = some node → ∃ kind, t.content n = some kind ∧ node.Shown kind
  children : ∀ p, t.children p = places (p + 1) (b.childrenOf p)
  written : ∀ p, (t.children p).map b.node? = (b.childrenOf p).map some
  parent : ∀ n p, t.parent n = some p ↔ n ∈ places (p + 1) (b.childrenOf p)
  consistent : t.Consistent
  descendants : t.descendants Tree.root = List.range' 1 b.listing.length
  focused : t.focused = b.focus.bind fun id =>
    (b.listing.findIdx? (·.attr? "id" == some id)).map (· + 1)

theorem node?_places (b : Blueprint) (p : NodeId) :
    (places (p + 1) (b.childrenOf p)).map b.node? = (b.childrenOf p).map some := by
  refine map_places b.node? fun i node hi => ?_
  rw [Nat.add_right_comm]
  cases p with
  | zero => rwa [Nat.zero_add]
  | succ p =>
    rw [childrenOf] at hi
    cases ho : b.listing[p]? with
    | none =>
      rw [ho] at hi
      cases hi
    | some outer =>
      rw [ho] at hi
      exact listingAll_inside b.children ho hi

theorem extended_build (b : Blueprint) :
    Tree.Extended (.empty (if b.xml then .xml else .html)) b.build Tree.root b.children := by
  have drawn := extended_appendAllTo b.children (.empty (if b.xml then .xml else .html))
    Nat.zero_lt_one
  exact ⟨drawn.kind, drawn.size, drawn.content, drawn.children,
    fun i node hi => ⟨(drawn.draws i node hi).content, (drawn.draws i node hi).children⟩⟩

theorem shows_build (b : Blueprint) {n : NodeId} {node : BlueprintNode}
    (hn : b.node? n = some node) : b.build.Shows n node := by
  cases n with
  | zero => cases hn
  | succ i =>
    have shows : b.build.Shows (1 + i) node := b.extended_build.draws i node hn
    rwa [Nat.add_comm] at shows

theorem children_build (b : Blueprint) (p : NodeId) :
    b.build.children p = places (p + 1) (b.childrenOf p) := by
  cases p with
  | zero => exact b.extended_build.children 0 Nat.zero_lt_one
  | succ i =>
    rw [childrenOf]
    cases hi : b.listing[i]? with
    | some node => exact (b.shows_build (n := i + 1) hi).children
    | none =>
      have size : b.build.size = 1 + b.listing.length := b.extended_build.size
      have behind := List.getElem?_eq_none_iff.mp hi
      exact Tree.children_eq_nil (by omega)

theorem descendants_build (b : Blueprint) :
    b.build.descendants Tree.root = List.range' 1 b.listing.length := by
  have h := b.wellBuilt_build.linked
  rw [h.descendants_eq, h.preorder_eq, b.children_build]
  exact preorder_places b.children h b.extended_build.draws

theorem elementById_build (b : Blueprint) (id : String) : b.build.elementById Tree.root id =
    (b.listing.findIdx? (·.attr? "id" == some id)).map (· + 1) := by
  rw [Tree.elementById, b.descendants_build]
  refine Tree.find?_range' fun i node hi => ?_
  have shows : b.build.Shows (1 + i) node := b.extended_build.draws i node hi
  rw [shows.attr]

/-- Every blueprint is built as it is written, with the focus on the first element that is written
with the identifier it names. -/
theorem build_depicted (b : Blueprint) : b.Depicted b.build where
  kind := b.extended_build.kind
  size := b.extended_build.size.trans (Nat.add_comm _ _)
  document := b.extended_build.content 0 Nat.zero_lt_one
  shown _ _ hn := (b.shows_build hn).content
  children := b.children_build
  written p := by rw [b.children_build, b.node?_places]
  parent n p := by rw [← b.children_build, b.wellBuilt_build.linked.child_iff]
  consistent := b.wellBuilt_build.linked.consistent
  descendants := b.descendants_build
  focused := by
    change b.focus.bind (b.build.elementById Tree.root) = _
    simp only [← b.elementById_build]

def page : Blueprint where
  focus := some "x"
  children := [.element "main" [("id", "m")] [.element "p" [("id", "x"), ("id", "y")] [.text "a"],
    .element "p" [("id", "x")] [], .comment "c"], .text "b"]

example : page.build.focused = some 4 ∧ page.build.children 1 = [2, 4, 5] := by decide

end Blueprint
end SelectorEngine
