import SelectorEngine.Proofs.Matching.Chains
import SelectorEngine.Proofs.Tree.Relations

/-! # Searching a tree

Whichever index the candidates come from, below an attached node the search finds the elements that
suit the compound, in document order. -/
namespace SelectorEngine

def Setting.suits {N : Type} [DecidableEq N] (s : Setting N) (simples : List (Simple (Query N)))
    (n : N) : Bool :=
  s.view.isElement n && s.admits simples n

theorem filter_eq_find? {α : Type} {p : α → Bool} {xs : List α} (hd : xs.Nodup)
    (unique : ∀ a ∈ xs, ∀ b ∈ xs, p a = true → p b = true → a = b) :
    xs.filter p = (xs.find? p).toList := by
  rw [← List.head?_filter]
  rcases hf : xs.filter p with _ | ⟨a, _ | ⟨b, rest⟩⟩
  · rfl
  · rfl
  · have ha : a ∈ xs.filter p := by simp [hf]
    have hb : b ∈ xs.filter p := by simp [hf]
    rw [List.mem_filter] at ha hb
    obtain rfl := unique a ha.1 b hb.1 ha.2 hb.2
    have hn := hd.filter p
    simp [hf] at hn

namespace Tree

/-- No two elements of an HTML document have one identifier. -/
def UniqueIds (t : Tree) : Prop :=
  t.isXml = false → ∀ a b id, t.Above root a → t.Above root b → t.attr a "id" = some id →
    t.attr b "id" = some id → a = b

def setting (t : Tree) (config : Config) : Setting NodeId := ⟨t.view, config, t.isXml⟩

variable {t : Tree} {n scope : NodeId} {config : Config}

theorem Linked.isContext_root (h : t.Linked) : t.view.isContext root = true := by
  rw [TreeView.isContext]
  exact Bool.or_eq_true_iff.mpr (.inr h.root_document)

theorem Linked.regular (h : t.Linked) (config : Config) : (t.setting config).Regular :=
  ⟨h.outline_linked, rfl, h.isContext_root⟩

theorem isSome_tagName (t : Tree) (n : NodeId) : (t.tagName n).isSome = t.isElement n := by
  rw [tagName, isElement]
  rcases t.node? n with _ | node
  · rfl
  · obtain ⟨kind, _⟩ := node
    cases kind <;> rfl

theorem isElement_of_attr {name value : String} (h : t.attr n name = some value) :
    t.isElement n = true := by
  rw [attr] at h
  rw [isElement]
  rcases hn : t.node? n with _ | node
  · simp [hn] at h
  · obtain ⟨kind, _⟩ := node
    cases kind with
    | element => rfl
    | _ => simp [hn] at h

theorem Linked.uniqueIds (h : t.Linked)
    (hd : ((t.descendants root).filterMap fun n => t.attr n "id").Nodup) : t.UniqueIds := by
  intro _ a b id ha hb hia hib
  by_contra hne
  have : Std.Symm fun a b => ¬ (t.attr a "id" = some id ∧ t.attr b "id" = some id) :=
    ⟨fun a b hab hba => hab hba.symm⟩
  have apart : (t.descendants root).Pairwise
      fun a b => ¬ (t.attr a "id" = some id ∧ t.attr b "id" = some id) :=
    (List.pairwise_filterMap.mp hd).imp fun hne hab => hne id hab.1 id hab.2 rfl
  exact apart.forall (h.mem_descendants.mpr ha) (h.mem_descendants.mpr hb) hne ⟨hia, hib⟩

theorem admits_insert (before after : List (Simple (Query NodeId)))
    (simple : Simple (Query NodeId)) :
    (t.setting config).admits (before ++ simple :: after) n =
      ((t.setting config).satisfies simple n && (t.setting config).admits (before ++ after) n) := by
  simp only [Setting.admits, List.all_append, List.all_cons]
  cases (t.setting config).satisfies simple n <;> simp

theorem satisfies_id (id : String) :
    (t.setting config).satisfies (.id id) n = (t.attr n "id" == some id) := by
  change (t.isElement n && (t.attr n "id" == some id)) = _
  cases h : t.attr n "id" == some id with
  | false => rw [Bool.and_false]
  | true => rw [isElement_of_attr (beq_iff_eq.mp h), Bool.and_true]

theorem attrValue_eq (name : String) : (t.setting config).attrValue n name = t.attr n name := by
  rw [Setting.attrValue]
  split
  · rfl
  split
  · next classes => exact congrArg (t.attr n) classes.symm
  split
  · next label => exact congrArg (t.attr n) label.symm
  · rfl

theorem satisfies_name (value : String) :
    (t.setting config).satisfies (.attr ⟨"name", some (.equals, value)⟩) n =
      (t.attr n "name" == some value) := by
  change (t.isElement n && AttributeTest.holds _ ((t.setting config).attrValue n "name")) = _
  rw [attrValue_eq]
  cases h : t.attr n "name" with
  | none => exact Bool.and_false _
  | some v =>
    rw [isElement_of_attr h, Bool.true_and]
    change (v.toList == value.toList) = (v == value)
    rw [Bool.eq_iff_iff, beq_iff_eq, beq_iff_eq, String.toList_inj]

def hasTag (t : Tree) (name : String) (n : NodeId) : Bool :=
  (t.tagName n).any fun tag => t.sameTag tag name

theorem satisfies_hasTag (name : String) :
    (t.setting config).satisfies (.tag name) n = t.hasTag name n := by
  change (t.isElement n && (t.setting config).tagMatches n name) = _
  rw [Setting.tagMatches]
  change (t.isElement n && (t.isElement n && (t.tagName n).any fun tag =>
    if t.isXml then tag == name else Text.sameLetters tag name)) = _
  rw [← isSome_tagName, hasTag]
  cases t.tagName n with
  | none => rfl
  | some tag =>
    rw [Option.any_some, Option.any_some, sameTag, isXml]
    cases t.kind <;> rfl

theorem satisfies_tag {name : String} (star : name ≠ "*") :
    (t.setting config).satisfies (.tag name) n =
      (t.tagName n).any fun tag => name == "*" || t.sameTag tag name := by
  have hs : (name == "*") = false := beq_eq_false_iff_ne.mpr star
  simp only [satisfies_hasTag, hasTag, hs, Bool.false_or]

theorem satisfies_universal : (t.setting config).satisfies .universal n = t.isElement n :=
  Bool.and_true _

theorem elementsByTag_star (t : Tree) (scope : NodeId) :
    t.elementsByTag scope "*" = (t.descendants scope).filter t.isElement := by
  rw [elementsByTag]
  refine List.filter_congr fun n _ => ?_
  rw [← isSome_tagName]
  cases t.tagName n <;> rfl

namespace Linked

theorem nodup_descendants (h : t.Linked) (n : NodeId) : (t.descendants n).Nodup := by
  rw [h.descendants_eq]
  exact h.nodup_preorder n

theorem byId_eq (h : t.Linked) (ids : t.UniqueIds) (html : t.isXml = false)
    (hs : t.Attached scope) (id : String) : (t.elementById scope id).toList =
      (t.descendants scope).filter fun n => t.attr n "id" == some id := by
  refine (filter_eq_find? (h.nodup_descendants scope) fun a ha b hb hia hib => ?_).symm
  rw [h.mem_descendants] at ha hb
  exact ids html a b id (hs.above ha) (hs.above hb) (beq_iff_eq.mp hia) (beq_iff_eq.mp hib)

end Linked

theorem sublist_elements {p : NodeId → Bool} (element : ∀ n, p n = true → t.isElement n = true)
    (scope : NodeId) :
    ((t.descendants scope).filter p).Sublist ((t.descendants scope).filter t.isElement) :=
  List.monotone_filter_right _ element

theorem elementById_sublist (id : String) :
    (t.elementById scope id).toList.Sublist ((t.descendants scope).filter t.isElement) := by
  have element : ∀ n, (t.attr n "id" == some id) = true → t.isElement n = true :=
    fun n hn => isElement_of_attr (beq_iff_eq.mp hn)
  refine .trans ?_ (sublist_elements element scope)
  rw [elementById, ← List.head?_filter]
  cases (t.descendants scope).filter fun n => t.attr n "id" == some id with
  | nil => exact .slnil
  | cons n nodes => exact (List.nil_sublist nodes).cons_cons n

theorem elementsByTag_sublist (name : String) :
    (t.elementsByTag scope name).Sublist ((t.descendants scope).filter t.isElement) := by
  refine sublist_elements (fun n hn => ?_) scope
  obtain ⟨tag, ht, -⟩ := (Option.any_eq_true _ _).mp hn
  rw [← isSome_tagName, ht]
  rfl

theorem elementsByClass_sublist (names : String) :
    (t.elementsByClass scope names).Sublist ((t.descendants scope).filter t.isElement) := by
  rw [elementsByClass]
  split
  · exact List.nil_sublist _
  · exact sublist_elements (fun n hn => (Bool.and_eq_true_iff.mp hn).1) scope

theorem elementsByName_sublist (name : String) :
    (t.elementsByName name).Sublist ((t.descendants root).filter t.isElement) :=
  sublist_elements (fun _ hn => isElement_of_attr (beq_iff_eq.mp hn)) root

/-- Whichever index they come from, candidates are elements below the scope in document order. -/
theorem candidates_sublist (config : Config) (simples : List (Simple (Query NodeId)))
    (scope : NodeId) :
    ((t.setting config).candidates simples scope).nodes.Sublist
      ((t.descendants scope).filter t.isElement) := by
  rcases (t.setting config).candidates_cases simples scope with hc | hc | hc | hc
  · obtain ⟨-, -, before, id, after, -, hf⟩ := Setting.candidatesById_eq_some hc
    rw [hf]
    exact elementById_sublist id
  · obtain ⟨-, -, before, name, after, nodes, -, hn, hf⟩ := Setting.candidatesByClass_eq_some hc
    change (if t.isXml = true then none else some (t.elementsByClass scope name)) = some nodes at hn
    split at hn
    · cases hn
    · obtain rfl := Option.some.inj hn
      rw [hf]
      exact elementsByClass_sublist name
  · obtain ⟨-, -, before, value, after, nodes, -, -, hn, hf⟩ := Setting.candidatesByName_eq_some hc
    change (if scope = root ∧ (!t.isXml) = true then some (t.elementsByName value) else none) =
      some nodes at hn
    split at hn
    · next hroot =>
      obtain rfl := Option.some.inj hn
      rw [hf, hroot.1]
      exact List.filter_sublist.trans (elementsByName_sublist value)
    · cases hn
  · rw [← hc]
    unfold Setting.candidatesByTag
    split <;> exact elementsByTag_sublist _

theorem Linked.find_sublist (h : t.Linked) (config : Config) (scope : NodeId)
    {simples : List (Simple (Query NodeId))} (hq : ∀ q, .not q ∈ simples → q.Faithful t.view)
    {m : Marks NodeId} (hm : m.Sound t.outline) :
    ((t.setting config).find simples scope m).1.Sublist ((t.descendants scope).filter t.isElement) ∧
      ((t.setting config).find simples scope m).2.Sound t.outline := by
  have remaining : ∀ q, .not q ∈ ((t.setting config).candidates simples scope).remaining →
      q.Faithful t.view := fun q hmem => hq q (Setting.candidates_remaining hmem)
  obtain ⟨hf, hfol⟩ := Setting.filter_eq (h.regular config) hm remaining
    ((t.setting config).candidates simples scope).nodes
  rw [Setting.find, hf]
  exact ⟨(Setting.sift_sublist _ _).trans (candidates_sublist config simples scope), hfol.sound⟩

theorem filter_candidates {p : NodeId → Bool} {simple : Simple (Query NodeId)}
    (before after : List (Simple (Query NodeId)))
    (hp : ∀ n, (t.setting config).satisfies simple n = p n)
    (element : ∀ n, p n = true → t.isElement n = true) (nodes : List NodeId) :
    (nodes.filter p).filter ((t.setting config).admits (before ++ after)) =
      nodes.filter ((t.setting config).suits (before ++ simple :: after)) := by
  rw [List.filter_filter]
  refine List.filter_congr fun n _ => ?_
  rw [Setting.suits, admits_insert, hp, Bool.and_comm]
  cases h : p n with
  | false => simp
  | true =>
    have he : (t.setting config).view.isElement n = true := element n h
    rw [he, Bool.true_and, Bool.true_and]

theorem filter_byTag {simples : List (Simple (Query NodeId))} (star : .tag "*" ∉ simples)
    (scope : NodeId) :
    ((t.setting config).candidatesByTag simples scope).nodes.filter
        ((t.setting config).admits ((t.setting config).candidatesByTag simples scope).remaining) =
      (t.descendants scope).filter ((t.setting config).suits simples) := by
  unfold Setting.candidatesByTag
  split
  · next name remaining =>
    have hname : name ≠ "*" := fun he => star (he ▸ List.mem_cons_self)
    refine filter_candidates [] remaining (fun n => satisfies_tag hname) (fun n hn => ?_) _
    obtain ⟨tag, ht, -⟩ := (Option.any_eq_true _ _).mp hn
    rw [← isSome_tagName, ht]
    rfl
  · next remaining =>
    change (t.elementsByTag scope "*").filter _ = _
    rw [elementsByTag_star]
    exact filter_candidates [] remaining (fun n => satisfies_universal) (fun _ => id) _
  · change (t.elementsByTag scope "*").filter _ = _
    rw [elementsByTag_star, List.filter_filter]
    exact List.filter_congr fun n _ => Bool.and_comm _ _

/-- The search finds the elements below its scope that suit the compound, in document order. -/
theorem Linked.find_eq (h : t.Linked) (ids : t.UniqueIds) {simples : List (Simple (Query NodeId))}
    (classless : config.classLookup = false ∨ ∀ name, .className name ∉ simples)
    (hs : t.isDocument scope = true → t.Attached scope) (star : .tag "*" ∉ simples)
    (hl : ∀ simple ∈ simples, simple.Local t.view) {m : Marks NodeId} (hm : m.Sound t.outline) :
    ((t.setting config).find simples scope m).1 =
      (t.descendants scope).filter ((t.setting config).suits simples) := by
  rw [(Setting.find_local (h.regular config) hm hl scope).1]
  rcases (t.setting config).candidates_cases simples scope with hc | hc | hc | hc
  · obtain ⟨hroot, html, before, id, after, rfl, hf⟩ := Setting.candidatesById_eq_some hc
    rw [hf]
    change ((t.elementById scope id).toList).filter _ = _
    rw [h.byId_eq ids html (hs hroot)]
    exact filter_candidates before after (fun n => satisfies_id id)
      (fun n hn => isElement_of_attr (beq_iff_eq.mp hn)) _
  · obtain ⟨-, hlookup, before, name, after, -, rfl, -⟩ := Setting.candidatesByClass_eq_some hc
    rcases classless with off | none
    · rw [show (t.setting config).config.classLookup = false from off] at hlookup
      cases hlookup
    · exact absurd (List.mem_append_right before List.mem_cons_self) (none name)
  · obtain ⟨-, -, before, value, after, nodes, -, rfl, hn, hf⟩ :=
      Setting.candidatesByName_eq_some hc
    rw [hf]
    change (if scope = root ∧ (!t.isXml) = true then some (t.elementsByName value) else none) =
      some nodes at hn
    split at hn
    · next hroot =>
      obtain ⟨rfl, -⟩ := hroot
      obtain rfl := Option.some.inj hn
      have hnodes : ((t.elementsByName value).filter fun n => t.attr n "name" == some value) =
          (t.descendants root).filter fun n => t.attr n "name" == some value := by
        rw [elementsByName, List.filter_filter]
        simp only [Bool.and_self]
      change (List.filter _ ((t.elementsByName value).filter fun n =>
        t.attr n "name" == some value)) = _
      rw [hnodes]
      exact filter_candidates before after (fun n => satisfies_name value)
        (fun n hn => isElement_of_attr (beq_iff_eq.mp hn)) _
    · cases hn
  · rw [← hc]
    exact filter_byTag star scope

end Tree
end SelectorEngine
