import SelectorEngine.Proofs.Selector.Sources

/-! # Lists inside of lists

The argument of a pseudo-class is read by the reader of arguments. So what holds of every list that
is read at some depth holds of every list that is nested in one, however deep: none of its branches
is empty, the parts of each form a chain, and no combinator among them is the one that is not
written. -/
namespace SelectorEngine
open Text

variable {A B : Type} {nested : List Char → Except SelectorError A} {block text rest : List Char}

def Simple.argument? : Simple A → Option A
  | .has argument | .not argument => some argument
  | _ => none

/-- The list is the other one, or stands in it as an argument at some depth. -/
inductive SelectorList.Holds : SelectorList → SelectorList → Prop where
  | self {list} : Holds list list
  | deeper {list inner held : SelectorList} {branch} : branch ∈ list.branches →
      .has inner ∈ branch.simples ∨ .not inner ∈ branch.simples → Holds inner held →
      Holds list held

/-- The branch has parts, the parts form a chain, and every combinator among them can be written. -/
structure Complex.WellFormed (branch : Complex A) : Prop where
  nonempty : branch.parts ≠ []
  chain : ∃ chain, Chain.ofParts? branch.parts = some chain
  written : ∀ relation, .combinator relation ∈ branch.parts → relation ≠ .descendant

theorem PseudoForm.Makes.argument {form : PseudoForm} {content : Option (List Char)}
    {simple : Simple A} (h : form.Makes nested content simple) :
    ∀ argument ∈ simple.argument?, ∃ text, nested text = .ok argument := by
  cases h with
  | has read | not read =>
    rintro _ ⟨⟩
    exact ⟨_, read⟩
  | _ => exact nofun

theorem ReadsSimple.argument {c : Char} {simple : Simple A}
    (h : ReadsSimple nested c text simple rest) :
    ∀ argument ∈ simple.argument?, ∃ text, nested text = .ok argument := by
  cases h with
  | id | className | attr => exact nofun
  | pseudo h =>
    obtain ⟨-, -, -, makes⟩ := h
    exact makes.argument

theorem ReadsSimples.argument {simples : List (Simple A)} (h : ReadsSimples nested text simples) :
    ∀ simple ∈ simples, ∀ argument ∈ simple.argument?, ∃ text, nested text = .ok argument := by
  induction h with
  | nil => exact List.forall_mem_nil _
  | cons hs _ ih => exact List.forall_mem_cons.mpr ⟨hs.argument, ih⟩

theorem ReadsHead.argument {simples : List (Simple A)} (h : ReadsHead text simples rest) :
    ∀ simple ∈ simples, simple.argument? = none := by
  cases h with
  | star | tag => exact List.forall_mem_singleton.mpr rfl
  | nothing => exact List.forall_mem_nil _

theorem readCompound_argument {compound : Compound A}
    (h : readCompound nested block = .ok compound) :
    ∀ simple ∈ compound.simples, ∀ argument ∈ simple.argument?,
      ∃ text, nested text = .ok argument := by
  obtain ⟨hh, hs, -⟩ := readCompound_iff.mp h
  intro simple hm argument ha
  rcases List.mem_append.mp hm with first | later
  · rw [hh.argument simple first] at ha
    cases ha
  · exact hs.argument simple later argument ha

theorem Yields.argument {parts : List (Part A)} (h : Yields nested none text parts)
    {simple : Simple A} (hs : simple ∈ parts.flatMap Part.simples) :
    ∀ argument ∈ simple.argument?, ∃ text, nested text = .ok argument := by
  obtain ⟨part, hp, hm⟩ := List.mem_flatMap.mp hs
  cases part with
  | combinator => cases hm
  | compound block => exact readCompound_argument (h.reads _ hp).2 simple hm

theorem Yields.wellFormed {branch : Complex A} (hne : branch.parts ≠ [])
    (h : Yields nested none text branch.parts) : branch.WellFormed where
  nonempty := hne
  chain := by
    obtain ⟨chain, hc, -⟩ := Chain.exists_of_follow h.follow hne
    exact ⟨chain, hc⟩
  written := fun _ hr => h.reads _ hr

theorem Complex.WellFormed.map {branch : Complex A} (h : branch.WellFormed) (f : A → B) :
    (branch.map f).WellFormed where
  nonempty := fun empty => h.nonempty (List.map_eq_nil_iff.mp empty)
  chain := by
    obtain ⟨chain, hc⟩ := h.chain
    exact ⟨chain.map f, by rw [Complex.map, Chain.ofParts?_map, hc]; rfl⟩
  written := by
    intro relation hr
    obtain ⟨part, hp, he⟩ := List.mem_map.mp hr
    cases part with
    | compound => cases he
    | combinator other =>
      cases he
      exact h.written relation hp

namespace SelectorList

variable {list inner : SelectorList} {depth : Nat}

theorem yieldsAll_of_read (h : readListWithin (depth + 1) text = .ok list) :
    YieldsAll (readListWithin depth) text list.branches := by
  obtain ⟨branches, hb, rfl⟩ := map_eq_ok.mp h
  exact (readBranches_iff (Nat.lt_succ_self _)).mp hb

theorem Holds.read (h : list.Holds inner) (read : readListWithin depth text = .ok list) :
    ∃ depth text, readListWithin depth text = .ok inner := by
  induction h generalizing depth text with
  | self => exact ⟨depth, text, read⟩
  | @deeper list inner _ branch hb asks _ ih =>
    cases depth with
    | zero => cases read
    | succ depth =>
      obtain ⟨-, text, yields⟩ := (yieldsAll_of_read read).of_mem branch hb
      obtain ⟨simple, hs, ha⟩ : ∃ simple ∈ branch.simples, simple.argument? = some inner := by
        rcases asks with asks | asks <;> exact ⟨_, asks, rfl⟩
      obtain ⟨argument, hi⟩ := yields.argument hs inner ha
      exact ih hi

theorem wellFormed_of_read (h : readListWithin depth text = .ok list) :
    ∀ branch ∈ list.branches, branch.WellFormed := by
  intro branch hb
  cases depth with
  | zero => cases h
  | succ depth =>
    obtain ⟨hne, text, yields⟩ := (yieldsAll_of_read h).of_mem branch hb
    exact yields.wellFormed hne

/-- Every branch of a selector is well formed, and so are those of the arguments at any depth. -/
theorem wellFormed_of_parse {selector : String} (read : parse selector = .ok list)
    (holds : list.Holds inner) : ∀ branch ∈ inner.branches, branch.WellFormed := by
  obtain ⟨depth, text, h⟩ := holds.read read
  exact wellFormed_of_read h

end SelectorList
end SelectorEngine
