import SelectorEngine.Proofs.Selector.Reading
import SelectorEngine.Proofs.Selector.Writing

/-! # Heads

A compound is read as a star or a tag, if it starts with one, and other simple selectors. -/
namespace SelectorEngine

/-- In every compound of the branch only the first simple selector may be a star or a tag. -/
def Complex.Headed {A : Type} (branch : Complex A) : Prop :=
  ∀ simples ∈ branch.compounds, ∀ simple ∈ simples.tail, simple.isHead = false

theorem Simple.isHead_map {A B : Type} (f : A → B) (simple : Simple A) :
    (simple.map f).isHead = simple.isHead := by
  cases simple <;> rfl

theorem Complex.Headed.map {A B : Type} (f : A → B) {branch : Complex A} (h : branch.Headed) :
    (branch.map f).Headed := by
  intro simples hs simple hm
  rw [Complex.compounds_map] at hs
  obtain ⟨written, hw, rfl⟩ := List.mem_map.mp hs
  rw [← List.map_tail] at hm
  obtain ⟨read, hr, rfl⟩ := List.mem_map.mp hm
  rw [Simple.isHead_map, h written hw read hr]

variable {A : Type} {nested : List Char → Except SelectorError A} {text rest : List Char}

theorem PseudoForm.Makes.behind {form : PseudoForm} {argument : Option (List Char)}
    {simple : Simple A} (h : form.Makes nested argument simple) : simple.isHead = false := by
  cases h <;> rfl

theorem ReadsSimple.behind {c : Char} {simple : Simple A}
    (h : ReadsSimple nested c text simple rest) : simple.isHead = false := by
  cases h with
  | id | className | attr => rfl
  | pseudo h =>
    obtain ⟨-, -, -, makes⟩ := h
    exact makes.behind

theorem ReadsSimples.behind {simples : List (Simple A)} (h : ReadsSimples nested text simples) :
    ∀ simple ∈ simples, simple.isHead = false := by
  induction h with
  | nil => exact List.forall_mem_nil _
  | cons hs _ ih => exact List.forall_mem_cons.mpr ⟨hs.behind, ih⟩

theorem ReadsHead.tail_subset {head simples : List (Simple A)} (h : ReadsHead text head rest) :
    (head ++ simples).tail ⊆ simples := by
  cases h with
  | star | tag => exact List.Subset.refl _
  | nothing => exact (List.tail_sublist simples).subset

theorem readCompound_heads {compound : Compound A} (h : readCompound nested text = .ok compound) :
    ∀ simple ∈ compound.simples.tail, simple.isHead = false := by
  obtain ⟨hh, hs, -⟩ := readCompound_iff.mp h
  exact fun simple hm => hs.behind simple (hh.tail_subset hm)

section Compounds

variable {P : List (Simple A) → Prop}
  (each : ∀ block compound, readCompound nested block = .ok compound → P compound.simples)

include each

/-- What every compound has that is read alone, every compound of a branch has. -/
theorem Yields.compounds {previous : Option (Part A)} {parts : List (Part A)}
    (h : Yields nested previous text parts) :
    ∀ simples ∈ parts.filterMap Part.compound?, P simples := by
  induction h with
  | done => exact List.forall_mem_nil _
  | combinator _ _ _ _ ih => exact ih
  | compound _ _ _ hc _ ih => exact List.forall_mem_cons.mpr ⟨each _ _ hc, ih⟩

theorem YieldsAll.compounds {branches : List (Complex A)} (h : YieldsAll nested text branches) :
    ∀ branch ∈ branches, ∀ simples ∈ branch.compounds, P simples := by
  induction h with
  | single hy => exact List.forall_mem_cons.mpr ⟨hy.compounds each, List.forall_mem_nil _⟩
  | comma hy _ _ ih => exact List.forall_mem_cons.mpr ⟨hy.compounds each, ih⟩

end Compounds

theorem SelectorList.headed_of_parse {selector : String} {list : SelectorList}
    (read : parse selector = .ok list) : ∀ branch ∈ list.branches, branch.Headed :=
  (yieldsAll_of_parse read).compounds fun _ _ => readCompound_heads

end SelectorEngine
