import SelectorEngine.Proofs.Selector.Attributes
import SelectorEngine.Proofs.Selector.GroupEnds

/-! # How compounds are read

Every reader of a compound or of a piece of one has a relation, with one case for each thing that it
accepts. Here each reader is shown to do what its relation says, and the proofs about compounds
start from the relations. Errors are left out of them, and so is the block that an error names. -/
namespace SelectorEngine
open Text

section Relations

variable {A : Type} (nested : List Char → Except SelectorError A)

inductive PseudoForm.Makes : PseudoForm → Option (List Char) → Simple A → Prop where
  | child {place} : Makes (.child place) none (.child place)
  | state {kind} : Makes (.state kind) none (.pseudo kind)
  | position {place} : Makes (.position place) none (.position place)
  | nthChild {text formula} : AnPlusB.read text = some formula →
      Makes .nthChild (some text) (.child (.nth formula))
  | indexed {place text index} : readIndex text = some index →
      Makes (.indexed place) (some text) (.position (place index))
  | contains {text} : Makes .contains (some text) (.contains (String.ofList (unquote text)))
  | has {text list} : nested (unquote text) = .ok list → Makes .has (some text) (.has list)
  | not {text list} : nested (unquote text) = .ok list → Makes .not (some text) (.not list)

inductive ReadsPseudo (text : List Char) (simple : Simple A) (rest : List Char) : Prop where
  | intro {name left form argument} : readFullName text = .ok (name, left) →
      PseudoForm.ofKeyword? (lowered (String.ofList name)) = some form →
      readArgument left = .ok (argument, rest) → form.Makes nested argument simple →
      ReadsPseudo text simple rest

inductive ReadsSimple : (mark : Char) → (text : List Char) → Simple A → (rest : List Char) →
    Prop where
  | id {text name rest} : readFullName text = .ok (name, rest) →
      ReadsSimple '#' text (.id (String.ofList name)) rest
  | className {text name rest} : readFullName text = .ok (name, rest) →
      ReadsSimple '.' text (.className (String.ofList name)) rest
  | attr {text test rest} : readAttribute text = .ok (test, rest) →
      ReadsSimple '[' text (.attr test) rest
  | pseudo {text simple rest} : ReadsPseudo nested text simple rest →
      ReadsSimple ':' text simple rest

inductive ReadsSimples : List Char → List (Simple A) → Prop where
  | nil : ReadsSimples [] []
  | cons {c text simple rest simples} : ReadsSimple nested c text simple rest →
      ReadsSimples rest simples → ReadsSimples (c :: text) (simple :: simples)

/-- The star or the tag at the start of a block, which may have neither. -/
inductive ReadsHead : (text : List Char) → List (Simple A) → (rest : List Char) → Prop where
  | star {rest} : ReadsHead ('*' :: rest) [.universal] rest
  | tag {text name rest} : readFullName text = .ok (name, rest) →
      ReadsHead text [.tag (String.ofList name)] rest
  | nothing {text} : EndsName text → '*' ∉ text.head? → ReadsHead text [] text

inductive ReadsCompound : (block : List Char) → Compound A → Prop where
  | intro {block head rest others} : ReadsHead block head rest → ReadsSimples nested rest others →
      head ++ others ≠ [] → ReadsCompound block ⟨String.ofList block, head ++ others⟩

end Relations

variable {A : Type} {nested nested' : List Char → Except SelectorError A} {simple : Simple A}
  {simples others : List (Simple A)} {compound : Compound A} {c : Char}
  {text rest name block : List Char} {argument : Option (List Char)} {form : PseudoForm}

theorem toSimple_iff {keyword : String} :
    form.toSimple nested block keyword argument = .ok simple ↔
      form.Makes nested argument simple := by
  constructor
  · intro h
    cases argument with
    | none =>
      cases form with
      | child =>
        cases h
        exact .child
      | state =>
        cases h
        exact .state
      | position =>
        cases h
        exact .position
      | _ => cases h
    | some text =>
      cases form with
      | nthChild =>
        simp only [PseudoForm.toSimple] at h
        split at h
        · next formula read =>
          cases h
          exact .nthChild read
        · cases h
      | indexed place =>
        simp only [PseudoForm.toSimple] at h
        split at h
        · next index read =>
          cases h
          exact .indexed read
        · cases h
      | contains =>
        cases h
        exact .contains
      | has =>
        obtain ⟨list, read, rfl⟩ := map_eq_ok.mp h
        exact .has read
      | not =>
        obtain ⟨list, read, rfl⟩ := map_eq_ok.mp h
        exact .not read
      | _ => cases h
  · intro h
    cases h with
    | child | state | position | contains => rfl
    | nthChild read => rw [PseudoForm.toSimple, read]
    | indexed read => rw [PseudoForm.toSimple, read]
    | has read | not read => exact map_eq_ok.mpr ⟨_, read, rfl⟩

def bracketed : Option (List Char) → List Char
  | none => []
  | some argument => '(' :: (argument ++ [')'])

theorem readArgument_iff : readArgument text = .ok (argument, rest) ↔
    (∀ content ∈ argument, IsArgument content) ∧ (argument = none → '(' ∉ rest.head?) ∧
      text = bracketed argument ++ rest := by
  constructor
  · intro h
    unfold readArgument at h
    split at h
    · obtain ⟨⟨content, rest⟩, hr, he⟩ := map_eq_ok.mp h
      cases he
      obtain ⟨hc, rfl⟩ := readGroup_round_iff.mp hr
      refine ⟨?_, nofun, by simp [bracketed]⟩
      rintro _ ⟨⟩
      exact hc
    · next bare =>
      cases h
      refine ⟨nofun, fun _ opened => ?_, rfl⟩
      obtain ⟨tail, rfl⟩ := List.head?_eq_some_iff.mp opened
      exact bare tail rfl
  · rintro ⟨contents, bare, rfl⟩
    cases argument with
    | none =>
      rw [bracketed, List.nil_append]
      unfold readArgument
      split
      · exact absurd rfl (bare rfl)
      · rfl
    | some content =>
      have group : readGroup .round (content ++ ')' :: rest) = .ok (content, rest) :=
        readGroup_round_iff.mpr ⟨contents content rfl, rfl⟩
      rw [bracketed, List.cons_append, List.append_assoc]
      exact map_eq_ok.mpr ⟨_, group, rfl⟩

theorem readPseudo_iff : readPseudo nested block text = .ok (simple, rest) ↔
    ReadsPseudo nested text simple rest := by
  constructor
  · intro h
    obtain ⟨⟨name, left⟩, hn, h⟩ := bind_eq_ok.mp h
    obtain ⟨⟨argument, rest⟩, ha, h⟩ := bind_eq_ok.mp h
    simp only at h
    split at h
    · cases h
    · next form found =>
      obtain ⟨simple, made, he⟩ := bind_eq_ok.mp h
      cases he
      exact .intro (mapError_eq_ok.mp hn) found (mapError_eq_ok.mp ha) (toSimple_iff.mp made)
  · rintro ⟨hn, found, ha, makes⟩
    refine bind_eq_ok.mpr ⟨_, mapError_eq_ok.mpr hn, bind_eq_ok.mpr ⟨_, mapError_eq_ok.mpr ha, ?_⟩⟩
    simp only [found]
    exact bind_eq_ok.mpr ⟨simple, toSimple_iff.mpr makes, rfl⟩

theorem readSimple_iff : readSimple nested block c text = .ok (simple, rest) ↔
    ReadsSimple nested c text simple rest := by
  constructor
  · intro h
    unfold readSimple at h
    split at h
    · obtain ⟨_, hn, he⟩ := map_eq_ok.mp h
      cases he
      exact .id (mapError_eq_ok.mp hn)
    · obtain ⟨_, hn, he⟩ := map_eq_ok.mp h
      cases he
      exact .className (mapError_eq_ok.mp hn)
    · obtain ⟨_, ht, he⟩ := map_eq_ok.mp h
      cases he
      exact .attr (mapError_eq_ok.mp ht)
    · exact .pseudo (readPseudo_iff.mp h)
    · cases h
  · intro h
    cases h with
    | id hn | className hn => exact map_eq_ok.mpr ⟨_, mapError_eq_ok.mpr hn, rfl⟩
    | attr ht => exact map_eq_ok.mpr ⟨_, mapError_eq_ok.mpr ht, rfl⟩
    | pseudo h => exact readPseudo_iff.mpr h

def isMark (c : Char) : Bool := c == '#' || c == '.' || c == '[' || c == ':'

theorem isNameChar_of_isMark (h : isMark c = true) : isNameChar c = false := by
  simp only [isMark, Bool.or_eq_true, beq_iff_eq] at h
  rcases h with ((rfl | rfl) | rfl) | rfl <;> decide

theorem ReadsSimple.isMark (h : ReadsSimple nested c text simple rest) : isMark c = true := by
  cases h <;> rfl

/-- Nothing follows in the compound, or another simple selector. -/
def Resumes (rest : List Char) : Prop := ∀ c ∈ rest.head?, isMark c = true

theorem Resumes.endsName (h : Resumes rest) : EndsName rest := by
  intro c hc
  constructor
  · exact isNameChar_of_isMark (h c hc)
  · exact ne_of_class (h c hc) (by decide)

theorem Resumes.readsHead (h : Resumes rest) : ReadsHead (A := A) rest [] rest :=
  .nothing h.endsName fun star => absurd (h '*' star) (by decide)

theorem ReadsSimples.resumes (h : ReadsSimples nested text simples) : Resumes text := by
  cases h with
  | nil => exact nofun
  | cons hs =>
    rintro c ⟨⟩
    exact hs.isMark

theorem readFullName_suffix (h : readFullName text = .ok (name, rest)) : rest <:+ text := by
  obtain ⟨-, spelling, -, -, rfl⟩ := readFullName_iff.mp h
  exact List.suffix_append _ _

theorem readArgument_suffix (h : readArgument text = .ok (argument, rest)) : rest <:+ text := by
  obtain ⟨-, -, rfl⟩ := readArgument_iff.mp h
  exact List.suffix_append _ _

theorem ReadsSimple.suffix (h : ReadsSimple nested c text simple rest) : rest <:+ text := by
  cases h with
  | id hn | className hn => exact readFullName_suffix hn
  | attr ht =>
    obtain ⟨piece, -, rfl⟩ := attribute_of_readAttribute ht
    exact List.suffix_append _ _
  | pseudo h =>
    obtain ⟨hn, -, ha, -⟩ := h
    exact (readArgument_suffix ha).trans (readFullName_suffix hn)

theorem readSimples_iff {limit : Nat} (enough : text.length ≤ limit) :
    readSimples nested block limit text = .ok simples ↔ ReadsSimples nested text simples := by
  constructor
  · clear enough
    intro h
    fun_induction readSimples nested block limit text generalizing simples with
    | case1 =>
      cases h
      exact .nil
    | case2 => cases h
    | case3 limit c text ih =>
      obtain ⟨⟨simple, rest⟩, hs, h⟩ := bind_eq_ok.mp h
      obtain ⟨others, ho, he⟩ := bind_eq_ok.mp h
      cases he
      exact .cons (readSimple_iff.mp hs) (ih _ ho)
  · intro h
    induction h generalizing limit with
    | nil => rw [readSimples]
    | cons hs _ ih =>
      obtain ⟨limit, rfl⟩ := Nat.exists_eq_add_one_of_ne_zero (Nat.ne_zero_of_lt enough)
      have shorter := hs.suffix.length_le.trans (Nat.le_of_succ_le_succ enough)
      exact bind_eq_ok.mpr ⟨_, readSimple_iff.mpr hs, bind_eq_ok.mpr ⟨_, ih shorter, rfl⟩⟩

theorem head?_of_readFullName (h : readFullName text = .ok (name, rest)) :
    ∀ c ∈ text.head?, isNameChar c = true ∨ c = '\\' := by
  obtain ⟨hne, spelling, hs, -, rfl⟩ := readFullName_iff.mp h
  cases hs with
  | nil => exact absurd rfl hne
  | char hc => exact fun d hd => .inl (Option.some.inj hd ▸ hc)
  | escape => exact fun d hd => .inr (Option.some.inj hd).symm

theorem readHead_unstarred (h : '*' ∉ text.head?) :
    readHead (A := A) text = (readName text).map fun (name, rest) =>
      (if name.isEmpty then [] else [.tag (String.ofList name)], rest) := by
  unfold readHead
  split
  · exact absurd rfl h
  · rfl

theorem readHead_iff : readHead text = .ok (simples, rest) ↔ ReadsHead text simples rest := by
  constructor
  · intro h
    unfold readHead at h
    split at h
    · cases h
      exact .star
    · next unstarred =>
      obtain ⟨⟨name, left⟩, hn, he⟩ := map_eq_ok.mp h
      cases name with
      | nil =>
        cases he
        obtain ⟨spelling, hs, ends, rfl⟩ := readName_iff.mp hn
        cases hs
        refine .nothing ends fun star => ?_
        obtain ⟨tail, ht⟩ := List.head?_eq_some_iff.mp star
        exact unstarred tail ht
      | cons c name =>
        cases he
        exact .tag (readFullName_eq hn (List.cons_ne_nil c name))
  · intro h
    cases h with
    | star => rfl
    | tag hn =>
      have unstarred : '*' ∉ text.head? := fun star =>
        absurd (head?_of_readFullName hn '*' star) (by decide)
      obtain ⟨hne, read⟩ := readFullName_iff.mp hn
      rw [readHead_unstarred unstarred, readName_iff.mpr read]
      simp [Except.map, hne]
    | nothing ends unstarred =>
      rw [readHead_unstarred unstarred, readName_nothing ends]
      rfl

theorem readCompound_iff :
    readCompound nested block = .ok compound ↔ ReadsCompound nested block compound := by
  constructor
  · intro h
    obtain ⟨⟨head, rest⟩, hh, h⟩ := bind_eq_ok.mp h
    obtain ⟨others, ho, h⟩ := bind_eq_ok.mp h
    simp only at h
    split at h
    · cases h
    · next some_simple =>
      cases h
      exact .intro (readHead_iff.mp (mapError_eq_ok.mp hh))
        ((readSimples_iff (Nat.le_refl _)).mp ho)
        (mt List.isEmpty_iff.mpr some_simple)
  · rintro ⟨hh, ho, some_simple⟩
    refine bind_eq_ok.mpr ⟨_, mapError_eq_ok.mpr (readHead_iff.mpr hh), ?_⟩
    refine bind_eq_ok.mpr ⟨_, (readSimples_iff (Nat.le_refl _)).mpr ho, ?_⟩
    exact if_neg (mt List.isEmpty_iff.mp some_simple)

theorem length_lt_of_readArgument (h : readArgument text = .ok (argument, rest)) :
    ∀ content ∈ argument, content.length < text.length := by
  obtain ⟨-, -, rfl⟩ := readArgument_iff.mp h
  rintro content ⟨⟩
  simp only [bracketed, List.length_cons, List.length_append]
  omega

theorem length_unquote_le (text : List Char) : (unquote text).length ≤ text.length := by
  have h := length_trim_le text
  unfold unquote
  simp only
  split
  · split
    · rw [List.length_dropLast, List.length_tail]
      omega
    · exact Nat.le_refl _
  · exact Nat.le_refl _

/-- What one reader makes of a short text, the other one makes of it too. -/
def AgreeBelow (bound : Nat) (nested nested' : List Char → Except SelectorError A) : Prop :=
  ∀ text list, text.length < bound → nested text = .ok list → nested' text = .ok list

section Agree

variable {bound : Nat} (agrees : AgreeBelow bound nested nested')

include agrees

theorem AgreeBelow.mono {lower : Nat} (h : lower ≤ bound) : AgreeBelow lower nested nested' :=
  fun text list short => agrees text list (short.trans_le h)

theorem PseudoForm.Makes.agree (h : form.Makes nested argument simple)
    (short : ∀ content ∈ argument, content.length < bound) :
    form.Makes nested' argument simple := by
  have shorter {content : List Char} (hc : content ∈ argument) :
      (unquote content).length < bound := (length_unquote_le content).trans_lt (short content hc)
  cases h with
  | child => exact .child
  | state => exact .state
  | position => exact .position
  | nthChild read => exact .nthChild read
  | indexed read => exact .indexed read
  | contains => exact .contains
  | has read => exact .has (agrees _ _ (shorter rfl) read)
  | not read => exact .not (agrees _ _ (shorter rfl) read)

theorem ReadsSimple.agree (h : ReadsSimple nested c text simple rest)
    (short : text.length ≤ bound) : ReadsSimple nested' c text simple rest := by
  cases h with
  | id hn => exact .id hn
  | className hn => exact .className hn
  | attr ht => exact .attr ht
  | pseudo h =>
    obtain ⟨hn, found, ha, makes⟩ := h
    have left := (readFullName_suffix hn).length_le.trans short
    exact .pseudo (.intro hn found ha (makes.agree agrees fun content hc =>
      (length_lt_of_readArgument ha content hc).trans_le left))

theorem ReadsSimples.agree (h : ReadsSimples nested text simples) (short : text.length ≤ bound) :
    ReadsSimples nested' text simples := by
  induction h with
  | nil => exact .nil
  | cons hs _ ih =>
    have shorter := (Nat.le_succ _).trans short
    exact .cons (hs.agree agrees shorter) (ih (hs.suffix.length_le.trans shorter))

end Agree

theorem ReadsHead.suffix (h : ReadsHead text simples rest) : rest <:+ text := by
  cases h with
  | star => exact List.suffix_cons _ _
  | tag hn => exact readFullName_suffix hn
  | nothing => exact List.suffix_rfl

/-- An argument is shorter than the block that it stands in. -/
theorem readCompound_agree (agrees : AgreeBelow block.length nested nested')
    (h : readCompound nested block = .ok compound) : readCompound nested' block = .ok compound := by
  obtain ⟨hh, hs, some_simple⟩ := readCompound_iff.mp h
  exact readCompound_iff.mpr (.intro hh (hs.agree agrees hh.suffix.length_le) some_simple)

end SelectorEngine
