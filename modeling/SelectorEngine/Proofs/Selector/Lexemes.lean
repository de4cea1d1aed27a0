import SelectorEngine.Proofs.Text.Trimming
import SelectorEngine.Selector.Reader

/-! # How names and strings are written

A text spells a name if the name is left once the backslashes are gone that take a character as it
is. The readers take the longest spelling there is, and find what it spells. -/
namespace SelectorEngine
open Text

theorem bind_eq_ok {E B C : Type} {x : Except E B} {f : B → Except E C} {c : C} :
    x >>= f = .ok c ↔ ∃ b, x = .ok b ∧ f b = .ok c := by
  cases x with
  | error e => simp [bind, Except.bind]
  | ok b => simp [bind, Except.bind]

theorem map_eq_ok {E B C : Type} {x : Except E B} {f : B → C} {c : C} :
    x.map f = .ok c ↔ ∃ b, x = .ok b ∧ f b = c := by
  cases x with
  | error e => simp [Except.map]
  | ok b => simp [Except.map]

theorem mapError_eq_ok {E F B : Type} {x : Except E B} {f : E → F} {b : B} :
    x.mapError f = .ok b ↔ x = .ok b := by
  cases x with
  | error e => simp [Except.mapError]
  | ok c => simp [Except.mapError]

/-- The text spells the name, which may be empty. -/
inductive Spells : (text name : List Char) → Prop where
  | nil : Spells [] []
  | char {c text name} : isNameChar c = true → Spells text name → Spells (c :: text) (c :: name)
  | escape {c text name} : Spells text name → Spells ('\\' :: c :: text) (c :: name)

/-- The text stands for the content between two quotes. -/
inductive Quotes (quote : Char) : (text content : List Char) → Prop where
  | nil : Quotes quote [] []
  | char {c text content} : c ≠ quote → c ≠ '\\' → Quotes quote text content →
      Quotes quote (c :: text) (c :: content)
  | escape {c text content} : Quotes quote text content →
      Quotes quote ('\\' :: c :: text) (c :: content)

/-- Nothing follows that would go on with a name. -/
def EndsName (rest : List Char) : Prop := ∀ c ∈ rest.head?, isNameChar c = false ∧ c ≠ '\\'

structure Blanks (blanks rest : List Char) : Prop where
  blank : ∀ c ∈ blanks, isBlank c = true
  ends : ∀ c ∈ rest.head?, isBlank c = false

variable {text name rest content spelling blanks : List Char} {quote : Char}

theorem endsName_nil : EndsName [] := nofun

theorem readName_nothing (ends : EndsName rest) : readName rest = .ok ([], rest) := by
  cases rest with
  | nil => rfl
  | cons c rest =>
    obtain ⟨other, escape⟩ := ends c rfl
    rw [readName, if_neg (by simp [other])]
    · exact fun he _ => escape he
    · exact fun _ _ he _ => escape he

theorem readName_of_spells (h : Spells spelling name) (ends : EndsName rest) :
    readName (spelling ++ rest) = .ok (name, rest) := by
  induction h with
  | nil => exact readName_nothing ends
  | @char c text name hc _ ih =>
    have escape : c ≠ '\\' := ne_of_class hc (by decide)
    rw [List.cons_append, readName, if_pos hc, ih]
    · rfl
    · exact fun he _ => escape he
    · exact fun _ _ he _ => escape he
  | escape _ ih =>
    rw [List.cons_append, List.cons_append, readName, ih]
    rfl

theorem spells_of_readName (h : readName text = .ok (name, rest)) :
    ∃ spelling, Spells spelling name ∧ EndsName rest ∧ text = spelling ++ rest := by
  fun_induction readName text generalizing name with
  | case1 =>
    cases h
    exact ⟨[], .nil, endsName_nil, rfl⟩
  | case2 => cases h
  | case3 c text ih =>
    obtain ⟨⟨tail, rest⟩, hr, he⟩ := map_eq_ok.mp h
    cases he
    obtain ⟨spelling, hs, ends, rfl⟩ := ih hr
    exact ⟨'\\' :: c :: spelling, .escape hs, ends, rfl⟩
  | case4 c text _ _ hc ih =>
    obtain ⟨⟨tail, rest⟩, hr, he⟩ := map_eq_ok.mp h
    cases he
    obtain ⟨spelling, hs, ends, rfl⟩ := ih hr
    exact ⟨c :: spelling, .char hc hs, ends, rfl⟩
  | case5 c text last escape hc =>
    cases h
    refine ⟨[], .nil, fun d hd => ?_, rfl⟩
    obtain rfl := Option.some.inj hd
    refine ⟨Bool.not_eq_true _ ▸ hc, ?_⟩
    rintro rfl
    cases text with
    | nil => exact last rfl rfl
    | cons d text => exact escape d text rfl rfl

theorem readName_iff : readName text = .ok (name, rest) ↔
    ∃ spelling, Spells spelling name ∧ EndsName rest ∧ text = spelling ++ rest := by
  constructor
  · exact spells_of_readName
  · rintro ⟨spelling, hs, ends, rfl⟩
    exact readName_of_spells hs ends

theorem readFullName_eq (h : readName text = .ok (name, rest)) (hne : name ≠ []) :
    readFullName text = .ok (name, rest) := by
  have full : name.isEmpty = false := List.isEmpty_eq_false_iff.mpr hne
  rw [readFullName, h]
  simp only [bind, Except.bind, full, Bool.false_eq_true, if_false]
  rfl

theorem readFullName_iff : readFullName text = .ok (name, rest) ↔
    name ≠ [] ∧ ∃ spelling, Spells spelling name ∧ EndsName rest ∧ text = spelling ++ rest := by
  rw [← readName_iff]
  constructor
  · intro h
    obtain ⟨⟨name, rest⟩, hr, h⟩ := bind_eq_ok.mp h
    simp only at h
    split at h
    · cases h
    · next full =>
      cases h
      exact ⟨fun he => full (List.isEmpty_iff.mpr he), hr⟩
  · rintro ⟨hne, hr⟩
    exact readFullName_eq hr hne

theorem ne_escape_of_isQuote (hq : isQuote quote = true) : quote ≠ '\\' :=
  ne_of_class hq (by decide)

theorem readQuoted_of_quotes (hq : isQuote quote = true) (h : Quotes quote spelling content)
    (rest : List Char) : readQuoted quote (spelling ++ quote :: rest) = .ok (content, rest) := by
  have apart := ne_escape_of_isQuote hq
  induction h with
  | nil =>
    rw [List.nil_append, readQuoted, if_pos rfl]
    · exact fun he _ => apart he
    · exact fun _ _ he _ => apart he
  | @char c text content hc escape _ ih =>
    rw [List.cons_append, readQuoted, if_neg hc, ih]
    · rfl
    · exact fun he _ => escape he
    · exact fun _ _ he _ => escape he
  | escape _ ih =>
    rw [List.cons_append, List.cons_append, readQuoted, ih]
    rfl

theorem quotes_of_readQuoted (h : readQuoted quote text = .ok (content, rest)) :
    ∃ spelling, Quotes quote spelling content ∧ text = spelling ++ quote :: rest := by
  fun_induction readQuoted quote text generalizing content with
  | case1 => cases h
  | case2 => cases h
  | case3 c text ih =>
    obtain ⟨⟨tail, rest⟩, hr, he⟩ := map_eq_ok.mp h
    cases he
    obtain ⟨spelling, hs, rfl⟩ := ih hr
    exact ⟨'\\' :: c :: spelling, .escape hs, rfl⟩
  | case4 text =>
    cases h
    exact ⟨[], .nil, rfl⟩
  | case5 c text last escape hc ih =>
    obtain ⟨⟨tail, rest⟩, hr, he⟩ := map_eq_ok.mp h
    cases he
    obtain ⟨spelling, hs, rfl⟩ := ih hr
    refine ⟨c :: spelling, .char hc ?_ hs, rfl⟩
    rintro rfl
    cases spelling with
    | nil => exact escape quote rest rfl rfl
    | cons d spelling => exact escape d (spelling ++ quote :: rest) rfl rfl

theorem Blanks.skip (h : Blanks blanks rest) : skipBlank (blanks ++ rest) = rest := by
  rw [skipBlank_append h.blank, skipBlank_of_head h.ends]

theorem exists_skipped (text : List Char) : ∃ blanks, Blanks blanks (skipBlank text) ∧
    text = blanks ++ skipBlank text := by
  obtain ⟨blanks, blank, ht⟩ := exists_blanks text
  exact ⟨blanks, ⟨blank, head?_skipBlank text⟩, ht⟩

theorem endsName_append (hne : rest ≠ []) (more : List Char) :
    EndsName (rest ++ more) ↔ EndsName rest := by
  rw [EndsName, EndsName, List.head?_append_of_ne_nil _ hne]

theorem blanks_append (hne : rest ≠ []) (more : List Char) :
    Blanks blanks (rest ++ more) ↔ Blanks blanks rest := by
  constructor
  · rintro ⟨blank, ends⟩
    rw [List.head?_append_of_ne_nil _ hne] at ends
    exact ⟨blank, ends⟩
  · rintro ⟨blank, ends⟩
    refine ⟨blank, ?_⟩
    rwa [List.head?_append_of_ne_nil _ hne]

end SelectorEngine
