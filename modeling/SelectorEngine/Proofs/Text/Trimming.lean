import Mathlib.Data.List.Basic
import Mathlib.Data.List.TakeWhile
import SelectorEngine.Text.Blank

/-! # Trimming

A trimmed text is what stands between the blanks at the ends, and has no blank at its own ends. -/
namespace SelectorEngine
open Text

variable {text before body after blanks first others : List Char}

theorem ne_of_class {inClass : Char → Bool} {c d : Char} (h : inClass c = true)
    (hd : inClass d = false) : c ≠ d := by
  rintro rfl
  rw [h] at hd
  cases hd

theorem isBlank_eq_false {inClass : Char → Bool}
    (blanks : ∀ code ∈ blankCodes, inClass (Char.ofNat code) = false) {c : Char}
    (h : inClass c = true) : isBlank c = false := by
  by_contra hb
  have code : c.toNat ∈ blankCodes := by simpa [isBlank] using hb
  have hc := blanks _ code
  rw [Char.ofNat_toNat, h] at hc
  cases hc

theorem skipBlank_append (blank : ∀ c ∈ blanks, isBlank c = true) (text : List Char) :
    skipBlank (blanks ++ text) = skipBlank text := List.dropWhile_append_of_pos blank

theorem skipBlank_cons {c : Char} (hc : isBlank c = false) (text : List Char) :
    skipBlank (c :: text) = c :: text := List.dropWhile_cons_of_neg (by simp [hc])

theorem exists_blanks (text : List Char) :
    ∃ blanks, (∀ c ∈ blanks, isBlank c = true) ∧ text = blanks ++ skipBlank text :=
  ⟨text.takeWhile isBlank, fun _ hc => List.mem_takeWhile_imp hc,
    (List.takeWhile_append_dropWhile).symm⟩

def Bare (text : List Char) : Prop :=
  (∀ c ∈ text.head?, isBlank c = false) ∧ ∀ c ∈ text.getLast?, isBlank c = false

theorem skipBlank_of_head (h : ∀ c ∈ text.head?, isBlank c = false) : skipBlank text = text := by
  cases text with
  | nil => rfl
  | cons c text => exact skipBlank_cons (h c rfl) text

theorem trim_eq (hb : ∀ c ∈ before, isBlank c = true) (ha : ∀ c ∈ after, isBlank c = true)
    (bare : Bare body) : trim (before ++ (body ++ after)) = body := by
  rw [trim, skipBlank_append hb]
  cases body with
  | nil =>
    have none_left : skipBlank after = [] := List.dropWhile_eq_nil_iff.mpr ha
    rw [List.nil_append, none_left]
    rfl
  | cons c body =>
    have reversed : ∀ c ∈ after.reverse, isBlank c = true := fun c hc =>
      ha c (List.mem_reverse.mp hc)
    rw [List.cons_append, skipBlank_cons (bare.1 c rfl), ← List.cons_append, List.reverse_append,
      skipBlank_append reversed, skipBlank_of_head, List.reverse_reverse]
    intro d hd
    rw [List.head?_reverse] at hd
    exact bare.2 d hd

theorem head?_skipBlank (text : List Char) : ∀ c ∈ (skipBlank text).head?, isBlank c = false := by
  intro c hc
  have hd := List.head?_dropWhile_not isBlank text
  rw [← skipBlank, hc] at hd
  exact hd

theorem exists_ending (text : List Char) : ∃ after, (∀ c ∈ after, isBlank c = true) ∧
    text = (skipBlank text.reverse).reverse ++ after := by
  obtain ⟨after, ha, hr⟩ := exists_blanks text.reverse
  refine ⟨after.reverse, fun c hc => ha c (List.mem_reverse.mp hc), ?_⟩
  rw [← List.reverse_append, ← hr, List.reverse_reverse]

theorem getLast?_ending (text : List Char) :
    ∀ c ∈ (skipBlank text.reverse).reverse.getLast?, isBlank c = false := by
  intro c hc
  rw [List.getLast?_reverse] at hc
  exact head?_skipBlank _ c hc

theorem exists_trimmed (text : List Char) : ∃ before after, (∀ c ∈ before, isBlank c = true) ∧
    (∀ c ∈ after, isBlank c = true) ∧ Bare (trim text) ∧ text = before ++ (trim text ++ after) := by
  obtain ⟨before, hb, ht⟩ := exists_blanks text
  obtain ⟨after, ha, hs⟩ := exists_ending (skipBlank text)
  refine ⟨before, after, hb, ha, ⟨fun c hc => ?_, getLast?_ending _⟩, ?_⟩
  · refine head?_skipBlank text c ?_
    rw [hs, ← trim, List.head?_append, Option.mem_def.mp hc]
    rfl
  · rw [trim, ← hs, ← ht]

theorem skipBlank_eq_nil (h : trim text = []) : skipBlank text = [] := by
  obtain ⟨before, after, hb, ha, -, ht⟩ := exists_trimmed text
  rw [h, List.nil_append] at ht
  rw [ht, skipBlank_append hb]
  exact List.dropWhile_eq_nil_iff.mpr ha

theorem trim_append_blank (blank : ∀ c ∈ blanks, isBlank c = true) :
    trim (text ++ blanks) = trim text := by
  obtain ⟨before, after, hb, ha, bare, ht⟩ := exists_trimmed text
  have blank' : ∀ c ∈ after ++ blanks, isBlank c = true :=
    fun c hc => (List.mem_append.mp hc).elim (ha c) (blank c)
  have split : text ++ blanks = before ++ (trim text ++ (after ++ blanks)) := by
    conv_lhs => rw [ht]
    simp
  rw [split]
  exact trim_eq hb blank' bare

theorem exists_skipBlank_eq (hne : trim text ≠ []) :
    ∃ after, (∀ c ∈ after, isBlank c = true) ∧ skipBlank text = trim text ++ after := by
  obtain ⟨before, after, hb, ha, bare, ht⟩ := exists_trimmed text
  refine ⟨after, ha, ?_⟩
  conv_lhs => rw [ht, skipBlank_append hb]
  refine skipBlank_of_head fun c hc => bare.1 c ?_
  rwa [List.head?_append_of_ne_nil _ hne] at hc

/-- Trimming around a comma changes no more than the blanks at the ends. -/
theorem trim_comma (first others : List Char) : ∃ others', trim others' = trim others ∧
    trim (first ++ ',' :: others) = skipBlank first ++ ',' :: others' := by
  obtain ⟨before, hb, hf⟩ := exists_blanks first
  obtain ⟨after, ha, ho⟩ := exists_ending others
  have last := getLast?_ending others
  generalize (skipBlank others.reverse).reverse = body at ho last
  subst ho
  refine ⟨body, (trim_append_blank ha).symm, ?_⟩
  have split : first ++ ',' :: (body ++ after) =
      before ++ ((skipBlank first ++ ',' :: body) ++ after) := by
    conv_lhs => rw [hf]
    simp
  rw [split]
  refine trim_eq hb ha ⟨fun c hc => ?_, fun c hc => ?_⟩
  · have head := head?_skipBlank first
    cases hs : skipBlank first with
    | nil =>
      rw [hs] at hc
      obtain rfl := Option.some.inj hc
      decide
    | cons d rest =>
      rw [hs] at hc head
      exact head c hc
  · rw [List.getLast?_append_of_ne_nil _ (List.cons_ne_nil _ _), List.getLast?_cons] at hc
    obtain rfl := Option.some.inj hc
    cases hl : body.getLast? with
    | none => decide
    | some d => exact last d hl

theorem skipBlank_solid (h : ∀ c ∈ text, isBlank c = false) : skipBlank text = text :=
  skipBlank_of_head fun c hc => h c (List.mem_of_mem_head? hc)

theorem trim_solid (h : ∀ c ∈ text, isBlank c = false) : trim text = text := by
  have bare : Bare text :=
    ⟨fun c hc => h c (List.mem_of_mem_head? hc), fun c hc => h c (List.mem_of_mem_getLast? hc)⟩
  have ht := trim_eq (List.forall_mem_nil _) (List.forall_mem_nil _) bare
  rwa [List.nil_append, List.append_nil] at ht

end SelectorEngine
