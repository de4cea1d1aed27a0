import SelectorEngine.Proofs.Selector.Lexemes

/-! # Blocks

Where a block ends depends on its own characters alone: outside all brackets the next character
ends it or belongs to it. A blank ends a block unless it is escaped, and no block ends within an
escape. -/
namespace SelectorEngine
open Text

def stepEscape (escaped : Bool) (c : Char) : Bool := !escaped && c == '\\'

def endsEscaped (text : List Char) : Bool := text.foldl stepEscape false

def Stops (rest : List Char) : Prop := ∀ c ∈ rest.head?, isBoundary c = true

/-- The whole text is scanned as the rest of a block. -/
def IsBlock (n : Nesting) (block : List Char) : Prop := scanBlock n block = .ok (block, [])

/-- The text is scanned from one nesting to the other, and no block ends in it. -/
inductive Passes : Nesting → List Char → Nesting → Prop where
  | nil {n} : Passes n [] n
  | cons {n c next text m} : ¬ (n = .outside ∧ isBoundary c = true) → n.advance c = some next →
      Passes next text m → Passes n (c :: text) m

namespace Nesting

def escaping (n : Nesting) : Bool :=
  match n.mode with
  | .escaped _ => true
  | _ => false

def Valid (n : Nesting) : Prop := n.brackets = [] → n.mode = .plain ∨ n.mode = .escaped none

variable {n next : Nesting} {c : Char}

theorem valid_outside : outside.Valid := fun _ => .inl rfl

theorem advancePlain_eq_some {brackets : List Bracket} (h : advancePlain brackets c = some next) :
    next.Valid ∧ next.escaping = (c == '\\') := by
  unfold advancePlain at h
  split at h
  · next hc =>
    cases h
    exact ⟨fun _ => .inr rfl, by simp [hc, escaping]⟩
  · next hc =>
    have plain : (c == '\\') = false := beq_eq_false_iff_ne.mpr hc
    have closes {b : Bracket} (h : close b brackets = some next) :
        next.Valid ∧ next.escaping = false := by
      unfold close at h
      split at h
      · split at h
        · cases h
          exact ⟨fun _ => .inl rfl, rfl⟩
        · cases h
      · cases h
    rw [plain]
    repeat' split at h
    · next quoted =>
      cases h
      refine ⟨fun empty => ?_, rfl⟩
      obtain rfl : brackets = [] := empty
      simp at quoted
    · cases h
      exact ⟨nofun, rfl⟩
    · cases h
      exact ⟨nofun, rfl⟩
    · exact closes h
    · exact closes h
    · cases h
      exact ⟨fun _ => .inl rfl, rfl⟩

/-- Whether an escape is open depends on the characters alone. -/
theorem advance_eq_some (valid : n.Valid) (h : n.advance c = some next) :
    next.Valid ∧ next.escaping = stepEscape n.escaping c := by
  obtain ⟨brackets, mode⟩ := n
  cases mode with
  | plain => exact advancePlain_eq_some h
  | opened =>
    have inside : brackets ≠ [] := fun empty => by simpa using valid empty
    simp only [advance] at h
    repeat' split at h
    · next blank =>
      cases h
      refine ⟨valid, ?_⟩
      have hc : c ≠ '\\' := ne_of_class blank (by decide)
      simp [escaping, stepEscape, hc]
    · next quote =>
      cases h
      refine ⟨fun empty => (inside empty).elim, ?_⟩
      have hc : c ≠ '\\' := ne_of_class quote (by decide)
      simp [escaping, stepEscape, hc]
    · exact advancePlain_eq_some h
  | quoted quote =>
    have inside : brackets ≠ [] := fun empty => by simpa using valid empty
    simp only [advance] at h
    repeat' split at h
    · next hc =>
      cases h
      exact ⟨fun empty => (inside empty).elim, by simp [hc, escaping, stepEscape]⟩
    · next hc _ =>
      cases h
      exact ⟨fun _ => .inl rfl, by simp [hc, escaping, stepEscape]⟩
    · next hc _ =>
      cases h
      exact ⟨valid, by simp [hc, escaping, stepEscape]⟩
  | escaped quote =>
    cases quote with
    | none =>
      cases h
      exact ⟨fun _ => .inl rfl, rfl⟩
    | some quote =>
      have inside : brackets ≠ [] := fun empty => by simpa using valid empty
      cases h
      exact ⟨fun empty => (inside empty).elim, rfl⟩

def signs : List Char := ['\\', '"', '\'', '(', '[', ')', ']']

section Ordinary

variable {inClass : Char → Bool} (free : signs.any inClass = false) (h : inClass c = true)

include free h

theorem ne_of_sign {sign : Char} (hs : sign ∈ signs) : c ≠ sign :=
  ne_of_class h (Bool.not_eq_true _ ▸ List.any_eq_false.mp free sign hs)

theorem isQuote_ordinary : isQuote c = false := by
  rw [isQuote, beq_eq_false_iff_ne.mpr (ne_of_sign free h (by simp [signs])),
    beq_eq_false_iff_ne.mpr (ne_of_sign free h (by simp [signs]))]
  rfl

theorem advancePlain_ordinary {brackets : List Bracket} :
    advancePlain brackets c = some ⟨brackets, .plain⟩ := by
  have apart {sign : Char} (hs : sign ∈ signs) : c ≠ sign := ne_of_sign free h hs
  rw [advancePlain, isQuote_ordinary free h, Bool.false_and, if_neg (apart (by simp [signs])),
    if_neg Bool.false_ne_true, if_neg (apart (by simp [signs])), if_neg (apart (by simp [signs])),
    if_neg (apart (by simp [signs])), if_neg (apart (by simp [signs]))]

end Ordinary

theorem advance_blank (hc : isBlank c = true) (free : n.escaping = false) :
    ∃ next, n.advance c = some next ∧ next.brackets = n.brackets ∧ next.escaping = false := by
  obtain ⟨brackets, mode⟩ := n
  cases mode with
  | plain => exact ⟨_, advancePlain_ordinary (by decide) hc, rfl, rfl⟩
  | opened => exact ⟨_, if_pos hc, rfl, rfl⟩
  | quoted quote =>
    have hb : c ≠ '\\' := ne_of_class hc (by decide)
    simp only [advance, if_neg hb]
    split
    · exact ⟨_, rfl, rfl, rfl⟩
    · exact ⟨_, rfl, rfl, rfl⟩
  | escaped => cases free

end Nesting

variable {n next : Nesting} {c : Char} {text block rest before blanks : List Char}

theorem endsEscaped_append (h : endsEscaped before = false) (text : List Char) :
    endsEscaped (before ++ text) = endsEscaped text := by
  rw [endsEscaped, List.foldl_append]
  exact congrArg (text.foldl stepEscape) h

theorem endsEscaped_cons (hc : c ≠ '\\') (text : List Char) :
    endsEscaped (c :: text) = endsEscaped text := by
  have first : endsEscaped [c] = false := beq_eq_false_iff_ne.mpr hc
  exact endsEscaped_append first text

theorem endsEscaped_blanks (blank : ∀ c ∈ blanks, isBlank c = true) :
    endsEscaped blanks = false := by
  induction blanks with
  | nil => rfl
  | cons c blanks ih =>
    obtain ⟨hc, blank⟩ := List.forall_mem_cons.mp blank
    rw [endsEscaped_cons (ne_of_class hc (by decide)), ih blank]

theorem stops_nil : Stops [] := nofun

theorem stops_cons (h : isBoundary c = true) : Stops (c :: rest) := by
  rintro d hd
  obtain rfl := Option.some.inj hd
  exact h

theorem isBoundary_of_isBlank (h : isBlank c = true) : isBoundary c = true := by
  rw [isBoundary, h, Bool.true_or, Bool.true_or]

theorem isBlank_of_not_boundary (h : isBoundary c = false) : isBlank c = false := by
  rw [isBoundary, Bool.or_assoc, Bool.or_eq_false_iff] at h
  exact h.1

theorem ofChar?_of_not_boundary (h : isBoundary c = false) : Combinator.ofChar? c = none := by
  rw [isBoundary, Bool.or_eq_false_iff, Option.isSome_eq_false_iff, Option.isNone_iff_eq_none] at h
  exact h.2

theorem scanBlock_cons (inside : ¬ (n = .outside ∧ isBoundary c = true)) :
    scanBlock n (c :: text) = .ok (block, rest) ↔
      ∃ next tail, n.advance c = some next ∧ scanBlock next text = .ok (tail, rest) ∧
        block = c :: tail := by
  rw [scanBlock, if_neg inside]
  cases n.advance c with
  | none => simp
  | some next =>
    constructor
    · intro h
      obtain ⟨⟨tail, others⟩, hs, he⟩ := map_eq_ok.mp h
      obtain ⟨rfl, rfl⟩ := Prod.mk.inj he
      exact ⟨next, tail, rfl, hs, rfl⟩
    · rintro ⟨_, tail, ⟨⟩, hs, rfl⟩
      exact map_eq_ok.mpr ⟨_, hs, rfl⟩

namespace IsBlock

theorem nil_iff : IsBlock n [] ↔ n = .outside := by
  rw [IsBlock, scanBlock]
  split <;> simp_all

theorem cons_iff : IsBlock n (c :: block) ↔
    ¬ (n = .outside ∧ isBoundary c = true) ∧ ∃ next, n.advance c = some next ∧
      IsBlock next block := by
  by_cases inside : n = .outside ∧ isBoundary c = true
  · rw [IsBlock, scanBlock, if_pos inside]
    simp [inside]
  · rw [IsBlock, scanBlock_cons inside]
    simp only [List.cons.injEq, true_and, inside, not_false_eq_true, IsBlock]
    constructor
    · rintro ⟨next, tail, ha, h, rfl⟩
      exact ⟨next, ha, h⟩
    · rintro ⟨next, ha, h⟩
      exact ⟨next, block, ha, h, rfl⟩

end IsBlock

theorem scanBlock_iff : scanBlock n text = .ok (block, rest) ↔
    text = block ++ rest ∧ IsBlock n block ∧ Stops rest := by
  induction text generalizing n block rest with
  | nil =>
    rw [List.nil_eq, List.append_eq_nil_iff, scanBlock]
    constructor
    · intro h
      split at h
      · next hn =>
        cases h
        exact ⟨⟨rfl, rfl⟩, IsBlock.nil_iff.mpr hn, stops_nil⟩
      · cases h
    · rintro ⟨⟨rfl, rfl⟩, hb, -⟩
      rw [if_pos (IsBlock.nil_iff.mp hb)]
  | cons c text ih =>
    -- A block ends at the first boundary outside of all brackets, and nowhere else.
    by_cases inside : n = .outside ∧ isBoundary c = true
    · rw [scanBlock, if_pos inside]
      constructor
      · rintro ⟨⟩
        exact ⟨rfl, IsBlock.nil_iff.mpr inside.1, stops_cons inside.2⟩
      · rintro ⟨ht, hb, -⟩
        cases block with
        | nil => rw [ht, List.nil_append]
        | cons d block =>
          obtain ⟨rfl, -⟩ := List.cons.inj ht
          exact absurd inside (IsBlock.cons_iff.mp hb).1
    · rw [scanBlock_cons inside]
      constructor
      · rintro ⟨next, tail, ha, hs, rfl⟩
        obtain ⟨rfl, hb, stops⟩ := ih.mp hs
        exact ⟨rfl, IsBlock.cons_iff.mpr ⟨inside, next, ha, hb⟩, stops⟩
      · rintro ⟨ht, hb, stops⟩
        cases block with
        | nil =>
          rw [List.nil_append] at ht
          exact absurd ⟨IsBlock.nil_iff.mp hb, stops c (by simp [← ht])⟩ inside
        | cons d block =>
          obtain ⟨rfl, rfl⟩ := List.cons.inj ht
          obtain ⟨-, next, ha, hb⟩ := IsBlock.cons_iff.mp hb
          exact ⟨next, block, ha, ih.mpr ⟨rfl, hb, stops⟩, rfl⟩

namespace IsBlock

/-- No block ends within an escape. -/
theorem foldl_stepEscape (valid : n.Valid) (h : IsBlock n block) :
    block.foldl stepEscape n.escaping = false := by
  induction block generalizing n with
  | nil =>
    obtain rfl := nil_iff.mp h
    rfl
  | cons c block ih =>
    obtain ⟨-, next, ha, hb⟩ := cons_iff.mp h
    obtain ⟨valid, he⟩ := Nesting.advance_eq_some valid ha
    rw [List.foldl_cons, ← he]
    exact ih valid hb

theorem endsEscaped (h : IsBlock .outside block) : endsEscaped block = false :=
  h.foldl_stepEscape Nesting.valid_outside

theorem not_blank_inside (inside : n.brackets ≠ []) (free : n.escaping = false)
    (blank : ∀ c ∈ blanks, isBlank c = true) : ¬ IsBlock n blanks := by
  induction blanks generalizing n with
  | nil =>
    intro h
    rw [nil_iff.mp h] at inside
    exact inside rfl
  | cons c blanks ih =>
    obtain ⟨hc, blank⟩ := List.forall_mem_cons.mp blank
    intro h
    obtain ⟨-, next, ha, hb⟩ := cons_iff.mp h
    obtain ⟨next', ha', brackets, free'⟩ := Nesting.advance_blank hc free
    obtain rfl := Option.some.inj (ha.symm.trans ha')
    exact ih (brackets ▸ inside) free' blank hb

theorem foldl_stepEscape_blanks (valid : n.Valid) (h : IsBlock n (before ++ blanks))
    (hne : blanks ≠ []) (blank : ∀ c ∈ blanks, isBlank c = true) :
    before.foldl stepEscape n.escaping = true := by
  induction before generalizing n with
  | nil =>
    rw [List.nil_append] at h
    by_contra free
    rw [List.foldl_nil, Bool.not_eq_true] at free
    obtain ⟨c, blanks, rfl⟩ := List.exists_cons_of_ne_nil hne
    by_cases inside : n.brackets = []
    · have plain : n = .outside := by
        obtain ⟨brackets, mode⟩ := n
        obtain rfl : brackets = [] := inside
        rcases valid rfl with hm | hm
        · obtain rfl : mode = .plain := hm
          rfl
        · obtain rfl : mode = .escaped none := hm
          cases free
      exact (cons_iff.mp h).1 ⟨plain, isBoundary_of_isBlank (blank c List.mem_cons_self)⟩
    · exact not_blank_inside inside free blank h
  | cons c before ih =>
    obtain ⟨-, next, ha, hb⟩ := cons_iff.mp h
    obtain ⟨valid, he⟩ := Nesting.advance_eq_some valid ha
    rw [List.foldl_cons, ← he]
    exact ih valid hb

theorem endsEscaped_blanks (h : IsBlock .outside (before ++ blanks)) (hne : blanks ≠ [])
    (blank : ∀ c ∈ blanks, isBlank c = true) : SelectorEngine.endsEscaped before = true :=
  h.foldl_stepEscape_blanks Nesting.valid_outside hne blank

end IsBlock

namespace Passes

variable {m k : Nesting} {first : List Char}

theorem append (h : Passes n first m) (ht : Passes m text k) : Passes n (first ++ text) k := by
  induction h with
  | nil => exact ht
  | cons inside ha _ ih => exact .cons inside ha (ih ht)

theorem isBlock (h : Passes n block .outside) : IsBlock n block := by
  generalize ho : Nesting.outside = outer at h
  induction h with
  | nil => exact IsBlock.nil_iff.mpr ho.symm
  | cons inside ha _ ih => exact IsBlock.cons_iff.mpr ⟨inside, _, ha, ih ho⟩

end Passes
end SelectorEngine
