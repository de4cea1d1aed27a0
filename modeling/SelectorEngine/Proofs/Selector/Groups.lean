import SelectorEngine.Proofs.Selector.Blocks
import SelectorEngine.Proofs.Selector.Lexemes

/-! # Groups

What stands between two brackets is balanced: the brackets, the strings and the escapes in it are
closed again in it. Every balanced text is scanned as a whole, and a block goes on behind it. -/
namespace SelectorEngine
open Text

namespace Bracket

def closing : Bracket → Char
  | round => ')'
  | square => ']'

def isOrdinary (b : Bracket) (c : Char) : Bool :=
  c != '\\' && c != '(' && c != ')' && c != '[' && c != ']' && !(b == square && isQuote c)

end Bracket

/-- What comes first in round brackets: a string, with blanks in front of it, or nothing, if the
rest does not start with a quote behind its blanks. -/
inductive Lead : (lead rest : List Char) → Prop where
  | none {rest} : (∀ c ∈ (skipBlank rest).head?, isQuote c = false) → Lead [] rest
  | string {blanks quote text content rest} : (∀ c ∈ blanks, isBlank c = true) →
      isQuote quote = true → Quotes quote text content →
      Lead (blanks ++ quote :: (text ++ [quote])) rest

/-- The text stands between brackets of a kind, behind what comes first in them. -/
inductive Balanced : Bracket → List Char → Prop where
  | nil {b} : Balanced b []
  | char {b c text} : b.isOrdinary c = true → Balanced b text → Balanced b (c :: text)
  | escape {b c text} : Balanced b text → Balanced b ('\\' :: c :: text)
  | string {quote inner content text} : isQuote quote = true → Quotes quote inner content →
      Balanced .square text → Balanced .square (quote :: (inner ++ quote :: text))
  | square {b inner text} : Balanced .square inner → Balanced b text →
      Balanced b ('[' :: (inner ++ ']' :: text))
  | round {b lead inner text} : Lead lead inner → Balanced .round inner → Balanced b text →
      Balanced b ('(' :: (lead ++ (inner ++ ')' :: text)))

def IsArgument (text : List Char) : Prop :=
  ∃ lead inner, Lead lead inner ∧ Balanced .round inner ∧ text = lead ++ inner

/-- The text is scanned from one nesting to the other, and some bracket is open all the time. -/
inductive Scans : Nesting → List Char → Nesting → Prop where
  | nil {n} : Scans n [] n
  | cons {n c next text m} : n.advance c = some next → next.brackets ≠ [] → Scans next text m →
      Scans n (c :: text) m

variable {b : Bracket} {outer brackets : List Bracket} {n m k next : Nesting} {c quote : Char}
  {text first lead inner tail rest content blanks : List Char}

theorem advancePlain_ordinary (h : b.isOrdinary c = true) :
    Nesting.advancePlain (b :: outer) c = some ⟨b :: outer, .plain⟩ := by
  simp only [Bracket.isOrdinary, Bool.and_eq_true, bne_iff_ne] at h
  obtain ⟨⟨⟨⟨⟨escape, h₁⟩, h₂⟩, h₃⟩, h₄⟩, quote⟩ := h
  have plain : ¬ (isQuote c && (b :: outer).head? == some .square) = true := by
    rw [Bool.not_eq_true', Bool.and_eq_false_iff] at quote
    rw [Bool.not_eq_true, Bool.and_eq_false_iff]
    exact quote.symm
  rw [Nesting.advancePlain, if_neg escape, if_neg plain, if_neg h₁, if_neg h₃, if_neg h₂, if_neg h₄]

theorem isOrdinary_of_class {inClass : Char → Bool} (free : Nesting.signs.any inClass = false)
    (h : inClass c = true) : b.isOrdinary c = true := by
  have apart (sign : Char) (hs : sign ∈ Nesting.signs) : (c != sign) = true :=
    bne_iff_ne.mpr (Nesting.ne_of_sign free h hs)
  rw [Bracket.isOrdinary, Nesting.isQuote_ordinary free h, Bool.and_false, apart '\\' (by decide),
    apart '(' (by decide), apart ')' (by decide), apart '[' (by decide), apart ']' (by decide)]
  rfl

theorem advance_skips (h : isBlank c = true) :
    Nesting.advance ⟨brackets, .opened⟩ c = some ⟨brackets, .opened⟩ := if_pos h

theorem advance_opened (blank : isBlank c = false) (quote : isQuote c = false) :
    Nesting.advance ⟨brackets, .opened⟩ c = Nesting.advance ⟨brackets, .plain⟩ c := by
  simp [Nesting.advance, blank, quote]

namespace Scans

theorem append (h : Scans n first m) (ht : Scans m text k) : Scans n (first ++ text) k := by
  induction h with
  | nil => exact ht
  | cons ha inside _ ih => exact .cons ha inside (ih ht)

theorem scanGroup (h : Scans n first m) (text : List Char) :
    SelectorEngine.scanGroup n (first ++ text) =
      (SelectorEngine.scanGroup m text).map fun (content, rest) => (first ++ content, rest) := by
  induction h with
  | @nil n =>
    rw [List.nil_append]
    cases SelectorEngine.scanGroup n text <;> rfl
  | @cons n c next tail m ha inside _ ih =>
    rw [List.cons_append, SelectorEngine.scanGroup, ha]
    simp only [List.isEmpty_iff, inside, if_false, ih]
    cases SelectorEngine.scanGroup m text <;> rfl

theorem quotes (inside : brackets ≠ []) (h : Quotes quote text content) :
    Scans ⟨brackets, .quoted quote⟩ text ⟨brackets, .quoted quote⟩ := by
  induction h with
  | nil => exact .nil
  | char hc escape _ ih => exact .cons (by simp [Nesting.advance, escape, hc]) inside ih
  | escape _ ih => exact .cons rfl inside (.cons rfl inside ih)

theorem string {n : Nesting} (opens : n.advance quote = some ⟨b :: outer, .quoted quote⟩)
    (hq : isQuote quote = true) (h : Quotes quote text content) :
    Scans n (quote :: (text ++ [quote])) ⟨b :: outer, .plain⟩ := by
  have inside : b :: outer ≠ [] := List.cons_ne_nil b outer
  have closes : Nesting.advance ⟨b :: outer, .quoted quote⟩ quote = some ⟨b :: outer, .plain⟩ := by
    simp [Nesting.advance, ne_escape_of_isQuote hq]
  exact .cons opens inside ((quotes inside h).append (.cons closes inside .nil))

theorem stay (h : ∀ c ∈ text, n.advance c = some n) (inside : n.brackets ≠ []) :
    Scans n text n := by
  induction text with
  | nil => exact .nil
  | cons c text ih =>
    obtain ⟨hc, ht⟩ := List.forall_mem_cons.mp h
    exact .cons hc inside (ih ht)

theorem opened (h : Scans ⟨.round :: outer, .plain⟩ inner ⟨.round :: outer, .plain⟩)
    (quote : ∀ c ∈ (skipBlank inner).head?, isQuote c = false) :
    ∃ mode, (mode = .plain ∨ mode = .opened) ∧
      Scans ⟨.round :: outer, .opened⟩ inner ⟨.round :: outer, mode⟩ := by
  induction inner with
  | nil => exact ⟨.opened, .inr rfl, .nil⟩
  | cons c inner ih =>
    cases h with
    | cons ha inside tail =>
      by_cases hc : isBlank c = true
      · have stays : Nesting.advance ⟨.round :: outer, .plain⟩ c = some ⟨.round :: outer, .plain⟩ :=
          Nesting.advancePlain_ordinary (by decide) hc
        obtain rfl := Option.some.inj (ha.symm.trans stays)
        have skip : skipBlank (c :: inner) = skipBlank inner := List.dropWhile_cons_of_pos hc
        obtain ⟨mode, hm, h⟩ := ih tail (skip ▸ quote)
        exact ⟨mode, hm, .cons (advance_skips hc) (List.cons_ne_nil _ _) h⟩
      · rw [Bool.not_eq_true] at hc
        rw [skipBlank_cons hc] at quote
        refine ⟨.plain, .inl rfl, .cons ?_ inside tail⟩
        rw [advance_opened hc (quote c rfl)]
        exact ha

theorem of_lead (hl : Lead lead inner)
    (h : Scans ⟨.round :: outer, .plain⟩ inner ⟨.round :: outer, .plain⟩) :
    ∃ mode, (mode = .plain ∨ mode = .opened) ∧
      Scans ⟨.round :: outer, .opened⟩ (lead ++ inner) ⟨.round :: outer, mode⟩ := by
  cases hl with
  | none quote => exact h.opened quote
  | @string before quote text content _ blank hq hs =>
    have first : isBlank quote = false := isBlank_eq_false (by decide) hq
    have opens : Nesting.advance ⟨.round :: outer, .opened⟩ quote =
        some ⟨.round :: outer, .quoted quote⟩ := by
      simp [Nesting.advance, first, hq]
    exact ⟨.plain, .inl rfl,
      ((stay (fun c hc => advance_skips (blank c hc)) (List.cons_ne_nil _ _)).append
        (string opens hq hs)).append h⟩

theorem balanced (h : Balanced b text) (outer : List Bracket) :
    Scans ⟨b :: outer, .plain⟩ text ⟨b :: outer, .plain⟩ := by
  have inside {b : Bracket} {outer : List Bracket} : b :: outer ≠ [] := List.cons_ne_nil b outer
  induction h generalizing outer with
  | nil => exact .nil
  | char hc _ ih => exact .cons (advancePlain_ordinary hc) inside (ih outer)
  | escape _ ih => exact .cons rfl inside (.cons rfl inside (ih outer))
  | @string quote inner content text hq hs _ ih =>
    have opens : Nesting.advance ⟨.square :: outer, .plain⟩ quote =
        some ⟨.square :: outer, .quoted quote⟩ := by
      simp [Nesting.advance, Nesting.advancePlain, ne_escape_of_isQuote hq, hq]
    have split : quote :: (inner ++ quote :: text) = quote :: (inner ++ [quote]) ++ text := by simp
    rw [split]
    exact (string opens hq hs).append (ih outer)
  | @square b inner text _ _ ihi iht =>
    exact .cons rfl inside ((ihi (b :: outer)).append (.cons rfl inside (iht outer)))
  | @round b lead inner text hl _ _ ihi iht =>
    obtain ⟨mode, hm, hs⟩ := of_lead hl (ihi (b :: outer))
    have closes : Nesting.advance ⟨.round :: b :: outer, mode⟩ ')' = some ⟨b :: outer, .plain⟩ := by
      rcases hm with rfl | rfl <;> rfl
    rw [← List.append_assoc]
    exact .cons rfl inside (hs.append (.cons closes inside (iht outer)))

end Scans

theorem Scans.passes (h : Scans n text m) (inside : n.brackets ≠ []) : Passes n text m := by
  induction h with
  | nil => exact .nil
  | cons ha still _ ih =>
    refine .cons ?_ ha (ih still)
    rintro ⟨rfl, -⟩
    exact inside rfl

theorem Balanced.passes (h : Balanced .square text) :
    Passes .outside ('[' :: (text ++ [']'])) .outside := by
  have scans := Scans.balanced h []
  exact .cons (by decide) rfl
    ((scans.passes (List.cons_ne_nil _ _)).append (.cons (by decide) rfl .nil))

theorem IsArgument.passes (h : IsArgument text) :
    Passes .outside ('(' :: (text ++ [')'])) .outside := by
  obtain ⟨lead, inner, hl, hi, rfl⟩ := h
  obtain ⟨mode, hm, scans⟩ := Scans.of_lead hl (Scans.balanced hi [])
  have closes : Passes ⟨[.round], mode⟩ [')'] .outside := by
    rcases hm with rfl | rfl
    · exact .cons (by decide) rfl .nil
    · exact .cons (by decide) rfl .nil
  exact .cons (by decide) rfl ((scans.passes (List.cons_ne_nil _ _)).append closes)

theorem Balanced.append (h : Balanced b text) (ht : Balanced b tail) :
    Balanced b (text ++ tail) := by
  induction h with
  | nil => exact ht
  | char hc _ ih => exact .char hc (ih ht)
  | escape _ ih => exact .escape (ih ht)
  | string hq hs _ ih =>
    rw [List.cons_append, List.append_assoc, List.cons_append]
    exact .string hq hs (ih ht)
  | square hi _ _ ih =>
    rw [List.cons_append, List.append_assoc, List.cons_append]
    exact .square hi (ih ht)
  | round hl hi _ _ ih =>
    rw [List.cons_append, List.append_assoc, List.append_assoc, List.cons_append]
    exact .round hl hi (ih ht)

theorem Balanced.of_ordinary (h : ∀ c ∈ text, b.isOrdinary c = true) : Balanced b text := by
  induction text with
  | nil => exact .nil
  | cons c text ih =>
    obtain ⟨hc, ht⟩ := List.forall_mem_cons.mp h
    exact .char hc (ih ht)

end SelectorEngine
