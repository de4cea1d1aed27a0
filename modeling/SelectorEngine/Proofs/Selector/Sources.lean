import Mathlib.Data.List.Chain
import SelectorEngine.Proofs.Selector.Reading
import SelectorEngine.Selector.Display

/-! # The sources of parts

A text that is read as a branch is the sources of its parts with blanks around them, and at least
one blank between two compounds. Which blanks these are makes no difference, so that the displayed
branch is read as the same parts. -/
namespace SelectorEngine
open Text

variable {A : Type}

def Part.Reads (nested : List Char → Except SelectorError A) : Part A → Prop
  | compound block => IsBlock .outside block.source.toList ∧
      readCompound nested block.source.toList = .ok block
  | combinator relation => relation ≠ .descendant

structure Piece (A : Type) where
  blanks : List Char
  part : Part A

namespace Piece

def text (piece : Piece A) : List Char := piece.blanks ++ piece.part.source.toList

def Behind (previous : Option (Part A)) (piece : Piece A) : Prop :=
  ∀ left right, previous = some (.compound left) → piece.part = .compound right → piece.blanks ≠ []

end Piece

/-- The text is the sources of parts, with blanks in front of each and at the end. -/
structure IsLayout (pieces : List (Piece A)) (last text : List Char) : Prop where
  blank : ∀ piece ∈ pieces, ∀ c ∈ piece.blanks, isBlank c = true
  last_blank : ∀ c ∈ last, isBlank c = true
  apart : pieces.IsChain fun piece next => next.Behind (some piece.part)
  text_eq : text = pieces.flatMap Piece.text ++ last

/-- What stands behind a branch with the given rest: nothing, or a comma and what is trimmed to
it. -/
inductive IsTail : (rest : Option String) → (tail : List Char) → Prop where
  | none : IsTail none []
  | comma (others : List Char) : IsTail (some (String.ofList (trim others))) (',' :: others)

variable {nested : List Char → Except SelectorError A}
  {previous : Option (Part A)} {part : Part A} {parts : List (Part A)} {text last : List Char}

theorem Combinator.symbol_eq {relation : Combinator} (h : relation ≠ .descendant) :
    ∃ c, relation.symbol.toList = [c] ∧ ofChar? c = some relation := by
  cases relation with
  | descendant => exact absurd rfl h
  | child => exact ⟨'>', rfl, rfl⟩
  | adjacent => exact ⟨'+', rfl, rfl⟩
  | general => exact ⟨'~', rfl, rfl⟩

theorem Combinator.symbol_of_ofChar? {c : Char} {relation : Combinator}
    (h : ofChar? c = some relation) : relation ≠ .descendant ∧ relation.symbol.toList = [c] := by
  unfold ofChar? at h
  split at h
  all_goals cases h
  all_goals exact ⟨nofun, rfl⟩

theorem Follow.closed (h : Follow previous []) : isOpenEnd previous = false := by
  rcases previous with _ | _ | _
  · rfl
  · rfl
  · cases h

theorem Follow.of_cons (h : Follow previous (part :: parts)) :
    Follow (some part) parts ∧ (isOpenEnd (some part) = true → isOpenEnd previous = false) := by
  cases part with
  | compound block =>
    refine ⟨?_, nofun⟩
    rcases previous with _ | _ | _ <;> simpa [Follow, linksOf?] using h
  | combinator relation =>
    rcases previous with _ | _ | _
    · exact ⟨h, fun _ => rfl⟩
    · exact ⟨h, fun _ => rfl⟩
    · cases h

theorem readCompound_source {block : List Char} {compound : Compound A}
    (h : readCompound nested block = .ok compound) : compound.source.toList = block := by
  cases readCompound_iff.mp h
  exact String.toList_ofList

theorem Yields.reads (h : Yields nested previous text parts) :
    ∀ part ∈ parts, part.Reads nested := by
  induction h with
  | done => exact List.forall_mem_nil _
  | combinator _ _ hc _ ih =>
    exact List.forall_mem_cons.mpr ⟨(Combinator.symbol_of_ofChar? hc).1, ih⟩
  | compound _ hb _ hc _ ih =>
    refine List.forall_mem_cons.mpr ⟨?_, ih⟩
    rw [Part.Reads, readCompound_source hc]
    exact ⟨hb, hc⟩

theorem IsLayout.nil (blank : ∀ c ∈ last, isBlank c = true) :
    IsLayout ([] : List (Piece A)) last last where
  blank := List.forall_mem_nil _
  last_blank := blank
  apart := .nil
  text_eq := rfl

theorem IsLayout.cons {pieces : List (Piece A)} (layout : IsLayout pieces last text)
    (piece : Piece A) (blank : ∀ c ∈ piece.blanks, isBlank c = true)
    (behind : ∀ next ∈ pieces.head?, next.Behind (some piece.part)) :
    IsLayout (piece :: pieces) last (piece.text ++ text) where
  blank := List.forall_mem_cons.mpr ⟨blank, layout.blank⟩
  last_blank := layout.last_blank
  apart := List.isChain_cons.mpr ⟨behind, layout.apart⟩
  text_eq := by rw [layout.text_eq, List.flatMap_cons, List.append_assoc]

theorem Stops.blanks_ne_nil {blanks block rest : List Char} (h : Stops (blanks ++ (block ++ rest)))
    (hb : IsBlock .outside block) (hne : block ≠ []) : blanks ≠ [] := by
  rintro rfl
  obtain ⟨c, block, rfl⟩ := List.exists_cons_of_ne_nil hne
  exact Bool.false_ne_true (hb.not_boundary.symm.trans (h c rfl))

theorem Yields.exists_layout (h : Yields nested previous text parts)
    (stops : ∀ left, previous = some (.compound left) → Stops text) :
    ∃ pieces last, pieces.map Piece.part = parts ∧ IsLayout pieces last text ∧
      ∀ first ∈ pieces.head?, first.Behind previous := by
  induction h with
  | @done previous blanks _ blank => exact ⟨[], blanks, rfl, .nil blank, nofun⟩
  | @combinator previous blanks c relation rest parts _ blank hc _ ih =>
    obtain ⟨pieces, last, rfl, layout, behind⟩ := ih nofun
    have symbol := (Combinator.symbol_of_ofChar? hc).2
    refine ⟨⟨blanks, .combinator relation⟩ :: pieces, last, rfl, ?_, ?_⟩
    · have whole := layout.cons ⟨blanks, .combinator relation⟩ blank behind
      rw [Piece.text, Part.source, symbol, List.append_assoc] at whole
      exact whole
    · rintro first ⟨⟩ left right - ⟨⟩
  | @compound previous blanks block rest compound parts blank hb hs hc _ ih =>
    obtain ⟨pieces, last, rfl, layout, behind⟩ := ih fun _ _ => hs
    have source := readCompound_source hc
    refine ⟨⟨blanks, .compound compound⟩ :: pieces, last, rfl, ?_, ?_⟩
    · have whole := layout.cons ⟨blanks, .compound compound⟩ blank behind
      rw [Piece.text, Part.source, source, List.append_assoc] at whole
      exact whole
    · rintro first ⟨⟩ left right followed -
      refine (stops left followed).blanks_ne_nil hb ?_
      rintro rfl
      cases hc

theorem stops_of_blank (blank : ∀ c ∈ last, isBlank c = true) : Stops last := by
  intro c hc
  exact isBoundary_of_isBlank (blank c (List.mem_of_mem_head? hc))

theorem IsLayout.stops {pieces : List (Piece A)} {left : Compound A}
    (layout : IsLayout pieces last text) (reads : ∀ piece ∈ pieces, piece.part.Reads nested)
    (behind : ∀ next ∈ pieces.head?, next.Behind (some (.compound left))) : Stops text := by
  rw [layout.text_eq]
  cases pieces with
  | nil => exact stops_of_blank layout.last_blank
  | cons piece pieces =>
    have blank := layout.blank piece List.mem_cons_self
    have read := reads piece List.mem_cons_self
    obtain ⟨blanks, part⟩ := piece
    cases blanks with
    | cons c blanks => exact stops_cons (isBoundary_of_isBlank (blank c List.mem_cons_self))
    | nil =>
      cases part with
      | compound right => exact absurd rfl (behind _ rfl left right rfl rfl)
      | combinator relation =>
        obtain ⟨c, symbol, hc⟩ := Combinator.symbol_eq read
        have boundary : isBoundary c = true := by simp [isBoundary, hc]
        rw [List.flatMap_cons, Piece.text, Part.source, symbol]
        exact stops_cons boundary

theorem Part.Reads.yields {blanks rest : List Char} (read : part.Reads nested)
    (blank : ∀ c ∈ blanks, isBlank c = true)
    (stops : ∀ block, part = .compound block → Stops rest)
    (closed : isOpenEnd (some part) = true → isOpenEnd previous = false)
    (h : Yields nested (some part) rest parts) :
    Yields nested previous (blanks ++ (part.source.toList ++ rest)) (part :: parts) := by
  cases part with
  | compound block => exact .compound blank read.1 (stops block rfl) read.2 h
  | combinator relation =>
    obtain ⟨c, symbol, hc⟩ := Combinator.symbol_eq read
    rw [Part.source, symbol]
    exact .combinator (closed rfl) blank hc h

theorem IsLayout.yields {pieces : List (Piece A)} (layout : IsLayout pieces last text)
    (reads : ∀ piece ∈ pieces, piece.part.Reads nested)
    (follow : Follow previous (pieces.map Piece.part)) :
    Yields nested previous text (pieces.map Piece.part) := by
  induction pieces generalizing previous text with
  | nil =>
    obtain rfl : text = last := layout.text_eq
    exact .done follow.closed layout.last_blank
  | cons piece pieces ih =>
    obtain ⟨read, others⟩ := List.forall_mem_cons.mp reads
    obtain ⟨blank, blanks_left⟩ := List.forall_mem_cons.mp layout.blank
    obtain ⟨behind, apart⟩ := List.isChain_cons.mp layout.apart
    obtain ⟨goes_on, closed⟩ := Follow.of_cons follow
    have rest : IsLayout pieces last (pieces.flatMap Piece.text ++ last) :=
      ⟨blanks_left, layout.last_blank, apart, rfl⟩
    have stops : ∀ block, piece.part = .compound block →
        Stops (pieces.flatMap Piece.text ++ last) :=
      fun block hp => rest.stops others (hp ▸ behind)
    rw [layout.text_eq, List.flatMap_cons, Piece.text, List.append_assoc, List.append_assoc]
    exact read.yields blank stops closed (ih rest others goes_on)

/-- A text is read as the parts exactly if it is a layout of them, and they make a chain of parts
that are read back from their sources. -/
theorem yields_iff : Yields nested none text parts ↔
    Follow none parts ∧ (∀ part ∈ parts, part.Reads nested) ∧
      ∃ pieces last, pieces.map Piece.part = parts ∧ IsLayout pieces last text := by
  constructor
  · intro h
    obtain ⟨pieces, last, made, layout, -⟩ := h.exists_layout nofun
    exact ⟨h.follow, h.reads, pieces, last, made, layout⟩
  · rintro ⟨follow, reads, pieces, last, rfl, layout⟩
    exact layout.yields (List.forall_mem_map.mp reads) follow

def Piece.spaced (part : Part A) : Piece A := ⟨[' '], part⟩

theorem behind_spaced (previous : Option (Part A)) (parts : List (Part A)) :
    ∀ next ∈ (parts.map Piece.spaced).head?, next.Behind previous := by
  intro next hn left right _ _
  obtain ⟨part, _, rfl⟩ := List.mem_map.mp (List.mem_of_mem_head? hn)
  exact List.cons_ne_nil _ _

theorem isLayout_spaced (parts : List (Part A)) :
    IsLayout (parts.map Piece.spaced) [] ((parts.map Piece.spaced).flatMap Piece.text) := by
  induction parts with
  | nil => exact .nil (List.forall_mem_nil _)
  | cons part parts ih =>
    have space : ∀ c ∈ (Piece.spaced part).blanks, isBlank c = true :=
      List.forall_mem_singleton.mpr (by decide)
    exact ih.cons _ space (behind_spaced _ parts)

theorem Complex.toList_display (part : Part A) (parts : List (Part A)) (rest : Option String) :
    (Complex.mk (part :: parts) rest).display.toList =
      part.source.toList ++ (parts.map Piece.spaced).flatMap Piece.text := by
  induction parts generalizing part with
  | nil => simp [Complex.display]
  | cons next parts ih =>
    have behind := ih next
    simp only [Complex.display, String.toList_intercalate, List.map_cons] at behind ⊢
    rw [List.intercalate_cons_cons, behind, List.append_assoc]
    rfl

theorem Complex.isLayout_display (part : Part A) (parts : List (Part A)) (rest : Option String) :
    IsLayout (⟨[], part⟩ :: parts.map Piece.spaced) []
      (Complex.mk (part :: parts) rest).display.toList := by
  rw [Complex.toList_display]
  exact (isLayout_spaced parts).cons ⟨[], part⟩ (List.forall_mem_nil _)
    (behind_spaced _ parts)

theorem Complex.yields_display (follow : Follow none (part :: parts)) (rest : Option String)
    (reads : ∀ member ∈ part :: parts, member.Reads nested) :
    Yields nested none (Complex.mk (part :: parts) rest).display.toList (part :: parts) := by
  refine yields_iff.mpr ⟨follow, reads, _, _, ?_, Complex.isLayout_display part parts rest⟩
  rw [List.map_cons, List.map_map]
  exact congrArg _ (List.map_id' parts)

namespace Complex

variable {selector : String} {branch : Complex SelectorList}

theorem parse_display {depth : Nat} (follow : Follow none branch.parts)
    (reads : ∀ part ∈ branch.parts, part.Reads (readListWithin depth)) :
    parse branch.display = .ok { parts := branch.parts } := by
  obtain ⟨parts, rest⟩ := branch
  cases parts with
  | nil => rfl
  | cons part parts =>
    have yields := (yields_display follow rest reads).agree (agree_readListWithin (Nat.le_refl _))
    rw [parse, readComplex, readParts_yields_end yields (.inr (List.cons_ne_nil _ _))
      (Nat.lt_succ_self _)]
    rfl

theorem exists_yields (read : parse selector = .ok branch) : ∃ text tail,
    Yields (readListWithin selector.toList.length) none text branch.parts ∧
      IsTail branch.rest tail ∧ selector.toList = text ++ tail := by
  obtain ⟨⟨parts, rest⟩, hr, rfl⟩ := map_eq_ok.mp read
  obtain ⟨text, yields, ⟨ht, rfl⟩ | ⟨others, ht, rfl⟩⟩ := yields_of_readParts hr
  · exact ⟨text, [], yields, .none, by rw [ht, List.append_nil]⟩
  · exact ⟨text, _, yields, .comma others, ht⟩

/-- Nothing of a selector is lost. It is the sources of its parts, in their order and each with
blanks around it, and behind them the comma and the text that the rest is trimmed from, if there is
a rest. Compounds are read again as themselves. -/
theorem parse_lossless (read : parse selector = .ok branch) :
    ∃ pieces last text tail, selector.toList = text ++ tail ∧ pieces.map Piece.part = branch.parts ∧
      IsLayout pieces last text ∧ IsTail branch.rest tail ∧
      ∀ block, .compound block ∈ branch.parts → Compound.parse block.source = .ok block := by
  obtain ⟨text, tail, yields, ends, split⟩ := exists_yields read
  obtain ⟨-, reads, pieces, last, made, layout⟩ := yields_iff.mp yields
  refine ⟨pieces, last, text, tail, split, made, layout, ends, ?_⟩
  intro block hb
  exact readCompound_agree (agree_readListWithin (Nat.le_refl _)) (reads _ hb).2

def crowded : Complex SelectorList where
  parts := [.compound ⟨"ul", [.tag "ul"]⟩, .combinator .child,
    .compound ⟨"li:not(.a, b)", [.tag "li", .not (.mk ".a, b"
      [⟨[.compound ⟨".a", [.className "a"]⟩], some "b"⟩, ⟨[.compound ⟨"b", [.tag "b"]⟩], none⟩])]⟩,
    .compound ⟨"[c='d, e']", [.attr ⟨"c", some (.equals, "d, e")⟩]⟩]
  rest := some "p"

theorem read_crowded : parse "ul >li:not(.a, b)\n[c='d, e'] , p" = .ok crowded := rfl

theorem parse_lossless_crowded : ∃ pieces last text tail,
    "ul >li:not(.a, b)\n[c='d, e'] , p".toList = text ++ tail ∧
      pieces.map Piece.part = crowded.parts ∧ IsLayout pieces last text ∧
      IsTail (some "p") tail ∧
      ∀ block, .compound block ∈ crowded.parts → Compound.parse block.source = .ok block :=
  parse_lossless read_crowded

theorem display_parts (read : parse selector = .ok branch) :
    parse branch.display = .ok { parts := branch.parts } := by
  obtain ⟨text, tail, yields, -, -⟩ := exists_yields read
  exact parse_display yields.follow yields.reads

theorem display_parts_crowded : crowded.display = "ul > li:not(.a, b) [c='d, e']" ∧
    parse crowded.display = .ok { parts := crowded.parts } :=
  ⟨by decide, display_parts read_crowded⟩

end Complex
end SelectorEngine
