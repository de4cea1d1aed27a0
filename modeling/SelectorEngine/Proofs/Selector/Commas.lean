import Mathlib
import SelectorEngine.Proofs.Selector.Branches

/-! # Commas

What follows a comma is trimmed before it is read. So a comma joins the branches of two texts,
unless trimming cuts a blank from the second one that a backslash takes as it is. -/
namespace SelectorEngine
open Text

variable {A : Type} {nested : List Char → Except SelectorError A} {previous : Option (Part A)}
  {text blanks others : List Char} {parts : List (Part A)}
  {branches : List (Complex A)}

theorem ne_backslash_of_ofChar? {c : Char} {relation : Combinator}
    (h : Combinator.ofChar? c = some relation) : c ≠ '\\' := by
  rintro rfl
  cases h

namespace Yields

theorem endsEscaped (h : Yields nested previous text parts) : endsEscaped text = false := by
  induction h with
  | done _ blank => exact endsEscaped_blanks blank
  | combinator _ blank hc _ ih =>
    rw [endsEscaped_append (endsEscaped_blanks blank),
      endsEscaped_cons (ne_backslash_of_ofChar? hc), ih]
  | compound blank hb _ _ _ ih =>
    rw [endsEscaped_append (endsEscaped_blanks blank), endsEscaped_append hb.endsEscaped, ih]

theorem append_blank (h : Yields nested previous text parts)
    (blank : ∀ c ∈ blanks, isBlank c = true) :
    Yields nested previous (text ++ blanks) parts := by
  have stops : Stops blanks :=
    fun c hc => isBoundary_of_isBlank (blank c (List.mem_of_mem_head? hc))
  induction h with
  | done closed blank' =>
    exact .done closed fun c hc => (List.mem_append.mp hc).elim (blank' c) (blank c)
  | combinator closed blank' hc _ ih =>
    rw [List.append_assoc, List.cons_append]
    exact .combinator closed blank' hc ih
  | compound blank' hb hs hc _ ih =>
    rw [List.append_assoc, List.append_assoc]
    exact .compound blank' hb (hs.append stops) hc ih

theorem prepend_blank (h : Yields nested previous text parts)
    (blank : ∀ c ∈ blanks, isBlank c = true) : Yields nested previous (blanks ++ text) parts := by
  have both {others : List Char} (ho : ∀ c ∈ others, isBlank c = true) :
      ∀ c ∈ blanks ++ others, isBlank c = true :=
    fun c hc => (List.mem_append.mp hc).elim (blank c) (ho c)
  cases h with
  | done closed blank' => exact .done closed (both blank')
  | combinator closed blank' hc hr =>
    rw [← List.append_assoc]
    exact .combinator closed (both blank') hc hr
  | compound blank' hb hs hc hr =>
    rw [← List.append_assoc]
    exact .compound (both blank') hb hs hc hr

/-- Blanks at the end may go unless a backslash takes the first of them as it is. -/
theorem of_append_blank (h : Yields nested previous (text ++ blanks) parts)
    (blank : ∀ c ∈ blanks, isBlank c = true) (closed : SelectorEngine.endsEscaped text = false) :
    Yields nested previous text parts := by
  generalize hw : text ++ blanks = whole at h
  induction h generalizing text with
  | done hp blank' =>
    subst hw
    exact .done hp fun c hc => blank' c (List.mem_append_left _ hc)
  | @combinator previous blanks' c relation rest parts hp blank' hc _ ih =>
    have solid : c ∉ blanks := fun hm => by simpa [isBlank_of_ofChar? hc] using blank c hm
    rcases List.append_eq_append_iff.mp hw with ⟨middle, rfl, hm⟩ | ⟨middle, rfl, hm⟩
    · exact absurd (by simp [hm]) solid
    · cases middle with
      | nil => exact absurd (by simp [← (show c :: rest = blanks from hm)]) solid
      | cons d middle =>
        obtain ⟨rfl, rfl⟩ := List.cons.inj hm
        rw [endsEscaped_append (endsEscaped_blanks blank'),
          endsEscaped_cons (ne_backslash_of_ofChar? hc)] at closed
        exact .combinator hp blank' hc (ih closed rfl)
  | @compound previous blanks' block rest compound parts blank' hb hs hc _ ih =>
    have block_ne : block ≠ [] := by
      rintro rfl
      cases hc
    rcases List.append_eq_append_iff.mp hw with ⟨middle, rfl, hm⟩ | ⟨middle, rfl, hm⟩
    · -- The block would be a blank at the end.
      have inside : ∀ c ∈ block, isBlank c = true := fun c hc => blank c (by simp [hm, hc])
      have escaped : SelectorEngine.endsEscaped [] = true :=
        IsBlock.endsEscaped_blanks (show IsBlock .outside ([] ++ block) from hb) block_ne inside
      cases escaped
    -- The text ends behind the block, or within it at blanks, which only an escape takes in.
    · rw [endsEscaped_append (endsEscaped_blanks blank')] at closed
      rcases List.append_eq_append_iff.mp hm with ⟨left, rfl, hr⟩ | ⟨left, rfl, hr⟩
      · rw [endsEscaped_append hb.endsEscaped] at closed
        exact .compound blank' hb (hr ▸ hs).of_append hc (ih closed hr.symm)
      · cases left with
        | nil =>
          rw [List.append_nil] at hb hc
          have left_over : Yields nested (some (.compound compound)) [] parts :=
            ih rfl (by simpa using hr)
          have whole :
              Yields nested previous (blanks' ++ (middle ++ [])) (.compound compound :: parts) :=
            .compound blank' hb stops_nil hc left_over
          rwa [List.append_nil] at whole
        | cons c left =>
          have inside : ∀ d ∈ c :: left, isBlank d = true := fun d hd => blank d (hr ▸
            List.mem_append_left _ hd)
          rw [hb.endsEscaped_blanks (List.cons_ne_nil c left) inside] at closed
          cases closed

theorem of_prepend_blank (h : Yields nested none (blanks ++ text) parts) (hne : parts ≠ [])
    (blank : ∀ c ∈ blanks, isBlank c = true) : Yields nested none text parts := by
  obtain ⟨limit, enough⟩ : ∃ limit, (blanks ++ text).length < limit + 1 := ⟨_, Nat.lt_succ_self _⟩
  have read : readParts nested [] (limit + 1) none (blanks ++ text) = .ok (parts, none) :=
    readParts_yields_end h (.inr hne) enough
  rw [readParts_skipBlank blank] at read
  obtain ⟨first, hy, ⟨rfl, -⟩ | ⟨others, -, he⟩⟩ := yields_of_readParts read
  · exact hy
  · cases he

end Yields

namespace YieldsAll

theorem endsEscaped (h : YieldsAll nested text branches) : endsEscaped text = false := by
  induction h with
  | single hy _ => exact hy.endsEscaped
  | @comma first others parts branches hy _ _ ih =>
    obtain ⟨before, after, hb, ha, -, ho⟩ := exists_trimmed others
    rw [endsEscaped_append hy.endsEscaped, endsEscaped_cons (by decide), ho,
      endsEscaped_append (endsEscaped_blanks hb), endsEscaped_append ih, endsEscaped_blanks ha]

theorem of_trim (h : YieldsAll nested (trim text) branches) : YieldsAll nested text branches := by
  obtain ⟨before, after, hb, ha, -, ht⟩ := exists_trimmed text
  generalize trim text = middle at h ht
  subst ht
  cases h with
  | single hy hne => exact .single ((hy.append_blank ha).prepend_blank hb) hne
  | @comma first others parts branches hy hne hall =>
    have ht : trim (others ++ after) = trim others := trim_append_blank ha
    have split : before ++ (first ++ ',' :: others ++ after) =
        (before ++ first) ++ ',' :: (others ++ after) := by simp
    rw [split, ← ht]
    exact .comma (hy.prepend_blank hb) hne (ht ▸ hall)

theorem trimmed (h : YieldsAll nested text branches)
    (closed : SelectorEngine.endsEscaped (trim text) = false) :
    ∃ others, YieldsAll nested (trim text) others ∧
      others.map (·.parts) = branches.map (·.parts) := by
  cases h with
  | single hy hne =>
    obtain ⟨before, after, hb, ha, -, ht⟩ := exists_trimmed text
    rw [ht] at hy
    exact ⟨_, .single ((hy.of_prepend_blank hne hb).of_append_blank ha closed) hne, rfl⟩
  | @comma first others parts branches hy hne hall =>
    obtain ⟨before, hb, hf⟩ := exists_blanks first
    obtain ⟨others', ho, ht⟩ := trim_comma first others
    rw [hf] at hy
    rw [ht]
    exact ⟨_, .comma (hy.of_prepend_blank hne hb) hne (ho ▸ hall), rfl⟩

/-- What is read behind the first of several branches still starts with the second one. -/
theorem trim_behind (h : YieldsAll nested (trim text) branches)
    (blank : ∀ c ∈ blanks, isBlank c = true) (others : List Char) :
    ∃ after others', (∀ c ∈ after, isBlank c = true) ∧ trim others' = trim others ∧
      trim (text ++ blanks ++ ',' :: others) = trim text ++ after ++ ',' :: others' := by
  obtain ⟨others', ho, ht⟩ := trim_comma (text ++ blanks) others
  have same : trim (text ++ blanks) = trim text := trim_append_blank blank
  obtain ⟨after, ha, hs⟩ := exists_skipBlank_eq (same.symm ▸ h.text_ne_nil)
  exact ⟨after, others', ha, ho, by rw [ht, hs, same]⟩

theorem join {more : List (Complex A)} (h : YieldsAll nested text branches)
    (blank : ∀ c ∈ blanks, isBlank c = true) (hm : YieldsAll nested (trim others) more) :
    ∃ all, YieldsAll nested (text ++ blanks ++ ',' :: others) all ∧
      all.map (·.parts) = branches.map (·.parts) ++ more.map (·.parts) := by
  induction h generalizing blanks others with
  | single hy hne => exact ⟨_, .comma (hy.append_blank blank) hne hm, rfl⟩
  | @comma first rest parts branches hy hne hall ih =>
    obtain ⟨after, others', ha, ho, ht⟩ := hall.trim_behind blank others
    obtain ⟨all, hj, hp⟩ := ih ha (ho ▸ hm)
    have split : first ++ ',' :: rest ++ blanks ++ ',' :: others =
        first ++ ',' :: (rest ++ blanks ++ ',' :: others) := by simp
    rw [split]
    exact ⟨_, .comma hy hne (ht ▸ hj), by rw [List.map_cons, hp]; rfl⟩

theorem of_join {all : List (Complex A)} (h : YieldsAll nested text branches)
    (blank : ∀ c ∈ blanks, isBlank c = true)
    (hj : YieldsAll nested (text ++ blanks ++ ',' :: others) all) :
    ∃ more, YieldsAll nested (trim others) more := by
  induction h generalizing blanks others all with
  | single hy hne => exact of_comma (hy.append_blank blank) hne hj
  | @comma first rest parts branches hy hne hall ih =>
    obtain ⟨after, others', ha, ho, ht⟩ := hall.trim_behind blank others
    have split : first ++ ',' :: rest ++ blanks ++ ',' :: others =
        first ++ ',' :: (rest ++ blanks ++ ',' :: others) := by simp
    rw [split] at hj
    obtain ⟨more, hm⟩ := of_comma hy hne hj
    rw [ht] at hm
    exact ho ▸ ih ha hm

end YieldsAll

namespace SelectorList

variable {a b : String} {list : SelectorList}

/-- If two texts are read, so are the two with a comma between them, unless the second one ends
within an escape when the blanks at its ends are gone; the branches are those of the first text and
then those of the second one. If the first text is read and the two are with a comma between them,
so is the second one. -/
theorem parse_comma (read : parse a = .ok list) :
    (∀ others, parse b = .ok others →
      ((∃ joined, parse (a ++ "," ++ b) = .ok joined) ↔ endsEscaped (trim b.toList) = false) ∧
      ∀ joined, parse (a ++ "," ++ b) = .ok joined → joined.branches.map (·.parts) =
        list.branches.map (·.parts) ++ others.branches.map (·.parts)) ∧
    ∀ joined, parse (a ++ "," ++ b) = .ok joined → ∃ others, parse b = .ok others := by
  have text : (a ++ "," ++ b).toList = a.toList ++ [] ++ ',' :: b.toList := by simp
  obtain ⟨depth, hd⟩ : ∃ depth, (a ++ "," ++ b).toList.length = depth := ⟨_, rfl⟩
  have deep := hd
  rw [text, List.append_nil, List.length_append, List.length_cons] at deep
  have none_blank : ∀ c ∈ ([] : List Char), isBlank c = true := List.forall_mem_nil _
  have whole (branches : List (Complex SelectorList)) :
      (∃ joined, parse (a ++ "," ++ b) = .ok joined ∧ joined.branches = branches) ↔
        YieldsAll (readListWithin depth) (a.toList ++ [] ++ ',' :: b.toList) branches :=
    text ▸ parse_iff hd.le
  have hall : YieldsAll (readListWithin depth) a.toList list.branches :=
    (parse_iff (by omega)).mp ⟨list, read, rfl⟩
  have second {joined : SelectorList} (hj : parse (a ++ "," ++ b) = .ok joined) :
      ∃ more, YieldsAll (readListWithin depth) (trim b.toList) more :=
    hall.of_join none_blank ((whole _).mp ⟨joined, hj, rfl⟩)
  refine ⟨fun others read' => ?_, fun joined hj => ?_⟩
  · have hb : YieldsAll (readListWithin depth) b.toList others.branches :=
      (parse_iff (by omega)).mp ⟨others, read', rfl⟩
    have both (closed : endsEscaped (trim b.toList) = false) :
        ∃ joined, parse (a ++ "," ++ b) = .ok joined ∧ joined.branches.map (·.parts) =
          list.branches.map (·.parts) ++ others.branches.map (·.parts) := by
      obtain ⟨more, hm, same⟩ := hb.trimmed closed
      obtain ⟨all, hy, hp⟩ := hall.join none_blank hm
      obtain ⟨joined, hj, rfl⟩ := (whole all).mpr hy
      exact ⟨joined, hj, same ▸ hp⟩
    have closed {joined : SelectorList} (hj : parse (a ++ "," ++ b) = .ok joined) :
        endsEscaped (trim b.toList) = false := by
      obtain ⟨more, hm⟩ := second hj
      exact hm.endsEscaped
    refine ⟨⟨fun ⟨joined, hj⟩ => closed hj, fun hc => ?_⟩, fun joined hj => ?_⟩
    · obtain ⟨joined, hj, -⟩ := both hc
      exact ⟨joined, hj⟩
    · obtain ⟨joined', hj', hp⟩ := both (closed hj)
      obtain rfl := Except.ok.inj (hj.symm.trans hj')
      exact hp
  · obtain ⟨more, hm⟩ := second hj
    obtain ⟨others, hb, -⟩ := (parse_iff (by omega)).mpr hm.of_trim
    exact ⟨others, hb⟩

def blankList : SelectorList := .mk "#a\\" [{ parts := [.compound ⟨"#a\\ ", [.id "a "]⟩] }]

theorem parse_comma_headings :
    (∃ joined, parse ("h1, h2" ++ "," ++ " p ") = .ok joined ∧ joined.branches.map (·.parts) =
      [[.compound ⟨"h1", [.tag "h1"]⟩], [.compound ⟨"h2", [.tag "h2"]⟩],
        [.compound ⟨"p", [.tag "p"]⟩]]) ∧
    ¬ ∃ joined, parse ("h1, h2" ++ "," ++ "#a\\ ") = .ok joined := by
  have read : parse "h1, h2" = .ok (.mk "h1, h2" [⟨[.compound ⟨"h1", [.tag "h1"]⟩], some "h2"⟩,
    ⟨[.compound ⟨"h2", [.tag "h2"]⟩], none⟩]) := by cbv
  have read_p : parse " p " = .ok (.mk "p" [⟨[.compound ⟨"p", [.tag "p"]⟩], none⟩]) := by cbv
  have read_blank : parse "#a\\ " = .ok blankList := by cbv
  obtain ⟨⟨exact_p, parts⟩, -⟩ := (parse_comma read).imp_left (fun h => h _ read_p)
  obtain ⟨⟨exact_blank, -⟩, -⟩ := (parse_comma read).imp_left (fun h => h _ read_blank)
  obtain ⟨joined, hj⟩ := exact_p.mpr (by decide +kernel)
  exact ⟨⟨joined, hj, parts joined hj⟩, fun h => absurd (exact_blank.mp h) (by decide +kernel)⟩

/-- Trimming what follows the comma cuts the blank that the backslash takes as it is. -/
theorem comma_cuts_blank :
    parse "p" = .ok (.mk "p" [{ parts := [.compound ⟨"p", [.tag "p"]⟩] }]) ∧
      parse "#a\\ " = .ok blankList ∧
      parse ("p" ++ "," ++ "#a\\ ") = .error (.unterminated "#a\\") := by
  refine ⟨by cbv, by cbv, by cbv⟩

end SelectorList
end SelectorEngine
