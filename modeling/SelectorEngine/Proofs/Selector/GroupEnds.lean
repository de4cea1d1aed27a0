import SelectorEngine.Proofs.Selector.Groups

/-!
# Where a group ends

A group ends at the bracket that closes it, it meets a closing bracket of the other kind first, or
the text ends inside it. What has been read of a group is described by what would complete it: one
character keeps that description, and a whole scan keeps it too, so the three ends are told from the
text alone.
-/
namespace SelectorEngine
open Text

namespace Bracket

def opening : Bracket → Char
  | round => '('
  | square => '['

def other : Bracket → Bracket
  | round => square
  | square => round

def entry : Bracket → Mode
  | round => .opened
  | square => .plain

theorem opening_first (b : Bracket) : isBlank b.opening = false ∧ isQuote b.opening = false := by
  cases b <;> decide

theorem closing_first (b : Bracket) : isBlank b.closing = false ∧ isQuote b.closing = false := by
  cases b <;> decide

theorem advancePlain_opening (k b : Bracket) (outer : List Bracket) :
    Nesting.advancePlain (b :: outer) k.opening = some ⟨k :: b :: outer, k.entry⟩ := by
  cases k <;> rfl

theorem advancePlain_closing (b : Bracket) (outer : List Bracket) :
    Nesting.advancePlain (b :: outer) b.closing = some ⟨outer, .plain⟩ := by
  cases b <;> rfl

theorem advancePlain_wrong (b : Bracket) (outer : List Bracket) :
    Nesting.advancePlain (b :: outer) b.other.closing = none := by
  cases b <;> rfl

theorem inside_eq (b : Bracket) : Nesting.inside b = ⟨[b], b.entry⟩ := by
  cases b <;> rfl

end Bracket

theorem Lead.of_first {c : Char} {rest : List Char} (blank : isBlank c = false)
    (quote : isQuote c = false) : Lead [] (c :: rest) := by
  refine .none ?_
  rw [skipBlank_cons blank]
  rintro d hd
  obtain rfl := Option.some.inj hd
  exact quote

theorem Scans.of_append {n m : Nesting} {text piece : List Char} (h : Scans n (text ++ piece) m) :
    ∃ k, Scans n text k := by
  induction text generalizing n with
  | nil => exact ⟨n, .nil⟩
  | cons c text ih =>
    cases h with
    | cons ha inside h =>
      obtain ⟨k, hk⟩ := ih h
      exact ⟨k, .cons ha inside hk⟩

namespace Bracketed

def IsContent : Bracket → List Char → Prop
  | .round, text => IsArgument text
  | .square, text => Balanced .square text

/-- The text leads from behind an opening bracket to a place directly inside the bracket `inner`,
which may be the first one or stand deeper. -/
inductive Within (b : Bracket) : List Char → (inner : Bracket) → Prop where
  | outermost {text} : IsContent b text → Within b text b
  | deeper {front outer inner text} : Within b front outer → IsContent inner text →
      Within b (front ++ inner.opening :: text) inner

/-- How a text ends the group that it starts in, and what reading the group comes to. -/
inductive Verdict (b : Bracket) : List Char → Except Fault (List Char × List Char) → Prop where
  | closed {content rest} : IsContent b content →
      Verdict b (content ++ b.closing :: rest) (.ok (content, rest))
  | wrong {front inner rest} : Within b front inner →
      Verdict b (front ++ inner.other.closing :: rest) (.error .unrecognized)
  | unfinished {text more} : IsContent b (text ++ more) → Verdict b text (.error .unterminated)

/-- The text goes up to the closing bracket, from a place where the next character is taken in the
given way. -/
inductive Completes (b : Bracket) : Mode → List Char → Prop where
  | plain {text} : Balanced b text → Completes b .plain text
  | opened {text} : IsContent b text → Completes b .opened text
  | quoted {quote inner content text} : Quotes quote inner content → Balanced b text →
      Completes b (.quoted quote) (inner ++ quote :: text)
  | escaped {c text} : Balanced b text → Completes b (.escaped none) (c :: text)
  | escapedIn {quote c text} : Completes b (.quoted quote) text →
      Completes b (.escaped (some quote)) (c :: text)

def Begins (b : Bracket) (mode : Mode) (text : List Char) : Prop :=
  ∀ rest, Completes b mode rest → IsContent b (text ++ rest)

/-- The text has been read since the bracket `b` was opened, and this is the nesting behind it. -/
inductive Reached (b : Bracket) : List Char → Nesting → Prop where
  | outermost {text mode} : Begins b mode text → Reached b text ⟨[b], mode⟩
  | deeper {front k outer mode inner text next} : Reached b front ⟨k :: outer, mode⟩ →
      mode = .plain ∨ mode = .opened → Begins inner next text →
      Reached b (front ++ inner.opening :: text) ⟨inner :: k :: outer, next⟩

inductive Stepped (b : Bracket) (text : List Char) (c : Char) : Option Nesting → Prop where
  | wrong {inner} : Within b text inner → c = inner.other.closing → Stepped b text c none
  | closed : IsContent b text → c = b.closing → Stepped b text c (some ⟨[], .plain⟩)
  | inside {next} : Reached b (text ++ [c]) next → Stepped b text c (some next)

/-- What a character between brackets does, if nothing in front of it takes it in a way of its
own. -/
inductive Takes (b : Bracket) (outer : List Bracket) : Char → Option Nesting → Prop where
  | escape : Takes b outer '\\' (some ⟨b :: outer, .escaped none⟩)
  | quote {c} : isQuote c = true → b = .square → Takes b outer c (some ⟨b :: outer, .quoted c⟩)
  | opening (k : Bracket) : Takes b outer k.opening (some ⟨k :: b :: outer, k.entry⟩)
  | closing : Takes b outer b.closing (some ⟨outer, .plain⟩)
  | wrong : Takes b outer b.other.closing none
  | ordinary {c} : b.isOrdinary c = true → Takes b outer c (some ⟨b :: outer, .plain⟩)

variable {b k inner : Bracket} {outer : List Bracket} {n m : Nesting} {mode next : Mode} {c : Char}
  {text piece rest content : List Char} {result : Except Fault (List Char × List Char)}

theorem advancePlain_takes : Takes b outer c (Nesting.advancePlain (b :: outer) c) := by
  by_cases escape : c = '\\'
  · subst escape
    exact .escape
  by_cases quoted : isQuote c = true ∧ b = .square
  · obtain ⟨hq, rfl⟩ := quoted
    have opens : Nesting.advancePlain (.square :: outer) c =
        some ⟨.square :: outer, .quoted c⟩ := by
      simp [Nesting.advancePlain, escape, hq]
    rw [opens]
    exact .quote hq rfl
  by_cases round : c = '('
  · subst round
    exact .opening .round
  by_cases square : c = '['
  · subst square
    exact .opening .square
  by_cases closes : c = b.closing
  · subst closes
    cases b <;> exact .closing
  by_cases wrong : c = b.other.closing
  · subst wrong
    cases b <;> exact .wrong
  have ordinary : b.isOrdinary c = true := by
    cases b <;> simp_all [Bracket.isOrdinary, Bracket.closing, Bracket.other]
  rw [advancePlain_ordinary ordinary]
  exact .ordinary ordinary

theorem advance_between (hm : mode = .plain ∨ mode = .opened)
    (first : isBlank c = false ∧ isQuote c = false) :
    Nesting.advance ⟨b :: outer, mode⟩ c = Nesting.advancePlain (b :: outer) c := by
  rcases hm with rfl | rfl
  · rfl
  · exact advance_opened first.1 first.2

theorem IsContent.of_balanced (h : Balanced b (c :: rest))
    (first : isBlank c = false ∧ isQuote c = false) : IsContent b (c :: rest) := by
  cases b with
  | round => exact ⟨[], c :: rest, .of_first first.1 first.2, h, rfl⟩
  | square => exact h

theorem IsContent.blank (hc : isBlank c = true) (h : IsContent b rest) :
    IsContent b (c :: rest) := by
  have ordinary (b : Bracket) : b.isOrdinary c = true := isOrdinary_of_class (by decide) hc
  cases b with
  | square => exact .char (ordinary .square) h
  | round =>
    obtain ⟨lead, inner, hl, hi, rfl⟩ := h
    cases hl with
    | none quote =>
      refine ⟨[], c :: inner, .none ?_, .char (ordinary .round) hi, rfl⟩
      rw [show skipBlank (c :: inner) = skipBlank inner from List.dropWhile_cons_of_pos hc]
      exact quote
    | @string blanks quote text content _ blank hq hs =>
      have blank : ∀ d ∈ c :: blanks, isBlank d = true := List.forall_mem_cons.mpr ⟨hc, blank⟩
      exact ⟨_, inner, .string blank hq hs, hi, by simp⟩

theorem IsContent.string (hq : isQuote c = true) (h : Completes b (.quoted c) rest) :
    IsContent b (c :: rest) := by
  cases h with
  | @quoted _ inner content text hs ht =>
    cases b with
    | square => exact .string hq hs ht
    | round =>
      have lead : Lead ([] ++ c :: (inner ++ [c])) text := .string nofun hq hs
      exact ⟨_, text, lead, ht, by simp⟩

theorem IsContent.group (h : IsContent inner text) (hr : Balanced b rest) :
    Balanced b (inner.opening :: (text ++ inner.closing :: rest)) := by
  cases inner with
  | square => exact .square h hr
  | round =>
    obtain ⟨lead, inside, hl, hi, rfl⟩ := h
    rw [List.append_assoc]
    exact .round hl hi hr

namespace Completes

theorem nil (hm : mode = .plain ∨ mode = .opened) : Completes b mode [] := by
  rcases hm with rfl | rfl
  · exact .plain .nil
  · cases b with
    | square => exact .opened Balanced.nil
    | round => exact .opened ⟨[], [], .none nofun, .nil, rfl⟩

theorem cons (hm : mode = .plain ∨ mode = .opened)
    (first : mode = .opened → isBlank c = false ∧ isQuote c = false) (h : Balanced b (c :: rest)) :
    Completes b mode (c :: rest) := by
  rcases hm with rfl | rfl
  · exact .plain h
  · exact .opened (.of_balanced h (first rfl))

theorem quoted_cons {quote : Char} (hc : c ≠ quote) (escape : c ≠ '\\')
    (h : Completes b (.quoted quote) rest) : Completes b (.quoted quote) (c :: rest) := by
  cases h with
  | quoted hs ht => exact .quoted (.char hc escape hs) ht

theorem quoted_escape {quote : Char} (h : Completes b (.escaped (some quote)) rest) :
    Completes b (.quoted quote) ('\\' :: rest) := by
  cases h with
  | escapedIn h =>
    cases h with
    | quoted hs ht => exact .quoted (.escape hs) ht

/-- Every text that has been read of a group can be completed. -/
theorem exists_piece (b : Bracket) (mode : Mode) :
    ∃ piece, ∀ rest, Balanced b rest → Completes b mode (piece ++ rest) := by
  have letter : b.isOrdinary 'a' = true := by cases b <;> decide
  cases mode with
  | plain => exact ⟨[], fun rest h => .plain h⟩
  | opened => exact ⟨['a'], fun rest h => .cons (.inr rfl) (fun _ => by decide) (.char letter h)⟩
  | quoted quote => exact ⟨[quote], fun rest h => .quoted .nil h⟩
  | escaped quote =>
    cases quote with
    | none => exact ⟨['a'], fun rest h => .escaped h⟩
    | some quote => exact ⟨['a', quote], fun rest h => .escapedIn (.quoted .nil h)⟩

end Completes

theorem Begins.nil (b : Bracket) : Begins b b.entry [] := by
  intro rest h
  rw [List.nil_append]
  cases b with
  | round =>
    cases h with
    | opened h => exact h
  | square =>
    cases h with
    | plain h => exact h

theorem Begins.isContent (h : Begins b mode text) (hm : mode = .plain ∨ mode = .opened) :
    IsContent b text := by
  have content := h [] (.nil hm)
  rwa [List.append_nil] at content

namespace Reached

theorem start (b : Bracket) : Reached b [] (.inside b) := by
  rw [b.inside_eq]
  exact .outermost (.nil b)

theorem inside (h : Reached b text n) : n.brackets ≠ [] := by
  cases h with
  | outermost => exact List.cons_ne_nil b []
  | deeper => exact List.cons_ne_nil _ _

theorem alone (h : Reached b text ⟨[k], mode⟩) : k = b ∧ Begins b mode text := by
  cases h with
  | outermost h => exact ⟨rfl, h⟩

theorem extend (h : Reached b text ⟨k :: outer, mode⟩)
    (completes : ∀ rest, Completes k next rest → Completes k mode (piece ++ rest)) :
    Reached b (text ++ piece) ⟨k :: outer, next⟩ := by
  have begins {text : List Char} (h : Begins k mode text) : Begins k next (text ++ piece) := by
    intro rest hr
    rw [List.append_assoc]
    exact h _ (completes rest hr)
  cases h with
  | outermost h => exact .outermost (begins h)
  | deeper h hm ht =>
    rw [List.append_assoc, List.cons_append]
    exact .deeper h hm (begins ht)

theorem within (h : Reached b text ⟨k :: outer, mode⟩) (hm : mode = .plain ∨ mode = .opened) :
    Within b text k := by
  generalize hn : (⟨k :: outer, mode⟩ : Nesting) = n at h
  induction h generalizing k outer mode with
  | outermost h =>
    cases hn
    exact .outermost (h.isContent hm)
  | deeper _ before ht ih =>
    cases hn
    exact .deeper (ih before rfl) (ht.isContent hm)

theorem close (h : Reached b text ⟨inner :: k :: outer, mode⟩)
    (hm : mode = .plain ∨ mode = .opened) :
    Reached b (text ++ [inner.closing]) ⟨k :: outer, .plain⟩ := by
  cases h with
  | @deeper front _ _ _ _ text _ h before ht =>
    rw [List.append_assoc]
    refine h.extend fun rest hr => ?_
    cases hr with
    | plain hr =>
      have group := (ht.isContent hm).group hr
      rw [List.cons_append, List.cons_append, List.append_assoc]
      exact .cons before (fun _ => inner.opening_first) group

theorem between (h : Reached b text ⟨k :: outer, mode⟩) (hm : mode = .plain ∨ mode = .opened)
    (first : mode = .opened → isBlank c = false ∧ isQuote c = false) :
    Stepped b text c (Nesting.advancePlain (k :: outer) c) := by
  have taken : Takes k outer c (Nesting.advancePlain (k :: outer) c) := advancePlain_takes
  generalize Nesting.advancePlain (k :: outer) c = after at taken
  cases taken with
  | escape =>
    refine .inside (h.extend fun rest hr => ?_)
    cases hr with
    | escaped hr => exact .cons hm first (.escape hr)
  | quote hq hk =>
    subst hk
    refine .inside (h.extend fun rest hr => ?_)
    cases hr with
    | quoted hs hr => exact .cons hm first (.string hq hs hr)
  | opening inner => exact .inside (.deeper h hm (.nil inner))
  | closing =>
    -- The bracket closes the group if no other one is open around it.
    cases outer with
    | cons => exact .inside (h.close hm)
    | nil =>
      obtain ⟨rfl, begins⟩ := h.alone
      exact .closed (begins.isContent hm) rfl
  | wrong => exact .wrong (h.within hm) rfl
  | ordinary hc =>
    refine .inside (h.extend fun rest hr => ?_)
    cases hr with
    | plain hr => exact .cons hm first (.char hc hr)

/-- One more character keeps what is known of the text, closes the group or is the wrong bracket. -/
theorem step (h : Reached b text n) (c : Char) : Stepped b text c (n.advance c) := by
  obtain ⟨brackets, mode⟩ := n
  obtain ⟨k, outer, rfl⟩ := List.exists_cons_of_ne_nil h.inside
  -- What is still needed behind `c` is what was needed in front of it, without `c`.
  cases mode with
  | plain => exact h.between (.inl rfl) nofun
  | opened =>
    by_cases blank : isBlank c = true
    · rw [advance_skips blank]
      refine .inside (h.extend fun rest hr => ?_)
      cases hr with
      | opened hr => exact .opened (hr.blank blank)
    rw [Bool.not_eq_true] at blank
    by_cases quote : isQuote c = true
    · have opens : Nesting.advance ⟨k :: outer, .opened⟩ c = some ⟨k :: outer, .quoted c⟩ := by
        simp [Nesting.advance, blank, quote]
      rw [opens]
      exact .inside (h.extend fun rest hr => .opened (.string quote hr))
    · rw [Bool.not_eq_true] at quote
      rw [advance_opened blank quote]
      exact h.between (.inr rfl) fun _ => ⟨blank, quote⟩
  | quoted quote =>
    by_cases escape : c = '\\'
    · subst escape
      exact .inside (h.extend fun rest hr => .quoted_escape hr)
    by_cases closes : c = quote
    · subst closes
      have after : Nesting.advance ⟨k :: outer, .quoted c⟩ c = some ⟨k :: outer, .plain⟩ := by
        simp [Nesting.advance, escape]
      rw [after]
      refine .inside (h.extend fun rest hr => ?_)
      cases hr with
      | plain hr => exact .quoted .nil hr
    · have stays : Nesting.advance ⟨k :: outer, .quoted quote⟩ c =
          some ⟨k :: outer, .quoted quote⟩ := by
        simp [Nesting.advance, escape, closes]
      rw [stays]
      exact .inside (h.extend fun rest hr => .quoted_cons closes escape hr)
  | escaped quote =>
    cases quote with
    | none =>
      refine .inside (h.extend fun rest hr => ?_)
      cases hr with
      | plain hr => exact .escaped hr
    | some quote => exact .inside (h.extend fun rest hr => .escapedIn hr)

theorem exists_content (h : Reached b text n) : ∃ more, IsContent b (text ++ more) := by
  obtain ⟨brackets, mode⟩ := n
  -- By induction on the open brackets: what is begun is finished, and the innermost one is closed.
  induction brackets generalizing text mode with
  | nil => exact absurd rfl h.inside
  | cons k outer ih =>
    obtain ⟨piece, completes⟩ := Completes.exists_piece k mode
    have plain : Reached b (text ++ piece) ⟨k :: outer, .plain⟩ := by
      refine h.extend fun rest hr => ?_
      cases hr with
      | plain hr => exact completes rest hr
    cases outer with
    | nil =>
      obtain ⟨rfl, begins⟩ := plain.alone
      exact ⟨piece, begins.isContent (.inl rfl)⟩
    | cons l outer =>
      obtain ⟨more, hmore⟩ := ih .plain (plain.close (.inl rfl))
      rw [List.append_assoc, List.append_assoc] at hmore
      exact ⟨_, hmore⟩

theorem verdict (h : Reached b text n) (rest : List Char) :
    Verdict b (text ++ rest)
      ((scanGroup n rest).map fun (content, tail) => (text ++ content, tail)) := by
  induction rest generalizing text n with
  | nil =>
    obtain ⟨more, hmore⟩ := h.exists_content
    rw [List.append_nil]
    exact .unfinished hmore
  | cons c rest ih =>
    have stepped := h.step c
    rw [scanGroup]
    cases ha : n.advance c with
    | none =>
      rw [ha] at stepped
      cases stepped with
      | wrong hw hc =>
        subst hc
        exact .wrong hw
    | some next =>
      rw [ha] at stepped
      cases stepped with
      | closed content hc =>
        subst hc
        have closed : Verdict b (text ++ b.closing :: rest) (.ok (text, rest)) := .closed content
        simpa [Except.map] using closed
      | inside hr =>
        have inside : next.brackets ≠ [] := hr.inside
        have goes_on := ih hr
        rw [List.append_assoc, List.singleton_append] at goes_on
        simp only [List.isEmpty_iff, inside, if_false]
        cases hs : scanGroup next rest with
        | error fault =>
          rw [hs] at goes_on
          exact goes_on
        | ok found =>
          rw [hs] at goes_on
          simpa [Except.map] using goes_on

end Reached

theorem IsContent.scans (h : IsContent b text) (outer : List Bracket) :
    ∃ mode, (mode = .plain ∨ mode = .opened) ∧
      Scans ⟨b :: outer, b.entry⟩ text ⟨b :: outer, mode⟩ := by
  cases b with
  | square => exact ⟨.plain, .inl rfl, .balanced h outer⟩
  | round =>
    obtain ⟨lead, inner, hl, hi, rfl⟩ := h
    exact Scans.of_lead hl (.balanced hi outer)

theorem Within.scans (h : Within b text inner) :
    ∃ outer mode, (mode = .plain ∨ mode = .opened) ∧
      Scans (.inside b) text ⟨inner :: outer, mode⟩ := by
  rw [b.inside_eq]
  induction h with
  | outermost h =>
    obtain ⟨mode, hm, hs⟩ := h.scans []
    exact ⟨[], mode, hm, hs⟩
  | @deeper front k inner text _ ht ih =>
    obtain ⟨outer, mode, hm, hs⟩ := ih
    obtain ⟨next, hn, hi⟩ := ht.scans (k :: outer)
    have opens : Nesting.advance ⟨k :: outer, mode⟩ inner.opening =
        some ⟨inner :: k :: outer, inner.entry⟩ := by
      rw [advance_between hm inner.opening_first, inner.advancePlain_opening]
    exact ⟨k :: outer, next, hn, hs.append (.cons opens (List.cons_ne_nil _ _) hi)⟩

theorem Verdict.readGroup_eq (h : Verdict b text result) : readGroup b text = result := by
  rw [readGroup]
  cases h with
  | @closed content rest h =>
    obtain ⟨mode, hm, hs⟩ := h.scans []
    rw [b.inside_eq, hs.scanGroup, scanGroup, advance_between hm b.closing_first,
      b.advancePlain_closing]
    simp [Except.map]
  | @wrong front inner rest h =>
    obtain ⟨outer, mode, hm, hs⟩ := h.scans
    rw [hs.scanGroup, scanGroup, advance_between hm inner.other.closing_first,
      inner.advancePlain_wrong]
    rfl
  | unfinished h =>
    obtain ⟨mode, -, hs⟩ := h.scans []
    obtain ⟨k, hk⟩ := hs.of_append
    have unfinished := hk.scanGroup []
    rw [List.append_nil] at unfinished
    rw [b.inside_eq, unfinished]
    rfl

end Bracketed

open Bracketed

variable {b : Bracket} {text rest content : List Char}
  {result : Except Fault (List Char × List Char)}

theorem readGroup_iff : readGroup b text = result ↔ Verdict b text result := by
  constructor
  · rintro rfl
    have verdict := (Reached.start b).verdict text
    rw [List.nil_append] at verdict
    rw [readGroup]
    cases h : scanGroup (.inside b) text <;> rw [h] at verdict <;> exact verdict
  · exact Verdict.readGroup_eq

theorem readGroup_eq_ok_iff : readGroup b text = .ok (content, rest) ↔
    IsContent b content ∧ text = content ++ b.closing :: rest := by
  rw [readGroup_iff]
  constructor
  · intro h
    cases h with
    | closed h => exact ⟨h, rfl⟩
  · rintro ⟨h, rfl⟩
    exact .closed h

theorem readGroup_round_iff : readGroup .round text = .ok (content, rest) ↔
    IsArgument content ∧ text = content ++ ')' :: rest := readGroup_eq_ok_iff

example : readGroup .round "don't) p".toList = .ok ("don't".toList, " p".toList) ∧
    readGroup .square "don't] p".toList = .error .unterminated := by decide

theorem readGroup_unterminated_iff :
    readGroup b text = .error .unterminated ↔ ∃ more, IsContent b (text ++ more) := by
  rw [readGroup_iff]
  constructor
  · intro h
    cases h with
    | unfinished h => exact ⟨_, h⟩
  · rintro ⟨more, h⟩
    exact .unfinished h

theorem readGroup_unrecognized_iff : readGroup b text = .error .unrecognized ↔
    ∃ front inner rest, Within b front inner ∧ text = front ++ inner.other.closing :: rest := by
  rw [readGroup_iff]
  constructor
  · intro h
    cases h with
    | wrong h => exact ⟨_, _, _, h, rfl⟩
  · rintro ⟨front, inner, rest, h, rfl⟩
    exact .wrong h

theorem exists_end (b : Bracket) (text : List Char) :
    (∃ content rest, IsContent b content ∧ text = content ++ b.closing :: rest) ∨
    (∃ more, IsContent b (text ++ more)) ∨
    ∃ front inner rest, Within b front inner ∧ text = front ++ inner.other.closing :: rest := by
  cases h : readGroup b text with
  | ok found => exact .inl ⟨found.1, found.2, readGroup_eq_ok_iff.mp h⟩
  | error fault =>
    cases fault with
    | unterminated => exact .inr (.inl (readGroup_unterminated_iff.mp h))
    | unrecognized => exact .inr (.inr (readGroup_unrecognized_iff.mp h))

/-- A group is read exactly up to the bracket that closes it. There is one content that it can have,
and what is left of the text is what stands behind the closing bracket. A text that has no such
content ends inside the group, or a closing bracket of the wrong kind stands in it first, and the
fault says which. -/
theorem readGroup_exact (b : Bracket) (text : List Char) :
    (∀ content rest, readGroup b text = .ok (content, rest) ↔
      IsContent b content ∧ text = content ++ b.closing :: rest) ∧
    (∀ content rest content' rest',
      IsContent b content → text = content ++ b.closing :: rest →
      IsContent b content' → text = content' ++ b.closing :: rest' →
      content = content' ∧ rest = rest') ∧
    ((¬ ∃ content rest, IsContent b content ∧ text = content ++ b.closing :: rest) →
      readGroup b text = .error .unterminated ∨ readGroup b text = .error .unrecognized) ∧
    (readGroup b text = .error .unterminated ↔ ∃ more, IsContent b (text ++ more)) ∧
    (readGroup b text = .error .unrecognized ↔
      ∃ front inner rest, Within b front inner ∧ text = front ++ inner.other.closing :: rest) := by
  refine ⟨fun content rest => readGroup_eq_ok_iff, ?unique, ?fails, readGroup_unterminated_iff,
    readGroup_unrecognized_iff⟩
  case unique =>
    intro content rest content' rest' h ht h' ht'
    have read := readGroup_eq_ok_iff.mpr ⟨h, ht⟩
    have read' := readGroup_eq_ok_iff.mpr ⟨h', ht'⟩
    exact Prod.mk.inj (Except.ok.inj (read.symm.trans read'))
  case fails =>
    intro unclosed
    rcases exists_end b text with closed | unfinished | wrong
    · exact absurd closed unclosed
    · exact .inl (readGroup_unterminated_iff.mpr unfinished)
    · exact .inr (readGroup_unrecognized_iff.mpr wrong)

end SelectorEngine
