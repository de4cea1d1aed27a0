import SelectorEngine.Matching.NodeTest

/-! # Words of a list

A word can be looked for between the separators of a text, or as a text between spaces. Both find
the same words, as long as the separators are the characters that count as spaces. -/
namespace SelectorEngine.Text

variable {cut cut' : Char → Bool} {c : Char} {text word : List Char}

theorem exists_pieces (cut : Char → Bool) (text : List Char) :
    ∃ first others, pieces cut text = first :: others := by
  induction text with
  | nil => exact ⟨[], [], rfl⟩
  | cons c text ih =>
    obtain ⟨first, others, h⟩ := ih
    rw [pieces, h]
    split
    · exact ⟨_, _, rfl⟩
    · exact ⟨_, _, rfl⟩

theorem pieces_cut (h : cut c = true) : pieces cut (c :: text) = [] :: pieces cut text := if_pos h

theorem pieces_keep {first : List Char} {others : List (List Char)} (h : cut c = false)
    (hp : pieces cut text = first :: others) : pieces cut (c :: text) = (c :: first) :: others := by
  rw [pieces, h, hp]
  rfl

theorem pieces_congr (h : ∀ c ∈ text, cut c = cut' c) : pieces cut text = pieces cut' text := by
  induction text with
  | nil => rfl
  | cons c text ih =>
    obtain ⟨hc, htext⟩ := List.forall_mem_cons.mp h
    rw [pieces, pieces, hc, ih htext]

theorem pieces_map {f : Char → Char} (cuts : ∀ c, cut' (f c) = cut c)
    (keeps : ∀ c, cut c = false → f c = c) : pieces cut' (text.map f) = pieces cut text := by
  induction text with
  | nil => rfl
  | cons c text ih =>
    rw [List.map_cons]
    cases h : cut c with
    | true => rw [pieces_cut h, pieces_cut ((cuts c).trans h), ih]
    | false =>
      obtain ⟨first, others, hp⟩ := exists_pieces cut text
      rw [pieces_keep h hp, keeps c h]
      exact pieces_keep ((keeps c h ▸ cuts c).trans h) (ih.trans hp)

/-- A piece in which there is nothing more to cut stays a piece. The first one is told apart from
the others, since what stands before a further cut becomes the new first one. -/
theorem finer_pieces (finer : ∀ c, cut c = true → cut' c = true)
    (free : ∀ c ∈ word, cut' c = false) :
    ((pieces cut text).head? = some word → (pieces cut' text).head? = some word) ∧
      (word ∈ (pieces cut text).tail → word ∈ (pieces cut' text).tail) := by
  induction text generalizing word with
  | nil => exact ⟨id, id⟩
  | cons c text ih =>
    obtain ⟨first, others, hp⟩ := exists_pieces cut text
    obtain ⟨first', others', hp'⟩ := exists_pieces cut' text
    simp only [hp, hp', List.head?_cons, List.tail_cons, Option.some.injEq] at ih
    -- Where only the finer cut parts the text, a first word would contain the character it parts
    -- at.
    cases h' : cut' c with
    | true =>
      rw [pieces_cut h', hp']
      cases h : cut c with
      | true =>
        rw [pieces_cut h, hp]
        refine ⟨id, fun hm => ?_⟩
        rcases List.mem_cons.mp hm with rfl | hm
        · exact List.mem_cons.mpr (.inl ((ih free).1 rfl).symm)
        · exact List.mem_cons_of_mem _ ((ih free).2 hm)
      | false =>
        rw [pieces_keep h hp]
        refine ⟨fun hw => ?_, fun hm => List.mem_cons_of_mem _ ((ih free).2 hm)⟩
        obtain rfl := Option.some.inj hw
        rw [free c List.mem_cons_self] at h'
        cases h'
    | false =>
      have h : cut c = false := by
        cases h : cut c with
        | false => rfl
        | true => exact (finer c h).symm.trans h'
      rw [pieces_keep h hp, pieces_keep h' hp']
      refine ⟨fun hw => ?_, (ih free).2⟩
      obtain rfl := Option.some.inj hw
      rw [(ih (List.forall_mem_cons.mp free).2).1 rfl]
      rfl

theorem mem_finer_pieces (finer : ∀ c, cut c = true → cut' c = true)
    (free : ∀ c ∈ word, cut' c = false) (h : word ∈ pieces cut text) : word ∈ pieces cut' text := by
  obtain ⟨first, others, hp⟩ := exists_pieces cut text
  obtain ⟨first', others', hp'⟩ := exists_pieces cut' text
  have hf : ((pieces cut text).head? = some word → (pieces cut' text).head? = some word) ∧
      (word ∈ (pieces cut text).tail → word ∈ (pieces cut' text).tail) := finer_pieces finer free
  simp only [hp, hp', List.head?_cons, List.tail_cons, Option.some.injEq] at hf
  rw [hp] at h
  rw [hp']
  rcases List.mem_cons.mp h with rfl | h
  · exact List.mem_cons.mpr (.inl (hf.1 rfl).symm)
  · exact List.mem_cons_of_mem _ (hf.2 h)

/-- What a finer cut leaves whole, no coarser one parts. -/
theorem free_of_finer (finer : ∀ c, cut c = true → cut' c = true)
    (free : ∀ c ∈ word, cut' c = false) :
    ∀ c ∈ word, cut c = false := by
  intro c hc
  rw [Bool.eq_false_iff]
  intro hcut
  exact Bool.false_ne_true ((free c hc).symm.trans (finer c hcut))

theorem pieces_space (free : ' ' ∉ word) :
    (word ++ [' '] <+: text ++ [' '] ↔ (pieces (· == ' ') text).head? = some word) ∧
      (padded word <:+: text ++ [' '] ↔ word ∈ (pieces (· == ' ') text).tail) := by
  -- The first piece and those behind a space need each other: behind a space a first piece starts.
  induction text generalizing word with
  | nil =>
    cases word <;> simp [pieces, padded, List.infix_cons_iff, List.prefix_cons_iff]
  | cons c text ih =>
    obtain ⟨first, others, hp⟩ := exists_pieces (· == ' ') text
    simp only [hp, List.head?_cons, List.tail_cons, Option.some.injEq] at ih
    by_cases hc : c = ' '
    · subst hc
      rw [pieces_cut (by rfl), hp]
      constructor
      · cases word with
        | nil => simp
        | cons d word =>
          have hd : d ≠ ' ' := fun he => free (he ▸ List.mem_cons_self)
          simp [hd]
      · simp only [padded, List.cons_append, List.infix_cons_iff, List.cons_prefix_cons, true_and,
          List.tail_cons, List.mem_cons]
        have ih' := ih free
        simp only [padded, List.cons_append] at ih'
        rw [ih'.1, ih'.2, eq_comm]
    · have hk : pieces (· == ' ') (c :: text) = (c :: first) :: others :=
        pieces_keep (beq_eq_false_iff_ne.mpr hc) hp
      rw [hk]
      constructor
      · cases word with
        | nil => simp [Ne.symm hc]
        | cons d word =>
          have ih' := (ih (fun h => free (List.mem_cons_of_mem _ h))).1
          simp only [List.cons_append, List.cons_prefix_cons, ih', List.head?_cons,
            Option.some.injEq, List.cons.injEq]
          exact and_congr_left' eq_comm
      · have ih' := (ih free).2
        simp only [padded, List.cons_append] at ih'
        simp only [padded, List.cons_append, List.infix_cons_iff, List.cons_prefix_cons, ih',
          Ne.symm hc, false_and, false_or, List.tail_cons]

theorem padded_infix_iff (free : ' ' ∉ word) :
    padded word <:+: padded text ↔ word ∈ pieces (· == ' ') text := by
  obtain ⟨first, others, hp⟩ := exists_pieces (· == ' ') text
  have h : (word ++ [' '] <+: text ++ [' '] ↔ (pieces (· == ' ') text).head? = some word) ∧
      (padded word <:+: text ++ [' '] ↔ word ∈ (pieces (· == ' ') text).tail) := pieces_space free
  simp only [hp, List.head?_cons, List.tail_cons, Option.some.injEq] at h
  rw [hp, List.mem_cons, ← h.2, eq_comm, ← h.1]
  simp only [padded, List.cons_append, List.infix_cons_iff, List.cons_prefix_cons, true_and]

def isSpacing (c : Char) : Bool := c == ' ' || c == '\t' || c == '\n' || c == '\r'

theorem isSeparator_of_isSpacing (c : Char) (h : isSpacing c = true) : isSeparator c = true := by
  unfold isSpacing at h
  rw [isSeparator, h, Bool.true_or]

theorem isBlank_of_isSeparator (c : Char) (h : isSeparator c = true) : isBlank c = true := by
  simp only [isSeparator, Bool.or_eq_true, beq_iff_eq] at h
  rcases h with (((rfl | rfl) | rfl) | rfl) | rfl <;> rfl

theorem isSeparator_eq (h : c ≠ '\x0c') : isSeparator c = isSpacing c := by
  have hc : (c == '\x0c') = false := beq_eq_false_iff_ne.mpr h
  rw [isSeparator, hc, Bool.or_false, isSpacing]

theorem not_mem_of_free (free : ∀ c ∈ word, isSeparator c = false) : ' ' ∉ word := by
  intro h
  have hs := free ' ' h
  revert hs
  decide

theorem mem_words_iff (hne : word ≠ []) : word ∈ words text ↔ word ∈ pieces isSeparator text := by
  simp [words, hne]

theorem words_of_free (hne : word ≠ []) (free : ∀ c ∈ word, isSeparator c = false) :
    words word = [word] := by
  have single : pieces isSeparator word = [word] := by
    clear hne
    induction word with
    | nil => rfl
    | cons c word ih =>
      obtain ⟨hc, hword⟩ := List.forall_mem_cons.mp free
      exact pieces_keep hc (ih hword)
  rw [words, single]
  simp [hne]

end SelectorEngine.Text
