import Mathlib.Data.List.Infix
import Mathlib.Data.List.Induction
import SelectorEngine.Warning

/-! # Runs of warnings

A log compares warnings by the texts they are shown as. Two warnings are shown as one text if a
closing bracket and a blank stand where the text could be cut in another way. -/
namespace SelectorEngine

inductive WarningCall where
  | give (component message : String)
  | clear
  deriving DecidableEq, Repr

/-- The component of the second warning goes on behind that of the first, and so much of the message
of the first belongs to it. -/
def Overlap (component message component' message' : String) : Prop :=
  ∃ shared, component' = component ++ "] " ++ shared ∧ message = shared ++ "] " ++ message'

def Alike (component message component' message' : String) : Prop :=
  (component = component' ∧ message = message') ∨ Overlap component message component' message' ∨
    Overlap component' message' component message

namespace WarningLog

def call (log : WarningLog) : WarningCall → Option Bool × WarningLog
  | .give component message =>
    (some (log.give component message).1, (log.give component message).2)
  | .clear => (none, log.clear)

def answers (log : WarningLog) : List WarningCall → List (Option Bool)
  | [] => []
  | c :: calls => (log.call c).1 :: answers (log.call c).2 calls

def after (log : WarningLog) (calls : List WarningCall) : WarningLog :=
  calls.foldl (fun log c => (log.call c).2) log

/-- The warning was given, and the log has not been cleared since. -/
def Pending (calls : List WarningCall) (component message : String) : Prop :=
  ∃ before since, calls = before ++ .give component message :: since ∧ .clear ∉ since

variable {calls : List WarningCall} {component message component' message' : String}

theorem line_toList (component message : String) : (line component message).toList =
    '[' :: (component.toList ++ (']' :: ' ' :: message.toList)) := by
  simp [line]

theorem cut_eq_iff {a b c d : List Char} :
    a ++ ']' :: ' ' :: b = c ++ ']' :: ' ' :: d ↔ (a = c ∧ b = d) ∨
      (∃ k, c = a ++ ']' :: ' ' :: k ∧ b = k ++ ']' :: ' ' :: d) ∨
      ∃ k, a = c ++ ']' :: ' ' :: k ∧ d = k ++ ']' :: ' ' :: b := by
  -- The first part `a` of one text is the shorter one. What it lacks is not a single character, as
  -- the mark consists of two different ones.
  have longer : ∀ {a b c d : List Char},
      (∃ k, c = a ++ k ∧ ']' :: ' ' :: b = k ++ ']' :: ' ' :: d) →
      (a = c ∧ b = d) ∨ ∃ k, c = a ++ ']' :: ' ' :: k ∧ b = k ++ ']' :: ' ' :: d := by
    rintro a b c d ⟨k, rfl, hk⟩
    match k with
    | [] => exact .inl (by simpa using hk)
    | [x] => simp at hk
    | x :: y :: k =>
      simp only [List.cons_append, List.cons.injEq] at hk
      obtain ⟨rfl, rfl, rfl⟩ := hk
      exact .inr ⟨k, rfl, rfl⟩
  constructor
  · intro h
    rcases List.append_eq_append_iff.mp h with hc | ha
    · exact (longer hc).imp_right .inl
    · rcases longer (b := d) (d := b) ha with ⟨rfl, rfl⟩ | hk
      · exact .inl ⟨rfl, rfl⟩
      · exact .inr (.inr hk)
  · rintro (⟨rfl, rfl⟩ | ⟨k, rfl, rfl⟩ | ⟨k, rfl, rfl⟩) <;> simp

theorem overlap_iff : Overlap component message component' message' ↔
    ∃ k, component'.toList = component.toList ++ ']' :: ' ' :: k ∧
      message.toList = k ++ ']' :: ' ' :: message'.toList := by
  constructor
  · rintro ⟨shared, rfl, rfl⟩
    exact ⟨shared.toList, by simp, by simp⟩
  · rintro ⟨k, hc, hm⟩
    refine ⟨String.ofList k, ?_, ?_⟩ <;> rw [← String.toList_inj]
    · simpa using hc
    · simpa using hm

theorem line_eq_iff :
    line component message = line component' message' ↔
      Alike component message component' message' := by
  rw [← String.toList_inj, line_toList, line_toList, List.cons.injEq, cut_eq_iff, Alike,
    overlap_iff, overlap_iff, String.toList_inj, String.toList_inj]
  exact and_iff_right rfl

theorem alike_iff_eq (plain : ¬ "] ".toList <:+: component.toList)
    (plain' : ¬ "] ".toList <:+: component'.toList) :
    Alike component message component' message' ↔ component = component' ∧ message = message' := by
  have apart : ∀ {c m c' m' : String}, ¬ "] ".toList <:+: c'.toList → ¬ Overlap c m c' m' := by
    rintro c m c' m' h ⟨shared, rfl, -⟩
    exact h ⟨c.toList, shared.toList, by simp⟩
  rw [Alike, or_iff_left]
  rintro (h | h)
  · exact apart plain' h
  · exact apart plain h

theorem pending_concat {c : WarningCall} :
    Pending (calls ++ [c]) component message ↔
      (Pending calls component message ∧ c ≠ .clear) ∨ c = .give component message := by
  constructor
  · rintro ⟨before, since, he, hs⟩
    rcases List.eq_nil_or_concat since with rfl | ⟨since, last, rfl⟩
    · obtain ⟨-, h⟩ := List.append_inj' he rfl
      exact .inr (List.singleton_inj.mp h)
    · rw [List.concat_eq_append, ← List.cons_append, ← List.append_assoc] at he
      obtain ⟨rfl, h⟩ := List.append_inj' he rfl
      obtain rfl := List.singleton_inj.mp h
      rw [List.concat_eq_append, List.mem_append, not_or, List.mem_singleton] at hs
      exact .inl ⟨⟨before, since, rfl, hs.1⟩, Ne.symm hs.2⟩
  · rintro (⟨⟨before, since, rfl, hs⟩, hc⟩ | rfl)
    · exact ⟨before, since ++ [c], by simp, by simp [hs, Ne.symm hc]⟩
    · exact ⟨calls, [], rfl, List.not_mem_nil⟩

theorem mem_given_give (log : WarningLog) (text : String) :
    text ∈ (log.give component message).2.given ↔
      text ∈ log.given ∨ text = line component message := by
  rw [give]
  cases h : log.isFresh component message with
  | true => simp [or_comm]
  | false =>
    have known : line component message ∈ log.given := by simpa [isFresh] using h
    simp only [Bool.false_eq_true, if_false, iff_self_or]
    exact fun he => he ▸ known

theorem mem_given_after (text : String) :
    text ∈ (after {} calls).given ↔
      ∃ component message, Pending calls component message ∧ line component message = text := by
  induction calls using List.reverseRecOn with
  | nil => simp [after, Pending]
  | append_singleton calls c ih =>
    rw [after, List.foldl_concat, ← after]
    cases c with
    | give component message =>
      simp only [call, mem_given_give, ih, pending_concat, or_and_right, exists_or]
      refine or_congr (by simp) ⟨?_, ?_⟩
      · rintro rfl
        exact ⟨component, message, rfl, rfl⟩
      · rintro ⟨c, m, he, rfl⟩
        cases he
        rfl
    | clear => simp [call, clear, pending_concat]

theorem isFresh_after : (after {} calls).isFresh component message = true ↔
    ∀ component' message', Pending calls component' message' →
      ¬ Alike component message component' message' := by
  have known : (after {} calls).isFresh component message = true ↔
      line component message ∉ (after {} calls).given := by simp [isFresh]
  rw [known, mem_given_after]
  simp only [← line_eq_iff, not_exists, not_and]
  exact forall₂_congr fun c m => forall_congr' fun _ => not_congr eq_comm

theorem answers_getElem? (log : WarningLog) (calls : List WarningCall) (i : Nat) :
    (log.answers calls)[i]? = calls[i]?.map fun c => ((log.after (calls.take i)).call c).1 := by
  induction calls generalizing log i with
  | nil => simp [answers]
  | cons c calls ih =>
    cases i with
    | zero => rfl
    | succ i => simpa [answers, after] using ih (log.call c).2 i

theorem give_fst (log : WarningLog) (component message : String) :
    (log.give component message).1 = log.isFresh component message := by
  rw [give]
  cases log.isFresh component message <;> rfl

/-- A warning is answered as fresh exactly if no warning that was given since the log was last
cleared is shown as the same text. Without a closing bracket and a blank behind it in a component,
only the same warning is. -/
theorem answers_fresh {i : Nat} (asked : calls[i]? = some (.give component message)) :
    ∃ fresh, (answers {} calls)[i]? = some (some fresh) ∧
      (fresh = true ↔ ∀ component' message', Pending (calls.take i) component' message' →
        ¬ Alike component message component' message') ∧
      ((∀ c m, .give c m ∈ calls → ¬ "] ".toList <:+: c.toList) →
        (fresh = true ↔ ¬ Pending (calls.take i) component message)) := by
  refine ⟨(after {} (calls.take i)).isFresh component message, ?_, isFresh_after, fun plain => ?_⟩
  · rw [answers_getElem?, asked, Option.map_some, call, give_fst]
  · have earlier : ∀ {c m}, Pending (calls.take i) c m → WarningCall.give c m ∈ calls := by
      rintro c m ⟨before, since, he, -⟩
      exact List.mem_of_mem_take (i := i) (by simp [he])
    rw [isFresh_after]
    constructor
    · exact fun unlike hp => unlike component message hp (.inl ⟨rfl, rfl⟩)
    · intro new c m hp alike
      obtain ⟨rfl, rfl⟩ := (alike_iff_eq (plain _ _ (List.mem_of_getElem? asked))
        (plain _ _ (earlier hp))).mp alike
      exact new hp

def repeated : List WarningCall :=
  [.give "select" "slow", .give "select" "slow", .give "dom" "slow", .clear, .give "select" "slow"]

theorem answers_fresh_repeated :
    (answers {} repeated)[4]? = some (some true) ∧ ¬ Pending (repeated.take 4) "select" "slow" := by
  have asked : repeated[4]? = some (.give "select" "slow") := rfl
  obtain ⟨fresh, answered, -, told⟩ := answers_fresh asked
  have plain : ∀ c m, .give c m ∈ repeated → ¬ "] ".toList <:+: c.toList := by
    intro c m hm
    simp only [repeated, List.mem_cons, WarningCall.give.injEq, reduceCtorEq, List.not_mem_nil,
      or_false, false_or] at hm
    rcases hm with ⟨rfl, -⟩ | ⟨rfl, -⟩ | ⟨rfl, -⟩ | ⟨rfl, -⟩ <;> decide
  have again : (answers {} repeated)[4]? = some (some true) := by decide
  rw [again] at answered
  cases answered
  exact ⟨again, (told plain).mp rfl⟩

example : answers {} repeated = [some true, some false, some true, none, some true] := by decide

/-- The second of two different warnings is not given: both are shown as `[a] b] c`. -/
theorem warnings_confused :
    ¬ ∀ (calls : List WarningCall) (i : Nat) (component message : String),
      calls[i]? = some (.give component message) →
        ((answers {} calls)[i]? = some (some true) ↔
          ¬ Pending (calls.take i) component message) := by
  intro claim
  have new : ¬ Pending [.give "a] b" "c"] "a" "b] c" := by
    rw [← List.nil_append [WarningCall.give "a] b" "c"], pending_concat]
    rintro (⟨⟨before, since, he, -⟩, -⟩ | he)
    · simp at he
    · exact absurd he (by decide)
  have answer : (answers {} [.give "a] b" "c", .give "a" "b] c"])[1]? =
      some (some false) := by decide
  have given := (claim [.give "a] b" "c", .give "a" "b] c"] 1 "a" "b] c" rfl).mpr new
  rw [answer] at given
  cases given

end WarningLog
end SelectorEngine
