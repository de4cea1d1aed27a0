/-!
# Searching text

Whether one text stands in another, which `occursIn_iff` says in terms of infixes.
-/
namespace SelectorEngine.Text

def occursIn (needle : List Char) : List Char → Bool
  | [] => needle.isEmpty
  | c :: rest => needle.isPrefixOf (c :: rest) || occursIn needle rest

theorem occursIn_iff {needle text : List Char} :
    occursIn needle text = true ↔ needle <:+: text := by
  induction text with
  | nil => simp [occursIn, List.infix_nil]
  | cons c rest ih => simp [occursIn, ih, List.infix_cons_iff]

end SelectorEngine.Text
