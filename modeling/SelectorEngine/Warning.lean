/-!
# Warnings that are given once

A warning is known by the text it is shown as. It is fresh until it has been given, and again
after the log has been cleared.
-/
namespace SelectorEngine

structure WarningLog where
  given : List String := []
  deriving DecidableEq, Repr

namespace WarningLog

def line (component message : String) : String := "[" ++ component ++ "] " ++ message

def isFresh (log : WarningLog) (component message : String) : Bool :=
  !log.given.contains (line component message)

/-- Gives a warning: whether it was fresh, and the log in which it no longer is. -/
def give (log : WarningLog) (component message : String) : Bool × WarningLog :=
  if log.isFresh component message then (true, ⟨line component message :: log.given⟩)
  else (false, log)

def clear (_ : WarningLog) : WarningLog := {}

end WarningLog
end SelectorEngine
