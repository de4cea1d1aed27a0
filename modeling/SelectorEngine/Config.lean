/-!
# Configuration of the engine

Each switch allows a shorter way to the same answers. All are on by default.
-/
namespace SelectorEngine

structure Config where
  /-- Ask the delegate before anything is read. -/
  nativeQuery : Bool := true
  classLookup : Bool := true
  nameLookup : Bool := true
  deriving DecidableEq, Repr

def Config.allOff : Config := ⟨false, false, false⟩

end SelectorEngine
