import SelectorEngine.Main
import SelectorEngine.Proofs.Engine.ChildTests
import SelectorEngine.Proofs.Engine.Classes
import SelectorEngine.Proofs.Engine.Containment
import SelectorEngine.Proofs.Engine.Directions
import SelectorEngine.Proofs.Engine.Elements
import SelectorEngine.Proofs.Engine.FastPath
import SelectorEngine.Proofs.Engine.Interleaving
import SelectorEngine.Proofs.Engine.Merging
import SelectorEngine.Proofs.Engine.NameLookup
import SelectorEngine.Proofs.Engine.Negation
import SelectorEngine.Proofs.Engine.Plain
import SelectorEngine.Proofs.Engine.Positional
import SelectorEngine.Proofs.Engine.SeedOrder
import SelectorEngine.Proofs.Engine.Seeds
import SelectorEngine.Proofs.Engine.Stages
import SelectorEngine.Proofs.Engine.Testing
import SelectorEngine.Proofs.Engine.TypeSelectors
import SelectorEngine.Proofs.Engine.Words
import SelectorEngine.Proofs.Matching.InPlace
import SelectorEngine.Proofs.Matching.Slots
import SelectorEngine.Proofs.Matching.Strict
import SelectorEngine.Proofs.Selector.Commas
import SelectorEngine.Proofs.Selector.FixedWidth
import SelectorEngine.Proofs.Selector.FormulaPlaces
import SelectorEngine.Proofs.Selector.Grammar
import SelectorEngine.Proofs.Selector.Sources
import SelectorEngine.Proofs.Tree.Depictions
import SelectorEngine.Proofs.Tree.Iteration
import SelectorEngine.Proofs.Tree.Moving
import SelectorEngine.Proofs.Tree.Positions
import SelectorEngine.Proofs.Tree.Runs
import SelectorEngine.Proofs.Tree.Undoing
import SelectorEngine.Proofs.View.Canonical
import SelectorEngine.Proofs.Warnings
import SelectorEngine.Selector.Display
import SelectorEngine.Warning
