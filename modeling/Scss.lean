import Scss.Main
import Scss.Proofs.Outcome
import Scss.Proofs.Pieces
import Scss.Proofs.Evaluating
import Scss.Proofs.Expanding
import Scss.Proofs.Following
import Scss.Proofs.Code
import Scss.Proofs.Confining
import Scss.Proofs.Parts
import Scss.Proofs.Closure
import Scss.Proofs.Document
import Scss.Proofs.Exactness
import Scss.Proofs.Worklist
import Scss.Proofs.Weaving
import Scss.Proofs.Unifying
import Scss.Proofs.Reordering
import Scss.Proofs.Finiteness
import Scss.Proofs.Kinds
import Scss.Proofs.Naturality
import Scss.Proofs.Agreement
import Scss.Proofs.Traversal
import Scss.Proofs.Evaluated
import Scss.Proofs.Termination
import Scss.Proofs.ContentScope
import Scss.Proofs.PlainCss
import Scss.Proofs.Blocks
import Scss.Proofs.Placement
import Scss.Proofs.Literals
import Scss.Proofs.Testing
import Scss.Proofs.Cleaning
import Scss.Proofs.Importing
import Scss.Proofs.Lexing
import Scss.Proofs.Reading
import Scss.Proofs.Totality
import Scss.Proofs.Containment
import Scss.Proofs.Elimination
import Scss.Proofs.Repetition
import Scss.Proofs.Respelling
import Scss.Proofs.Echoing
import Scss.Proofs.EvaluatingRespelled
import Scss.Proofs.Hyphens
import Scss.Proofs.WellFormed
import Scss.Proofs.Chains
import Scss.Proofs.Lexemes
import Scss.Proofs.Lines
import Scss.Proofs.Phrases
import Scss.Proofs.SelectorText
import Scss.Proofs.Written
import Scss.Proofs.Conjunction
import Scss.Proofs.WritingOrder
import Scss.Proofs.Printed
import Scss.Proofs.Printing
import Scss.Proofs.ReadingPrinted
import Scss.Proofs.Recompiling
import Scss.Proofs.Splitting
import Scss.Proofs.QuotedTests
import Scss.Proofs.Keyframes
import Scss.Proofs.References
import Scss.Proofs.Ampersands
import Scss.Proofs.Spacing
import Scss.Proofs.Grouping
import Scss.Proofs.PassingThrough
import Scss.Proofs.Queries
import Scss.Proofs.VacantFrames
import Scss.Proofs.Bubbling
import Scss.Proofs.Balance
import Scss.Proofs.Binding
import Scss.Proofs.Splats
import Scss.Proofs.Interpreters
import Scss.Proofs.Tiling
import Scss.Proofs.Numerals
import Scss.Proofs.Joining
import Scss.Proofs.Presets
import Scss.Proofs.Settings
import Scss.Proofs.Locations
import Scss.Proofs.Locality
import Scss.Proofs.Rereading
import Scss.Proofs.Recovering
import Scss.Proofs.LookingAhead
import Scss.Proofs.Rebasing
import Scss.Proofs.Counting
import Scss.Proofs.PropertyGroups
