import Bitpack.Build.Run
import Bitpack.Main
import Bitpack.Proofs.Field
import Bitpack.Proofs.Arithmetic
import Bitpack.Proofs.Execution
import Bitpack.Proofs.Slots
import Bitpack.Proofs.FirstFit
import Bitpack.Proofs.Packing
import Bitpack.Proofs.Storage
import Bitpack.Proofs.Postfix
import Bitpack.Proofs.Climbing
import Bitpack.Proofs.WellFormed
import Bitpack.Proofs.Reading
import Bitpack.Proofs.Meaning
import Bitpack.Proofs.Variables
import Bitpack.Proofs.Lowering
import Bitpack.Proofs.Calls
import Bitpack.Proofs.Evaluation
import Bitpack.Proofs.Assignment
import Bitpack.Proofs.Bodies
import Bitpack.Proofs.Bounds
import Bitpack.Proofs.Arguments
import Bitpack.Proofs.Supply
import Bitpack.Proofs.Grammar
import Bitpack.Proofs.Headings
import Bitpack.Proofs.Statements
import Bitpack.Proofs.Acceptance
import Bitpack.Proofs.Language
import Bitpack.Proofs.Located
import Bitpack.Proofs.Whereabouts
import Bitpack.Proofs.Fatal
import Bitpack.Proofs.Scoping
import Bitpack.Proofs.Relocation
import Bitpack.Proofs.Rereading
import Bitpack.Proofs.Places
import Bitpack.Proofs.Items
import Bitpack.Proofs.Tiling
import Bitpack.Proofs.Lines
import Bitpack.Proofs.Reports
import Bitpack.Proofs.Newlines
import Bitpack.Proofs.Positions
import Bitpack.Proofs.Spelling
import Bitpack.Proofs.Symbols
import Bitpack.Proofs.Runs
import Bitpack.Proofs.Objects
import Bitpack.Proofs.Linking
import Bitpack.Proofs.Alike
import Bitpack.Proofs.Layout
import Bitpack.Proofs.Parts
import Bitpack.Proofs.Acts
import Bitpack.Proofs.Emission
import Bitpack.Proofs.Declarations
import Bitpack.Proofs.Order
import Bitpack.Proofs.Divisors
import Bitpack.Proofs.Folding
import Bitpack.Proofs.Identifiers
import Bitpack.Proofs.Literals
import Bitpack.Proofs.Decreasing
import Bitpack.Proofs.Quality
import Bitpack.Proofs.Reordering
import Bitpack.Proofs.Recognition
import Bitpack.Proofs.Targets
import Bitpack.Proofs.Conservation
import Bitpack.Proofs.Reservations
import Bitpack.Proofs.Markers
import Bitpack.Proofs.Walks
import Bitpack.Proofs.Formulas
import Bitpack.Proofs.Synchronization
import Bitpack.Proofs.Recovery
import Bitpack.Proofs.Progress
import Bitpack.Proofs.Overflow
