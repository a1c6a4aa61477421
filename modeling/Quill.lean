import Quill.Eval.Fuel
import Quill.Main
import Quill.Proofs.Effects
import Quill.Proofs.Formatting
import Quill.Proofs.Grammar
import Quill.Proofs.RoundTrip
import Quill.Proofs.Tokenization
import Quill.Proofs.Frames
import Quill.Proofs.Visibility
import Quill.Proofs.Concatenation
import Quill.Proofs.Scripts
import Quill.Proofs.ErrorPosition
import Quill.Proofs.FreeNames
import Quill.Proofs.Blocks
import Quill.Proofs.Invariants
import Quill.Proofs.Origins
import Quill.Proofs.Quotes
import Quill.Proofs.Output
import Quill.Proofs.Sessions
import Quill.Proofs.Comparison
import Quill.Proofs.Bindings
import Quill.Proofs.Lines
import Quill.Proofs.Expressions
import Quill.Proofs.Transparency
import Quill.Proofs.FaultLines
import Quill.Proofs.Trimming
import Quill.Proofs.Histories
import Quill.Proofs.Listing
import Quill.Proofs.Purity
import Quill.Proofs.Spacing
import Quill.Proofs.FirstLines
import Quill.Proofs.IntegerTexts
import Quill.Proofs.Descent
