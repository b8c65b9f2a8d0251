import Treewalk.Plan.Routine
import Treewalk.Text.CharClass
import Treewalk.Number.Style
import Treewalk.Token.Cursor
import Treewalk.Diagnostic
import Treewalk.Token.Scan
import Treewalk.Tree.Text
import Treewalk.Tree.Outline
import Treewalk.Evaluation.Rules
import Treewalk.Grammar.Statement
import Treewalk.Text.Utf8
import Treewalk.Main
import Treewalk.Proofs.Evaluation.Control
import Treewalk.Proofs.Evaluation.TwoRuns
import Treewalk.Proofs.Evaluation.Likeness
import Treewalk.Proofs.Evaluation.Reach
import Treewalk.Proofs.Plan.Budget
import Treewalk.Proofs.Grammar.Derivation
import Treewalk.Proofs.Grammar.Reading
import Treewalk.Proofs.Grammar.Soundness
import Treewalk.Proofs.Grammar.Completeness
import Treewalk.Proofs.Grammar.Acceptance
import Treewalk.Proofs.Grammar.Progress
import Treewalk.Proofs.Number.Bits
import Treewalk.Proofs.Number.ReadBack
import Treewalk.Proofs.Token.Cursor
import Treewalk.Proofs.Token.Unbuffered
import Treewalk.Proofs.Token.Lexeme
import Treewalk.Proofs.Token.Munch
import Treewalk.Proofs.Token.Layout
import Treewalk.Proofs.Evaluation.Erased
import Treewalk.Proofs.Grammar.Written
import Treewalk.Proofs.Script.ReadBack
import Treewalk.Proofs.Token.Concatenation
import Treewalk.Proofs.Evaluation.Relabelled
import Treewalk.Proofs.Evaluation.Heritage
import Treewalk.Proofs.Evaluation.Sequence
import Treewalk.Proofs.Tree.Places
import Treewalk.Proofs.Evaluation.Origin
import Treewalk.Proofs.Grammar.Concatenation
import Treewalk.Proofs.Evaluation.Moved
import Treewalk.Proofs.Evaluation.Operators
import Treewalk.Proofs.Grammar.Operators
import Treewalk.Proofs.Script.Sequence
import Treewalk.Proofs.Evaluation.Frames
import Treewalk.Proofs.Script.Run
import Treewalk.Proofs.Script.Operation
import Treewalk.Proofs.Plan.Break
import Treewalk.Proofs.Evaluation.Truncation
import Treewalk.Proofs.Script.Truncation
import Treewalk.Proofs.Grammar.TwoReadings
import Treewalk.Proofs.Script.Layout
import Treewalk.Proofs.Script.Unreachable
import Treewalk.Proofs.Evaluation.Assembly
import Treewalk.Proofs.Evaluation.Output
import Treewalk.Proofs.Script.Declarations
import Treewalk.Proofs.Script.Pointing
import Treewalk.Proofs.Script.Gate
import Treewalk.Proofs.Evaluation.Termination
import Treewalk.Proofs.Evaluation.Depth
import Treewalk.Proofs.CommandLine.Prompt
import Treewalk.Proofs.Script.Renaming
import Treewalk.Proofs.Grammar.FirstFailure
import Treewalk.Proofs.Evaluation.Lookup
import Treewalk.Proofs.Grammar.Segments
import Treewalk.Proofs.Grammar.Isolation
import Treewalk.Proofs.Plan.History
import Treewalk.Proofs.Evaluation.Register
import Treewalk.Proofs.Evaluation.Copies
import Treewalk.Proofs.Script.Identity
import Treewalk.Proofs.Token.Distribution
import Treewalk.Proofs.Sink
import Treewalk.Proofs.Tree.Outline
import Treewalk.Proofs.Grammar.Lowering
import Treewalk.Proofs.Tree.Forms
import Treewalk.Proofs.Tree.Spelling
import Treewalk.Proofs.Script.Outline
import Treewalk.Proofs.Token.Spacing
import Treewalk.Proofs.Grammar.Limits
import Treewalk.Proofs.Script.Numbers
import Treewalk.Proofs.Token.Recorder
import Treewalk.Proofs.Token.Window
