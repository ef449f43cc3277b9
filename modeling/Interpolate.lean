import Interpolate.Expr.Octets
import Interpolate.Host.Memory
import Interpolate.Main
import Interpolate.Program
import Interpolate.Proofs.Text
import Interpolate.Proofs.Placeholder
import Interpolate.Proofs.Template
import Interpolate.Proofs.Rewriting
import Interpolate.Proofs.Resolution
import Interpolate.Proofs.Expansion
import Interpolate.Proofs.Grammar
import Interpolate.Proofs.Reading
import Interpolate.Proofs.FilterTokens
import Interpolate.Proofs.FilterParts
import Interpolate.Proofs.Lexing
import Interpolate.Proofs.Nodes
import Interpolate.Proofs.Filtering
import Interpolate.Proofs.Isolation
import Interpolate.Proofs.Word
import Interpolate.Proofs.Exact
import Interpolate.Proofs.Spelling
import Interpolate.Proofs.Printing
import Interpolate.Proofs.Evaluation
import Interpolate.Proofs.Splicing
import Interpolate.Proofs.Session
import Interpolate.Proofs.Composition
import Interpolate.Proofs.ReadBack
import Interpolate.Proofs.Line
import Interpolate.Proofs.Loading
import Interpolate.Proofs.CommandLine
import Interpolate.Proofs.Program
import Interpolate.Proofs.History
import Interpolate.Proofs.Transcript
import Interpolate.Proofs.LoadFaults
import Interpolate.Proofs.Environment
import Interpolate.Proofs.Literals
import Interpolate.Proofs.Admission
import Interpolate.Proofs.Pass
import Interpolate.Proofs.Surroundings
import Interpolate.Proofs.Machine
import Interpolate.Proofs.Trace
import Interpolate.Proofs.Remainder
import Interpolate.Proofs.Power
import Interpolate.Proofs.Divisor
import Interpolate.Proofs.TruthValues
import Interpolate.Proofs.Separation
import Interpolate.Proofs.Conjunction
import Interpolate.Proofs.Grouping
import Interpolate.Proofs.KnownNames
import Interpolate.Proofs.Arity
import Interpolate.Proofs.Spacing
import Interpolate.Proofs.Names
import Interpolate.Proofs.Utf8
import Interpolate.Proofs.Octets
