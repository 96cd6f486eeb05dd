import LambdaCalculus.Term.Printer
import LambdaCalculus.Term.Substitution
import LambdaCalculus.Term.Nameless
import LambdaCalculus.Text.Basic
import LambdaCalculus.Text.Lines
import LambdaCalculus.Source.Parser
import LambdaCalculus.Reduction.Evaluator
import LambdaCalculus.Church.Encodings
import LambdaCalculus.Shell.Basic
import LambdaCalculus.Main
import LambdaCalculus.Proofs.Substitution
import LambdaCalculus.Proofs.Reduction.NormalForm
import LambdaCalculus.Proofs.Session.Resolution
import LambdaCalculus.Proofs.Reduction.AlphaInvariance
import LambdaCalculus.Proofs.Source.RoundTrip
import LambdaCalculus.Proofs.Source.ViablePrefix
import LambdaCalculus.Proofs.Nameless.Numeral
import LambdaCalculus.Proofs.Reduction.Composition
import LambdaCalculus.Proofs.Reduction.Faults
import LambdaCalculus.Proofs.Church.Arithmetic
import LambdaCalculus.Proofs.Church.Encodings
import LambdaCalculus.Proofs.Church.ApplicativeOrder
import LambdaCalculus.Proofs.Shell.Procedure
import LambdaCalculus.Proofs.Source.Identifiers
import LambdaCalculus.Proofs.Shell.Command
import LambdaCalculus.Proofs.Shell.Readable
import LambdaCalculus.Proofs.Shell.Frame
import LambdaCalculus.Proofs.Program.Run
import LambdaCalculus.Proofs.Shell.Stepping
import LambdaCalculus.Proofs.Reduction.FreeVariables
import LambdaCalculus.Proofs.Church.Lists
import LambdaCalculus.Proofs.Session.ClosedDefinitions
import LambdaCalculus.Proofs.Church.Booleans
import LambdaCalculus.Proofs.Source.Tiling
import LambdaCalculus.Proofs.Source.StrayCharacter
import LambdaCalculus.Proofs.Fresh
import LambdaCalculus.Proofs.Nesting
import LambdaCalculus.Proofs.Program.Continuation
