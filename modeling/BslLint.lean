import BslLint.Expression.Source
import BslLint.File.Tree
import BslLint.Main
import BslLint.Syntax.Builder
import BslLint.Proofs.Expression.Equality
import BslLint.Proofs.Grammar.Combinators
import BslLint.Proofs.Grammar.Rules
import BslLint.Proofs.Syntax.Preorder
import BslLint.Proofs.Grammar.Coverage
import BslLint.Proofs.Grammar.Derivation
import BslLint.Proofs.Grammar.Reading
import BslLint.Proofs.Grammar.Recognition
import BslLint.Proofs.Token.Cutting
import BslLint.Proofs.Token.Places
import BslLint.Proofs.Syntax.Standing
import BslLint.Proofs.Expression.Members
import BslLint.Proofs.Expression.Resolving
import BslLint.Proofs.Expression.Normal
import BslLint.Proofs.Expression.Printing
import BslLint.Proofs.Expression.Rereading
import BslLint.Proofs.Expression.Shape
import BslLint.Proofs.Expression.Echo
import BslLint.Proofs.Grammar.Constants
import BslLint.Proofs.Expression.LiteralAccess
import BslLint.Proofs.Grammar.Assignment
import BslLint.Proofs.Expression.RoundTrip
import BslLint.Proofs.Expression.Meaning
import BslLint.Proofs.Rule.Redundancy
import BslLint.Proofs.Pass.Isolation
import BslLint.Proofs.Fingerprint.Canonical
import BslLint.Proofs.Grammar.Lookahead
import BslLint.Proofs.Rule.Reformatting
import BslLint.Proofs.Fingerprint.Moving
import BslLint.Proofs.Fingerprint.Grouping
import BslLint.Proofs.Syntax.Acceptance
import BslLint.Proofs.Config.Settings
import BslLint.Proofs.Config.Saving
import BslLint.Proofs.Engine.Batch
import BslLint.Proofs.Expression.Priorities
import BslLint.Proofs.Expression.Conservation
import BslLint.Proofs.Expression.Chains
import BslLint.Proofs.Rule.Uniqueness
import BslLint.Proofs.Grammar.Targets
import BslLint.Proofs.Token.Layout
import BslLint.Proofs.Rule.Threshold
import BslLint.Proofs.Grammar.Declaring
import BslLint.Proofs.Rule.Snippet
import BslLint.Proofs.Text.Encoding
import BslLint.Proofs.Report.Data
import BslLint.Proofs.Engine.Sources
import BslLint.Proofs.Syntax.Building
import BslLint.Proofs.Syntax.Walking
import BslLint.Proofs.Grammar.Termination
