import Comparability.Declaration.Classification
import Comparability.Main
import Comparability.Proofs.TypeExpr.Grammar
import Comparability.Proofs.TypeExpr.Account
import Comparability.Proofs.TypeExpr.Language
import Comparability.Proofs.TypeExpr.Invariant
import Comparability.Proofs.TypeExpr.Correspondence
import Comparability.Proofs.TypeExpr.Tree
import Comparability.Proofs.TypeExpr.Substitution
import Comparability.Proofs.TypeExpr.Opening
import Comparability.Proofs.TypeExpr.Lookup
import Comparability.Proofs.TypeExpr.ClosedForm
import Comparability.Proofs.TypeExpr.Inertness
import Comparability.Proofs.TypeExpr.Failing
import Comparability.Proofs.TypeExpr.Excerpt
import Comparability.Proofs.Names.Table
import Comparability.Proofs.TypeExpr.BareLeaf
import Comparability.Proofs.Capability
import Comparability.Proofs.Names.Promise
import Comparability.Proofs.Session
import Comparability.Proofs.Diagnostic
import Comparability.Proofs.Declaration.Member
import Comparability.Proofs.Declaration.Accounting
import Comparability.Proofs.Declaration.Independence
import Comparability.Proofs.Text.Search
import Comparability.Proofs.Declaration.Location
import Comparability.Proofs.Matcher
import Comparability.Proofs.Declaration.Growth
import Comparability.Proofs.Text.Blank
import Comparability.Proofs.TypeExpr.Remainder
import Comparability.Proofs.TypeExpr.LookAhead
import Comparability.Proofs.TypeExpr.Following
import Comparability.Proofs.TypeExpr.Squeezing
import Comparability.Proofs.Text.Pieces
import Comparability.Proofs.Names.Constraint
import Comparability.Proofs.Config.Options
import Comparability.Proofs.Text.Lines
import Comparability.Proofs.CommandLine.ExpressionFile
import Comparability.Proofs.CommandLine.Run
