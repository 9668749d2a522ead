import Formulary.Catalog.Listing
import Formulary.Catalog.Load
import Formulary.Formula.Text
import Formulary.Proofs.Catalog.Sound
import Formulary.Proofs.Evaluation.Failures
import Formulary.Proofs.Catalog.Failures
import Formulary.Proofs.Formula.Reaches
import Formulary.Proofs.Evaluation.Success
import Formulary.Proofs.Catalog.Profiles
import Formulary.Proofs.Formula.Shunting
import Formulary.Proofs.Formula.Alternation
import Formulary.Proofs.Evaluation.Agreement
import Formulary.Proofs.Evaluation.Tree
import Formulary.Proofs.Formula.Calls
import Formulary.Proofs.Reprofiling
import Formulary.Proofs.Catalog.Growth
import Formulary.Proofs.Catalog.Loading
import Formulary.Proofs.Catalog.Order
import Formulary.Proofs.Token.Scan
import Formulary.Proofs.Token.Brackets
import Formulary.Proofs.Signature
import Formulary.Proofs.Formula.Rejections
import Formulary.Proofs.Equation.Rejections
import Formulary.Proofs.Catalog.Builtins
import Formulary.Proofs.Catalog.Links
import Formulary.Proofs.Formula.Stripped
import Formulary.Proofs.Catalog.Batches
import Formulary.Proofs.Signature.Grammar
import Formulary.Proofs.Decimal.Nearest
import Formulary.Proofs.Decimal.Numeral
import Formulary.Proofs.Token.Tiling
import Formulary.Proofs.Formula.Spans
import Formulary.Proofs.Token.Spacing
import Formulary.Proofs.Equation.Spacing
import Formulary.Proofs.Evaluation.Depth
import Formulary.Proofs.Formula.Moved
import Formulary.Proofs.Needs
import Formulary.Proofs.Formula.Slots
import Formulary.Proofs.Formula.Places
import Formulary.Proofs.Catalog.Unresolved
import Formulary.Proofs.Catalog.Report
import Formulary.Proofs.Equation.Limit
import Formulary.Proofs.Token.Places
import Formulary.Proofs.Diagnostic
import Formulary.Proofs.Token.Matching
import Formulary.Proofs.Token.Signs
import Formulary.Proofs.Formula.Conservation
import Formulary.Proofs.Evaluation.Numbers
import Formulary.Proofs.Evaluation.Resources
import Formulary.Proofs.Findings
