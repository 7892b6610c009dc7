import UtilityCss.Main
import UtilityCss.Proofs.ClassName
import UtilityCss.Proofs.Sheet.Reachable
import UtilityCss.Proofs.Sheet.Refinement
import UtilityCss.Proofs.Sheet.Unresolved
import UtilityCss.Proofs.Sheet.Minified
import UtilityCss.Proofs.Sheet.Outline
import UtilityCss.Proofs.Sheet.Selector
import UtilityCss.Proofs.Sheet.Hoisting
import UtilityCss.Proofs.Sheet.Growth
import UtilityCss.Proofs.Reports
import UtilityCss.Proofs.Number.Scale
import UtilityCss.Proofs.Number.Finite
import UtilityCss.Proofs.Utility.Reader
import UtilityCss.Proofs.Utility.Shorthand
import UtilityCss.Proofs.Utility.Sign
import UtilityCss.Proofs.Utility.Tidy
import UtilityCss.Proofs.Utility.NegativeZero
import UtilityCss.Proofs.Source.Group
import UtilityCss.Proofs.Source.Attribute
import UtilityCss.Proofs.Source.Written
import UtilityCss.Proofs.Cursor.Progress
import UtilityCss.Proofs.Standard
import UtilityCss.Proofs.Outcome
import UtilityCss.Proofs.Rebuild
import UtilityCss.Proofs.OutputDirectory
import UtilityCss.Proofs.Build
import UtilityCss.Proofs.Listing
import UtilityCss.Proofs.Watch
