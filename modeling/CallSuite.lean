import CallSuite.Campaign
import CallSuite.Selection.Greedy
import CallSuite.Proofs.Value.Unique
import CallSuite.Proofs.Value.Spliced
import CallSuite.Proofs.Value.Canonical
import CallSuite.Proofs.Clause.IntRange
import CallSuite.Proofs.Clause.Commute
import CallSuite.Proofs.Clause.Checked
import CallSuite.Proofs.Spec.ReadBack
import CallSuite.Proofs.Spec.Accepted
import CallSuite.Proofs.Spec.DistinctEntries
import CallSuite.Proofs.Spec.Relaid
import CallSuite.Proofs.Spec.RolesApart
import CallSuite.Proofs.Spec.Classified
import CallSuite.Proofs.Exhaustive.Suite
import CallSuite.Proofs.Exhaustive.Binomial
import CallSuite.Proofs.Exhaustive.Choices
import CallSuite.Proofs.Selection.Harmonic
import CallSuite.Proofs.Selection.Recomputed
import CallSuite.Proofs.Tree.Sealed
import CallSuite.Proofs.Binary64.Nearest
import CallSuite.Proofs.Random.Script
import CallSuite.Proofs.Selection.Dominated
import CallSuite.Proofs.Binary64.Denoted
import CallSuite.Proofs.Binary64.Formatted
import CallSuite.Proofs.Clause.Frames
