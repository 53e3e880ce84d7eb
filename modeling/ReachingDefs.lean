import ReachingDefs.Analysis.Report
import ReachingDefs.Format.Options
import ReachingDefs.Format.Text
import ReachingDefs.Proofs.Convergence
import ReachingDefs.Proofs.Precision
import ReachingDefs.Proofs.Erasure
import ReachingDefs.Proofs.Growth
import ReachingDefs.Proofs.Rest
import ReachingDefs.Proofs.Chains
import ReachingDefs.Proofs.EdgeOrder
import ReachingDefs.Proofs.Tarjan
import ReachingDefs.Proofs.Inert
import ReachingDefs.Proofs.Dead
import ReachingDefs.Proofs.Coverage
import ReachingDefs.Proofs.DeadStores
import ReachingDefs.Proofs.Refusal
import ReachingDefs.Proofs.Address
import ReachingDefs.Proofs.Trees
import ReachingDefs.Proofs.Regular
import ReachingDefs.Proofs.Transfer
import ReachingDefs.Proofs.StoreMap
import ReachingDefs.Proofs.Construction
import ReachingDefs.Proofs.Join
import ReachingDefs.Proofs.RoundTrip
import ReachingDefs.Proofs.Unambiguous
