import Plexus.Main
import Plexus.Proofs.Graph.Deletion
import Plexus.Proofs.Graph.HopCount
import Plexus.Proofs.Graph.Refused
import Plexus.Proofs.Graph.Scan
import Plexus.Proofs.Interned
import Plexus.Proofs.Mirrored
import Plexus.Proofs.Operator.Bindings
import Plexus.Proofs.Operator.Exhausted
import Plexus.Proofs.Operator.Filters
import Plexus.Proofs.Operator.Pulls
import Plexus.Proofs.Operator.Reset
import Plexus.Proofs.Operator.Retried
import Plexus.Proofs.Operator.SingleHop
import Plexus.Proofs.Operator.Sorted
import Plexus.Proofs.PairSet
import Plexus.Proofs.Plan.Correct
import Plexus.Proofs.Plan.Faults
import Plexus.Proofs.Plan.Indices
import Plexus.Proofs.Plan.Ordered
import Plexus.Proofs.Plan.Outline
import Plexus.Proofs.Plan.Paged
import Plexus.Proofs.Plan.Placement
import Plexus.Proofs.Plan.Settings
import Plexus.Proofs.Query.Sameness
import Plexus.Proofs.Query.Unbound
import Plexus.Proofs.Slots
import Plexus.Proofs.Snapshot.Arbitrary
import Plexus.Proofs.Snapshot.Damage
import Plexus.Proofs.Snapshot.Layout
import Plexus.Proofs.Snapshot.Reload
