import CircuitDag.Main
import CircuitDag.Proofs.Circuit.Binding
import CircuitDag.Proofs.Circuit.Composition
import CircuitDag.Proofs.Circuit.CompositionDepth
import CircuitDag.Proofs.Circuit.CycleCheck
import CircuitDag.Proofs.Circuit.Decision
import CircuitDag.Proofs.Circuit.Listing
import CircuitDag.Proofs.Circuit.LongestPaths
import CircuitDag.Proofs.Circuit.Reachable
import CircuitDag.Proofs.Circuit.Renumbering
import CircuitDag.Proofs.Circuit.Rewiring
import CircuitDag.Proofs.Circuit.Undoing
import CircuitDag.Proofs.Description.Acceptance
import CircuitDag.Proofs.Description.Order
import CircuitDag.Proofs.Description.Rebuilding
import CircuitDag.Proofs.Description.RoundTrip
import CircuitDag.Proofs.Graph.Bags
import CircuitDag.Proofs.Param.Evaluation
import CircuitDag.Proofs.ParamTable.Occurrences
import CircuitDag.Proofs.Pass.Deletion
import CircuitDag.Proofs.Pass.EditedDepth
import CircuitDag.Proofs.Pass.Figures
import CircuitDag.Proofs.Pass.FixedPoint
import CircuitDag.Proofs.Pass.Independence
import CircuitDag.Proofs.Pass.Nesting
import CircuitDag.Proofs.Pass.Pipelines
import CircuitDag.Proofs.Pass.Preservation
import CircuitDag.Proofs.Samples.Shapes
