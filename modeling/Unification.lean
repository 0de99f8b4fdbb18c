import Unification.Inference
import Unification.Keys.Numbering
import Unification.Keys.RootOrder
import Unification.Payload.Blank
import Unification.Payload.Label
import Unification.Payload.Number
import Unification.Proofs.Forest.Reachable
import Unification.Proofs.Partition.Refinement
import Unification.Proofs.Snapshot.CommitIfOk
import Unification.Proofs.Snapshot.CopyMachine
import Unification.Session.Inference
import Unification.Session.Store
import Unification.Proofs.Refusal.Conditions
import Unification.Proofs.Refusal.Exactness
import Unification.Proofs.Inference.Calls
import Unification.Proofs.Inference.Speculation
import Unification.Proofs.Inference.Entailment
import Unification.Proofs.Inference.Holds
import Unification.Proofs.Inference.Knowledge
import Unification.Proofs.Inference.Observation
import Unification.Proofs.Inference.Accepted
import Unification.Proofs.Inference.Order
import Unification.Proofs.Forest.LeastKey
import Unification.Proofs.Journal.Regions
import Unification.Proofs.Silent.Runs
import Unification.Proofs.Snapshot.Faults
import Unification.Proofs.Forest.Survivor
import Unification.Proofs.Snapshot.Handles
import Unification.Proofs.Snapshot.NewKeys
import Unification.Proofs.Inference.Representative
import Unification.Proofs.Forest.Searched
import Unification.Proofs.Locality.Commutation
import Unification.Proofs.Inference.Depth
import Unification.Proofs.Forest.Overflow
import Unification.Proofs.Message
