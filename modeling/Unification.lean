import Unification.Node
import Unification.Template
import Unification.Graph.Basic
import Unification.Graph.Binding
import Unification.Graph.Reach
import Unification.Tree.Basic
import Unification.Tree.Text
import Unification.Renaming
import Unification.TypeError
import Unification.Store
import Unification.Outcome
import Unification.Solver
import Unification.Scope
import Unification.Error
import Unification.Config
import Unification.Engine.Basic
import Unification.Engine.Naming
import Unification.Engine.Unify
import Unification.Proofs.Path
import Unification.Proofs.Tree
import Unification.Proofs.WellFormed
import Unification.Proofs.Reading
import Unification.Proofs.Search
import Unification.Proofs.Growth
import Unification.Proofs.Trail
import Unification.Proofs.Renewal
import Unification.Proofs.Run
import Unification.Proofs.Reachable
import Unification.Proofs.Passage
import Unification.Proofs.Acyclicity
import Unification.Proofs.Inheritance
import Unification.Proofs.Unions
import Unification.Proofs.Depth
import Unification.Proofs.Choices
import Unification.Proofs.Narrowing
import Unification.Proofs.Termination
import Unification.Proofs.Shallow
import Unification.Proofs.Divergence
import Unification.Proofs.MostGeneral
import Unification.Proofs.Soundness
import Unification.Proofs.Region
import Unification.Proofs.Operation
import Unification.Proofs.Integrity
import Unification.Proofs.Locality
import Unification.Proofs.Rollback
import Unification.Proofs.Rearrangement
import Unification.Proofs.Renumbering.Basic
import Unification.Proofs.Renumbering.Text
import Unification.Proofs.Renumbering.Store
import Unification.Proofs.Renumbering.Run
import Unification.Proofs.Renumbering.Engine
import Unification.Proofs.Renumbering.Surroundings
import Unification.Proofs.Calls
import Unification.Proofs.OverloadOrder
import Unification.Proofs.StructuralEquality
import Unification.Proofs.Replacement
import Unification.Proofs.JointRenewal
import Unification.Proofs.RoundTrip
import Unification.Proofs.Selection
import Unification.Proofs.Ranking
import Unification.Proofs.Collapse.Tree
import Unification.Proofs.Collapse.Basic
import Unification.Proofs.Collapse.Trials
import Unification.Proofs.Collapse.Run
import Unification.Proofs.Collapse.Copy
import Unification.Proofs.Commitment
import Unification.Proofs.Labelling
import Unification.Proofs.Writing
import Unification.Proofs.Readability
import Unification.Proofs.StagedCalls
import Unification.Proofs.OccursCheck
import Unification.Proofs.Snapshot
import Unification.Proofs.Registration
import Unification.Proofs.Scoping
import Unification.Proofs.Specificity
import Unification.Proofs.Writing
