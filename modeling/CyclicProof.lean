import CyclicProof.Checker
import CyclicProof.Config.File
import CyclicProof.Config.Path
import CyclicProof.Proposition.Nameless
import CyclicProof.Search.Session
import CyclicProof.Workbench
import CyclicProof.Proofs.Outcome
import CyclicProof.Proofs.Trace.StationaryCycle
import CyclicProof.Proofs.Trace.Components
import CyclicProof.Proofs.Trace.Condition
import CyclicProof.Proofs.Derivation.Tree
import CyclicProof.Proofs.Derivation.Verification
import CyclicProof.Proofs.Record.Acceptance
import CyclicProof.Proofs.Semantics.Soundness
import CyclicProof.Proofs.Derivation.Built
import CyclicProof.Proofs.Consistency.Opposition
import CyclicProof.Proofs.Consistency.Cycles
import CyclicProof.Proofs.Nameless.Roles
import CyclicProof.Proofs.Proposition.Exhaustion
import CyclicProof.Proofs.Proposition.Regularity
import CyclicProof.Proofs.Proposition.Unfolding
import CyclicProof.Proofs.Rule.BoundNames
import CyclicProof.Proofs.Derivation.Growth
import CyclicProof.Proofs.Derivation.Operations
import CyclicProof.Proofs.Workbench
import CyclicProof.Proofs.Derivation.Segments
import CyclicProof.Proofs.Derivation.Creation
import CyclicProof.Proofs.Workbench.Effects
import CyclicProof.Proofs.Workbench.Rollback
import CyclicProof.Proofs.Search.Branches
import CyclicProof.Proofs.Search.Computations
import CyclicProof.Proofs.Search.DepthBound
import CyclicProof.Proofs.Record.RoundTrip
import CyclicProof.Proofs.Rule.Premises
import CyclicProof.Proofs.Search.Alternatives
import CyclicProof.Proofs.Search.Totality
import CyclicProof.Search.Crew
import CyclicProof.Proofs.Search.Turns
import CyclicProof.Proofs.Search.Parallel
import CyclicProof.Proofs.Derivation.Acceptance
import CyclicProof.Proofs.Workbench.Products
import CyclicProof.Proofs.Workbench.Representation
import CyclicProof.Proofs.Workbench.Identifiers
import CyclicProof.Proofs.Derivation.Guardedness
import CyclicProof.Proofs.Proposition.Digest
import CyclicProof.Proofs.Proposition.Renaming
import CyclicProof.Proofs.Proposition.AppliedHeads
import CyclicProof.Proofs.Proposition.InverseRenaming
import CyclicProof.Proofs.NameSupply
import CyclicProof.Proofs.Json.Layouts
import CyclicProof.Proofs.Proposition.Json
import CyclicProof.Proofs.Record.Json
import CyclicProof.Proofs.Record.Reading
import CyclicProof.Proofs.Formation
import CyclicProof.Proofs.Search.Applicability
import CyclicProof.Proofs.Search.WitnessTuples
import CyclicProof.Proofs.Search.Calls
import CyclicProof.Proofs.Search.Attempts
import CyclicProof.Proofs.Search.Agreement
import CyclicProof.Proofs.Search.OtherLookups
import CyclicProof.Proofs.Search.Lookup
