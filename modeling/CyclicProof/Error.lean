import CyclicProof.Derivation.Ids
import CyclicProof.Rule.Basic

/-!
# Errors of the proof kernel

Each error names its cause with the data that belongs to it; the wording is given by `message`
and nowhere else. `ProofError.isBranchLocal` singles out the errors that only say that one step
does not fit one goal, which a search answers by trying something else.
-/

namespace CyclicProof

/-- Why a rule does not fit a goal, or a recorded step does not fit the rule. -/
inductive RuleFault where
  /-- The side that the rule acts on is not this connective. -/
  | expectedConnective (kind : ConnectiveKind)
  /-- There is no operand with the chosen number. -/
  | choiceOutOfRange (choice : UInt64) (count : Nat)
  /-- The connective has no operand. -/
  | noOperand (kind : ConnectiveKind)
  /-- The side that the rule acts on is not this quantifier. -/
  | expectedQuantifier (kind : QuantifierKind)
  /-- The side that the rule acts on is not this fixpoint. -/
  | expectedFixpoint (kind : FixpointKind)
  /-- A constant was given as an eigenvariable. -/
  | constantEigenvariable (name : Name)
  /-- An eigenvariable was given twice. -/
  | repeatedEigenvariable (name : Name)
  /-- An eigenvariable is free in the goal. -/
  | occurringEigenvariable (name : Name)
  /-- There are not as many witnesses as bound variables. -/
  | witnessCount (given bound : Nat)
  /-- A greatest fixpoint is unfolded right after an unguarded unfold. -/
  | unguardedTwice (fixpoint previous : Name)
  /-- A recorded mark is not the mark that the rule yields. -/
  | markDiffers (recorded computed : EdgeMark)
  /-- There are not as many recorded premises as the rule yields. -/
  | premiseCount (recorded computed : Nat)
  /-- A recorded premise is not the premise that the rule yields. -/
  | premiseDiffers (child : NodeId) (recorded computed : Sequent)
deriving Repr

/-- The wording of a rule fault. -/
def RuleFault.message : RuleFault → String
  | expectedConnective kind => s!"expected a {kind.label}"
  | choiceOutOfRange choice count =>
    s!"choice {choice} is out of range for {count} operand(s)"
  | noOperand kind => "empty " ++ kind.label.toLower
  | expectedQuantifier kind => s!"expected a {kind.label} quantifier"
  | expectedFixpoint kind => s!"expected an {kind.label} quantifier"
  | constantEigenvariable name => s!"`{name}` cannot be an eigenvariable"
  | repeatedEigenvariable name => s!"eigenvariable `{name}` is used twice"
  | occurringEigenvariable name => s!"eigenvariable `{name}` already occurs free in the goal"
  | witnessCount given bound => s!"{given} witness(es) given for {bound} bound variable(s)"
  | unguardedTwice fixpoint previous =>
    s!"unguarded unfold of `{fixpoint}` directly after the unguarded unfold of `{previous}`"
  | markDiffers recorded computed =>
    s!"recorded mark {recorded.display} but the rule yields {computed.display}"
  | premiseCount recorded computed =>
    s!"recorded {recorded} premise(s) but the rule yields {computed}"
  | premiseDiffers child recorded computed =>
    s!"premise {child.display} is `{recorded.display}`, expected `{computed.display}`"

/-- Why a back-edge is refused. -/
inductive BackEdgeFault where
  /-- The target is not above the node. -/
  | notAncestor
  /-- The substitution does not take the target's sequent to the node's. -/
  | sequentDiffers (σ : Substitution) (target image sequent : Sequent)
  /-- The target starts with a guarded unfold, but the node is not reached through a guard. -/
  | unguardedReentry

/-- The wording of a back-edge fault. -/
def BackEdgeFault.message : BackEdgeFault → String
  | notAncestor => "the target is not a strict ancestor"
  | sequentDiffers σ target image sequent =>
    "the substitution " ++ σ.display ++
      s!" sends `{target.display}` to `{image.display}`, not to `{sequent.display}`"
  | unguardedReentry => "the guarded unfold at the target would be re-entered without a guard"

/-- Why a collection of nodes is not a derivation. -/
inductive RecordFault where
  /-- Two entries have the same identifier. -/
  | listedTwice (id : NodeId)
  /-- The root has no entry. -/
  | rootNotListed (root : NodeId)
  /-- A child has no entry. -/
  | unknownChild (id child : NodeId)
  /-- A node is a child of several nodes, a child twice, or the root and a child. -/
  | severalParents (id : NodeId)
  /-- A node is met twice on the way down from the root. -/
  | reachableTwice (id : NodeId)
  /-- A node has no entry. -/
  | notListed (id : NodeId)
  /-- A sequent is not well-formed. -/
  | illFormed (id : NodeId)
  /-- Some nodes do not hang below the root. -/
  | unreachable (count : Nat)
  /-- A node below the root has no mark on the edge to it. -/
  | noIncomingEdge (id : NodeId)
  /-- The root hangs below another node. -/
  | rootHasParent (root : NodeId)
  /-- A child does not point back to its parent. -/
  | notLinked (child parent : NodeId)
deriving DecidableEq, Repr

/-- The wording of a record fault. -/
def RecordFault.message : RecordFault → String
  | listedTwice id => s!"node {id.display} is listed twice"
  | rootNotListed root => s!"the root {root.display} is not listed"
  | unknownChild id child => s!"node {id.display} lists the unknown child {child.display}"
  | severalParents id => s!"node {id.display} has more than one parent"
  | reachableTwice id => s!"node {id.display} is reachable twice"
  | notListed id => s!"node {id.display} is not listed"
  | illFormed id => s!"the sequent of node {id.display} is ill-formed"
  | unreachable count => s!"{count} node(s) are not reachable from the root"
  | noIncomingEdge id => s!"node {id.display} has no incoming edge"
  | rootHasParent root => s!"the root {root.display} has a parent"
  | notLinked child parent =>
    s!"node {child.display} is not linked to its parent {parent.display}"

/-- An error of the proof kernel. -/
inductive ProofError where
  /-- A rule does not fit a goal. -/
  | ruleMismatch (rule : RuleKind) (sequent : Sequent) (fault : RuleFault)
  /-- A proposition could not be formed. -/
  | form (error : FormError)
  /-- A node was closed as initial, but its sequent is not. -/
  | notInitial (node : NodeId) (sequent : Sequent)
  /-- A back-edge is refused. -/
  | backEdgeMismatch (node ancestor : NodeId) (fault : BackEdgeFault)
  /-- A cycle never passes through a progressing edge. -/
  | stationaryCycle (cycle : List NodeId)
  /-- Some nodes are still open. -/
  | incomplete (goals : List NodeId)
  /-- There is no node with this identifier. -/
  | unknownNode (id : NodeId)
  /-- The node is not open any more. -/
  | alreadyClosed (id : NodeId)
  /-- The derivation proves something else. -/
  | rootMismatch (expected found : Sequent)
  /-- There are no identifiers left. -/
  | idsExhausted
  /-- A collection of nodes is not a derivation. -/
  | malformedRecord (fault : RecordFault)

namespace ProofError

/-- The written form of an identifier inside a list. -/
def displayListed (id : NodeId) : String := "NodeId(" ++ toString id.toNat ++ ")"

/-- The wording of an error. -/
def message : ProofError → String
  | ruleMismatch rule sequent fault =>
    s!"Rule `{rule.label}` does not apply to the sequent `{sequent.display}`: {fault.message}"
  | form error => s!"Substitution failed: {error.message}"
  | notInitial node sequent =>
    s!"The sequent `{sequent.display}` of node {node.display} is not an axiom."
  | backEdgeMismatch node ancestor fault =>
    s!"Node {node.display} cannot be closed by a back-edge to node {ancestor.display}: " ++
      fault.message
  | stationaryCycle cycle =>
    "Trace condition violated: the cycle [" ++ ", ".intercalate (cycle.map displayListed) ++
      "] never passes through a progressing edge, so the cyclic proof is unsound."
  | incomplete goals =>
    let first := match goals with
      | [] => "None"
      | id :: _ => "Some(" ++ displayListed id ++ ")"
    s!"The derivation is incomplete: {goals.length} node(s) are still open (first: {first})."
  | unknownNode id => s!"Node {id.display} does not exist in this derivation."
  | alreadyClosed id => s!"Node {id.display} is already closed."
  | rootMismatch expected found =>
    s!"The derivation proves `{found.display}` but `{expected.display}` was requested."
  | idsExhausted => "The node arena ran out of identifiers."
  | malformedRecord fault => s!"Malformed derivation record: {fault.message}"

/-- Whether the error only says that one step does not fit one goal. -/
def isBranchLocal : ProofError → Bool
  | ruleMismatch .. | notInitial .. | backEdgeMismatch .. => true
  | _ => false

end ProofError

/-- Errors of forming propositions are errors of the kernel. -/
instance : MonadLift (Except FormError) (Except ProofError) where
  monadLift x := x.mapError .form

end CyclicProof
