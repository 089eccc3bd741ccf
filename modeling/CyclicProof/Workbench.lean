import CyclicProof.Checker
import CyclicProof.Derivation.Builder
import CyclicProof.Record.Json

/-!
# The workbench

A workbench holds several builders that share one pool of identifiers. Commands act on the current
builder; builders can be forked and switched, checkpoints can be taken and rolled back to, and a
finished derivation stays on the workbench to be checked and printed. This is the form in which a
proof script drives the kernel.
-/

namespace CyclicProof

/-- The state of a workbench. -/
structure Workbench where
  /-- The source of identifiers, shared by all builders. -/
  pool : IdPool
  /-- The builders, by number. -/
  builders : List Builder
  /-- The number of the builder that commands act on. -/
  current : Nat
  /-- The checkpoints taken so far, by number. They may be used on any builder. -/
  checkpoints : List Checkpoint
  /-- The derivation finished last. -/
  finished : Option Derivation

/-- A command to a workbench. -/
inductive Command where
  /-- Start a new derivation. -/
  | openGoal (sequent : Sequent)
  /-- Apply a rule to an open goal. -/
  | applyRule (id : NodeId) (rule : Rule)
  /-- Close a goal whose sequent is initial. -/
  | closeInitial (id : NodeId)
  /-- Check a back-edge without closing anything. -/
  | checkBackEdge (id ancestor : NodeId) (σ : Substitution)
  /-- Close a goal by a back-edge. -/
  | closeByBackEdge (id ancestor : NodeId) (σ : Substitution)
  /-- Take a checkpoint. -/
  | checkpoint
  /-- Roll back to the checkpoint with a number. -/
  | rollback (number : Nat)
  /-- Add a copy of the current builder. -/
  | fork
  /-- Switch to the builder with a number. -/
  | use (number : Nat)
  /-- Ask for the root. -/
  | root
  /-- Ask for a node. -/
  | node (id : NodeId)
  /-- Ask for the sequent of a node. -/
  | sequent (id : NodeId)
  /-- Ask for all nodes. -/
  | nodes
  /-- Ask for the segments. -/
  | segments
  /-- Check the trace condition of what has been built so far. -/
  | partialTrace (policy : ProgressPolicy)
  /-- Finish the derivation; the builder stays as it is. -/
  | finish
  /-- Verify the finished derivation; without a goal, against its own conclusion. -/
  | verify (goal : Option Sequent)
  /-- Verify the finished derivation under a policy. -/
  | verifyWith (goal : Option Sequent) (policy : ProgressPolicy)
  /-- Check the trace condition of the finished derivation. -/
  | trace (policy : ProgressPolicy)
  /-- Ask for the record of the finished derivation. -/
  | record
  /-- Ask for the JSON text of the record of the finished derivation. -/
  | json

/-- The answer to a command. -/
inductive Reply where
  /-- A node. -/
  | id (id : NodeId)
  /-- Several nodes. -/
  | ids (ids : List NodeId)
  /-- The root, if there is one. -/
  | root (id : Option NodeId)
  /-- A goal was closed. -/
  | closed
  /-- The command was carried out. -/
  | done
  /-- The number of a new checkpoint or builder. -/
  | number (n : Nat)
  /-- The segment of a back-edge. -/
  | segment (segment : TraceSegment)
  /-- A node with all that belongs to it. -/
  | node (node : Node)
  /-- A sequent. -/
  | sequent (sequent : Sequent)
  /-- Several nodes with all that belongs to them. -/
  | nodes (nodes : List Node)
  /-- Several segments. -/
  | segments (segments : List TraceSegment)
  /-- The trace condition holds. -/
  | report (report : TraceReport)
  /-- A finished derivation. -/
  | derivation (d : Derivation)
  /-- The finished derivation is a proof. -/
  | valid
  /-- A record. -/
  | record (record : Record)
  /-- A text. -/
  | text (text : String)
  /-- The command failed. -/
  | failed (error : ProofError)
  /-- There is no finished derivation. -/
  | notFinished
  /-- There is no checkpoint or builder with the number. -/
  | noSuchNumber

namespace Workbench

/-- A workbench with one builder. -/
def new (pool : IdPool) : Workbench := ⟨pool, [.empty], 0, [], none⟩

/-- The current builder. -/
def builder (w : Workbench) : Builder := w.builders[w.current]?.getD .empty

/-- Replace the current builder. -/
def setBuilder (w : Workbench) (b : Builder) : Workbench :=
  { w with builders := w.builders.set w.current b }

/-- The answer that a computation leads to. -/
def reply {α : Type} (x : Except ProofError α) (answer : α → Reply) : Reply :=
  match x with
  | .ok a => answer a
  | .error e => .failed e

/-- Run a computation on the current builder. -/
def build {α : Type} (w : Workbench) (x : Build α) (answer : α → Reply) : Reply × Workbench :=
  let (result, pool, b) := x.run (w.pool, w.builder)
  (reply result answer, { w.setBuilder b with pool })

/-- Replace the current builder by the result of an operation, if that succeeds. -/
def change (w : Workbench) (x : Except ProofError Builder) : Reply × Workbench :=
  match x with
  | .ok b => (.closed, w.setBuilder b)
  | .error e => (.failed e, w)

/-- Answer a question about the finished derivation. -/
def ask (w : Workbench) (answer : Derivation → Reply) : Reply :=
  match w.finished with
  | some d => answer d
  | none => .notFinished

/-- The goal to verify a derivation against. -/
def goalFor (d : Derivation) : Option Sequent → Except ProofError Sequent
  | some goal => .ok goal
  | none => d.conclusion

/-- Carry out a command. -/
def exec (w : Workbench) : Command → Reply × Workbench
  | .openGoal sequent => w.build (Builder.openGoal sequent) .id
  | .applyRule id rule => w.build (Builder.applyRule id rule) .ids
  | .closeInitial id => w.change (w.builder.closeInitial id)
  | .checkBackEdge id ancestor σ => (reply (w.builder.checkBackEdge id ancestor σ) .segment, w)
  | .closeByBackEdge id ancestor σ => w.change (w.builder.closeByBackEdge id ancestor σ)
  | .checkpoint =>
    (.number w.checkpoints.length,
      { w with checkpoints := w.checkpoints ++ [w.builder.checkpoint] })
  | .rollback number =>
    match w.checkpoints[number]? with
    | some c => (.done, w.setBuilder (w.builder.rollback c))
    | none => (.noSuchNumber, w)
  | .fork => (.number w.builders.length, { w with builders := w.builders ++ [w.builder.fork] })
  | .use number =>
    if number < w.builders.length then (.done, { w with current := number })
    else (.noSuchNumber, w)
  | .root => (.root w.builder.root, w)
  | .node id => (reply (w.builder.nodes.find id) .node, w)
  | .sequent id => (reply (w.builder.nodes.find id) fun node => .sequent node.sequent, w)
  | .nodes => (.nodes w.builder.nodes.values, w)
  | .segments => (.segments w.builder.segments, w)
  | .partialTrace policy => (reply (w.builder.traceGraph.check policy) .report, w)
  | .finish =>
    let result := w.builder.finish
    (reply result .derivation, { w with finished := result.toOption })
  | .verify goal =>
    (w.ask fun d => reply (goalFor d goal >>= d.verify) fun _ => .valid, w)
  | .verifyWith goal policy =>
    (w.ask fun d => reply (goalFor d goal >>= fun s => d.verifyWith s policy) .report, w)
  | .trace policy => (w.ask fun d => reply (d.checkTrace policy) .report, w)
  | .record => (w.ask fun d => .record d.toRecord, w)
  | .json => (w.ask fun d => .text d.toRecord.toText, w)

end Workbench

end CyclicProof
