import CyclicProof.Proofs.Rule.Application
import CyclicProof.Proofs.Workbench.Products

/-!
# Guarded unfolds lie behind guards

Unfolding a greatest fixpoint is marked as guarded if the edge that led to the goal is a guard, and
this is looked at where the goal stands in the tree.  A cyclic proof is read along its back-edges
too, and then a guarded unfold may follow a back-edge.  Since a bud only returns to a guarded unfold
if it lies behind a guard itself, and since no back-edge leads to a bud, there is a guard before
every guarded unfold, right before it or with one back-edge in between
(`Derivation.guarded_follows_guard`).  It does not matter how the unfold was reached, and so a cycle
with a guarded unfold passes through a guard.
-/

namespace CyclicProof

/-! ## Rules -/

namespace Rule

lemma incoming_of_unfoldMark {kind : FixpointKind} {name : Name} {incoming : Option EdgeMark}
    {mark : EdgeMark} (h : unfoldMark kind name incoming = .ok mark)
    (hguarded : mark.isGuarded = true) : incoming = some .guard := by
  cases kind with
  | least =>
    obtain rfl := Except.ok.inj h
    cases hguarded
  | greatest =>
    rw [unfoldMark, guardedness.eq_def] at h
    split at h
    · cases h
    · rfl
    · obtain rfl := Except.ok.inj h
      cases hguarded

lemma incoming_of_applyUnfold {rule : RuleKind} {goal : Sequent} {side : Side} {kind : FixpointKind}
    {incoming : Option EdgeMark} {application : RuleApplication}
    (h : applyUnfold rule goal side kind incoming = .ok application)
    (hguarded : application.mark.isGuarded = true) : incoming = some .guard := by
  obtain ⟨name, params, body, args, mark, q, -, hmark, -, rfl⟩ := applyUnfold_eq_ok.1 h
  exact incoming_of_unfoldMark hmark hguarded

/-- Only an unfold of a goal behind a guard is guarded. -/
lemma incoming_of_isGuarded {rule : Rule} {goal : Sequent} {incoming : Option EdgeMark}
    {application : RuleApplication} (h : rule.apply goal incoming = .ok application)
    (hguarded : application.mark.isGuarded = true) : incoming = some .guard := by
  cases rule with
  | leastRight | greatestRight | leastLeft | greatestLeft =>
    exact incoming_of_applyUnfold h hguarded
  | conjunctionRight | disjunctionLeft =>
    obtain ⟨operands, -, rfl⟩ := splitOperands_eq_ok.1 h
    cases hguarded
  | disjunctionRight choice | conjunctionLeft choice =>
    obtain ⟨operands, operand, -, -, rfl⟩ := chooseOperand_eq_ok.1 h
    cases hguarded
  | implicationRight =>
    obtain ⟨operands, target, -, -, rfl⟩ := applyImplicationRight_eq_ok.1 h
    cases hguarded
  | coimplicationLeft =>
    obtain ⟨source, subtracted, -, rfl⟩ := applyCoimplicationLeft_eq_ok.1 h
    cases hguarded
  | universalRight names | existentialLeft names =>
    obtain ⟨vars, body, q, -, -, -, -, -, rfl⟩ := applyEigenvariables_eq_ok.1 h
    cases hguarded
  | existentialRight witnesses | universalLeft witnesses =>
    obtain ⟨vars, body, q, -, -, -, rfl⟩ := applyWitnesses_eq_ok.1 h
    cases hguarded

end Rule

/-! ## Edges -/

namespace NodeMap

variable {nodes : NodeMap} {root : NodeId}

/-- The node lies behind a guard. -/
def BehindGuard (nodes : NodeMap) (id : NodeId) : Prop :=
  ∃ node, nodes.get? id = some node ∧ node.incoming = some .guard

/-- Where an edge comes from. -/
lemma IsTree.edge_cases (h : nodes.IsTree root) {e : LabelledEdge} (he : nodes.IsEdge e) :
    ∃ node, nodes.get? e.source = some node ∧
      ((∃ rule children mark, node.status = .byRule rule children mark ∧ e.target ∈ children ∧
        e.label = .tree mark) ∨
      ∃ σ, node.status = .backEdge e.target σ ∧ e.label = .back) := by
  obtain ⟨id, node, hid, he⟩ := he
  refine ⟨node, by rw [Node.source_of_mem_edges he, h.id_eq hid, hid], ?_⟩
  rw [Node.edges] at he
  split at he
  · rename_i rule children mark hstatus
    obtain ⟨c, hc, rfl⟩ := List.mem_map.1 he
    exact .inl ⟨rule, children, mark, hstatus, hc, rfl⟩
  · rename_i ancestor σ hstatus
    obtain rfl := List.mem_singleton.1 he
    exact .inr ⟨σ, hstatus, rfl⟩
  · cases he

/-- Nothing lies before the root. -/
lemma BehindGuard.ne_root {id : NodeId} (hid : nodes.BehindGuard id) (h : nodes.IsTree root) :
    id ≠ root := by
  rintro rfl
  obtain ⟨node, hnode, hguard⟩ := hid
  obtain ⟨node', hnode', -, hincoming⟩ := h.root_found
  obtain rfl := Option.some.inj (hnode.symm.trans hnode')
  cases hguard.symm.trans hincoming

/-- An edge to a node behind a guard is that guard or a back-edge. -/
lemma BehindGuard.label_eq {g : LabelledEdge} (hg : nodes.BehindGuard g.target)
    (h : nodes.IsTree root) (hedge : nodes.IsEdge g) :
    g.label = .tree .guard ∨ g.label = .back := by
  obtain ⟨child, hchild, hguard⟩ := hg
  obtain ⟨node, hnode, ⟨rule, children, mark, hstatus, hmem, hlabel⟩ | ⟨σ, -, hlabel⟩⟩ :=
    h.edge_cases hedge
  · obtain rfl := Option.some.inj ((h.child_incoming hnode hstatus hmem hchild).symm.trans hguard)
    exact .inl hlabel
  · exact .inr hlabel

end NodeMap

namespace Derivation

variable {d : Derivation}

section

variable (htree : d.nodes.IsTree d.root)
  (hjustified : ∀ {id node}, d.nodes.get? id = some node → d.Justified node)
include htree hjustified

lemma behindGuard_of_guarded {e : LabelledEdge} {name : Name} (he : d.nodes.IsEdge e)
    (hlabel : e.label = .tree (.guarded name)) : d.nodes.BehindGuard e.source := by
  obtain ⟨node, hnode, ⟨rule, children, mark, hstatus, -, hmark⟩ | ⟨σ, -, hback⟩⟩ :=
    htree.edge_cases he
  · obtain rfl := TraceEdge.tree.inj (hmark.symm.trans hlabel)
    have hrule := hjustified hnode
    rw [Justified, hstatus] at hrule
    obtain ⟨application, happly, hmark, -⟩ := hrule
    exact ⟨node, hnode, Rule.incoming_of_isGuarded happly (hmark ▸ rfl)⟩
  · cases hback.symm.trans hlabel

/-- What is asked of a bud that returns to its target. -/
lemma isReturn_of_back {b : LabelledEdge} (hb : d.nodes.IsEdge b) (hback : b.label = .back) :
    ∃ bud σ, d.nodes.get? b.source = some bud ∧ bud.status = .backEdge b.target σ ∧
      d.nodes.IsReturn bud b.target σ := by
  obtain ⟨bud, hbud, ⟨rule, children, mark, -, -, hmark⟩ | ⟨σ, hstatus, -⟩⟩ :=
    htree.edge_cases hb
  · cases hmark.symm.trans hback
  · have hreturn := hjustified hbud
    rw [Justified, hstatus] at hreturn
    exact ⟨bud, σ, hbud, hstatus, hreturn⟩

/-- A bud that returns to a guarded unfold lies behind a guard. -/
lemma behindGuard_of_back {b e : LabelledEdge} {name : Name} (hb : d.nodes.IsEdge b)
    (hback : b.label = .back) (he : d.nodes.IsEdge e) (hlabel : e.label = .tree (.guarded name))
    (hbe : b.target = e.source) : d.nodes.BehindGuard b.source := by
  obtain ⟨bud, σ, hbud, -, -, target, htarget, -, hguard⟩ :=
    isReturn_of_back htree hjustified hb hback
  obtain ⟨node, hnode, ⟨rule, children, mark, hstatus, -, hmark⟩ | ⟨σ, -, hback'⟩⟩ :=
    htree.edge_cases he
  · obtain rfl := Option.some.inj ((hbe ▸ hnode).symm.trans htarget)
    obtain rfl := TraceEdge.tree.inj (hmark.symm.trans hlabel)
    exact ⟨bud, hbud, hguard rule children _ hstatus rfl⟩
  · cases hback'.symm.trans hlabel

/-- No back-edge leads to a bud. -/
lemma not_back_of_back {a b : LabelledEdge} (ha : d.nodes.IsEdge a) (hb : d.nodes.IsEdge b)
    (hab : a.target = b.source) (hback : b.label = .back) : a.label ≠ .back := by
  intro hback'
  obtain ⟨node, σ, -, -, habove, -⟩ := isReturn_of_back htree hjustified ha hback'
  obtain ⟨bud, σ, hbud, hstatus, -⟩ := isReturn_of_back htree hjustified hb hback
  -- A target lies above its bud, so it has a child; a bud has none.
  obtain ⟨c, ⟨target, htarget, hc⟩, -⟩ := Relation.TransGen.head'_iff.1 habove
  obtain rfl := Option.some.inj ((hab ▸ htarget).symm.trans hbud)
  obtain ⟨rule, children, mark, hrule, -⟩ := Node.exists_rule_of_mem_children hc
  cases hstatus.symm.trans hrule

/-- What comes before a guarded unfold: a guard, or a back-edge that only guards lead to. -/
lemma previous_of_guarded {g e : LabelledEdge} {name : Name} (hg : d.nodes.IsEdge g)
    (he : d.nodes.IsEdge e) (hlabel : e.label = .tree (.guarded name))
    (hge : g.target = e.source) : g.label = .tree .guard ∨ g.label = .back ∧
      g.source ≠ d.root ∧ ∀ a, d.nodes.IsEdge a → a.target = g.source → a.label = .tree .guard := by
  have hbehind := hge ▸ behindGuard_of_guarded htree hjustified he hlabel
  refine (hbehind.label_eq htree hg).imp_right fun hback => ⟨hback, ?_⟩
  have hbehind' := behindGuard_of_back htree hjustified hg hback he hlabel hge
  refine ⟨hbehind'.ne_root htree, fun a ha hag => ?_⟩
  refine ((hag ▸ hbehind').label_eq htree ha).resolve_right ?_
  exact not_back_of_back htree hjustified ha hg hag hback

lemma guard_before_guarded {w : NodeId} {before after : List LabelledEdge} {e : LabelledEdge}
    {name : Name} (hwalk : IsWalk d.nodes.IsEdge d.root w (before ++ e :: after))
    (hlabel : e.label = .tree (.guarded name)) : ∃ front g, g.label = .tree .guard ∧
      (before = front ++ [g] ∨ ∃ b, b.label = .back ∧ before = front ++ [g, b]) := by
  obtain ⟨hbefore, he, -⟩ := hwalk.split
  have hbehind := behindGuard_of_guarded htree hjustified he hlabel
  obtain ⟨front, g, rfl, hfront, hg, hge⟩ := hbefore.exists_last (hbehind.ne_root htree)
  rcases previous_of_guarded htree hjustified hg he hlabel hge with hguard | ⟨hback, hne, hguards⟩
  · exact ⟨front, g, hguard, .inl rfl⟩
  · obtain ⟨front', a, rfl, -, ha, hag⟩ := hfront.exists_last hne
    exact ⟨front', a, hguards a ha hag, .inr ⟨g, hback, by rw [List.append_assoc]; rfl⟩⟩

lemma guard_on_closed_walk {walk : List LabelledEdge} {e : LabelledEdge} {name : Name}
    (hwalk : IsClosedWalk d.nodes.IsEdge walk) (he : e ∈ walk)
    (hlabel : e.label = .tree (.guarded name)) : ∃ g ∈ walk, g.label = .tree .guard := by
  obtain ⟨g, hg, hge⟩ := hwalk.exists_previous he
  rcases previous_of_guarded htree hjustified (hwalk.edges g hg) (hwalk.edges e he) hlabel hge with
    hguard | ⟨-, -, hguards⟩
  · exact ⟨g, hg, hguard⟩
  · obtain ⟨a, ha, hag⟩ := hwalk.exists_previous hg
    exact ⟨a, ha, hguards a (hwalk.edges a ha) hag⟩

end

/-- **Guarded unfolds lie behind guards.**  On every walk from the root of an accepted derivation
through tree edges and back-edges, a guarded unfold comes right after a guard, up to one back-edge
in between.  Every cycle with a guarded unfold passes through a guard. -/
theorem guarded_follows_guard (s : Sequent) (d : Derivation) (hd : d.Produced)
    (hverify : d.verify s = .ok ()) :
    (∀ w before e after name, IsWalk (· ∈ d.traceGraph.edges) d.root w (before ++ e :: after) →
      e.label = .tree (.guarded name) → ∃ front g, g.label = .tree .guard ∧
        (before = front ++ [g] ∨ ∃ b, b.label = .back ∧ before = front ++ [g, b])) ∧
    ∀ walk, IsClosedWalk (· ∈ d.traceGraph.edges) walk →
      (∃ e ∈ walk, ∃ name, e.label = .tree (.guarded name)) →
      ∃ g ∈ walk, g.label = .tree .guard := by
  obtain ⟨report, hverify, -⟩ := Outcome.bind_eq_ok.1 hverify
  have htree := hd.isTree hverify
  have hedges : (· ∈ d.traceGraph.edges) = d.nodes.IsEdge :=
    funext fun e => propext (NodeMap.mem_edges_ofNodes htree.id_eq)
  rw [hedges]
  refine ⟨fun w before e after name hwalk hlabel => ?_, fun walk hwalk => ?_⟩
  · exact guard_before_guarded htree (hd.justified hverify) hwalk hlabel
  · rintro ⟨e, he, name, hlabel⟩
    exact guard_on_closed_walk htree (hd.justified hverify) hwalk he hlabel

/-- A greatest fixpoint that asks for itself at the same argument, behind a conjunction. -/
def stream : Proposition :=
  .fixpoint .greatest "S" ["x"] (.connective .conjunction [.atomic "S" [.atom "x"], .truth])
    [.atom "t"]

/-- The unfolding of `stream`. -/
def streamUnfolded : Proposition := .connective .conjunction [stream, .truth]

/-- The unfold of `stream` behind the root is guarded, and the loop returns to it. -/
def streamRecord : Record where
  root := 0
  entries := [
    ⟨0, ⟨.truth, streamUnfolded⟩, .byRule .conjunctionRight [1, 2]⟩,
    ⟨1, ⟨.truth, stream⟩, .byRule .greatestRight [3]⟩,
    ⟨2, ⟨.truth, .truth⟩, .initial⟩,
    ⟨3, ⟨.truth, streamUnfolded⟩, .byRule .conjunctionRight [4, 5]⟩,
    ⟨4, ⟨.truth, stream⟩, .backEdge 1 .empty⟩,
    ⟨5, ⟨.truth, .truth⟩, .initial⟩]

/-- What `streamRecord` is loaded as. -/
def streamProof : Derivation where
  root := 0
  segments := [⟨1, 4, [1, 3, 4], [.guarded "S", .guard], true⟩]
  nodes := Table.ofList [
    (0, ⟨0, ⟨.truth, streamUnfolded⟩, .byRule .conjunctionRight [1, 2] .guard, none, none⟩),
    (1, ⟨1, ⟨.truth, stream⟩, .byRule .greatestRight [3] (.guarded "S"), some 0, some .guard⟩),
    (2, ⟨2, ⟨.truth, .truth⟩, .initial, some 0, some .guard⟩),
    (3, ⟨3, ⟨.truth, streamUnfolded⟩, .byRule .conjunctionRight [4, 5] .guard, some 1,
      some (.guarded "S")⟩),
    (4, ⟨4, ⟨.truth, stream⟩, .backEdge 1 .empty, some 3, some .guard⟩),
    (5, ⟨5, ⟨.truth, .truth⟩, .initial, some 3, some .guard⟩)]

/-- The way once around the loop. -/
def streamLoop : List LabelledEdge :=
  [⟨1, 3, .tree (.guarded "S")⟩, ⟨3, 4, .tree .guard⟩, ⟨4, 1, .back⟩]

/-- The second time round, the guarded unfold comes after a guard and a back-edge. -/
theorem stream_guarded_follows_guard :
    let before := ⟨0, 1, .tree .guard⟩ :: streamLoop
    streamProof.Produced ∧ streamProof.verify ⟨.truth, streamUnfolded⟩ = .ok () ∧
      IsWalk (· ∈ streamProof.traceGraph.edges) 0 3 (before ++ [⟨1, 3, .tree (.guarded "S")⟩]) ∧
      (∃ front g, g.label = .tree .guard ∧
        (before = front ++ [g] ∨ ∃ b, b.label = .back ∧ before = front ++ [g, b])) ∧
      IsClosedWalk (· ∈ streamProof.traceGraph.edges) streamLoop ∧
      ∃ g ∈ streamLoop, g.label = .tree .guard := by
  intro before
  have hproduced : streamProof.Produced := .inr ⟨streamRecord, rfl⟩
  have hverify : streamProof.verify ⟨.truth, streamUnfolded⟩ = .ok () := rfl
  have hedges : ∀ e ∈ before, e ∈ streamProof.traceGraph.edges := by decide +kernel
  obtain ⟨hguard, hloop⟩ := List.forall_mem_cons.1 hedges
  obtain ⟨hunfold, hloop⟩ := List.forall_mem_cons.1 hloop
  obtain ⟨hsplit, hloop⟩ := List.forall_mem_cons.1 hloop
  have hround : IsWalk (· ∈ streamProof.traceGraph.edges) 1 1 streamLoop :=
    .cons hunfold (.cons hsplit (.cons (List.forall_mem_singleton.1 hloop) (.nil 1)))
  have hwalk : IsWalk (· ∈ streamProof.traceGraph.edges) 0 3
      (before ++ [⟨1, 3, .tree (.guarded "S")⟩]) :=
    .cons hguard (hround.append (.single hunfold))
  have hclosed := hround.isClosedWalk (by decide)
  obtain ⟨hwalks, hcycles⟩ := guarded_follows_guard _ streamProof hproduced hverify
  refine ⟨hproduced, hverify, hwalk, hwalks 3 before _ [] "S" hwalk rfl, hclosed, ?_⟩
  exact hcycles streamLoop hclosed ⟨_, List.mem_cons_self, "S", rfl⟩

end Derivation

end CyclicProof
