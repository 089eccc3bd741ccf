import CyclicProof.Proofs.Derivation.Verification

/-!
# What an accepted derivation says about its nodes

Acceptance tells something about every node that is reached from the root: it is initial, or its
rule yields premises that are reached in turn, or it returns to a node above it that is closed by a
rule (`Derivation.exists_grounds`).  Only one thing has to be known about the derivation
beforehand, namely that nodes are stored under their identifiers; it need not be known to be a
tree.
-/

namespace CyclicProof

namespace NodeMap

/-- Nodes are stored under their identifiers. -/
def IdsAgree (nodes : NodeMap) : Prop := ∀ id node, nodes.get? id = some node → node.id = id

end NodeMap

namespace Derivation

variable {d : Derivation}

/-- The node lies in some row below the root. -/
def Reached (d : Derivation) (id : NodeId) : Prop := ∃ n, id ∈ d.row n

lemma reached_root (d : Derivation) : d.Reached d.root := ⟨0, by simp [row]⟩

lemma Reached.child {p c : NodeId} (hp : d.Reached p) (hc : d.nodes.IsParent p c) :
    d.Reached c := by
  obtain ⟨n, hn⟩ := hp
  exact ⟨n + 1, mem_row_succ.2 ⟨p, hn, hc⟩⟩

/-- A rule closes the node, and yields premises that are reached in turn. -/
structure ClosedBy (d : Derivation) (node : Node) (application : RuleApplication) : Prop where
  applies : ∃ rule : Rule, rule.apply node.sequent node.incoming = .ok application
  premises : ∀ premise ∈ application.premises, ∃ c child, d.Reached c ∧
    d.nodes.get? c = some child ∧ child.sequent.alphaEquiv premise = true ∧
    ⟨node.id, c, .tree application.mark⟩ ∈ node.edges

/-- The node returns to a node that is not a bud itself. -/
structure Returns (d : Derivation) (node : Node) (ancestor : NodeId) (target : Node)
    (σ : Substitution) : Prop where
  reached : d.Reached ancestor
  found : d.nodes.get? ancestor = some target
  closed : target.backEdge? = none
  image : ∃ image, target.sequent.substitute σ = .ok image ∧ image.alphaEquiv node.sequent = true
  edge : ⟨node.id, ancestor, .back⟩ ∈ node.edges

/-- Why a node is justified. -/
inductive Grounds (d : Derivation) (node : Node) : Prop
  | initial (h : node.sequent.isInitial = true)
  | rule (application : RuleApplication) (h : d.ClosedBy node application)
  | back (ancestor : NodeId) (target : Node) (σ : Substitution)
      (hbud : node.backEdge? = some ancestor) (h : d.Returns node ancestor target σ)

section

variable {s : Sequent} {policy : ProgressPolicy} {report : TraceReport}
  (hverify : d.verifyWith s policy = .ok report)
include hverify

lemma mem_breadthFirst_of_reached {id : NodeId} (hid : d.Reached id) : id ∈ d.breadthFirst := by
  obtain ⟨root, hroot, -, -, -, hlength, -, -⟩ := verifyWith_eq_ok.1 hverify
  have hcontains : d.nodes.contains d.root = true := Table.contains_eq_true_iff.2 ⟨root, hroot⟩
  obtain ⟨n, hn⟩ := hid
  refine mem_breadthFirst_of_mem_row hcontains ?_ hn
  by_contra hlt
  -- Beyond the first empty row all rows are empty.
  have hempty : ∀ k, d.row (d.size + k) = [] := by
    intro k
    induction k with
    | zero => exact row_size_eq_nil hcontains hlength
    | succ k ih => rw [← Nat.add_assoc, row, ih, List.flatMap_nil]
  obtain ⟨k, rfl⟩ : ∃ k, n = d.size + k := ⟨n - d.size, by omega⟩
  rw [hempty k] at hn
  cases hn

lemma verifyNode_of_reached {id : NodeId} (hid : d.Reached id) : d.verifyNode id = .ok () := by
  obtain ⟨_, -, -, -, -, -, hnodes, -⟩ := verifyWith_eq_ok.1 hverify
  exact hnodes id (mem_breadthFirst_of_reached hverify hid)

lemma exists_node_of_reached {id : NodeId} (hid : d.Reached id) :
    ∃ node, d.nodes.get? id = some node := by
  have hnode := verifyNode_of_reached hverify hid
  rw [verifyNode] at hnode
  obtain ⟨node, hnode, -⟩ := Outcome.bind_eq_ok.1 hnode
  exact ⟨node, NodeMap.find_eq_ok.1 hnode⟩

variable (hids : d.nodes.IdsAgree)
include hids

/-- A child of a node that is reached points back to it, with the mark of its rule. -/
lemma exists_child_of_reached {p c : NodeId} {node : Node} {rule : Rule} {children : List NodeId}
    {mark : EdgeMark} (hp : d.Reached p) (hnode : d.nodes.get? p = some node)
    (hstatus : node.status = .byRule rule children mark) (hc : c ∈ children) :
    ∃ child, d.nodes.get? c = some child ∧ child.parent = some p ∧ child.incoming = some mark := by
  have hcheck := verifyNode_of_reached hverify hp
  rw [verifyNode_of_get? hnode, hstatus] at hcheck
  obtain ⟨application, -, -, hpremises⟩ := verifyRule_eq_ok.1 hcheck
  obtain ⟨premise, -, child, hchild, hparent, hincoming, -⟩ :=
    Outcome.exists_of_forall₂ hpremises.flip hc
  exact ⟨child, hchild, hids p node hnode ▸ hparent, hincoming⟩

/-- A child that is reached points back to its parent. -/
lemma parent_of_isParent {p c : NodeId} {child : Node} (hp : d.Reached p)
    (hpc : d.nodes.IsParent p c) (hc : d.nodes.get? c = some child) : child.parent = some p := by
  obtain ⟨node, hnode, hmem⟩ := hpc
  obtain ⟨rule, children, mark, hstatus, hmem⟩ := Node.exists_rule_of_mem_children hmem
  obtain ⟨child', hc', hparent, -⟩ := exists_child_of_reached hverify hids hp hnode hstatus hmem
  obtain rfl : child' = child := Option.some.inj (hc'.symm.trans hc)
  exact hparent

/-- A walk up from a node that is reached stays among the nodes that are reached and have
children. -/
lemma reached_of_climb {bud ancestor : NodeId} {depth n : ℕ} {v : NodeId} {path out : List NodeId}
    {node : Node} (hv : d.nodes.get? v = some node) (hrow : v ∈ d.row n)
    (hclimb : d.nodes.climb bud ancestor depth node.parent path = .ok out) :
    d.Reached ancestor ∧ ∃ c, d.nodes.IsParent ancestor c := by
  induction n generalizing depth v path node with
  | zero =>
    obtain rfl : v = d.root := by simpa [row] using hrow
    obtain ⟨root, hroot, -, hlinks, -⟩ := verifyWith_eq_ok.1 hverify
    obtain rfl : root = node := Option.some.inj (hroot.symm.trans hv)
    cases depth with
    | zero => simp [NodeMap.climb] at hclimb
    | succ depth => simp [hlinks.1, NodeMap.climb] at hclimb
  | succ n ih =>
    obtain ⟨p, hp, hpv⟩ := mem_row_succ.1 hrow
    have hparent := parent_of_isParent hverify hids ⟨n, hp⟩ hpv hv
    cases depth with
    | zero => simp [NodeMap.climb] at hclimb
    | succ depth =>
      rw [hparent, NodeMap.climb] at hclimb
      split at hclimb
      · rename_i heq
        subst heq
        exact ⟨⟨n, hp⟩, v, hpv⟩
      · obtain ⟨pnode, hpnode, hclimb⟩ := Outcome.bind_eq_ok.1 hclimb
        exact ih (NodeMap.find_eq_ok.1 hpnode) hp hclimb

/-- **Every node that is reached is justified.** -/
lemma exists_grounds {id : NodeId} (hid : d.Reached id) :
    ∃ node, d.nodes.get? id = some node ∧ d.Grounds node := by
  obtain ⟨node, hnode⟩ := exists_node_of_reached hverify hid
  refine ⟨node, hnode, ?_⟩
  have hcheck := verifyNode_of_reached hverify hid
  rw [verifyNode_of_get? hnode] at hcheck
  cases hstatus : node.status with
  | goal => simp [hstatus] at hcheck
  | initial =>
    rw [hstatus] at hcheck
    exact .initial (Outcome.unless_eq_ok.1 hcheck)
  | backEdge ancestor σ =>
    rw [hstatus] at hcheck
    obtain ⟨segment, hsegment, -⟩ := Outcome.bind_eq_ok.1 hcheck
    obtain ⟨target, path, image, marks, htarget, hclimb, himage, hequiv, -⟩ :=
      (NodeMap.exists_segment_iff hnode).1 ⟨segment, hsegment⟩
    obtain ⟨n, hn⟩ := hid
    obtain ⟨hreached, c, target', htarget', hc⟩ := reached_of_climb hverify hids hnode hn hclimb
    obtain rfl : target' = target := Option.some.inj (htarget'.symm.trans htarget)
    have hclosed : target'.backEdge? = none := by
      -- Only a node closed by a rule has children.
      cases htstatus : target'.status with
      | byRule rule children mark => simp [Node.backEdge?, htstatus]
      | goal => simp [Node.children, htstatus] at hc
      | initial => simp [Node.children, htstatus] at hc
      | backEdge ancestor' σ' => simp [Node.children, htstatus] at hc
    refine .back ancestor target' σ (by simp [Node.backEdge?, hstatus])
      ⟨hreached, htarget, hclosed, ?_, ?_⟩
    · exact ⟨image, himage, hequiv⟩
    · simp [Node.edges, hstatus]
  | byRule rule children mark =>
    rw [hstatus] at hcheck
    obtain ⟨application, happly, rfl, hpremises⟩ := verifyRule_eq_ok.1 hcheck
    refine .rule application ⟨⟨rule, happly⟩, fun premise hpremise => ?_⟩
    obtain ⟨c, hc, child, hchild, -, -, hequiv⟩ := Outcome.exists_of_forall₂ hpremises hpremise
    have hparent : d.nodes.IsParent id c :=
      ⟨node, hnode, by simpa [Node.children, hstatus] using hc⟩
    refine ⟨c, child, hid.child hparent, hchild, hequiv, ?_⟩
    simpa [Node.edges, hstatus] using hc

end

end Derivation

end CyclicProof
