import CyclicProof.Proofs.Derivation.Grounds

/-!
# Accepted derivations are trees

The checker walks down from the root and compares the number of identifiers it has met with the
number of nodes.  This shows that every node hangs below the root, provided that no identifier is
met twice.  A node cannot be met from two parents, since it points back to one of them; so the only
thing to be known beforehand is that no node lists a child twice (`NodeMap.ListsOnce`).  Then an
accepted derivation is a tree, wherever it comes from (`Derivation.isTree_of_verifyWith`).

The nodes that are met form a tree by themselves (`Derivation.reachedPart_isTree`), and the walk
through this tree is the walk through the derivation.  As it lists each node of the tree once, there
are no other nodes.
-/

namespace CyclicProof

/-- No node lists a child twice. -/
def NodeMap.ListsOnce (nodes : NodeMap) : Prop :=
  ∀ id node, nodes.get? id = some node → node.children.Nodup

namespace Derivation

variable {d : Derivation}

open Classical in
/-- The derivation without the nodes that do not hang below the root. -/
noncomputable def reachedPart (d : Derivation) : Derivation :=
  { d with nodes := d.nodes.filterKeys fun id => decide (d.Reached id) }

lemma get?_reachedPart {id : NodeId} {node : Node} :
    d.reachedPart.nodes.get? id = some node ↔ d.Reached id ∧ d.nodes.get? id = some node := by
  rw [reachedPart, Table.get?_filterKeys]
  by_cases hid : d.Reached id
  · simp [hid]
  · simp [hid]

lemma childrenOf_reachedPart {id : NodeId} (hid : d.Reached id) :
    d.reachedPart.childrenOf id = d.childrenOf id := by
  rw [childrenOf, childrenOf, reachedPart, Table.get?_filterKeys, if_pos (by simpa using hid)]

/-- Leaving out what is not met on the walk down changes none of its rows. -/
lemma row_reachedPart (n : ℕ) : d.reachedPart.row n = d.row n := by
  induction n with
  | zero => rfl
  | succ n ih =>
    rw [row, row, ih]
    exact List.flatMap_congr fun id hid => childrenOf_reachedPart ⟨n, hid⟩

section

variable {s : Sequent} {policy : ProgressPolicy} {report : TraceReport}
  (hverify : d.verifyWith s policy = .ok report) (hids : d.nodes.IdsAgree)
  (honce : d.nodes.ListsOnce)
include hverify hids honce

/-- What is met on the walk down is a tree. -/
lemma reachedPart_isTree : d.reachedPart.nodes.IsTree d.root where
  id_eq hid := hids _ _ (get?_reachedPart.1 hid).2
  root_found := by
    obtain ⟨root, hroot, -, hlinks, -⟩ := verifyWith_eq_ok.1 hverify
    exact ⟨root, get?_reachedPart.2 ⟨d.reached_root, hroot⟩, hlinks⟩
  child_found {p c} hpc := by
    obtain ⟨node, hnode, hc⟩ := hpc
    obtain ⟨hp, hnode⟩ := get?_reachedPart.1 hnode
    have hreached := hp.child ⟨node, hnode, hc⟩
    obtain ⟨rule, children, mark, hstatus, hc⟩ := Node.exists_rule_of_mem_children hc
    obtain ⟨child, hchild, hparent, -⟩ := exists_child_of_reached hverify hids hp hnode hstatus hc
    exact ⟨child, get?_reachedPart.2 ⟨hreached, hchild⟩, hparent⟩
  child_incoming {p node rule children mark c child} hnode hstatus hc hchild := by
    obtain ⟨hp, hnode⟩ := get?_reachedPart.1 hnode
    obtain ⟨child', hchild', -, hincoming⟩ :=
      exists_child_of_reached hverify hids hp hnode hstatus hc
    obtain rfl : child' = child :=
      Option.some.inj (hchild'.symm.trans (get?_reachedPart.1 hchild).2)
    exact hincoming
  children_nodup hid := honce _ _ (get?_reachedPart.1 hid).2
  reachable {id node} hid := by
    obtain ⟨⟨n, hn⟩, -⟩ := get?_reachedPart.1 hid
    clear hid
    induction n generalizing id with
    | zero =>
      obtain rfl : id = d.root := by simpa [row] using hn
      exact .refl
    | succ n ih =>
      obtain ⟨p, hp, pnode, hpnode, hc⟩ := mem_row_succ.1 hn
      exact (ih hp).tail ⟨pnode, get?_reachedPart.2 ⟨⟨n, hp⟩, hpnode⟩, hc⟩

/-- Beyond the rows of the tree there is nothing to walk through. -/
lemma breadthFirst_reachedPart : d.reachedPart.breadthFirst = d.breadthFirst := by
  have htree := reachedPart_isTree hverify hids honce
  obtain ⟨root, hroot, -⟩ := verifyWith_eq_ok.1 hverify
  have hfound : d.reachedPart.nodes.contains d.root = true :=
    Table.contains_eq_true_iff.2 ⟨root, get?_reachedPart.2 ⟨d.reached_root, hroot⟩⟩
  have hfound' : d.nodes.contains d.root = true := Table.contains_eq_true_iff.2 ⟨root, hroot⟩
  have hle : d.reachedPart.size ≤ d.size := List.length_filter_le _ _
  obtain ⟨k, hk⟩ : ∃ k, d.size = d.reachedPart.size + k := ⟨d.size - d.reachedPart.size, by omega⟩
  have hrange : List.range' 0 (d.size + 1) =
      List.range' 0 (d.reachedPart.size + 1) ++ List.range' (d.reachedPart.size + 1) k := by
    rw [hk, Nat.add_right_comm, ← List.range'_append_1, Nat.zero_add]
  have hrows : d.reachedPart.row = d.row := funext row_reachedPart
  have hrest : (List.range' (d.reachedPart.size + 1) k).flatMap d.row = [] := by
    rw [List.flatMap_eq_nil_iff]
    intro n hn
    by_contra hne
    obtain ⟨id, hid⟩ := List.exists_mem_of_ne_nil _ hne
    have hlt : n < d.reachedPart.size := row_lt_size htree (hrows ▸ hid)
    have := (List.mem_range'_1.1 hn).1
    omega
  calc d.reachedPart.breadthFirst
      = d.reachedPart.rowsFrom (d.reachedPart.size + 1) (d.reachedPart.row 0) := if_pos hfound
    _ = (List.range' 0 (d.reachedPart.size + 1)).flatMap d.row := by rw [rowsFrom_row, hrows]
    _ = (List.range' 0 (d.size + 1)).flatMap d.row := by
      rw [hrange, List.flatMap_append, hrest, List.append_nil]
    _ = d.rowsFrom (d.size + 1) (d.row 0) := (rowsFrom_row 0 _).symm
    _ = d.breadthFirst := (if_pos hfound').symm

/-- Every node hangs below the root. -/
lemma reached_of_verifyWith {id : NodeId} {node : Node} (hid : d.nodes.get? id = some node) :
    d.Reached id := by
  obtain ⟨-, -, -, -, -, hlength, -⟩ := verifyWith_eq_ok.1 hverify
  have hsize : d.reachedPart.size = d.size := by
    rw [← length_breadthFirst (reachedPart_isTree hverify hids honce),
      breadthFirst_reachedPart hverify hids honce, hlength]
  have hall := List.length_filter_eq_length_iff.1 hsize _ (Table.get?_eq_some_iff.1 hid)
  simpa using hall

/-- **Accepted derivations are trees.** -/
lemma isTree_of_verifyWith : d.nodes.IsTree d.root := by
  have hnodes : d.reachedPart.nodes = d.nodes := by
    refine Table.ext_get? fun id => Option.ext fun node => ?_
    rw [get?_reachedPart]
    exact ⟨fun h => h.2, fun h => ⟨reached_of_verifyWith hverify hids honce h, h⟩⟩
  exact hnodes ▸ reachedPart_isTree hverify hids honce

end

end Derivation

end CyclicProof
