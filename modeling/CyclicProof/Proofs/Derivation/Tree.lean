import CyclicProof.Derivation.Basic
import CyclicProof.Proofs.Outcome
import Mathlib.Data.List.Chain
import Mathlib.Data.List.Nodup
import Mathlib.Data.List.Perm.Subperm
import Mathlib.Logic.Relation

/-!
# Tree-shaped derivations

Finished and loaded derivations are trees: the children of a node point back to it with the mark of
its rule, only the root points nowhere, and every node hangs below the root (`NodeMap.IsTree`).  On
such a derivation the two walks of the checker do what they are meant to do.

* The walk down, row by row, lists every node exactly once (`Derivation.breadthFirst_perm`).
* The walk up from a node meets exactly its strict ancestors (`Derivation.exists_climb_iff`), and
  the path it collects goes down from parent to child (`NodeMap.climb_path`).

Both rest on the rows of the tree.  A node lies in exactly one row, because its parent is unique
and the root has none; so a row number is smaller than the number of nodes.
-/

namespace CyclicProof

/-- Only a node closed by a rule has children. -/
lemma Node.exists_rule_of_mem_children {node : Node} {c : NodeId} (hc : c ∈ node.children) :
    ∃ rule children mark, node.status = .byRule rule children mark ∧ c ∈ children := by
  rw [Node.children] at hc
  split at hc
  case h_1 rule children mark hstatus => exact ⟨rule, children, mark, hstatus, hc⟩
  case h_2 => exact absurd hc List.not_mem_nil

namespace NodeMap

/-- The node `c` is listed among the children of the node `p`. -/
def IsParent (nodes : NodeMap) (p c : NodeId) : Prop :=
  ∃ node, nodes.get? p = some node ∧ c ∈ node.children

/-- The nodes form a tree below `root`, with links in both directions. -/
structure IsTree (nodes : NodeMap) (root : NodeId) : Prop where
  /-- Nodes are stored under their identifiers. -/
  id_eq : ∀ {id node}, nodes.get? id = some node → node.id = id
  /-- The root is a node that nothing leads to. -/
  root_found : ∃ node, nodes.get? root = some node ∧ node.parent = none ∧ node.incoming = none
  /-- A child is a node that points back to its parent. -/
  child_found : ∀ {p c}, nodes.IsParent p c → ∃ child, nodes.get? c = some child ∧
    child.parent = some p
  /-- A child carries the mark of the rule above it. -/
  child_incoming : ∀ {p node rule children mark c child}, nodes.get? p = some node →
    node.status = .byRule rule children mark → c ∈ children → nodes.get? c = some child →
    child.incoming = some mark
  /-- No child is listed twice. -/
  children_nodup : ∀ {id node}, nodes.get? id = some node → node.children.Nodup
  /-- Every node is reached from the root. -/
  reachable : ∀ {id node}, nodes.get? id = some node → Relation.ReflTransGen nodes.IsParent root id

namespace IsTree

variable {nodes : NodeMap} {root : NodeId} (h : nodes.IsTree root)
include h

/-! ## Parents are unique -/

lemma parent_eq {p c : NodeId} {child : Node} (hpc : nodes.IsParent p c)
    (hc : nodes.get? c = some child) : child.parent = some p := by
  obtain ⟨child', hc', hparent⟩ := h.child_found hpc
  obtain rfl : child' = child := Option.some.inj (hc'.symm.trans hc)
  exact hparent

lemma parent_unique {p q c : NodeId} (hp : nodes.IsParent p c) (hq : nodes.IsParent q c) :
    p = q := by
  obtain ⟨child, hc, hparent⟩ := h.child_found hp
  rw [h.parent_eq hq hc] at hparent
  exact (Option.some.inj hparent).symm

lemma not_isParent_root (p : NodeId) : ¬ nodes.IsParent p root := by
  intro hp
  obtain ⟨node, hroot, hnone, -⟩ := h.root_found
  rw [h.parent_eq hp hroot] at hnone
  cases hnone

/-- A node other than the root is a child. -/
lemma exists_parent {id : NodeId} {node : Node} (hid : nodes.get? id = some node)
    (hne : id ≠ root) : ∃ p, nodes.IsParent p id := by
  rcases (Relation.ReflTransGen.cases_tail_iff _ _ _).1 (h.reachable hid) with heq | ⟨p, -, hp⟩
  · exact absurd heq hne
  · exact ⟨p, hp⟩

/-- The recorded parent is the parent. -/
lemma isParent_of_parent_eq {id p : NodeId} {node : Node} (hid : nodes.get? id = some node)
    (hp : node.parent = some p) : nodes.IsParent p id := by
  by_cases hroot : id = root
  · subst hroot
    obtain ⟨node', hid', hnone, -⟩ := h.root_found
    obtain rfl : node' = node := Option.some.inj (hid'.symm.trans hid)
    rw [hnone] at hp
    cases hp
  · obtain ⟨q, hq⟩ := h.exists_parent hid hroot
    obtain rfl : q = p := Option.some.inj ((h.parent_eq hq hid).symm.trans hp)
    exact hq

/-- A strict ancestor of a child is its parent or a strict ancestor of its parent. -/
lemma eq_or_transGen_of_isParent {a p c : NodeId} (hpc : nodes.IsParent p c)
    (hac : Relation.TransGen nodes.IsParent a c) :
    a = p ∨ Relation.TransGen nodes.IsParent a p := by
  obtain ⟨q, haq, hqc⟩ := Relation.TransGen.tail'_iff.1 hac
  obtain rfl := h.parent_unique hqc hpc
  rcases Relation.reflTransGen_iff_eq_or_transGen.1 haq with heq | haq
  · exact .inl heq.symm
  · exact .inr haq

end IsTree

end NodeMap

namespace Derivation

variable {d : Derivation}

/-! ## Rows -/

lemma mem_childrenOf {p c : NodeId} : c ∈ d.childrenOf p ↔ d.nodes.IsParent p c := by
  rw [childrenOf, NodeMap.IsParent]
  cases d.nodes.get? p with
  | none => simp
  | some node => simp

/-- The nodes at a given distance below the root. -/
def row (d : Derivation) : ℕ → List NodeId
  | 0 => [d.root]
  | n + 1 => (d.row n).flatMap d.childrenOf

lemma mem_row_succ {n : ℕ} {c : NodeId} : c ∈ d.row (n + 1) ↔
    ∃ p ∈ d.row n, d.nodes.IsParent p c := by
  simp only [row, List.mem_flatMap, mem_childrenOf]

lemma rowsFrom_row (n k : ℕ) : d.rowsFrom k (d.row n) = (List.range' n k).flatMap d.row := by
  induction k generalizing n with
  | zero => simp [rowsFrom]
  | succ k ih =>
    rw [rowsFrom, List.range'_succ, List.flatMap_cons]
    congr 1
    exact ih (n + 1)

lemma mem_breadthFirst_of_mem_row (hroot : d.nodes.contains d.root = true) {n : ℕ} {id : NodeId}
    (hn : n ≤ d.size) (hid : id ∈ d.row n) : id ∈ d.breadthFirst := by
  rw [breadthFirst, if_pos hroot]
  change id ∈ d.rowsFrom (d.size + 1) (d.row 0)
  rw [rowsFrom_row, List.mem_flatMap]
  exact ⟨n, by rw [List.mem_range'_1]; omega, hid⟩

/-- If the walk down lists no more identifiers than there are nodes, the rows die out: each row
that is not empty adds an identifier. -/
lemma row_size_eq_nil (hroot : d.nodes.contains d.root = true)
    (h : d.breadthFirst.length = d.size) : d.row d.size = [] := by
  by_contra hlast
  have hrows : ∀ k n, n + k = d.size → d.row n ≠ [] := by
    intro k
    induction k with
    | zero =>
      intro n hn
      obtain rfl : n = d.size := hn
      exact hlast
    | succ k ih =>
      intro n hn hrow
      refine ih (n + 1) (by omega) ?_
      rw [row, hrow, List.flatMap_nil]
  have hlength : ∀ ns : List ℕ, (∀ n ∈ ns, d.row n ≠ []) →
    ns.length ≤ (ns.flatMap d.row).length := by
    intro ns
    induction ns with
    | nil => simp
    | cons n ns ih =>
      intro hns
      obtain ⟨hn, hns⟩ := List.forall_mem_cons.1 hns
      have := List.length_pos_of_ne_nil hn
      have := ih hns
      rw [List.flatMap_cons, List.length_append, List.length_cons]
      omega
  rw [breadthFirst, if_pos hroot] at h
  change (d.rowsFrom (d.size + 1) (d.row 0)).length = d.size at h
  rw [rowsFrom_row] at h
  have hle := hlength (List.range' 0 (d.size + 1)) fun n hn => by
    rw [List.mem_range'_1] at hn
    exact hrows (d.size - n) n (by omega)
  rw [h, List.length_range'] at hle
  omega

section

variable (h : d.nodes.IsTree d.root)
include h

lemma exists_mem_row {id : NodeId} {node : Node} (hid : d.nodes.get? id = some node) :
    ∃ n, id ∈ d.row n := by
  have hreach := h.reachable hid
  clear hid
  induction hreach with
  | refl => exact ⟨0, by simp [row]⟩
  | tail _ hpc ih =>
    obtain ⟨n, hn⟩ := ih
    exact ⟨n + 1, mem_row_succ.2 ⟨_, hn, hpc⟩⟩

lemma contains_of_mem_row {n : ℕ} {id : NodeId} (hid : id ∈ d.row n) :
    d.nodes.contains id = true := by
  rw [Table.contains_eq_true_iff]
  cases n with
  | zero =>
    obtain rfl : id = d.root := by simpa [row] using hid
    obtain ⟨node, hnode, -⟩ := h.root_found
    exact ⟨node, hnode⟩
  | succ n =>
    obtain ⟨p, -, hp⟩ := mem_row_succ.1 hid
    obtain ⟨child, hchild, -⟩ := h.child_found hp
    exact ⟨child, hchild⟩

/-- A node lies in one row only. -/
lemma row_unique {m n : ℕ} {id : NodeId} (hm : id ∈ d.row m) (hn : id ∈ d.row n) : m = n := by
  have not_root : ∀ k, d.root ∉ d.row (k + 1) := by
    intro k hk
    obtain ⟨p, -, hp⟩ := mem_row_succ.1 hk
    exact h.not_isParent_root p hp
  induction m generalizing n id with
  | zero =>
    obtain rfl : id = d.root := by simpa [row] using hm
    cases n with
    | zero => rfl
    | succ n => exact absurd hn (not_root n)
  | succ m ih =>
    obtain ⟨p, hpm, hp⟩ := mem_row_succ.1 hm
    cases n with
    | zero =>
      obtain rfl : id = d.root := by simpa [row] using hn
      exact absurd hm (not_root m)
    | succ n =>
      obtain ⟨q, hqn, hq⟩ := mem_row_succ.1 hn
      obtain rfl := h.parent_unique hp hq
      rw [ih hpm hqn]

lemma row_nodup (n : ℕ) : (d.row n).Nodup := by
  induction n with
  | zero => simp [row]
  | succ n ih =>
    rw [row, List.nodup_flatMap]
    constructor
    · intro p _
      rw [childrenOf]
      cases hp : d.nodes.get? p with
      | none => exact List.nodup_nil
      | some node => exact h.children_nodup hp
    · refine ih.imp fun {p q} hpq c hcp hcq => hpq ?_
      exact h.parent_unique (mem_childrenOf.1 hcp) (mem_childrenOf.1 hcq)

/-- The ancestors of a node lie in the rows above it, one in each: rows are fewer than nodes. -/
lemma row_lt_size {n : ℕ} {id : NodeId} (hid : id ∈ d.row n) : n < d.size := by
  have ancestors : ∀ n id, id ∈ d.row n → ∃ path : List NodeId, path.length = n + 1 ∧ path.Nodup ∧
      ∀ a ∈ path, ∃ i ≤ n, a ∈ d.row i := by
    intro n
    induction n with
    | zero => exact fun id hid => ⟨[id], rfl, by simp, by simpa using hid⟩
    | succ n ih =>
      intro id hid
      obtain ⟨p, hpn, -⟩ := mem_row_succ.1 hid
      obtain ⟨path, hlength, hnodup, hrows⟩ := ih p hpn
      refine ⟨id :: path, by simp [hlength], List.nodup_cons.2 ⟨fun hmem => ?_, hnodup⟩, ?_⟩
      · obtain ⟨i, hi, hidi⟩ := hrows id hmem
        have := row_unique h hidi hid
        omega
      · intro a ha
        rcases List.mem_cons.1 ha with rfl | ha
        · exact ⟨n + 1, le_refl _, hid⟩
        · obtain ⟨i, hi, hai⟩ := hrows a ha
          exact ⟨i, by omega, hai⟩
  obtain ⟨path, hlength, hnodup, hrows⟩ := ancestors n id hid
  have hsub : path ⊆ d.nodes.keys := by
    intro a ha
    obtain ⟨i, -, hai⟩ := hrows a ha
    exact Table.mem_keys_iff.2 (contains_of_mem_row h hai)
  have hle := (hnodup.subperm hsub).length_le
  rw [hlength, Table.length_keys] at hle
  exact hle

/-! ## The walk down -/

/-- The walk down from the root lists every node exactly once. -/
lemma breadthFirst_perm : d.breadthFirst.Perm d.nodes.keys := by
  obtain ⟨node, hroot, -⟩ := h.root_found
  have hcontains : d.nodes.contains d.root = true := Table.contains_eq_true_iff.2 ⟨node, hroot⟩
  rw [breadthFirst, if_pos hcontains]
  change (d.rowsFrom (d.size + 1) (d.row 0)).Perm _
  rw [rowsFrom_row]
  refine (List.perm_ext_iff_of_nodup ?_ d.nodes.keys_nodup).2 fun id => ?_
  · refine List.nodup_flatMap.2 ⟨fun n _ => row_nodup h n, ?_⟩
    refine (List.nodup_range' 1).imp fun {m n} hmn id hm hn => hmn ?_
    exact row_unique h hm hn
  · rw [Table.mem_keys_iff, List.mem_flatMap]
    constructor
    · rintro ⟨n, -, hn⟩
      exact contains_of_mem_row h hn
    · intro hid
      obtain ⟨node, hnode⟩ := Table.contains_eq_true_iff.1 hid
      obtain ⟨n, hn⟩ := exists_mem_row h hnode
      have hlt := row_lt_size h hn
      exact ⟨n, by rw [List.mem_range'_1]; omega, hn⟩

lemma length_breadthFirst : d.breadthFirst.length = d.size := by
  rw [(breadthFirst_perm h).length_eq, Table.length_keys, size]

lemma mem_breadthFirst {id : NodeId} : id ∈ d.breadthFirst ↔
    ∃ node, d.nodes.get? id = some node := by
  rw [(breadthFirst_perm h).mem_iff, Table.mem_keys_iff, Table.contains_eq_true_iff]

end

end Derivation

/-! ## The walk up -/

namespace NodeMap

variable {nodes : NodeMap}

lemma find_eq_ok {id : NodeId} {node : Node} : nodes.find id = .ok node ↔
    nodes.get? id = some node := by
  rw [find]
  cases nodes.get? id <;> simp

/-- The path collected by a walk up starts at the ancestor, goes down from parent to child, and
extends the path that was there before. -/
lemma climb_path {root : NodeId} (h : nodes.IsTree root) {bud ancestor : NodeId} {depth : ℕ}
    {v : NodeId} {rest out : List NodeId} {node : Node} (hv : nodes.get? v = some node)
    (hchain : (v :: rest).IsChain nodes.IsParent)
    (hclimb : nodes.climb bud ancestor depth node.parent (v :: rest) = .ok out) :
    ∃ front, out = ancestor :: front ++ v :: rest ∧ out.IsChain nodes.IsParent := by
  induction depth generalizing v rest node with
  | zero => simp [climb] at hclimb
  | succ depth ih =>
    cases hparent : node.parent with
    | none => simp [hparent, climb] at hclimb
    | some p =>
      have hp := h.isParent_of_parent_eq hv hparent
      have hchain' : (p :: v :: rest).IsChain nodes.IsParent :=
        List.isChain_cons_cons.2 ⟨hp, hchain⟩
      rw [hparent, climb] at hclimb
      split at hclimb
      · rename_i heq
        obtain rfl : p :: v :: rest = out := by simpa using hclimb
        exact ⟨[], by rw [heq]; rfl, hchain'⟩
      · obtain ⟨pnode, hfind, hclimb⟩ := Outcome.bind_eq_ok.1 hclimb
        obtain ⟨front, hout, hchain''⟩ := ih (find_eq_ok.1 hfind) hchain' hclimb
        exact ⟨front ++ [p], by simp [hout], hchain''⟩

end NodeMap

namespace Derivation

variable {d : Derivation}

/-- Below a strict ancestor, a walk up as long as the row number is deep finds it. -/
lemma exists_climb_of_mem_row (h : d.nodes.IsTree d.root) {bud ancestor : NodeId} {n depth : ℕ}
    {v : NodeId} {path : List NodeId} {node : Node} (hv : d.nodes.get? v = some node)
    (hn : v ∈ d.row n) (hdepth : n ≤ depth)
    (hancestor : Relation.TransGen d.nodes.IsParent ancestor v) :
    ∃ out, d.nodes.climb bud ancestor depth node.parent path = .ok out := by
  induction n generalizing v depth path node with
  | zero =>
    obtain rfl : v = d.root := by simpa [row] using hn
    obtain ⟨p, -, hp⟩ := Relation.TransGen.tail'_iff.1 hancestor
    exact absurd hp (h.not_isParent_root p)
  | succ n ih =>
    obtain ⟨p, hpn, hp⟩ := mem_row_succ.1 hn
    obtain ⟨pnode, hpnode, -⟩ := id hp
    obtain ⟨depth, rfl⟩ : ∃ k, depth = k + 1 := ⟨depth - 1, by omega⟩
    have hdepth' : n ≤ depth := by omega
    rw [h.parent_eq hp hv, NodeMap.climb]
    by_cases heq : p = ancestor
    · exact ⟨p :: path, by simp [heq]⟩
    · rcases h.eq_or_transGen_of_isParent hp hancestor with rfl | hup
      · exact absurd rfl heq
      · obtain ⟨out, hout⟩ := ih hpnode hpn hdepth' hup
        refine ⟨out, ?_⟩
        rw [if_neg heq]
        exact Outcome.bind_eq_ok.2 ⟨pnode, NodeMap.find_eq_ok.2 hpnode, hout⟩

/-- The walk up from a node finds exactly its strict ancestors. -/
lemma exists_climb_iff (h : d.nodes.IsTree d.root) {bud ancestor : NodeId} {node : Node}
    (hbud : d.nodes.get? bud = some node) :
    (∃ path, d.nodes.climb bud ancestor d.nodes.size node.parent [bud] = .ok path) ↔
      Relation.TransGen d.nodes.IsParent ancestor bud := by
  constructor
  · rintro ⟨path, hpath⟩
    obtain ⟨front, rfl, hchain⟩ := NodeMap.climb_path h hbud (by simp) hpath
    rw [List.cons_append] at hchain
    cases front with
    | nil => exact .single (List.isChain_cons_cons.1 hchain).1
    | cons v front =>
      obtain ⟨hv, hrest⟩ := List.isChain_cons_cons.1 hchain
      refine .head' hv (List.relationReflTransGen_of_exists_isChain_cons _ hrest ?_)
      simp
  · intro hancestor
    obtain ⟨n, hn⟩ := exists_mem_row h hbud
    exact exists_climb_of_mem_row h hbud hn (row_lt_size h hn).le hancestor

end Derivation

end CyclicProof
