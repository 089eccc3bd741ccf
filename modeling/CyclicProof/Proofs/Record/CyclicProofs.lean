import CyclicProof.Proofs.Trace.Condition
import CyclicProof.Record.Basic
import Mathlib.Data.List.Count
import Mathlib.Data.List.Nodup

/-!
# Cyclic proofs, declaratively

What it means for a record to be a cyclic proof of a sequent is said here about the record itself,
without loading it: `Record.IsCyclicProof`.

* The entries form a tree (`Record.IsTree`), and their sequents are well-formed.
* Every entry is justified (`Record.Justified`): rules yield the sequents of the children, initial
  entries are initial, and buds return to strict ancestors.
* Every closed walk along tree edges and back-edges progresses.

A record keeps no marks.  The mark of the edge to an entry is determined by the rules on the way
down from the root (`Record.Incoming`), because a rule may look at the mark of the edge above it.
-/

namespace CyclicProof

namespace Record

/-! ## Trees -/

/-- The identifiers of the entries. -/
def ids (r : Record) : List NodeId := r.entries.map RecordEntry.id

/-- The child lists of all entries, one after the other. -/
def allChildren (r : Record) : List NodeId := r.entries.flatMap childrenOf

/-- The entry `c` is listed among the children of the entry `p`. -/
def IsParent (r : Record) (p c : NodeId) : Prop := ∃ e ∈ r.entries, e.id = p ∧ c ∈ childrenOf e

/-- The entries form a tree below the root. -/
structure IsTree (r : Record) : Prop where
  /-- Identifiers are unique. -/
  ids_nodup : r.ids.Nodup
  /-- The root is listed. -/
  root_listed : r.root ∈ r.ids
  /-- Every child is listed. -/
  children_listed : ∀ c ∈ r.allChildren, c ∈ r.ids
  /-- The root is nobody's child. -/
  root_not_child : r.root ∉ r.allChildren
  /-- Every other entry occurs once among all children: in one list only, and once there. -/
  one_parent : ∀ id ∈ r.ids, id ≠ r.root → r.allChildren.count id = 1
  /-- Every entry is reached from the root. -/
  reachable : ∀ id ∈ r.ids, Relation.ReflTransGen r.IsParent r.root id

variable {r : Record}

lemma mem_allChildren {c : NodeId} : c ∈ r.allChildren ↔ ∃ p, r.IsParent p c := by
  simp only [allChildren, List.mem_flatMap, IsParent]
  exact ⟨fun ⟨e, he, hc⟩ => ⟨e.id, e, he, rfl, hc⟩, fun ⟨_, e, he, _, hc⟩ => ⟨e, he, hc⟩⟩

lemma entry_unique (h : r.ids.Nodup) {e f : RecordEntry} (he : e ∈ r.entries) (hf : f ∈ r.entries)
    (hid : e.id = f.id) : e = f :=
  List.inj_on_of_nodup_map h he hf hid

namespace IsTree

variable (h : r.IsTree)
include h

lemma allChildren_nodup : r.allChildren.Nodup := by
  refine List.nodup_iff_count_le_one.2 fun id => ?_
  by_cases hmem : id ∈ r.allChildren
  · have hne : id ≠ r.root := fun heq => h.root_not_child (heq ▸ hmem)
    exact (h.one_parent id (h.children_listed id hmem) hne).le
  · simp [List.count_eq_zero_of_not_mem hmem]

lemma parent_unique {p q c : NodeId} (hp : r.IsParent p c) (hq : r.IsParent q c) : p = q := by
  obtain ⟨e, he, rfl, hce⟩ := hp
  obtain ⟨f, hf, rfl, hcf⟩ := hq
  by_contra hne
  have hdisjoint := (List.nodup_flatMap.1 h.allChildren_nodup).2
  have hef : e ≠ f := fun heq => hne (heq ▸ rfl)
  have hsymm : Std.Symm (Function.onFun List.Disjoint childrenOf) :=
    ⟨fun _ _ hdis _ ha hb => hdis hb ha⟩
  exact hdisjoint.forall he hf hef hce hcf

lemma children_nodup {e : RecordEntry} (he : e ∈ r.entries) : (childrenOf e).Nodup :=
  (List.nodup_flatMap.1 h.allChildren_nodup).1 e he

end IsTree

/-! ## Marks -/

/-- The mark of the edge to an entry, and `none` at the root.  An edge carries the mark that the
rule above it yields. -/
inductive Incoming (r : Record) : NodeId → Option EdgeMark → Prop
  | root : Incoming r r.root none
  | child {e : RecordEntry} {rule : Rule} {children : List NodeId} {incoming : Option EdgeMark}
      {application : RuleApplication} {c : NodeId} :
      e ∈ r.entries → e.step = .byRule rule children → Incoming r e.id incoming →
      rule.apply e.sequent incoming = .ok application → c ∈ children →
      Incoming r c (some application.mark)

/-- The rule of an entry yields `application` there. -/
def Yields (r : Record) (e : RecordEntry) (application : RuleApplication) : Prop :=
  ∃ rule children incoming, e.step = .byRule rule children ∧ r.Incoming e.id incoming ∧
    rule.apply e.sequent incoming = .ok application

/-- In a tree there is one mark on the edge to an entry. -/
lemma Incoming.unique (h : r.IsTree) {id : NodeId} {m m' : Option EdgeMark} (hm : r.Incoming id m)
    (hm' : r.Incoming id m') : m = m' := by
  have isParent : ∀ {e rule children c}, e ∈ r.entries → e.step = .byRule rule children →
      c ∈ children → r.IsParent e.id c := fun {e _ _ _} he hstep hc =>
    ⟨e, he, rfl, by simpa [childrenOf, hstep] using hc⟩
  induction hm generalizing m' with
  | root =>
    generalize hroot : r.root = id at hm'
    cases hm' with
    | root => rfl
    | child he hstep _ _ hc =>
      exact absurd (mem_allChildren.2 ⟨_, isParent he hstep hc⟩) (hroot ▸ h.root_not_child)
  | child he hstep _ happly hc ih =>
    have hparent := isParent he hstep hc
    cases hm' with
    | root => exact absurd (mem_allChildren.2 ⟨_, hparent⟩) h.root_not_child
    | child he' hstep' hincoming' happly' hc' =>
      have heq := h.parent_unique hparent (isParent he' hstep' hc')
      obtain rfl := entry_unique h.ids_nodup he he' heq
      obtain ⟨rfl, -⟩ := RecordStep.byRule.inj (hstep.symm.trans hstep')
      rw [ih hincoming', happly'] at happly
      cases happly
      rfl

lemma Yields.unique (h : r.IsTree) {e : RecordEntry} {a b : RuleApplication} (ha : r.Yields e a)
    (hb : r.Yields e b) : a = b := by
  obtain ⟨rule, children, m, hstep, hm, happly⟩ := ha
  obtain ⟨rule', children', m', hstep', hm', happly'⟩ := hb
  obtain ⟨rfl, -⟩ := RecordStep.byRule.inj (hstep.symm.trans hstep')
  rw [hm.unique h hm', happly'] at happly
  exact (Except.ok.inj happly).symm

/-! ## Proofs -/

/-- The tree edges and back-edges of a record. -/
inductive IsEdge (r : Record) : LabelledEdge → Prop
  | tree {e : RecordEntry} {application : RuleApplication} {c : NodeId} :
      e ∈ r.entries → r.Yields e application → c ∈ childrenOf e →
      IsEdge r ⟨e.id, c, .tree application.mark⟩
  | back {e : RecordEntry} {target : NodeId} {σ : Substitution} :
      e ∈ r.entries → e.step = .backEdge target σ → IsEdge r ⟨e.id, target, .back⟩

/-- The entry with this identifier has this sequent, up to bound names. -/
def HasSequent (r : Record) (id : NodeId) (s : Sequent) : Prop :=
  ∃ e ∈ r.entries, e.id = id ∧ e.sequent.alphaEquiv s = true

/-- How an entry has to be justified.  The target of a back-edge is a strict ancestor whose sequent
is taken to that of the bud; and if the target starts with a guarded unfold, the bud is reached
through a guard. -/
def Justified (r : Record) (e : RecordEntry) : Prop :=
  match e.step with
  | .goal => False
  | .initial => e.sequent.isInitial = true
  | .byRule _ children => ∃ application, r.Yields e application ∧
      List.Forall₂ r.HasSequent children application.premises
  | .backEdge target σ => Relation.TransGen r.IsParent target e.id ∧
    ∃ f ∈ r.entries, f.id = target ∧
      (∃ image, f.sequent.substitute σ = .ok image ∧ image.alphaEquiv e.sequent = true) ∧
      ∀ application, r.Yields f application → application.mark.isGuarded = true →
        r.Incoming e.id (some .guard)

/-- The record is a cyclic proof of `s` whose closed walks progress under `policy`. -/
structure IsCyclicProof (r : Record) (s : Sequent) (policy : ProgressPolicy) : Prop where
  /-- The entries form a tree. -/
  tree : r.IsTree
  /-- All sequents are well-formed. -/
  well_formed : ∀ e ∈ r.entries, e.sequent.isWellFormed = true
  /-- The root carries the sequent that is proved. -/
  root_sequent : r.HasSequent r.root s
  /-- Every entry is justified. -/
  justified : ∀ e ∈ r.entries, r.Justified e
  /-- Every closed walk passes through an edge that progresses. -/
  progress : ∀ walk, IsClosedWalk r.IsEdge walk → ∃ e ∈ walk, policy.edgeProgresses e.label = true

end Record

end CyclicProof
