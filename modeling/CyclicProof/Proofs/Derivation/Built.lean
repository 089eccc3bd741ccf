import CyclicProof.Proofs.Derivation.Grounds
import CyclicProof.Derivation.Builder
import CyclicProof.Proofs.Record.Loading

/-!
# Where derivations come from

A derivation is finished from a builder or loaded from a record (`Derivation.Obtained`).  A builder
is reached from the empty one by the operations of the library, in any order, with any pool of
identifiers, and with operations that fail half-way (`Builder.Built`).

What an operation keeps is proved step by step along the operation (`Build.Preserves`).  Here this
gives the one fact about the origin of a derivation that acceptance relies on: nodes are stored
under their identifiers (`Derivation.Obtained.idsAgree`).
-/

namespace CyclicProof

/-! ## What computations keep -/

namespace Build

/-- Whether it succeeds or fails, the computation keeps a property of the builder. -/
def Preserves {α : Type} (P : Builder → Prop) (x : Build α) : Prop :=
  ∀ pool b, P b → P (x.run (pool, b)).2.2

section

variable {P : Builder → Prop} {α β : Type}

lemma preserves_pure (a : α) : Preserves P (pure a : Build α) := fun _ _ hb => hb

lemma preserves_get : Preserves P (get : Build (IdPool × Builder)) := fun _ _ hb => hb

lemma run_get_bind (f : IdPool × Builder → Build α) (state : IdPool × Builder) :
    (get >>= f : Build α).run state = (f state).run state := rfl

lemma preserves_liftM (x : Except ProofError α) : Preserves P (liftM x : Build α) := by
  intro pool b hb
  cases x with
  | ok a => exact hb
  | error e => exact hb

lemma preserves_modify {f : Builder → Builder} (hf : ∀ b, P b → P (f b)) :
    Preserves P (modify fun (pool, b) => (pool, f b) : Build PUnit) := fun _ b hb => hf b hb

lemma preserves_bind {x : Build α} {f : α → Build β} (hx : Preserves P x)
    (hf : ∀ a, Preserves P (f a)) : Preserves P (x >>= f) := by
  intro pool b hb
  have hstep := hx pool b hb
  change P (ExceptT.bindCont f (x.run (pool, b)).1 (x.run (pool, b)).2).2.2
  generalize x.run (pool, b) = r at hstep ⊢
  obtain ⟨result, pool', b'⟩ := r
  cases result with
  | ok a => exact hf a pool' b' hstep
  | error e => exact hstep

lemma preserves_mapM {f : α → Build β} (hf : ∀ a, Preserves P (f a)) (l : List α) :
    Preserves P (l.mapM f) := by
  induction l with
  | nil => exact preserves_pure []
  | cons a l ih =>
    rw [List.mapM_cons]
    exact preserves_bind (hf a) fun b => preserves_bind ih fun bs => preserves_pure _

end

end Build

/-! ## Builders -/

namespace Builder

/-- The builder is reached from the empty one by the operations of the library. -/
inductive Built : Builder → Prop
  | empty : Built .empty
  | openGoal {b : Builder} (hb : Built b) (sequent : Sequent) (pool : IdPool) :
      Built ((openGoal sequent).run (pool, b)).2.2
  | applyRule {b : Builder} (hb : Built b) (id : NodeId) (rule : Rule) (pool : IdPool) :
      Built ((applyRule id rule).run (pool, b)).2.2
  | closeInitial {b b' : Builder} (hb : Built b) {id : NodeId} (h : b.closeInitial id = .ok b') :
      Built b'
  | closeByBackEdge {b b' : Builder} (hb : Built b) {id ancestor : NodeId} {σ : Substitution}
      (h : b.closeByBackEdge id ancestor σ = .ok b') : Built b'
  | rollback {b : Builder} (hb : Built b) (c : Checkpoint) : Built (b.rollback c)
  | fork {b : Builder} (hb : Built b) : Built b.fork

/-- Nodes are stored under their identifiers. -/
def IdsAgree (b : Builder) : Prop := b.nodes.IdsAgree

lemma idsAgree_modify {nodes : NodeMap} (h : nodes.IdsAgree) (id : NodeId) (status : NodeStatus) :
    NodeMap.IdsAgree (nodes.modify id fun node => { node with status }) := by
  intro k node hk
  rw [Table.modify, Table.get?_mapValues] at hk
  obtain ⟨node', hnode', rfl⟩ := Option.map_eq_some_iff.1 hk
  split
  · exact h k node' hnode'
  · exact h k node' hnode'

lemma IdsAgree.close {b : Builder} (h : b.IdsAgree) (id : NodeId) (status : NodeStatus) :
    (b.close id status).IdsAgree := by
  rw [Builder.close]
  split
  · exact idsAgree_modify h id status
  · exact h

lemma IdsAgree.addGoal {b : Builder} (h : b.IdsAgree) (id : NodeId) (sequent : Sequent)
    (parent : Option NodeId) (incoming : Option EdgeMark) :
    (b.addGoal id sequent parent incoming).IdsAgree := by
  intro k node hk
  rw [Builder.addGoal, Table.get?_insert] at hk
  split at hk
  · rename_i hkey
    obtain rfl := Option.some.inj hk
    exact hkey.symm
  · exact h k node hk

lemma nodes_nextId (pool : IdPool) (b : Builder) : (nextId.run (pool, b)).2.2.nodes = b.nodes := by
  rw [nextId, Build.run_get_bind]
  dsimp only
  split
  · rfl
  · split
    · rfl
    · split <;> rfl

lemma preserves_create (sequent : Sequent) (parent : Option NodeId) (incoming : Option EdgeMark) :
    Build.Preserves IdsAgree (create sequent parent incoming) := by
  have hnext : Build.Preserves IdsAgree nextId := by
    intro pool b hb
    rw [IdsAgree, nodes_nextId]
    exact hb
  refine Build.preserves_bind hnext fun id => Build.preserves_bind ?_ fun _ =>
    Build.preserves_pure id
  exact Build.preserves_modify fun b hb => hb.addGoal id sequent parent incoming

lemma preserves_openGoal (sequent : Sequent) : Build.Preserves IdsAgree (openGoal sequent) := by
  have hempty : NodeMap.IdsAgree .empty := fun id node hid => by simp at hid
  refine Build.preserves_bind (Build.preserves_modify fun _ _ => hempty) fun _ => ?_
  refine Build.preserves_bind (preserves_create sequent none none) fun root => ?_
  refine Build.preserves_bind ?_ fun _ => Build.preserves_pure root
  exact Build.preserves_modify fun b hb => hb

lemma preserves_applyRule (id : NodeId) (rule : Rule) :
    Build.Preserves IdsAgree (applyRule id rule) := by
  refine Build.preserves_bind Build.preserves_get fun ⟨_, b⟩ => ?_
  refine Build.preserves_bind (Build.preserves_liftM _) fun node => ?_
  refine Build.preserves_bind (Build.preserves_liftM _) fun application => ?_
  refine Build.preserves_bind ?_ fun children => ?_
  · exact Build.preserves_mapM (fun premise => preserves_create premise _ _) _
  · refine Build.preserves_bind ?_ fun _ => Build.preserves_pure children
    exact Build.preserves_modify fun b hb => hb.close id _

lemma IdsAgree.undo {b : Builder} (h : b.IdsAgree) (entry : JournalEntry) :
    (b.undo entry).IdsAgree := by
  cases entry with
  | created id =>
    intro k node hk
    rw [Builder.undo, Table.get?_erase] at hk
    split at hk
    · cases hk
    · exact h k node hk
  | closed id =>
    rw [Builder.undo]
    split
    · exact idsAgree_modify h id .goal
    · exact h

/-- Every builder stores its nodes under their identifiers. -/
lemma Built.idsAgree {b : Builder} (h : b.Built) : b.IdsAgree := by
  induction h with
  | empty => exact fun id node hid => by simp [Builder.empty] at hid
  | openGoal _ sequent pool ih => exact preserves_openGoal sequent pool _ ih
  | applyRule _ id rule pool ih => exact preserves_applyRule id rule pool _ ih
  | closeInitial _ h ih =>
    rw [Builder.closeInitial, Outcome.bind_eq_ok] at h
    obtain ⟨node, -, h⟩ := h
    split at h
    · rw [← Outcome.pure_eq_ok.1 h]
      exact ih.close _ _
    · cases h
  | closeByBackEdge _ h ih =>
    rw [Builder.closeByBackEdge, Outcome.bind_eq_ok] at h
    obtain ⟨segment, -, h⟩ := h
    rw [← Outcome.pure_eq_ok.1 h]
    exact ih.close _ _
  | @rollback b _ c ih =>
    have hundo : ∀ (entries : List JournalEntry) (b : Builder), b.IdsAgree →
        (entries.foldl Builder.undo b).IdsAgree := by
      intro entries
      induction entries with
      | nil => exact fun b hb => hb
      | cons entry entries ih => exact fun b hb => ih _ (hb.undo entry)
    exact hundo _ b ih
  | fork _ ih => exact ih

end Builder

/-! ## Derivations -/

/-- The derivation is finished from a builder or loaded from a record. -/
def Derivation.Obtained (d : Derivation) : Prop :=
  (∃ b : Builder, b.Built ∧ b.finish = .ok d) ∨ ∃ r, Derivation.ofRecord r = .ok d

lemma Derivation.Obtained.idsAgree {d : Derivation} (h : d.Obtained) : d.nodes.IdsAgree := by
  rcases h with ⟨b, hb, hfinish⟩ | ⟨r, hr⟩
  · rw [Builder.finish] at hfinish
    split at hfinish
    · cases hfinish
    · split at hfinish
      · obtain rfl := Except.ok.inj hfinish
        exact hb.idsAgree
      · cases hfinish
  · obtain ⟨-, -, -, hdescribes⟩ := Record.ofRecord_ok hr
    intro id node hid
    obtain ⟨e, -, rfl, hnode⟩ := hdescribes.entry hid
    exact hnode.id_eq

end CyclicProof
