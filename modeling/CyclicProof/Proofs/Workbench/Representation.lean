import CyclicProof.Proofs.Workbench

/-!
# What a builder represents

A builder keeps its nodes, its open goals and its segments in three places, and links nodes both
ways.  They agree with one another (`Builder.Represents`): the goals are the open nodes, every node
but the root hangs below a node whose rule yields it, and the segments are the paths of the
back-edges.  This holds in every run that uses checkpoints properly, as long as identifiers last,
for every builder on which a derivation was started (`Workbench.represents_of_started`).

Soundness says most of it (`Builder.Sound`).  What it leaves out is the way in which nodes came into
being: children got larger identifiers than all nodes before them, and their sequents are the
premises as computed, not only up to bound names (`NodeMap.Grown`).
-/

namespace CyclicProof

/-! ## Nodes below rules -/

namespace NodeMap

/-- The rule yields the mark and the children.  Of children that are not there, nothing is said. -/
def Yields (nodes : NodeMap) (node : Node) (rule : Rule) (children : List NodeId)
    (mark : EdgeMark) : Prop :=
  ∃ application, rule.apply node.sequent node.incoming = .ok application ∧
    application.mark = mark ∧
    List.Forall₂ (fun c premise => ∀ child, nodes.get? c = some child → child.sequent = premise)
      children application.premises

/-- Children came after their parents, with the sequents that the rule yields. -/
structure Grown (nodes : NodeMap) : Prop where
  lt_child : ∀ {p c}, nodes.IsParent p c → p < c
  yields : ∀ {id node rule children mark}, nodes.get? id = some node →
    node.status = .byRule rule children mark → nodes.Yields node rule children mark

variable {nodes nodes' : NodeMap} {root id : NodeId} {node : Node} {rule : Rule}
  {children : List NodeId} {mark : EdgeMark} {status : NodeStatus}

/-- What matters are the sequents of the children. -/
lemma Yields.congr {node' : Node} (h : nodes.Yields node rule children mark)
    (hsequent : node'.sequent = node.sequent) (hincoming : node'.incoming = node.incoming)
    (hchildren : ∀ c ∈ children, ∀ child', nodes'.get? c = some child' →
      ∃ child, nodes.get? c = some child ∧ child'.sequent = child.sequent) :
    nodes'.Yields node' rule children mark := by
  obtain ⟨application, happly, hmark, hpremises⟩ := h
  refine ⟨application, by rw [hsequent, hincoming, happly], hmark, ?_⟩
  have hmem := List.forall₂_iff_zip.1 hpremises
  refine List.forall₂_iff_zip.2 ⟨hmem.1, fun {c premise} hc child' hchild' => ?_⟩
  obtain ⟨child, hchild, hsame⟩ := hchildren c (List.of_mem_zip hc).1 child' hchild'
  exact hsame.trans (hmem.2 hc child hchild)

namespace Grown

lemma empty : Grown .empty where
  lt_child := by
    rintro p c ⟨node, hp, -⟩
    cases hp
  yields hid := by cases hid

/-- A single goal. -/
lemma insert_goal (id : NodeId) (sequent : Sequent) :
    Grown (.insert .empty id ⟨id, sequent, .goal, none, none⟩) := by
  have hnode : ∀ {k n}, (Table.insert .empty id ⟨id, sequent, .goal, none, none⟩ : NodeMap).get? k =
      some n → n.status = .goal := by
    intro k n hk
    rw [Table.get?_insert] at hk
    split at hk
    · rw [← Option.some.inj hk]
    · cases hk
  constructor
  · rintro p c ⟨n, hp, hc⟩
    rw [Node.children_eq, hnode hp] at hc
    exact absurd hc List.not_mem_nil
  · intro k n rule children mark hk hstatus
    rw [hnode hk] at hstatus
    cases hstatus

/-- A goal of a tree is closed. -/
lemma closes (h : nodes.Grown) (htree : nodes.IsTree root)
    (hcloses : nodes.Closes nodes' id node status) (hlt : ∀ c ∈ status.children, id < c)
    (hyields : ∀ rule children mark, status = .byRule rule children mark →
      nodes'.Yields node rule children mark) : nodes'.Grown where
  lt_child {p c} hpc := by
    rcases hcloses.isParent_cases hpc with ⟨rfl, hc⟩ | hpc
    · exact hlt c hc
    · exact h.lt_child hpc
  yields {k n rule children mark} hk hstatus := by
    rcases hcloses.cases hk with ⟨-, rfl⟩ | ⟨-, sequent, mark', rfl⟩ | ⟨-, hk⟩
    · exact hyields rule children mark hstatus
    · cases hstatus
    · refine (h.yields hk hstatus).congr rfl rfl fun c hc child' hchild' => ?_
      -- The children of a node of the tree were there before.
      have hkc : nodes.IsParent k c := ⟨n, hk, by rwa [Node.children_eq, hstatus]⟩
      obtain ⟨child, hchild, -⟩ := htree.child_found hkc
      obtain ⟨status', hchild'', -⟩ := hcloses.extends_nodes c child hchild
      refine ⟨child, hchild, ?_⟩
      rw [Option.some.inj (hchild'.symm.trans hchild'')]

/-- Fewer nodes, or fewer closed ones. -/
lemma of_undone (h : nodes.Grown) (hundone : ∀ {k n'}, nodes'.get? k = some n' →
      ∃ n, nodes.get? k = some n ∧ n'.sequent = n.sequent ∧ n'.incoming = n.incoming ∧
        (n'.status = n.status ∨ n'.status = .goal)) : nodes'.Grown where
  lt_child := by
    rintro p c ⟨n', hp, hc⟩
    obtain ⟨n, hp', -, -, hstatus | hstatus⟩ := hundone hp
    · rw [Node.children_eq, hstatus, ← Node.children_eq] at hc
      exact h.lt_child ⟨n, hp', hc⟩
    · rw [Node.children_eq, hstatus] at hc
      exact absurd hc List.not_mem_nil
  yields {k n' rule children mark} hk hrule := by
    obtain ⟨n, hk', hsequent, hincoming, hstatus | hstatus⟩ := hundone hk
    · refine (h.yields hk' (hstatus.symm.trans hrule)).congr hsequent hincoming ?_
      intro c _ child' hchild'
      obtain ⟨child, hchild, hsame, -⟩ := hundone hchild'
      exact ⟨child, hchild, hsame⟩
    · rw [hstatus] at hrule
      cases hrule

lemma undo {b : Builder} (h : b.nodes.Grown) (entry : JournalEntry) :
    (b.undo entry).nodes.Grown := by
  refine h.of_undone fun {k n'} hk => ?_
  cases entry with
  | created id =>
    rw [Builder.undo, Table.get?_erase] at hk
    split at hk
    · cases hk
    · exact ⟨n', hk, rfl, rfl, .inl rfl⟩
  | closed id =>
    rw [Builder.undo] at hk
    split at hk
    · rw [Table.get?_modify] at hk
      split at hk
      · obtain ⟨n, hn, rfl⟩ := Option.map_eq_some_iff.1 hk
        exact ⟨n, hn, rfl, rfl, .inr rfl⟩
      · exact ⟨n', hk, rfl, rfl, .inl rfl⟩
    · exact ⟨n', hk, rfl, rfl, .inl rfl⟩

lemma rollback {b : Builder} (h : b.nodes.Grown) (c : Checkpoint) :
    (b.rollback c).nodes.Grown :=
  @Builder.foldl_undo_of_undo b (fun b => b.nodes.Grown) undo _ h

end Grown

/-- The node hangs below the node `p`, which is closed by a rule: it is listed once, it came later,
and it has the mark and the sequent that the rule yields at its place. -/
structure Hangs (nodes : NodeMap) (id : NodeId) (node : Node) (p : NodeId) : Prop where
  parent_eq : node.parent = some p
  lt : p < id
  yielded : ∃ parent rule children mark application, ∃ i : ℕ, nodes.get? p = some parent ∧
    parent.status = .byRule rule children mark ∧ children.count id = 1 ∧
    node.incoming = some mark ∧
    rule.apply parent.sequent parent.incoming = .ok application ∧ application.mark = mark ∧
    children[i]? = some id ∧ application.premises[i]? = some node.sequent

/-- In a tree that has grown, all nodes but the root hang below rules. -/
lemma Grown.exists_hangs (h : nodes.Grown) (htree : nodes.IsTree root)
    (hid : nodes.get? id = some node) (hroot : id ≠ root) : ∃ p, nodes.Hangs id node p := by
  obtain heq | ⟨p, -, hparent⟩ := Relation.ReflTransGen.cases_tail (htree.reachable hid)
  · exact absurd heq hroot
  refine ⟨p, htree.parent_eq hparent hid, h.lt_child hparent, ?_⟩
  obtain ⟨parent, hp, hmem⟩ := hparent
  have hnodup := htree.children_nodup hp
  obtain ⟨rule, children, mark, hstatus, hc⟩ := Node.exists_rule_of_mem_children hmem
  rw [Node.children_eq, hstatus] at hnodup
  obtain ⟨application, happly, hmark, hpremises⟩ := h.yields hp hstatus
  obtain ⟨i, hi⟩ := List.getElem?_of_mem hc
  obtain ⟨hlt, hget⟩ := List.getElem?_eq_some_iff.1 hi
  have hlt' : i < application.premises.length := hpremises.length_eq ▸ hlt
  have hsequent := hpremises.get hlt hlt' node
  rw [List.get_eq_getElem, hget] at hsequent
  refine ⟨parent, rule, children, mark, application, i, hp, hstatus,
    List.count_eq_one_of_mem hnodup hc, htree.child_incoming hp hstatus hc hid, happly, hmark, hi,
    List.getElem?_eq_some_iff.2 ⟨hlt', (hsequent hid).symm⟩⟩

end NodeMap

/-! ## Builders -/

namespace Builder

variable {b b' : Builder} {pool pool' : IdPool} {id : NodeId} {node : Node} {status : NodeStatus}

/-- Nodes, goals and segments of the builder agree: they represent a derivation under construction
with the given root. -/
structure Represents (b : Builder) (root : NodeId) : Prop where
  goals_iff : ∀ id, b.goals.contains id = true ↔
    ∃ node, b.nodes.get? id = some node ∧ node.status = .goal
  root_found : ∃ node, b.nodes.get? root = some node ∧ node.parent = none ∧ node.incoming = none
  hangs : ∀ id node, b.nodes.get? id = some node → id ≠ root → ∃ p, b.nodes.Hangs id node p
  traced : b.nodes.Traced b.segments

lemma Sound.represents {root : NodeId} (h : b.Sound) (hgrown : b.nodes.Grown)
    (hroot : b.root = some root) : b.Represents root where
  goals_iff _ := h.goals_iff
  root_found := (h.isTree hroot).root_found
  hangs _ _ hid hne := hgrown.exists_hangs (h.isTree hroot) hid hne
  traced := h.traced

/-- A leaf is closed. -/
lemma grown_close (hb : b.Sound) (hids : b.DrawsFrom pool) (h : b.nodes.Grown)
    (hfound : b.findGoal id = .ok node)
    (hrule : ∀ rule children mark, status ≠ .byRule rule children mark) :
    (b.close id status).nodes.Grown := by
  have htidy := hb.tidy hids
  have hcloses := closes_of_findGoal htidy hfound hrule
  obtain ⟨root, hroot⟩ := hb.exists_root hcloses.found
  refine h.closes (hb.isTree hroot) hcloses (fun c hc => ?_)
    fun rule children mark heq => absurd heq (hrule rule children mark)
  cases status with
  | byRule rule children mark => exact absurd rfl (hrule rule children mark)
  | _ => exact absurd hc List.not_mem_nil

/-- A rule is applied. -/
lemma grown_applyRule {rule : Rule} {result : Except ProofError (List NodeId)} (hb : b.Sound)
    (hids : b.DrawsFrom pool) (h : b.nodes.Grown)
    (hrun : (applyRule id rule).run (pool, b) = (result, pool', b'))
    (hresult : result ≠ .error .idsExhausted) : b'.nodes.Grown := by
  have htidy := hb.tidy hids
  rcases applyRule_cases hrun with ⟨e, -, -, -, rfl⟩ | ⟨application, hsome, hcreate⟩
  · exact h
  obtain ⟨node, hfound, happly⟩ := applicationAt_eq_ok.1 hsome
  obtain ⟨hnode, hgoal, -⟩ := htidy.findGoal_eq_ok hfound
  rcases hcreate with ⟨e, hcreate, rfl⟩ | ⟨children, b'', hcreate, rfl, rfl⟩
  · obtain ⟨rfl, -⟩ := mapM_create_error hids htidy.contains_of_goal hcreate
    exact absurd rfl hresult
  · obtain ⟨hspawns, -⟩ := mapM_create_ok hids htidy.contains_of_goal hcreate
    obtain ⟨root, hroot⟩ := hb.exists_root hnode
    have hcontains : b.nodes.contains id = true := Table.contains_eq_true_iff.2 ⟨node, hnode⟩
    refine h.closes (hb.isTree hroot) (hspawns.closes_byRule hnode hgoal)
      (fun c hc => lt_of_mapM_create hids hcreate hc hcontains) fun rule' children' mark' heq => ?_
    obtain ⟨rfl, rfl, rfl⟩ := NodeStatus.byRule.inj heq
    refine ⟨application, happly, rfl, hspawns.created.imp fun c premise hc child hchild => ?_⟩
    obtain ⟨status, hc'⟩ := exists_get?_close hc id (.byRule rule children application.mark)
    rw [Option.some.inj (hchild.symm.trans hc')]

lemma grown_openGoal {sequent : Sequent} {result : Except ProofError NodeId}
    (hids : b.DrawsFrom pool) (hrun : (openGoal sequent).run (pool, b) = (result, pool', b')) :
    b'.nodes.Grown := by
  obtain ⟨-, -, ⟨root, -, hb'⟩ | ⟨-, ids, rfl⟩⟩ := openGoal_run hids hrun
  · rw [hb']
    exact .insert_goal root sequent
  · exact .empty

end Builder

/-! ## Runs -/

namespace Workbench

lemma root_effect {w : Workbench} (h : w.Tidy) {command : Command}
    (hopen : command.isOpenGoal = false) : (w.effect command).2.root = w.builder.root := by
  by_cases hrollback : ∃ number, command = .rollback number
  · obtain ⟨number, rfl⟩ := hrollback
    rw [effect]
    cases w.checkpoints[number]? with
    | none => rfl
    | some c =>
      show (w.builder.rollback c).root = _
      rw [Builder.rollback, Builder.foldl_undo_eq]
  · exact (h.moves hopen fun number hnumber => hrollback ⟨number, hnumber⟩).reverts.root_eq

namespace Tracked

variable {t : Tracked} {command : Command} {commands : List Command}

lemma Orderly.tidy (h : t.Orderly) : t.bench.Tidy := by
  refine ⟨h.current_lt, fun {b} hb => ?_⟩
  obtain ⟨i, hi⟩ := List.getElem?_of_mem hb
  exact (h.builders hi).sound.tidy (h.builders hi).drawsFrom

/-- What one command keeps. -/
lemma Orderly.grown_effect (h : t.Orderly) (hadmits : t.Admits command)
    (hgrown : t.bench.builder.nodes.Grown) : (t.bench.effect command).2.nodes.Grown := by
  have hsound := h.builder.sound
  have hids := h.builder.drawsFrom
  cases command with
  | openGoal sequent => exact Builder.grown_openGoal hids rfl
  | applyRule id rule =>
    exact Builder.grown_applyRule hsound hids hgrown rfl (build_not_exhausted hadmits.2)
  | closeInitial id =>
    rw [Workbench.effect]
    cases hclose : t.bench.builder.closeInitial id with
    | ok b =>
      obtain ⟨node, hfound, -, rfl⟩ := Builder.closeInitial_eq_ok.1 hclose
      exact Builder.grown_close hsound hids hgrown hfound fun _ _ _ heq => by cases heq
    | error e => exact hgrown
  | closeByBackEdge id ancestor σ =>
    rw [Workbench.effect]
    cases hclose : t.bench.builder.closeByBackEdge id ancestor σ with
    | ok b =>
      obtain ⟨node, segment, hfound, -, rfl⟩ := Builder.closeByBackEdge_eq_ok.1 hclose
      exact Builder.grown_close hsound hids hgrown hfound fun _ _ _ heq => by cases heq
    | error e => exact hgrown
  | rollback number =>
    rw [Workbench.effect]
    cases t.bench.checkpoints[number]? with
    | some c => exact hgrown.rollback c
    | none => exact hgrown
  | _ => exact hgrown

/-- The builders with a derivation after a command, if those before it are given. -/
def startedAfter (t : Tracked) (started : List ℕ) : Command → List ℕ
  | .openGoal _ => t.bench.current :: started
  | .fork => if t.bench.current ∈ started then t.bench.builders.length :: started else started
  | _ => started

/-- The builders on which a derivation was started in a run, themselves or before they were
forked. -/
def startedBy (t : Tracked) (started : List ℕ) : List Command → List ℕ
  | [] => started
  | command :: commands => (t.step command).startedBy (t.startedAfter started command) commands

/-- What holds of the builders in addition to order. -/
structure Representing (t : Tracked) (started : List ℕ) : Prop where
  orderly : t.Orderly
  grown : ∀ b ∈ t.bench.builders, b.nodes.Grown
  rooted : ∀ i ∈ started, ∃ b root, t.bench.builders[i]? = some b ∧ b.root = some root

namespace Representing

variable {started : List ℕ}

lemma start (pool : IdPool) : (start pool).Representing [] where
  orderly := .start pool
  grown b hb := by
    rw [List.mem_singleton.1 hb]
    exact .empty
  rooted i hi := absurd hi List.not_mem_nil

/-- Whatever is done, a builder with a root has one afterwards. -/
lemma exists_root_effect (h : t.Representing started) (hadmits : t.Admits command)
    (hroot : command.isOpenGoal = true ∨ ∃ root, t.bench.builder.root = some root) :
    ∃ root, (t.bench.effect command).2.root = some root := by
  cases hopen : command.isOpenGoal with
  | true =>
    cases command with
    | openGoal sequent =>
      have hresult := build_not_exhausted hadmits.2
      rw [Workbench.effect]
      rcases hrun : (Builder.openGoal sequent).run (t.bench.pool, t.bench.builder) with
        ⟨result, pool, b⟩
      obtain ⟨-, -, ⟨root, -, hb⟩ | ⟨rfl, -⟩⟩ :=
        Builder.openGoal_run h.orderly.builder.drawsFrom hrun
      · exact ⟨root, by rw [hb]⟩
      · exact absurd (congrArg Prod.fst hrun) hresult
    | _ => cases hopen
  | false =>
    rw [root_effect h.orderly.tidy hopen]
    exact hroot.resolve_left (by simp [hopen])

/-- What one command keeps. -/
lemma step (h : t.Representing started) (hadmits : t.Admits command) :
    (t.step command).Representing (t.startedAfter started command) := by
  have hlt := h.orderly.current_lt
  have hbuilders : (t.step command).bench.builders =
      t.bench.builders.set t.bench.current (t.bench.effect command).2 ++ t.bench.added command :=
    builders_exec hlt command
  have hcurrent : (t.step command).bench.builders[t.bench.current]? =
      some (t.bench.effect command).2 := by
    rw [hbuilders, List.getElem?_append_left (by rwa [List.length_set]), List.getElem?_set_self hlt]
  refine ⟨h.orderly.step hadmits, fun b hb => ?_, fun i hi => ?_⟩
  · have hbuilder := h.grown _ (List.mem_of_getElem? (getElem?_current hlt))
    obtain ⟨i, hi⟩ := List.getElem?_of_mem hb
    rcases step_builders_cases hlt hi with ⟨-, rfl⟩ | ⟨hi, -⟩ | ⟨-, rfl, -⟩
    · exact h.orderly.grown_effect hadmits hbuilder
    · exact h.grown b (List.mem_of_getElem? hi)
    · exact hbuilder
  · have hkept : ∀ i ∈ started, ∃ b root, (t.step command).bench.builders[i]? = some b ∧
        b.root = some root := by
      intro i hi
      obtain ⟨b, root, hb, hroot⟩ := h.rooted i hi
      by_cases heq : t.bench.current = i
      · subst heq
        obtain rfl := Option.some.inj ((getElem?_current hlt).symm.trans hb)
        obtain ⟨root', hroot'⟩ := h.exists_root_effect hadmits (.inr ⟨root, hroot⟩)
        exact ⟨_, root', hcurrent, hroot'⟩
      · have hilt := (List.getElem?_eq_some_iff.1 hb).1
        refine ⟨b, root, ?_, hroot⟩
        rw [hbuilders, List.getElem?_append_left (by rwa [List.length_set]),
          List.getElem?_set_ne heq, hb]
    cases command with
    | openGoal sequent =>
      rcases List.mem_cons.1 hi with rfl | hi
      · obtain ⟨root, hroot⟩ := h.exists_root_effect hadmits (.inl rfl)
        exact ⟨_, root, hcurrent, hroot⟩
      · exact hkept i hi
    | fork =>
      rw [startedAfter] at hi
      split at hi
      · rename_i hmem
        rcases List.mem_cons.1 hi with rfl | hi
        · obtain ⟨b, root, hb, hroot⟩ := h.rooted _ hmem
          obtain rfl := Option.some.inj ((getElem?_current hlt).symm.trans hb)
          refine ⟨t.bench.builder.fork, root, ?_, hroot⟩
          rw [hbuilders, List.getElem?_append_right (by rw [List.length_set]), List.length_set,
            Nat.sub_self]
          rfl
        · exact hkept i hi
      · exact hkept i hi
    | _ => exact hkept i hi

/-- What runs keep. -/
lemma run (h : t.Representing started) (hadmits : t.AdmitsAll commands) :
    (t.run commands).Representing (t.startedBy started commands) := by
  induction commands generalizing t started with
  | nil => exact h
  | cons command commands ih => exact ih (h.step hadmits.1) hadmits.2

end Representing

end Tracked

/-- **Builders represent derivations under construction.**  After any run that uses checkpoints
properly and does not run out of identifiers, on every builder on which a derivation was started,
itself or before it was forked: the goals are the open nodes, the root is the only node without
parent and mark, all other nodes hang below nodes that came before them and are closed by rules that
yield them, and the segments are the paths that the back-edges close. -/
theorem represents_of_started {pool : IdPool} {commands : List Command}
    (hrun : (Tracked.start pool).AdmitsAll commands) {i : ℕ}
    (hi : i ∈ (Tracked.start pool).startedBy [] commands) :
    ∃ b root, ((Tracked.start pool).run commands).bench.builders[i]? = some b ∧
      b.root = some root ∧ b.Represents root := by
  have hrepresenting := (Tracked.Representing.start pool).run hrun
  obtain ⟨b, root, hb, hroot⟩ := hrepresenting.rooted i hi
  have hsound := (hrepresenting.orderly.builders hb).sound
  exact ⟨b, root, hb, hroot, hsound.represents (hrepresenting.grown b (List.mem_of_getElem? hb))
    hroot⟩

/-- Take a step, go back, take another one that reaches a loop, fork, and close the loop on the fork
only. -/
def forkedUnfolding : List Command :=
  let loop : Proposition := .fixpoint .least "N" ["x"] (.atomic "N" [.atom "x"]) [.atom "t"]
  [.openGoal ⟨loop, .connective .conjunction [.truth, .falsity]⟩, .checkpoint,
    .applyRule 0 .leastLeft, .rollback 0, .applyRule 0 .conjunctionRight, .closeInitial 2,
    .applyRule 3 .leastLeft, .fork, .use 1, .closeByBackEdge 4 3 .empty]

theorem represents_of_started_forkedUnfolding :
    let t := Tracked.start (.ofChunk 2)
    t.AdmitsAll forkedUnfolding ∧ t.startedBy [] forkedUnfolding = [1, 0] ∧
      ∃ b root, (t.run forkedUnfolding).bench.builders[1]? = some b ∧ b.root = some root ∧
        b.nodes.keys = [0, 2, 3, 4] ∧
        b.segments = [⟨3, 4, [3, 4], [.progress "N"], true⟩] ∧ b.Represents root := by
  have hrun : (Tracked.start (.ofChunk 2)).AdmitsAll forkedUnfolding := by decide +kernel
  have hstarted : (Tracked.start (.ofChunk 2)).startedBy [] forkedUnfolding = [1, 0] := by
    decide +kernel
  obtain ⟨b, root, hb, hroot, hrepresents⟩ :=
    @represents_of_started (.ofChunk 2) forkedUnfolding hrun 1 (by simp [hstarted])
  have hnodes : (((Tracked.start (.ofChunk 2)).run forkedUnfolding).bench.builders[1]?.map
      fun b => b.nodes.keys) = some [0, 2, 3, 4] := by rfl
  have hsegments : (((Tracked.start (.ofChunk 2)).run forkedUnfolding).bench.builders[1]?.map
      Builder.segments) = some [⟨3, 4, [3, 4], [.progress "N"], true⟩] := by rfl
  rw [hb] at hnodes hsegments
  exact ⟨hrun, hstarted, b, root, hb, hroot, Option.some.inj hnodes, Option.some.inj hsegments,
    hrepresents⟩

end Workbench

end CyclicProof
