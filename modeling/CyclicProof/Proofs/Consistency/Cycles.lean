import CyclicProof.Proofs.Consistency.Opposition
import CyclicProof.Proofs.Derivation.Built
import CyclicProof.Proofs.Derivation.Grounds
import Mathlib.Data.Set.Finite.List

/-!
# Contradictory derivations are cyclic

Suppose that a derivation of `Unit ⊢ A` and a derivation of `A ⊢ Void` are both accepted.  Then
neither of them comes to an end where the other one attacks it: from any two nodes with opposed
sequents, both go on by a rule to two nodes with opposed sequents (`Derivation.Opposed.advance`).
There are only finitely many pairs of nodes, so both derivations run in circles, and they unfold
fixpoints of the same kinds on the way round.

The trace condition does not exclude this, since it counts every unfold of a least fixpoint as
progress, on whichever side: `loopRight` proves and `loopLeft` refutes the least fixpoint of
`N(x) ⇔ N(x)`.  Nor can the assumption be dropped that no constant is bound: `constantProof` and
`constantRefutation` contradict each other without any cycle.
-/

namespace CyclicProof

open Nameless (Assignment Compatible)

/-! ## Unfolds along a walk -/

/-- The kind of fixpoint that is unfolded along an edge. -/
def TraceEdge.unfolds? : TraceEdge → Option FixpointKind
  | tree mark => mark.unfolds?
  | back => none

/-- The kinds of the fixpoints that are unfolded along a walk, in this order. -/
def unfolds (walk : List LabelledEdge) : List FixpointKind :=
  walk.filterMap fun e => e.label.unfolds?

lemma unfolds_append (walk walk' : List LabelledEdge) :
    unfolds (walk ++ walk') = unfolds walk ++ unfolds walk' := List.filterMap_append

namespace Derivation

/-! ## Going on from a node -/

/-- Every node that is reached is justified, and the sequents are regular. -/
structure IsGrounded (d : Derivation) : Prop where
  ids : d.nodes.IdsAgree
  grounds : ∀ id, d.Reached id → ∃ node, d.nodes.get? id = some node ∧ d.Grounds node
  regular : ∀ id node, d.nodes.get? id = some node → node.sequent.Regular

/-- From a node the derivation goes on by a rule that acts on one side of the sequent `s`, possibly
after a back-edge, and comes to more general forms of the premises. -/
structure Continues (d : Derivation) (id : NodeId) (s : Sequent) (side : Side)
    (application : RuleApplication) : Prop where
  regular : s.Regular
  acts : Rule.Acts s side application (s.side side)
  premises : ∀ premise ∈ application.premises, ∃ c child walk, d.Reached c ∧
    d.nodes.get? c = some child ∧ premise.IsInstanceOf child.sequent ∧
    IsWalk d.nodes.IsEdge id c walk ∧ walk ≠ [] ∧ unfolds walk = application.mark.unfolds?.toList

variable {d : Derivation}

/-- A node closed by a rule goes on by that rule, wherever the walk to it began. -/
lemma ClosedBy.continues {id : NodeId} {node : Node} {application : RuleApplication}
    (h : d.ClosedBy node application) (hnode : d.nodes.get? node.id = some node)
    (hregular : node.sequent.Regular) {walk : List LabelledEdge}
    (hwalk : IsWalk d.nodes.IsEdge id node.id walk) (hunfolds : unfolds walk = []) :
    ∃ side, d.Continues id node.sequent side application := by
  obtain ⟨rule, happly⟩ := h.applies
  obtain ⟨side, hacts⟩ := Rule.exists_acts happly
  refine ⟨side, hregular, hacts, fun premise hpremise => ?_⟩
  obtain ⟨c, child, hreached, hchild, hequiv, hedge⟩ := h.premises premise hpremise
  have hedge : d.nodes.IsEdge ⟨node.id, c, .tree application.mark⟩ := ⟨node.id, node, hnode, hedge⟩
  refine ⟨c, child, _, hreached, hchild, Sequent.isInstanceOf_of_alphaEquiv hequiv,
    hwalk.append (.single hedge), by simp, ?_⟩
  rw [unfolds_append, hunfolds, List.nil_append]
  cases hmark : application.mark.unfolds? <;> simp [unfolds, TraceEdge.unfolds?, hmark]

/-- From every node that is reached, the derivation goes on by a rule or ends with an initial
sequent, possibly after a back-edge to a more general sequent. -/
lemma IsGrounded.initial_or_continues (hd : d.IsGrounded) {id : NodeId} {node : Node}
    (hid : d.Reached id) (hnode : d.nodes.get? id = some node) : ∃ s, node.sequent.IsInstanceOf s ∧
      (s.isInitial = true ∨ ∃ side application, d.Continues id s side application) := by
  obtain ⟨node', hnode', hgrounds⟩ := hd.grounds id hid
  obtain rfl : node' = node := Option.some.inj (hnode'.symm.trans hnode)
  obtain rfl := hd.ids id node' hnode
  cases hgrounds with
  | initial h => exact ⟨node'.sequent, node'.sequent.isInstanceOf_refl, .inl h⟩
  | rule application h =>
    obtain ⟨side, hcontinues⟩ := h.continues hnode (hd.regular _ _ hnode) (.nil _) rfl
    exact ⟨node'.sequent, node'.sequent.isInstanceOf_refl, .inr ⟨side, application, hcontinues⟩⟩
  | back ancestor target σ hbud h =>
    obtain ⟨image, himage, hequiv⟩ := h.image
    have htarget := hd.regular _ _ h.found
    refine ⟨target.sequent, Sequent.isInstanceOf_of_substitute htarget himage hequiv, ?_⟩
    -- The target is not a bud itself, so one back-edge is enough.
    obtain ⟨target', htarget', hgrounds⟩ := hd.grounds ancestor h.reached
    obtain rfl : target' = target := Option.some.inj (htarget'.symm.trans h.found)
    obtain rfl := hd.ids ancestor target' h.found
    cases hgrounds with
    | initial h' => exact .inl h'
    | rule application h' =>
      have hedge : d.nodes.IsEdge ⟨node'.id, target'.id, .back⟩ := ⟨node'.id, node', hnode, h.edge⟩
      obtain ⟨side, hcontinues⟩ := h'.continues h.found htarget (.single hedge) rfl
      exact .inr ⟨side, application, hcontinues⟩
    | back _ _ _ hbud' _ => simp [h.closed] at hbud'

/-- No rule acts on a side that reads as a bare name. -/
lemma Continues.side_ne {id : NodeId} {s : Sequent} {side side' : Side}
    {application : RuleApplication} (h : d.Continues id s side application) {θ : Assignment}
    {x : Name} (hside : (s.side side').nameless.subst θ.image = .free x []) : side ≠ side' := by
  rintro rfl
  obtain ⟨y, hy⟩ := Proposition.eq_atom_of_subst hside
  have hacts := h.acts
  rw [hy] at hacts
  exact hacts

section

variable (hd : d.IsGrounded) {id : NodeId} {node : Node} {θ : Assignment} {F : Nameless}
include hd

/-- The proof of `Unit ⊢ F` goes on by a right rule, unless `F` is `Unit`. -/
lemma IsGrounded.eq_truth_or_continues_right (hid : d.Reached id)
    (hnode : d.nodes.get? id = some node) (h : node.sequent.Reads θ .truth F) :
    F = .truth ∨ ∃ s a, node.sequent.IsInstanceOf s ∧ d.Continues id s .right a := by
  obtain ⟨s, hs, hcase⟩ := hd.initial_or_continues hid hnode
  obtain ⟨θ', hreads⟩ := hs.reads h
  rcases hcase with hinitial | ⟨side, a, hcontinues⟩
  · exact .inl (hreads.eq_truth_of_isInitial hinitial)
  · cases side with
    | left => exact absurd rfl (hcontinues.side_ne hreads.assumption)
    | right => exact .inr ⟨s, a, hs, hcontinues⟩

/-- The proof of `F ⊢ Void` goes on by a left rule, unless `F` is false by itself. -/
lemma IsGrounded.isAbsurd_or_continues_left (hid : d.Reached id)
    (hnode : d.nodes.get? id = some node) (h : node.sequent.Reads θ F .falsity) :
    F.IsAbsurd ∨ ∃ s a, node.sequent.IsInstanceOf s ∧ d.Continues id s .left a := by
  obtain ⟨s, hs, hcase⟩ := hd.initial_or_continues hid hnode
  obtain ⟨θ', hreads⟩ := hs.reads h
  rcases hcase with hinitial | ⟨side, a, hcontinues⟩
  · exact .inl (hreads.isAbsurd_of_isInitial hinitial)
  · cases side with
    | left => exact .inr ⟨s, a, hs, hcontinues⟩
    | right => exact absurd rfl (hcontinues.side_ne hreads.conclusion)

/-- There is no way to prove what is false by itself. -/
lemma IsGrounded.not_reads_isAbsurd (hF : F.IsAbsurd) (hid : d.Reached id)
    (hnode : d.nodes.get? id = some node) : ¬ node.sequent.Reads θ .truth F := by
  induction hF generalizing id node θ with
  | falsity =>
    intro h
    rcases hd.eq_truth_or_continues_right hid hnode h with htruth | ⟨s, a, hs, hcontinues⟩
    · exact Nameless.truth_ne_falsity htruth.symm
    · obtain ⟨θ', hreads⟩ := hs.reads h
      exact hcontinues.side_ne hreads.conclusion rfl
  | @conjunct ms m hm hF ih =>
    intro h
    rcases hd.eq_truth_or_continues_right hid hnode h with htruth | ⟨s, a, hs, hcontinues⟩
    · cases htruth
    obtain ⟨θ', hreads⟩ := hs.reads h
    obtain ⟨assumption, conclusion⟩ := s
    have hconclusion := hreads.conclusion
    have hacts := hcontinues.acts
    cases conclusion with
    | atomic head args => exact hacts
    | quantifier kind vars body => cases hconclusion
    | fixpoint kind name params body args => cases hconclusion
    | connective kind operands =>
      -- A conjunction on the right has all its operands as premises, the false one too.
      rw [Proposition.nameless_connective, Nameless.subst, Nameless.substAll_eq_map,
        List.map_map] at hconclusion
      obtain ⟨rfl, rfl⟩ := Nameless.connective.inj hconclusion
      obtain ⟨p, hp, rfl⟩ := List.mem_map.1 hm
      obtain ⟨-, -, hsplit, -⟩ := hacts
      obtain ⟨c, child, -, hreached, hchild, hpremise, -⟩ := hcontinues.premises _ (hsplit rfl p hp)
      obtain ⟨θ'', hreads'⟩ := hpremise.reads ⟨hreads.fixes, hreads.assumption, rfl⟩
      exact ih hreached hchild hreads'

end

/-! ## Two derivations -/

/-- Nodes of two derivations with opposed sequents. -/
def Opposed (d₁ d₂ : Derivation) (p : NodeId × NodeId) : Prop :=
  d₁.Reached p.1 ∧ d₂.Reached p.2 ∧ ∃ node₁ node₂, d₁.nodes.get? p.1 = some node₁ ∧
    d₂.nodes.get? p.2 = some node₂ ∧ node₁.sequent.Opposes node₂.sequent

/-- Walks in both derivations lead from the nodes `p` to the nodes `q` and unfold alike. -/
def Leads (d₁ d₂ : Derivation) (p q : NodeId × NodeId) : Prop :=
  ∃ walk₁ walk₂, IsWalk d₁.nodes.IsEdge p.1 q.1 walk₁ ∧ IsWalk d₂.nodes.IsEdge p.2 q.2 walk₂ ∧
    walk₁ ≠ [] ∧ walk₂ ≠ [] ∧ unfolds walk₁ = unfolds walk₂

variable {d₁ d₂ : Derivation}

lemma Leads.trans {p q r : NodeId × NodeId} (h : Leads d₁ d₂ p q) (h' : Leads d₁ d₂ q r) :
    Leads d₁ d₂ p r := by
  obtain ⟨walk₁, walk₂, h₁, h₂, hne₁, hne₂, hunfolds⟩ := h
  obtain ⟨walk₁', walk₂', h₁', h₂', -, -, hunfolds'⟩ := h'
  refine ⟨_, _, h₁.append h₁', h₂.append h₂', by simp [hne₁], by simp [hne₂], ?_⟩
  rw [unfolds_append, unfolds_append, hunfolds, hunfolds']

/-- **Two derivations against each other.**  From nodes with opposed sequents, both derivations go
on to nodes with opposed sequents. -/
lemma Opposed.advance (hd₁ : d₁.IsGrounded) (hd₂ : d₂.IsGrounded) {p : NodeId × NodeId}
    (h : Opposed d₁ d₂ p) : ∃ q, Opposed d₁ d₂ q ∧ Leads d₁ d₂ p q := by
  obtain ⟨hp₁, hp₂, node₁, node₂, hnode₁, hnode₂, hopposes⟩ := h
  obtain ⟨θ₁, θ₂, F, hreads₁, hreads₂, hcompatible⟩ := hopposes
  rcases hd₂.isAbsurd_or_continues_left hp₂ hnode₂ hreads₂ with habsurd | ⟨t, b, ht, hcontinues₂⟩
  · exact absurd hreads₁ (hd₁.not_reads_isAbsurd habsurd hp₁ hnode₁)
  rcases hd₁.eq_truth_or_continues_right hp₁ hnode₁ hreads₁ with htruth | ⟨s, a, hs, hcontinues₁⟩
  · obtain ⟨θ, hreads⟩ := ht.reads hreads₂
    exact absurd rfl (hcontinues₂.side_ne (hreads.assumption.trans htruth))
  have hnodes : node₁.sequent.Opposes node₂.sequent := ⟨θ₁, θ₂, F, hreads₁, hreads₂, hcompatible⟩
  have hst : s.Opposes t := (hnodes.of_instance_left hs).of_instance_right ht
  obtain ⟨hmarks, s', hs', t', ht', hresult⟩ :=
    hst.step hcontinues₁.regular hcontinues₂.regular hcontinues₁.acts hcontinues₂.acts
  obtain ⟨c₁, child₁, walk₁, hc₁, hchild₁, hinstance₁, hwalk₁, hne₁, hunfolds₁⟩ :=
    hcontinues₁.premises s' hs'
  obtain ⟨c₂, child₂, walk₂, hc₂, hchild₂, hinstance₂, hwalk₂, hne₂, hunfolds₂⟩ :=
    hcontinues₂.premises t' ht'
  refine ⟨(c₁, c₂), ⟨hc₁, hc₂, child₁, child₂, hchild₁, hchild₂, ?_⟩, ?_⟩
  · exact (hresult.of_instance_left hinstance₁).of_instance_right hinstance₂
  · exact ⟨walk₁, walk₂, hwalk₁, hwalk₂, hne₁, hne₂, by rw [hunfolds₁, hunfolds₂, hmarks]⟩

lemma finite_opposed (d₁ d₂ : Derivation) : Finite {p // Opposed d₁ d₂ p} := by
  refine Set.Finite.subset ((d₁.nodes.keys.finite_toSet).prod (d₂.nodes.keys.finite_toSet)) ?_
  rintro p ⟨-, -, node₁, node₂, hnode₁, hnode₂, -⟩
  exact ⟨Table.mem_keys_iff.2 (Table.contains_eq_true_iff.2 ⟨node₁, hnode₁⟩),
    Table.mem_keys_iff.2 (Table.contains_eq_true_iff.2 ⟨node₂, hnode₂⟩)⟩

/-- Among finitely many pairs of nodes, going on for ever leads back. -/
lemma Opposed.exists_leads_self (hd₁ : d₁.IsGrounded) (hd₂ : d₂.IsGrounded) {p : NodeId × NodeId}
    (h : Opposed d₁ d₂ p) : ∃ q, Leads d₁ d₂ q q := by
  by_contra hnone
  have := finite_opposed d₁ d₂
  let follows (q r : {p // Opposed d₁ d₂ p}) : Prop := Leads d₁ d₂ r.1 q.1
  have htrans : IsTrans _ follows := ⟨fun _ _ _ hqr hrs => hrs.trans hqr⟩
  have hirrefl : Std.Irrefl follows := ⟨fun q hq => hnone ⟨q.1, hq⟩⟩
  have hwf : WellFounded follows := Finite.wellFounded_of_trans_of_irrefl follows
  obtain ⟨q, -, hq⟩ := hwf.has_min Set.univ ⟨⟨p, h⟩, trivial⟩
  obtain ⟨r, hr, hleads⟩ := q.2.advance hd₁ hd₂
  exact hq ⟨r, hr⟩ trivial hleads

/-! ## Accepted derivations -/

lemma isGrounded_of_verify {s : Sequent} (hd : d.Obtained)
    (hregular : ∀ id node, d.nodes.get? id = some node → node.sequent.Regular)
    (hverify : d.verify s = .ok ()) : d.IsGrounded := by
  obtain ⟨report, hverify, -⟩ := Outcome.bind_eq_ok.1 hverify
  exact ⟨hd.idsAgree, fun id hid => exists_grounds hverify hd.idsAgree hid, hregular⟩

lemma exists_root_of_verify {s : Sequent} (hverify : d.verify s = .ok ()) :
    ∃ root, d.nodes.get? d.root = some root ∧ s.IsInstanceOf root.sequent := by
  obtain ⟨report, hverify, -⟩ := Outcome.bind_eq_ok.1 hverify
  obtain ⟨root, hroot, hequiv, -⟩ := verifyWith_eq_ok.1 hverify
  exact ⟨root, hroot, Sequent.isInstanceOf_of_alphaEquiv hequiv⟩

lemma Obtained.isClosedWalk (hd : d.Obtained) {v : NodeId} {walk : List LabelledEdge}
    (hwalk : IsWalk d.nodes.IsEdge v v walk) (hne : walk ≠ []) :
    IsClosedWalk (· ∈ d.traceGraph.edges) walk := by
  have hedges := fun e => @NodeMap.mem_edges_ofNodes d.nodes (fun hid => hd.idsAgree _ _ hid) e
  obtain ⟨-, hwalk, hchain, hcloses⟩ := hwalk.isClosedWalk hne
  exact ⟨hne, fun e he => (hedges e).2 (hwalk e he), hchain, hcloses⟩

/-- The trace condition: a closed walk unfolds something. -/
lemma unfolds_ne_nil_of_verify {s : Sequent} (hverify : d.verify s = .ok ())
    {walk : List LabelledEdge} (hwalk : IsClosedWalk (· ∈ d.traceGraph.edges) walk) :
    unfolds walk ≠ [] := by
  obtain ⟨report, hverify, -⟩ := Outcome.bind_eq_ok.1 hverify
  obtain ⟨_, -, -, -, -, -, -, htrace⟩ := verifyWith_eq_ok.1 hverify
  obtain ⟨e, he, hprogress⟩ := TraceGraph.check_ok_iff.1 ⟨report, htrace⟩ walk hwalk
  rw [unfolds, Ne, List.filterMap_eq_nil_iff]
  intro hnone
  have hnone := hnone e he
  cases hlabel : e.label with
  | back => simp [hlabel, ProgressPolicy.edgeProgresses, ProgressPolicy.unfolding] at hprogress
  | tree mark =>
    rw [hlabel] at hprogress hnone
    cases mark <;> simp [ProgressPolicy.edgeProgresses, ProgressPolicy.unfolding,
      TraceEdge.unfolds?, EdgeMark.unfolds?] at hprogress hnone

/-- **Contradictory derivations are cyclic.**  If a derivation of `Unit ⊢ A` and a derivation of
`A ⊢ Void` are both accepted, then both have a cycle, and on their cycles the two derivations
unfold fixpoints of the same kinds in the same order.  So no derivation without a cycle is
contradicted by another one, and no derivation that only unfolds least fixpoints by one that only
unfolds greatest fixpoints. -/
theorem exists_closed_walks_of_contradiction (A : Proposition) (d₁ d₂ : Derivation)
    (hA : A.isWellFormed = true) (hd₁ : d₁.Obtained) (hd₂ : d₂.Obtained)
    (hregular₁ : ∀ id node, d₁.nodes.get? id = some node → node.sequent.Regular)
    (hregular₂ : ∀ id node, d₂.nodes.get? id = some node → node.sequent.Regular)
    (hverify₁ : d₁.verify ⟨.truth, A⟩ = .ok ()) (hverify₂ : d₂.verify ⟨A, .falsity⟩ = .ok ()) :
    ∃ walk₁ walk₂, IsClosedWalk (· ∈ d₁.traceGraph.edges) walk₁ ∧
      IsClosedWalk (· ∈ d₂.traceGraph.edges) walk₂ ∧ unfolds walk₁ = unfolds walk₂ ∧
      unfolds walk₁ ≠ [] := by
  have hgrounded₁ := isGrounded_of_verify hd₁ hregular₁ hverify₁
  have hgrounded₂ := isGrounded_of_verify hd₂ hregular₂ hverify₂
  obtain ⟨root₁, hroot₁, hinstance₁⟩ := exists_root_of_verify hverify₁
  obtain ⟨root₂, hroot₂, hinstance₂⟩ := exists_root_of_verify hverify₂
  have hA : Compatible [] A.nameless A.nameless := Proposition.compatible_self_of_fits hA
  have hopposes : Sequent.Opposes ⟨.truth, A⟩ ⟨A, .falsity⟩ :=
    ⟨.refl, .refl, A.nameless, ⟨Assignment.fixesConstants_refl, rfl, Assignment.subst_refl _⟩,
      ⟨Assignment.fixesConstants_refl, Assignment.subst_refl _, rfl⟩, hA⟩
  have hroots : Opposed d₁ d₂ (d₁.root, d₂.root) :=
    ⟨d₁.reached_root, d₂.reached_root, root₁, root₂, hroot₁, hroot₂,
      (hopposes.of_instance_left hinstance₁).of_instance_right hinstance₂⟩
  obtain ⟨q, walk₁, walk₂, hwalk₁, hwalk₂, hne₁, hne₂, hunfolds⟩ :=
    hroots.exists_leads_self hgrounded₁ hgrounded₂
  have hclosed₁ := hd₁.isClosedWalk hwalk₁ hne₁
  have hclosed₂ := hd₂.isClosedWalk hwalk₂ hne₂
  exact ⟨walk₁, walk₂, hclosed₁, hclosed₂, hunfolds, unfolds_ne_nil_of_verify hverify₁ hclosed₁⟩

/-! Contradictory derivations exist.  The least fixpoint of `N(x) ⇔ N(x)` unfolds to itself, so
that one unfold and a back-edge prove any sequent with it on one side. -/

/-- The least fixpoint of `N(x) ⇔ N(x)`. -/
def selfReference : Proposition := .fixpoint .least "N" ["x"] (.atomic "N" [.atom "x"]) [.atom "t"]

/-- A sequent that is its own premise, proved by returning to it. -/
def loopRecord (rule : Rule) (s : Sequent) : Record where
  root := 0
  entries := [⟨0, s, .byRule rule [1]⟩, ⟨1, s, .backEdge 0 .empty⟩]

/-- What `loopRecord` is loaded as, for a rule that unfolds `selfReference`. -/
def loop (rule : Rule) (s : Sequent) : Derivation where
  root := 0
  segments := [⟨0, 1, [0, 1], [.progress "N"], true⟩]
  nodes := Table.ofList [
    (0, ⟨0, s, .byRule rule [1] (.progress "N"), none, none⟩),
    (1, ⟨1, s, .backEdge 0 .empty, some 0, some (.progress "N")⟩)]

/-- The proof of `selfReference`. -/
def loopRight : Derivation := loop .leastRight ⟨.truth, selfReference⟩

/-- The refutation of `selfReference`. -/
def loopLeft : Derivation := loop .leastLeft ⟨selfReference, .falsity⟩

/-- A constant bound by a quantifier is provable, as the constant, and refutable, as a variable. -/
def boundConstant : Proposition := .quantifier .universal [Name.truth] .truth

/-- A rule with one premise, which is initial. -/
def stepRecord (rule : Rule) (s premise : Sequent) : Record where
  root := 0
  entries := [⟨0, s, .byRule rule [1]⟩, ⟨1, premise, .initial⟩]

/-- What `stepRecord` is loaded as. -/
def step (rule : Rule) (s premise : Sequent) : Derivation where
  root := 0
  segments := []
  nodes := Table.ofList [
    (0, ⟨0, s, .byRule rule [1] .step, none, none⟩),
    (1, ⟨1, premise, .initial, some 0, some .step⟩)]

def constantProof : Derivation :=
  step (.universalRight ["e"]) ⟨.truth, boundConstant⟩ ⟨.truth, .truth⟩

def constantRefutation : Derivation :=
  step (.universalLeft [.falsity]) ⟨.quantifier .universal ["x"] (.atom "x"), .falsity⟩
    ⟨.falsity, .falsity⟩

lemma loopRight_obtained : loopRight.Obtained :=
  .inr ⟨loopRecord .leastRight ⟨.truth, selfReference⟩, rfl⟩

lemma loopLeft_obtained : loopLeft.Obtained :=
  .inr ⟨loopRecord .leastLeft ⟨selfReference, .falsity⟩, rfl⟩

/-- **Accepted derivations may contradict each other.**  They do so with cycles, and without cycles
if a constant is bound. -/
theorem contradictory_derivations :
    (selfReference.isWellFormed = true ∧ loopRight.Obtained ∧ loopLeft.Obtained ∧
      loopRight.verify ⟨.truth, selfReference⟩ = .ok () ∧
      loopLeft.verify ⟨selfReference, .falsity⟩ = .ok ()) ∧
    boundConstant.isWellFormed = true ∧ constantProof.Obtained ∧ constantRefutation.Obtained ∧
      constantProof.verify ⟨.truth, boundConstant⟩ = .ok () ∧
      constantRefutation.verify ⟨boundConstant, .falsity⟩ = .ok () ∧
      constantProof.backEdges = [] ∧ constantRefutation.backEdges = [] := by
  refine ⟨⟨by decide +kernel, loopRight_obtained, loopLeft_obtained, rfl, rfl⟩, by decide +kernel,
    .inr ⟨stepRecord (.universalRight ["e"]) ⟨.truth, boundConstant⟩ ⟨.truth, .truth⟩, rfl⟩,
    .inr ⟨stepRecord (.universalLeft [.falsity])
      ⟨.quantifier .universal ["x"] (.atom "x"), .falsity⟩ ⟨.falsity, .falsity⟩, rfl⟩,
    rfl, rfl, by decide +kernel, by decide +kernel⟩

theorem loops_have_closed_walks :
    ∃ walk₁ walk₂, IsClosedWalk (· ∈ loopRight.traceGraph.edges) walk₁ ∧
      IsClosedWalk (· ∈ loopLeft.traceGraph.edges) walk₂ ∧ unfolds walk₁ = unfolds walk₂ ∧
      unfolds walk₁ ≠ [] := by
  have hregular₁ : ∀ node ∈ loopRight.nodes.values, node.sequent.Regular := by decide +kernel
  have hregular₂ : ∀ node ∈ loopLeft.nodes.values, node.sequent.Regular := by decide +kernel
  exact exists_closed_walks_of_contradiction selfReference loopRight loopLeft (by decide +kernel)
    loopRight_obtained loopLeft_obtained
    (fun id node hid => hregular₁ node (Table.mem_values_iff.2 ⟨id, hid⟩))
    (fun id node hid => hregular₂ node (Table.mem_values_iff.2 ⟨id, hid⟩)) rfl rfl

end Derivation

end CyclicProof
