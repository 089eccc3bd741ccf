import CyclicProof.Proofs.Trace.Components
import CyclicProof.Proofs.Trace.StationaryCycle

/-!
# The trace condition

The trace condition of a graph is a statement about its closed walks: each of them passes through an
edge that progresses.  `TraceGraph.check` decides it component by component.  The main result,
`TraceGraph.check_ok_iff_closed_walks_progress`, says that the check succeeds exactly when the
condition holds, and that the cycle reported by a failure is a simple cycle of stationary edges.

A closed walk is a list of labelled edges, and which edges there are is a parameter: the trace
condition of a recorded derivation is stated with the same words, without building its graph.
-/

namespace CyclicProof

/-! ## Closed walks -/

/-- A walk along some edges that ends where it began and takes at least one edge. -/
structure IsClosedWalk (IsEdge : LabelledEdge → Prop) (walk : List LabelledEdge) : Prop where
  /-- At least one edge is taken. -/
  ne_nil : walk ≠ []
  /-- Only edges are taken. -/
  edges : ∀ e ∈ walk, IsEdge e
  /-- Each edge starts where the one before it ended. -/
  chain : walk.IsChain fun d e => d.target = e.source
  /-- The first edge starts where the last one ended. -/
  closes : ∀ d ∈ walk.getLast?, ∀ e ∈ walk.head?, d.target = e.source

/-- A walk from one vertex to another, which may be empty. -/
inductive IsWalk (IsEdge : LabelledEdge → Prop) : NodeId → NodeId → List LabelledEdge → Prop
  | nil (v : NodeId) : IsWalk IsEdge v v []
  | cons {e : LabelledEdge} {w : NodeId} {walk : List LabelledEdge} (he : IsEdge e)
      (h : IsWalk IsEdge e.target w walk) : IsWalk IsEdge e.source w (e :: walk)

namespace IsWalk

variable {IsEdge : LabelledEdge → Prop} {u v w : NodeId} {walk walk' : List LabelledEdge}

lemma single {e : LabelledEdge} (h : IsEdge e) : IsWalk IsEdge e.source e.target [e] :=
  .cons h (.nil e.target)

lemma append (h : IsWalk IsEdge u v walk) (h' : IsWalk IsEdge v w walk') :
    IsWalk IsEdge u w (walk ++ walk') := by
  induction h with
  | nil v => exact h'
  | cons he h ih => exact .cons he (ih h')

lemma source_head? (h : IsWalk IsEdge v w walk) : ∀ e ∈ walk.head?, e.source = v := by
  cases h with
  | nil v => simp
  | cons he h => simp

lemma target_getLast? (h : IsWalk IsEdge v w walk) : v = w ∧ walk = [] ∨
    ∃ e, walk.getLast? = some e ∧ e.target = w := by
  induction h with
  | nil v => exact .inl ⟨rfl, rfl⟩
  | @cons e w walk he h ih =>
    refine .inr ?_
    rcases ih with ⟨rfl, rfl⟩ | ⟨d, hd, rfl⟩
    · exact ⟨e, rfl, rfl⟩
    · exact ⟨d, by rw [List.getLast?_cons, hd, Option.getD_some], rfl⟩

lemma edges (h : IsWalk IsEdge v w walk) : ∀ e ∈ walk, IsEdge e := by
  induction h with
  | nil v => simp
  | cons he h ih => exact List.forall_mem_cons.2 ⟨he, ih⟩

lemma isChain (h : IsWalk IsEdge v w walk) : walk.IsChain fun d e => d.target = e.source := by
  induction h with
  | nil v => exact .nil
  | cons he h ih => exact List.isChain_cons.2 ⟨fun e he => (h.source_head? e he).symm, ih⟩

/-- A walk that returns to its start is closed. -/
lemma isClosedWalk (h : IsWalk IsEdge v v walk) (hne : walk ≠ []) : IsClosedWalk IsEdge walk := by
  refine ⟨hne, h.edges, h.isChain, fun d hd e he => ?_⟩
  obtain ⟨last, hlast, htarget⟩ := h.target_getLast?.resolve_left fun hnil => hne hnil.2
  obtain rfl : last = d := Option.some.inj (hlast.symm.trans hd)
  rw [htarget, h.source_head? e he]

/-- A walk splits at each of its edges. -/
lemma split {before after : List LabelledEdge} {e : LabelledEdge}
    (h : IsWalk IsEdge v w (before ++ e :: after)) :
    IsWalk IsEdge v e.source before ∧ IsEdge e ∧ IsWalk IsEdge e.target w after := by
  induction before generalizing v with
  | nil =>
    obtain _ | ⟨he, hafter⟩ := h
    exact ⟨.nil _, he, hafter⟩
  | cons f before ih =>
    obtain _ | ⟨hf, h⟩ := h
    obtain ⟨hbefore, he, hafter⟩ := ih h
    exact ⟨.cons hf hbefore, he, hafter⟩

/-- A walk to another vertex has a last edge. -/
lemma exists_last (h : IsWalk IsEdge v w walk) (hne : w ≠ v) :
    ∃ front g, walk = front ++ [g] ∧ IsWalk IsEdge v g.source front ∧ IsEdge g ∧ g.target = w := by
  rcases List.eq_nil_or_concat' walk with rfl | ⟨front, g, rfl⟩
  · exact absurd (h.target_getLast?.resolve_right (by simp)).1.symm hne
  · obtain ⟨hfront, hg, hend⟩ := h.split
    exact ⟨front, g, rfl, hfront, hg, (hend.target_getLast?.resolve_right (by simp)).1⟩

end IsWalk

/-- On a closed walk every edge is preceded by one that leads to its source. -/
lemma IsClosedWalk.exists_previous {IsEdge : LabelledEdge → Prop} {walk : List LabelledEdge}
    (h : IsClosedWalk IsEdge walk) {e : LabelledEdge} (he : e ∈ walk) :
    ∃ g ∈ walk, g.target = e.source := by
  obtain ⟨before, after, rfl⟩ := List.append_of_mem he
  rcases List.eq_nil_or_concat' before with rfl | ⟨front, g, rfl⟩
  · have hlast := List.getLast?_eq_some_getLast h.ne_nil
    exact ⟨_, List.mem_of_getLast? hlast, h.closes _ hlast e rfl⟩
  · refine ⟨g, by simp, ?_⟩
    have hchain := h.chain
    rw [List.append_assoc, List.isChain_append] at hchain
    exact (List.isChain_cons_cons.1 hchain.2.1).1

/-- Every closed walk passes through an edge that progresses. -/
def ClosedWalksProgress (IsEdge : LabelledEdge → Prop) (policy : ProgressPolicy) : Prop :=
  ∀ walk, IsClosedWalk IsEdge walk → ∃ e ∈ walk, policy.edgeProgresses e.label = true

/-- An edge that does not progress leads from `v` to `w`. -/
def LeadsStationary (IsEdge : LabelledEdge → Prop) (policy : ProgressPolicy) (v w : NodeId) :
    Prop :=
  ∃ e, IsEdge e ∧ e.source = v ∧ e.target = w ∧ policy.edgeProgresses e.label = false

section

variable {IsEdge : LabelledEdge → Prop} {policy : ProgressPolicy}

/-- A walk of stationary edges leads from the start of its first edge to the end of its last one. -/
lemma transGen_of_isChain {e : LabelledEdge} {rest : List LabelledEdge}
    (hchain : (e :: rest).IsChain fun d e => d.target = e.source)
    (hedges : ∀ d ∈ e :: rest, IsEdge d)
    (hstat : ∀ d ∈ e :: rest, policy.edgeProgresses d.label = false) :
    Relation.TransGen (LeadsStationary IsEdge policy) e.source
      ((e :: rest).getLast (List.cons_ne_nil e rest)).target := by
  induction rest generalizing e with
  | nil =>
    exact .single ⟨e, hedges e List.mem_cons_self, rfl, rfl, hstat e List.mem_cons_self⟩
  | cons f rest ih =>
    obtain ⟨hef, hrest⟩ := List.isChain_cons_cons.1 hchain
    have htail := ih hrest (fun d hd => hedges d (List.mem_cons_of_mem e hd))
      (fun d hd => hstat d (List.mem_cons_of_mem e hd))
    rw [List.getLast_cons (List.cons_ne_nil f rest)]
    refine .head ⟨e, hedges e List.mem_cons_self, rfl, hef, ?_⟩ htail
    exact hstat e List.mem_cons_self

/-- Whatever stationary edges lead to is the end of a walk along them. -/
lemma exists_walk_of_transGen {v w : NodeId}
    (h : Relation.TransGen (LeadsStationary IsEdge policy) v w) :
    ∃ walk, IsWalk IsEdge v w walk ∧ walk ≠ [] ∧
      ∀ e ∈ walk, policy.edgeProgresses e.label = false := by
  induction h with
  | single h =>
    obtain ⟨e, he, rfl, rfl, hstat⟩ := h
    exact ⟨[e], .single he, List.cons_ne_nil e [], by simpa using hstat⟩
  | tail _ h ih =>
    obtain ⟨walk, hwalk, -, hstats⟩ := ih
    obtain ⟨e, he, rfl, rfl, hstat⟩ := h
    refine ⟨walk ++ [e], hwalk.append (.single he), by simp, fun d hd => ?_⟩
    rcases List.mem_append.1 hd with hd | hd
    · exact hstats d hd
    · exact List.mem_singleton.1 hd ▸ hstat

/-- All closed walks progress exactly when stationary edges lead from no vertex back to itself. -/
lemma closedWalksProgress_iff :
    ClosedWalksProgress IsEdge policy ↔
      ∀ v, ¬ Relation.TransGen (LeadsStationary IsEdge policy) v v := by
  constructor
  · intro h v hv
    obtain ⟨walk, hwalk, hne, hstat⟩ := exists_walk_of_transGen hv
    obtain ⟨e, he, hprogress⟩ := h walk (hwalk.isClosedWalk hne)
    simp [hstat e he] at hprogress
  · intro h walk hwalk
    by_contra hnone
    have hstat : ∀ e ∈ walk, policy.edgeProgresses e.label = false :=
      fun e he => by simpa using fun hprogress => hnone ⟨e, he, hprogress⟩
    obtain ⟨e, rest, rfl⟩ := List.exists_cons_of_ne_nil hwalk.ne_nil
    have hlast := List.getLast?_eq_some_getLast (List.cons_ne_nil e rest)
    have hback := transGen_of_isChain hwalk.chain hwalk.edges hstat
    rw [hwalk.closes _ hlast e rfl] at hback
    exact h _ hback

end

namespace TraceGraph

variable {g : TraceGraph} {policy : ProgressPolicy}

/-! ## One component -/

lemma mem_stationarySuccessors {members : List NodeId} {v w : NodeId} :
    w ∈ g.stationarySuccessors policy members v ↔
      w ∈ members ∧ LeadsStationary (· ∈ g.edges) policy v w := by
  simp only [stationarySuccessors, List.mem_filterMap, Option.ite_none_right_eq_some,
    Option.some.injEq, LeadsStationary, Bool.not_eq_true']
  constructor
  · rintro ⟨e, he, ⟨hv, hw, hstat⟩, rfl⟩
    exact ⟨hw, e, he, hv, rfl, hstat⟩
  · rintro ⟨hw, e, he, hv, rfl, hstat⟩
    exact ⟨e, he, ⟨hv, hw, hstat⟩, rfl⟩

/-- A failed check of a component reports a simple cycle of stationary edges. -/
lemma checkStationary_error {members cycle : List NodeId}
    (h : g.checkStationary policy members = .error cycle) :
    IsSimpleCycle (LeadsStationary (· ∈ g.edges) policy) cycle := by
  rw [checkStationary] at h
  rcases Outcome.bind_eq_error.1 h with h | ⟨_, _, h⟩
  · exact (walkAll_error h).mono fun v w hw => (mem_stationarySuccessors.1 hw).2
  · exact absurd h Outcome.pure_ne_error

/-- After a successful check of a component, its stationary edges lead from no member back to itself
through members. -/
lemma checkStationary_ok {members : List NodeId} (h : g.checkStationary policy members = .ok ())
    {v : NodeId} (hv : v ∈ members) :
    ¬ Relation.TransGen (fun a b => b ∈ g.stationarySuccessors policy members a) v v := by
  rw [checkStationary] at h
  obtain ⟨out, hout, -⟩ := Outcome.bind_eq_ok.1 h
  refine not_transGen_of_acc (walkAll_ok ?_ ?_ hout v ?_)
  · exact fun v w hw => (mem_stationarySuccessors.1 hw).1
  · exact fun u hu => KeySet.mem_keys_ofList.1 hu
  · exact KeySet.mem_keys_ofList.2 hv

/-! ## Closed walks stay in one component -/

lemma leads_of_leadsStationary {v w : NodeId} (h : LeadsStationary (· ∈ g.edges) policy v w) :
    g.Leads v w := by
  obtain ⟨e, he, hv, hw, -⟩ := h
  exact ⟨e, he, hv, hw⟩

lemma transGen_leads {v w : NodeId}
    (h : Relation.TransGen (LeadsStationary (· ∈ g.edges) policy) v w) :
    Relation.TransGen g.Leads v w :=
  h.lift id fun _ _ => leads_of_leadsStationary

/-- A closed walk of stationary edges through `v` stays in every set that holds all vertices
connected with `v`. -/
lemma transGen_stationarySuccessors {members : List NodeId} {v : NodeId}
    (hmembers : ∀ w, g.Connected v w → w ∈ members)
    (h : Relation.TransGen (LeadsStationary (· ∈ g.edges) policy) v v) :
    Relation.TransGen (fun a b => b ∈ g.stationarySuccessors policy members a) v v := by
  suffices key : ∀ w, Relation.ReflTransGen g.Leads w v →
      Relation.TransGen (LeadsStationary (· ∈ g.edges) policy) v w →
      Relation.TransGen (fun a b => b ∈ g.stationarySuccessors policy members a) v w from
    key v .refl h
  intro w hback hw
  -- The walk is taken edge by edge; the way back shows that its vertices are connected with `v`.
  induction hw with
  | single hedge =>
    have hmem := hmembers _ ⟨.single (leads_of_leadsStationary hedge), hback⟩
    exact .single (mem_stationarySuccessors.2 ⟨hmem, hedge⟩)
  | tail hwalk hedge ih =>
    have hleadsw := leads_of_leadsStationary hedge
    have hmem := hmembers _ ⟨(transGen_leads hwalk).to_reflTransGen.tail hleadsw, hback⟩
    exact .tail (ih (.head hleadsw hback)) (mem_stationarySuccessors.2 ⟨hmem, hedge⟩)

/-- A component with a closed walk is not passed over. -/
lemma isCyclic_of_transGen {members : List NodeId} {v : NodeId}
    (hmembers : ∀ w, g.Connected v w → w ∈ members) (h : Relation.TransGen g.Leads v v) :
    g.isCyclic members = true := by
  obtain ⟨w, hedge, hback⟩ := Relation.TransGen.head'_iff.1 h
  have hv : v ∈ members := hmembers v ⟨.refl, .refl⟩
  have hw : w ∈ members := hmembers w ⟨.single hedge, hback⟩
  rw [isCyclic, Bool.or_eq_true, decide_eq_true_iff]
  by_cases hvw : v = w
  · subst hvw
    obtain ⟨e, he, hsource, htarget⟩ := hedge
    refine .inr (List.any_eq_true.2 ⟨v, hv, List.any_eq_true.2 ⟨e, he, ?_⟩⟩)
    simp [hsource, htarget]
  · have hpair : [v, w].Nodup := by simpa using hvw
    exact .inl (hpair.subperm (by simp [hv, hw])).length_le

/-! ## The whole graph -/

/-- A failed check reports a simple cycle of stationary edges. -/
lemma check_error {err : ProofError} (h : g.check policy = .error err) :
    ∃ cycle, err = .stationaryCycle cycle ∧
      IsSimpleCycle (LeadsStationary (· ∈ g.edges) policy) cycle := by
  rw [check] at h
  rcases Outcome.bind_eq_error.1 h with h | ⟨_, _, h⟩
  · obtain ⟨members, -, hfail⟩ := Outcome.exists_of_forM_eq_error h
    obtain ⟨cycle, hcycle, rfl⟩ := Outcome.mapError_eq_error.1 hfail
    exact ⟨cycle, rfl, checkStationary_error hcycle⟩
  · exact absurd h Outcome.pure_ne_error

/-- A successful check leaves no closed walk of stationary edges. -/
lemma check_ok {report : TraceReport} (h : g.check policy = .ok report) (v : NodeId) :
    ¬ Relation.TransGen (LeadsStationary (· ∈ g.edges) policy) v v := by
  intro hcycle
  have hleads := transGen_leads hcycle
  obtain ⟨w, hedge, -⟩ := Relation.TransGen.head'_iff.1 hleads
  obtain ⟨members, hcomponent, hmembers⟩ := exists_component hedge.source_mem
  rw [check] at h
  obtain ⟨_, hall, -⟩ := Outcome.bind_eq_ok.1 h
  have hok := Outcome.forM_eq_ok.1 hall members
    (List.mem_filter.2 ⟨hcomponent, isCyclic_of_transGen hmembers hleads⟩)
  refine checkStationary_ok (Outcome.mapError_eq_ok.1 hok) (hmembers v ⟨.refl, .refl⟩) ?_
  exact transGen_stationarySuccessors hmembers hcycle

/-- The check succeeds exactly when all closed walks progress. -/
lemma check_ok_iff :
    (∃ report, g.check policy = .ok report) ↔ ClosedWalksProgress (· ∈ g.edges) policy := by
  rw [closedWalksProgress_iff]
  constructor
  · rintro ⟨report, h⟩ v
    exact check_ok h v
  · intro h
    cases hcheck : g.check policy with
    | ok report => exact ⟨report, rfl⟩
    | error err =>
      obtain ⟨cycle, -, hcycle⟩ := check_error hcheck
      obtain ⟨v, hv⟩ := hcycle.exists_transGen
      exact absurd hv (h v)

/-- **The trace condition is decided by the check.** It succeeds if and only if every closed walk of
the graph passes through an edge that progresses.  Every failure carries a cycle, whose vertices are
pairwise distinct and lead to each other, all around, by edges that do not progress. -/
theorem check_ok_iff_closed_walks_progress (g : TraceGraph) (policy : ProgressPolicy) :
    ((∃ report, g.check policy = .ok report) ↔
      ∀ walk, IsClosedWalk (· ∈ g.edges) walk → ∃ e ∈ walk, policy.edgeProgresses e.label = true) ∧
    ∀ err, g.check policy = .error err → ∃ cycle, err = .stationaryCycle cycle ∧
      IsSimpleCycle (fun v w => ∃ e ∈ g.edges, e.source = v ∧ e.target = w ∧
        policy.edgeProgresses e.label = false) cycle :=
  ⟨check_ok_iff, fun _ h => check_error h⟩

end TraceGraph

end CyclicProof
