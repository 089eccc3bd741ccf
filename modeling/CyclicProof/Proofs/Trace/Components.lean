import CyclicProof.Trace.Components
import Mathlib.Data.List.Nodup
import Mathlib.Data.List.Perm.Subperm
import Mathlib.Logic.Relation

/-!
# Strongly connected components

A depth-first pass is described by what it adds to a set of visited vertices (`Visits.Extends`): the
newly visited vertices are the newly finished ones, and all that they lead to has been visited.

That is enough to show that no strongly connected component is torn apart
(`TraceGraph.exists_component`).  When a vertex is collected, the vertices that it reaches and that
reach it are all collected in the same pass: a walk between them stays among such vertices, and none
of them can have been collected earlier, for then they all would have been.
-/

namespace CyclicProof

namespace Visits

variable {next : NodeId → List NodeId} {all : List NodeId}

/-! ## What a pass adds -/

/-- `later` arises from `earlier` by visits to members of `all`. -/
structure Extends (next : NodeId → List NodeId) (all : List NodeId) (earlier later : Visits) :
    Prop where
  /-- Visits are not forgotten. -/
  seen_subset : earlier.seen ⊆ later.seen
  /-- Only members are visited. -/
  mem_all : ∀ v ∈ later.seen, v ∉ earlier.seen → v ∈ all
  /-- Exactly the new visits have come to their end. -/
  mem_finished : ∀ v, v ∈ later.finished ↔
    v ∈ earlier.finished ∨ v ∈ later.seen ∧ v ∉ earlier.seen
  /-- What a new visit leads to has been visited. -/
  closed : ∀ v ∈ later.seen, v ∉ earlier.seen → ∀ w ∈ next v, w ∈ later.seen

lemma Extends.refl (visits : Visits) : Extends next all visits visits where
  seen_subset := List.Subset.refl _
  mem_all v hv hnot := absurd hv hnot
  mem_finished v := by simp
  closed v hv hnot := absurd hv hnot

lemma Extends.trans {a b c : Visits} (hab : Extends next all a b) (hbc : Extends next all b c) :
    Extends next all a c where
  seen_subset := List.Subset.trans hab.seen_subset hbc.seen_subset
  mem_all v hv hnot := by
    by_cases hb : v ∈ b.seen
    · exact hab.mem_all v hb hnot
    · exact hbc.mem_all v hv hb
  mem_finished v := by
    have hsub : v ∈ a.seen → v ∈ b.seen := fun h => hab.seen_subset h
    have hsub' : v ∈ b.seen → v ∈ c.seen := fun h => hbc.seen_subset h
    rw [hbc.mem_finished, hab.mem_finished]
    tauto
  closed v hv hnot w hw := by
    by_cases hb : v ∈ b.seen
    · exact hbc.seen_subset (hab.closed v hb hnot w hw)
    · exact hbc.closed v hv hb w hw

/-- A visit to `v` is a mark on `v`, visits to all its successors, and the end of the visit. -/
lemma Extends.finish {earlier later : Visits} {v : NodeId} (hv : v ∈ all) (hnot : v ∉ earlier.seen)
    (h : Extends next all { earlier with seen := v :: earlier.seen } later)
    (hnext : next v ⊆ later.seen) :
    Extends next all earlier { later with finished := v :: later.finished } := by
  have hvseen : v ∈ later.seen := h.seen_subset List.mem_cons_self
  refine ⟨fun w hw => h.seen_subset (List.mem_cons_of_mem v hw), ?_, ?_, ?_⟩
  · intro w hw hwnot
    by_cases hwv : w = v
    · exact hwv ▸ hv
    · exact h.mem_all w hw (by simp [hwv, hwnot])
  · intro w
    simp only [List.mem_cons, h.mem_finished, not_or]
    by_cases hwv : w = v
    · subst hwv
      simp [hvseen, hnot]
    · simp [hwv]
  · intro w hw hwnot u hu
    by_cases hwv : w = v
    · exact hnext (hwv ▸ hu)
    · exact h.closed w hw (by simp [hwv, hwnot]) u hu

/-- Visits to several members, one after the other, provided that each single visit sees its vertex
and extends the pass as long as the vertices of `marked` have been seen. -/
lemma foldl_extends {go : Visits → NodeId → Visits} {marked : List NodeId}
    (hgo : ∀ now w, w ∈ all → marked ⊆ now.seen →
      w ∈ (go now w).seen ∧ Extends next all now (go now w))
    (ws : List NodeId) (now : Visits) (hws : ws ⊆ all) (hnow : marked ⊆ now.seen) :
    ws ⊆ (ws.foldl go now).seen ∧ Extends next all now (ws.foldl go now) := by
  induction ws generalizing now with
  | nil => exact ⟨List.nil_subset _, Extends.refl now⟩
  | cons w ws ih =>
    obtain ⟨hw, hws⟩ := List.cons_subset.1 hws
    obtain ⟨hwseen, hext⟩ := hgo now w hw hnow
    obtain ⟨hwsseen, hext'⟩ := ih (go now w) hws (List.Subset.trans hnow hext.seen_subset)
    rw [List.foldl_cons]
    exact ⟨List.cons_subset.2 ⟨hext'.seen_subset hwseen, hwsseen⟩, hext.trans hext'⟩

/-! ## Visits have depth enough -/

/-- Once the vertices under visit are as many as there are members, every member is under visit. -/
lemma mem_of_length_le {active : List NodeId} (hnodup : active.Nodup) (hsub : active ⊆ all)
    (hlength : all.length ≤ active.length) {v : NodeId} (hv : v ∈ all) : v ∈ active :=
  ((hnodup.subperm hsub).perm_of_length_le hlength).mem_iff.2 hv

/-- A visit to a member sees it, and extends the pass.  The vertices under visit are pairwise
distinct members, which is why the depth suffices. -/
lemma visit_extends (hnext : ∀ v, next v ⊆ all) {depth : ℕ} {active : List NodeId} {visits : Visits}
    {v : NodeId} (hv : v ∈ all) (hnodup : active.Nodup) (hsub : active ⊆ all)
    (hactive : active ⊆ visits.seen) (hdepth : all.length ≤ depth + active.length) :
    v ∈ (visit next depth visits v).seen ∧ Extends next all visits (visit next depth visits v) := by
  induction depth generalizing active visits v with
  | zero =>
    have hmem := mem_of_length_le hnodup hsub (by omega) hv
    exact ⟨hactive hmem, Extends.refl visits⟩
  | succ depth ih =>
    rw [visit]
    split
    · rename_i hseen
      exact ⟨hseen, Extends.refl visits⟩
    · rename_i hseen
      have hnodup' : (v :: active).Nodup := List.nodup_cons.2 ⟨fun h => hseen (hactive h), hnodup⟩
      have hsub' : v :: active ⊆ all := List.cons_subset.2 ⟨hv, hsub⟩
      have hdepth' : all.length ≤ depth + (v :: active).length := by
        simp only [List.length_cons]
        omega
      have hmarked : v :: active ⊆ v :: visits.seen := List.cons_subset_cons v hactive
      obtain ⟨hnextseen, hext⟩ := foldl_extends
        (fun _ _ hw hnow => ih hw hnodup' hsub' hnow hdepth') (next v)
        { visits with seen := v :: visits.seen } (hnext v) hmarked
      exact ⟨hext.seen_subset List.mem_cons_self, hext.finish hv hseen hnextseen⟩

/-- A visit that is not part of another one. -/
lemma visit_extends_of_mem (hnext : ∀ v, next v ⊆ all) (visits : Visits) {v : NodeId}
    (hv : v ∈ all) : v ∈ (visit next all.length visits v).seen ∧
      Extends next all visits (visit next all.length visits v) :=
  visit_extends hnext hv List.nodup_nil (List.nil_subset _) (List.nil_subset _)
    (Nat.le_add_right _ _)

end Visits

namespace TraceGraph

/-! ## The relations of a graph -/

/-- An edge leads from `v` to `w`. -/
def Leads (g : TraceGraph) (v w : NodeId) : Prop := ∃ e ∈ g.edges, e.source = v ∧ e.target = w

/-- Walks lead from `v` to `w` and back. -/
def Connected (g : TraceGraph) (v w : NodeId) : Prop :=
  Relation.ReflTransGen g.Leads v w ∧ Relation.ReflTransGen g.Leads w v

variable {g : TraceGraph}

lemma Connected.symm {v w : NodeId} (h : g.Connected v w) : g.Connected w v := ⟨h.2, h.1⟩

lemma mem_successors {v w : NodeId} : w ∈ g.successors v ↔ g.Leads v w := by
  simp only [successors, List.mem_filterMap, Option.ite_none_right_eq_some,
    Option.some.injEq, Leads]

lemma mem_predecessors {v w : NodeId} : w ∈ g.predecessors v ↔ g.Leads w v := by
  simp only [predecessors, List.mem_filterMap, Option.ite_none_right_eq_some, Option.some.injEq,
    Leads]
  exact exists_congr fun e => and_congr_right fun _ => and_comm

lemma Leads.source_mem {v w : NodeId} (h : g.Leads v w) : v ∈ g.vertices := by
  obtain ⟨e, he, rfl, rfl⟩ := h
  exact (g.ends_mem e he).1

lemma Leads.target_mem {v w : NodeId} (h : g.Leads v w) : w ∈ g.vertices := by
  obtain ⟨e, he, rfl, rfl⟩ := h
  exact (g.ends_mem e he).2

/-! ## The order of the second pass -/

/-- Every vertex has its place in the order, and nothing else has. -/
lemma mem_finishOrder {v : NodeId} : v ∈ g.finishOrder ↔ v ∈ g.vertices := by
  have hnext : ∀ v, g.successors v ⊆ g.vertices := fun v w hw => (mem_successors.1 hw).target_mem
  obtain ⟨hseen, hext⟩ := Visits.foldl_extends
    (fun now w hw _ => Visits.visit_extends_of_mem hnext now hw) g.vertices .none
    (List.Subset.refl _) (List.nil_subset _)
  rw [finishOrder, hext.mem_finished]
  constructor
  · rintro (hv | ⟨hv, hnot⟩)
    · exact absurd hv List.not_mem_nil
    · exact hext.mem_all v hv hnot
  · exact fun hv => .inr ⟨hseen hv, List.not_mem_nil⟩

/-! ## Collecting components -/

/-- What is collected so far consists of whole components: a collected vertex has a component that
also holds every vertex connected with it. -/
structure Collected (g : TraceGraph) (state : List NodeId × List (List NodeId)) : Prop where
  /-- A collected vertex has its component. -/
  exists_component : ∀ v ∈ state.1, ∃ c ∈ state.2, v ∈ c
  /-- Components hold collected vertices. -/
  mem_collected : ∀ c ∈ state.2, ∀ v ∈ c, v ∈ state.1
  /-- Connected vertices are not torn apart. -/
  whole : ∀ c ∈ state.2, ∀ v ∈ c, ∀ w, g.Connected v w → w ∈ c

/-- A vertex connected with a collected one is collected. -/
lemma Collected.mem_of_connected {state : List NodeId × List (List NodeId)} (h : Collected g state)
    {v w : NodeId} (hv : v ∈ state.1) (hvw : g.Connected v w) : w ∈ state.1 := by
  obtain ⟨c, hc, hvc⟩ := h.exists_component v hv
  exact h.mem_collected c hc w (h.whole c hc v hvc w hvw)

/-- If the pass newly visits a vertex, it newly visits every vertex connected with it. -/
lemma Collected.extends_connected {state : List NodeId × List (List NodeId)} (h : Collected g state)
    {later : Visits} (hext : Visits.Extends g.predecessors g.vertices ⟨state.1, []⟩ later)
    {v w : NodeId} (hv : v ∈ later.seen) (hnot : v ∉ state.1) (hvw : g.Connected v w) :
    w ∈ later.seen ∧ w ∉ state.1 := by
  have hfresh : ∀ u, g.Connected v u → u ∉ state.1 :=
    fun u hvu hu => hnot (h.mem_of_connected hu hvu.symm)
  -- Go back from `v` along the walk from `w`; all of it is connected with `v`.
  obtain ⟨hout, hback⟩ := hvw
  induction hback using Relation.ReflTransGen.head_induction_on with
  | refl => exact ⟨hv, hnot⟩
  | head hedge hrest ih =>
    rename_i a b
    have hvb : Relation.ReflTransGen g.Leads v b := hout.tail hedge
    obtain ⟨hb, hbnot⟩ := ih hvb
    exact ⟨hext.closed b hb hbnot a (mem_predecessors.2 hedge),
      hfresh a ⟨hout, (Relation.ReflTransGen.single hedge).trans hrest⟩⟩

/-- Collecting one more component keeps what is collected whole, and collects its root. -/
lemma Collected.collectComponent {state : List NodeId × List (List NodeId)} (h : Collected g state)
    {root : NodeId} (hroot : root ∈ g.vertices) :
    Collected g (g.collectComponent state root) ∧ root ∈ (g.collectComponent state root).1 ∧
      state.1 ⊆ (g.collectComponent state root).1 := by
  obtain ⟨seen, components⟩ := state
  simp only [TraceGraph.collectComponent]
  by_cases hseen : root ∈ seen
  · rw [if_pos hseen]
    exact ⟨h, hseen, List.Subset.refl _⟩
  rw [if_neg hseen]
  have hnext : ∀ v, g.predecessors v ⊆ g.vertices :=
    fun v w hw => (mem_predecessors.1 hw).source_mem
  obtain ⟨hmem, hext⟩ := Visits.visit_extends_of_mem hnext ⟨seen, []⟩ hroot
  set later := Visits.visit g.predecessors g.vertices.length ⟨seen, []⟩ root with hlater
  have hfinished : ∀ v, v ∈ later.finished ↔ v ∈ later.seen ∧ v ∉ seen := by
    intro v
    rw [hext.mem_finished]
    simp
  refine ⟨⟨?_, ?_, ?_⟩, hmem, hext.seen_subset⟩
  · intro v hv
    by_cases hold : v ∈ seen
    · obtain ⟨c, hc, hvc⟩ := h.exists_component v hold
      exact ⟨c, List.mem_cons_of_mem _ hc, hvc⟩
    · exact ⟨later.finished, List.mem_cons_self, (hfinished v).2 ⟨hv, hold⟩⟩
  · intro c hc v hvc
    rcases List.mem_cons.1 hc with rfl | hc
    · exact ((hfinished v).1 hvc).1
    · exact hext.seen_subset (h.mem_collected c hc v hvc)
  · intro c hc v hvc w hvw
    rcases List.mem_cons.1 hc with rfl | hc
    · obtain ⟨hv, hnot⟩ := (hfinished v).1 hvc
      exact (hfinished w).2 (h.extends_connected hext hv hnot hvw)
    · exact h.whole c hc v hvc w hvw

lemma Collected.foldl {state : List NodeId × List (List NodeId)} (h : Collected g state)
    (roots : List NodeId) (hroots : roots ⊆ g.vertices) :
    Collected g (roots.foldl g.collectComponent state) ∧
      roots ⊆ (roots.foldl g.collectComponent state).1 ∧
      state.1 ⊆ (roots.foldl g.collectComponent state).1 := by
  induction roots generalizing state with
  | nil => exact ⟨h, List.nil_subset _, List.Subset.refl _⟩
  | cons root roots ih =>
    obtain ⟨hroot, hroots⟩ := List.cons_subset.1 hroots
    obtain ⟨hnow, hmem, hsub⟩ := h.collectComponent hroot
    obtain ⟨hlater, hmems, hsub'⟩ := ih hnow hroots
    rw [List.foldl_cons]
    exact ⟨hlater, List.cons_subset.2 ⟨hsub' hmem, hmems⟩, List.Subset.trans hsub hsub'⟩

/-- Every vertex lies in a component, together with all vertices connected with it. -/
theorem exists_component {v : NodeId} (hv : v ∈ g.vertices) :
    ∃ c ∈ g.components, ∀ w, g.Connected v w → w ∈ c := by
  have hempty : Collected g ([], []) := ⟨by simp, by simp, by simp⟩
  obtain ⟨hcollected, hall, -⟩ :=
    hempty.foldl g.finishOrder fun v hv => mem_finishOrder.1 hv
  obtain ⟨c, hc, hvc⟩ := hcollected.exists_component v (hall (mem_finishOrder.2 hv))
  exact ⟨c, hc, hcollected.whole c hc v hvc⟩

end TraceGraph

end CyclicProof
