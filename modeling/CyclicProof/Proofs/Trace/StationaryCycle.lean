import CyclicProof.Proofs.Outcome
import CyclicProof.Trace.Check
import Mathlib.Data.List.Chain
import Mathlib.Data.List.Nodup
import Mathlib.Data.List.Perm.Subperm
import Mathlib.Logic.Relation

/-!
# The search for a stationary cycle

`TraceGraph.walk` follows edges depth first and stops at the first edge back to its own path.  Two
things are shown about it, for any successor function.

* A failure reports a simple cycle (`walkAll_error`): pairwise distinct vertices, each leading to
  the next one and the last one to the first.
* A success leaves no cycle behind (`walkAll_ok`): every start is accessible for the successor
  relation, so that no infinite, and in particular no closed walk begins there.

The depth that bounds the recursion is never used up: a path has no repetition and stays inside a
finite set of members, so it cannot be longer than the list of members.
-/

namespace CyclicProof

/-! ## Simple cycles -/

/-- Pairwise distinct vertices, each leading to the next one and the last one to the first. -/
structure IsSimpleCycle (leads : NodeId → NodeId → Prop) (cycle : List NodeId) : Prop where
  /-- There is a vertex. -/
  ne_nil : cycle ≠ []
  /-- No vertex is met twice. -/
  nodup : cycle.Nodup
  /-- Each vertex leads to the next one. -/
  chain : cycle.IsChain leads
  /-- The last vertex leads back to the first one. -/
  closes : ∀ v ∈ cycle.getLast?, ∀ w ∈ cycle.head?, leads v w

lemma IsSimpleCycle.mono {leads leads' : NodeId → NodeId → Prop} {cycle : List NodeId}
    (h : IsSimpleCycle leads cycle) (sub : ∀ v w, leads v w → leads' v w) :
    IsSimpleCycle leads' cycle where
  ne_nil := h.ne_nil
  nodup := h.nodup
  chain := h.chain.imp sub
  closes v hv w hw := sub v w (h.closes v hv w hw)

/-- Going once around a cycle leads from its first vertex back to it. -/
lemma IsSimpleCycle.exists_transGen {leads : NodeId → NodeId → Prop} {cycle : List NodeId}
    (h : IsSimpleCycle leads cycle) : ∃ v, Relation.TransGen leads v v := by
  obtain ⟨v, rest, rfl⟩ := List.exists_cons_of_ne_nil h.ne_nil
  have hlast := List.getLast?_eq_some_getLast (List.cons_ne_nil v rest)
  have hback := h.closes _ hlast v rfl
  exact ⟨v, .tail' (List.relationReflTransGen_of_exists_isChain_cons rest h.chain rfl) hback⟩

namespace TraceGraph

variable {next : NodeId → List NodeId}

/-- The cycle closed by an edge from the end of a path back to the path is a simple cycle. -/
lemma cycleFrom_isSimpleCycle {path : List NodeId} {v w : NodeId} (hnodup : (v :: path).Nodup)
    (hchain : (v :: path).IsChain fun a b => a ∈ next b) (hvw : w ∈ next v)
    (hw : w ∈ v :: path) :
    IsSimpleCycle (fun a b => b ∈ next a) (cycleFrom (v :: path) w) := by
  obtain ⟨front, back, hpath, hfront⟩ := List.eq_append_cons_of_mem hw
  have hcycle : cycleFrom (v :: path) w = (front ++ [w]).reverse := by
    have htake : (front ++ w :: back).takeWhile (· ≠ w) = front := by
      rw [List.takeWhile_append_of_pos fun a ha => by
        simpa using fun haw : a = w => hfront (haw ▸ ha)]
      simp
    rw [cycleFrom, hpath, htake, List.reverse_append]
    rfl
  have hsplit : v :: path = (front ++ [w]) ++ back := by rw [hpath]; simp
  rw [hsplit] at hnodup hchain
  rw [hcycle]
  have hhead : (front ++ [w]).head? = some v := by
    cases front with
    | nil =>
      have := congrArg List.head? hpath
      simpa using this.symm
    | cons a front =>
      have := congrArg List.head? hpath
      simpa using this.symm
  refine ⟨by simp, ?_, ?_, ?_⟩
  · exact List.nodup_reverse.2 (List.Nodup.of_append_left hnodup)
  · exact List.isChain_reverse.2 hchain.left_of_append
  · intro a ha b hb
    rw [List.getLast?_reverse, hhead] at ha
    rw [List.head?_reverse] at hb
    obtain rfl : v = a := by simpa using ha
    obtain rfl : w = b := by simpa using hb
    exact hvw

/-! ## A failed walk -/

lemma walk_error {depth : ℕ} {path finished cycle : List NodeId} {v : NodeId}
    (h : walk next depth path v finished = .error cycle) (hnodup : (v :: path).Nodup)
    (hchain : (v :: path).IsChain fun a b => a ∈ next b) :
    IsSimpleCycle (fun a b => b ∈ next a) cycle := by
  induction depth generalizing path finished v with
  | zero => simp [walk] at h
  | succ depth ih =>
    rw [walk] at h
    rcases Outcome.bind_eq_error.1 h with h | ⟨_, _, h⟩
    swap
    · exact absurd h Outcome.pure_ne_error
    -- Some successor of `v` stopped the walk: it lies on the path, or its own walk failed.
    obtain ⟨w, hw, before, h⟩ := Outcome.exists_of_foldlM_eq_error h
    split at h
    · rename_i hmem
      obtain rfl : cycleFrom (v :: path) w = cycle := by simpa using h
      exact cycleFrom_isSimpleCycle hnodup hchain hw hmem
    · rename_i hmem
      split at h
      · simp at h
      · refine ih h (List.nodup_cons.2 ⟨hmem, hnodup⟩) ?_
        exact List.isChain_cons_cons.2 ⟨hw, hchain⟩

/-- A failed search reports a simple cycle. -/
lemma walkAll_error {depth : ℕ} {starts cycle : List NodeId}
    (h : walkAll next depth starts = .error cycle) :
    IsSimpleCycle (fun a b => b ∈ next a) cycle := by
  obtain ⟨v, -, before, h⟩ := Outcome.exists_of_foldlM_eq_error h
  split at h
  · simp at h
  · exact walk_error h (by simp) (by simp)

/-! ## A successful walk -/

/-- A walk that succeeds adds its start to the finished vertices, and all finished vertices are
accessible: following successors from them comes to an end.  The members bound the length of
paths, so the recursion does not run out of depth. -/
lemma walk_ok {members : List NodeId} (hnext : ∀ v, ∀ w ∈ next v, w ∈ members) {depth : ℕ}
    {path finished out : List NodeId} {v : NodeId}
    (h : walk next depth path v finished = .ok out) (hnodup : (v :: path).Nodup)
    (hmem : v :: path ⊆ members) (hdepth : members.length ≤ depth + path.length)
    (hacc : ∀ u ∈ finished, Acc (fun a b => a ∈ next b) u) :
    v ∈ out ∧ finished ⊆ out ∧ ∀ u ∈ out, Acc (fun a b => a ∈ next b) u := by
  induction depth generalizing path finished out v with
  | zero =>
    have hlength : (v :: path).length ≤ members.length := (hnodup.subperm hmem).length_le
    simp only [List.length_cons] at hlength
    omega
  | succ depth ih =>
    rw [walk] at h
    obtain ⟨all, hfold, hout⟩ := Outcome.bind_eq_ok.1 h
    rw [Outcome.pure_eq_ok] at hout
    -- After the successors dealt with so far, they are finished, and finished is accessible.
    have hall : next v ⊆ all ∧ finished ⊆ all ∧ ∀ u ∈ all, Acc (fun a b => a ∈ next b) u := by
      refine Outcome.foldlM_induction (fun done now => done ⊆ now ∧ finished ⊆ now ∧
        ∀ u ∈ now, Acc (fun a b => a ∈ next b) u) hfold
        ⟨List.nil_subset _, List.Subset.refl _, hacc⟩ ?_
      rintro done w now now' hw ⟨hdone, hfin, hnow⟩ hstep
      split at hstep
      · simp at hstep
      rename_i hpath
      split at hstep
      · rename_i hwnow
        obtain rfl : now = now' := by simpa using hstep
        refine ⟨?_, hfin, hnow⟩
        exact List.append_subset.2 ⟨hdone, by simpa using hwnow⟩
      · have hlen : members.length ≤ depth + (v :: path).length := by
          simp only [List.length_cons]
          omega
        have hsub : w :: v :: path ⊆ members :=
          List.cons_subset.2 ⟨hnext v w hw, hmem⟩
        obtain ⟨hwout, hsubset, hout'⟩ :=
          ih hstep (List.nodup_cons.2 ⟨hpath, hnodup⟩) hsub hlen hnow
        refine ⟨?_, List.Subset.trans hfin hsubset, hout'⟩
        exact List.append_subset.2 ⟨List.Subset.trans hdone hsubset, by simpa using hwout⟩
    obtain ⟨hnextv, hfin, hallacc⟩ := hall
    subst hout
    refine ⟨List.mem_cons_self, List.Subset.trans hfin (List.subset_cons_self _ _), ?_⟩
    intro u hu
    rcases List.mem_cons.1 hu with rfl | hu
    · exact ⟨_, fun w hw => hallacc w (hnextv hw)⟩
    · exact hallacc u hu

/-- After a successful search, following successors from any start comes to an end. -/
lemma walkAll_ok {members starts out : List NodeId} (hnext : ∀ v, ∀ w ∈ next v, w ∈ members)
    (hstarts : starts ⊆ members) (h : walkAll next members.length starts = .ok out) :
    ∀ v ∈ starts, Acc (fun a b => a ∈ next b) v := by
  have hall : starts ⊆ out ∧ ∀ u ∈ out, Acc (fun a b => a ∈ next b) u := by
    refine Outcome.foldlM_induction (fun done now => done ⊆ now ∧
      ∀ u ∈ now, Acc (fun a b => a ∈ next b) u) h ⟨List.nil_subset _, by simp⟩ ?_
    rintro done v now now' hv ⟨hdone, hnow⟩ hstep
    split at hstep
    · rename_i hvnow
      obtain rfl : now = now' := by simpa using hstep
      exact ⟨List.append_subset.2 ⟨hdone, by simpa using hvnow⟩, hnow⟩
    · obtain ⟨hvout, hsubset, hout⟩ := walk_ok hnext hstep (by simp)
        (by simpa using hstarts hv) (by simp) hnow
      exact ⟨List.append_subset.2 ⟨List.Subset.trans hdone hsubset, by simpa using hvout⟩, hout⟩
  exact fun v hv => hall.2 v (hall.1 hv)

/-- From an accessible vertex no walk leads back to itself. -/
lemma not_transGen_of_acc {v : NodeId} (h : Acc (fun a b => a ∈ next b) v) :
    ¬ Relation.TransGen (fun a b => b ∈ next a) v v := by
  intro hcycle
  have hswap : Relation.TransGen (fun a b => a ∈ next b) v v := by
    rw [← Relation.transGen_swap] at hcycle
    exact hcycle
  have hacc : Acc (Relation.TransGen fun a b => a ∈ next b) v := h.transGen
  clear h hcycle
  induction hacc with
  | intro v _ ih => exact ih v hswap hswap

end TraceGraph

end CyclicProof
