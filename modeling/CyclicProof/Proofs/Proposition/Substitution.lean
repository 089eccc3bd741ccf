import CyclicProof.Proofs.Proposition.Replacement
import Mathlib.Data.List.Nodup

/-!
# Substitution, instantiation and unfolding on nameless forms

What the walk of `Proposition.replaceIn` means for its uses.

* Substituting acts on nameless forms as `Nameless.subst` (`Proposition.substitute_nameless`).
* Substituting for the variables of a quantifier in its body, and unfolding a fixpoint, put the
  witnesses, the arguments and the fixpoint itself in for the loose indices of the body
  (`Proposition.instantiate_nameless`, `Proposition.unfoldFixpoint_nameless`).
-/

namespace CyclicProof

namespace Fresh

lemma run'_eq_ok {α : Type} {x : Fresh α} {supply : NameSupply} {a : α} :
    x.run' supply = .ok a ↔ ∃ supply', x supply = .ok (a, supply') := by
  change (x supply >>= fun r => pure r.1) = _ ↔ _
  rw [Outcome.bind_eq_ok]
  constructor
  · rintro ⟨⟨b, supply'⟩, hx, hb⟩
    obtain rfl := Outcome.pure_eq_ok.1 hb
    exact ⟨supply', hx⟩
  · rintro ⟨supply', hx⟩
    exact ⟨(a, supply'), hx, rfl⟩

end Fresh

namespace Proposition

lemma mem_freeNames {p : Proposition} {x : Name} :
    p.freeNames.contains x = true ↔ x ∈ (p.freeOccurrences []).map Occurrence.name := by
  rw [freeNames, KeySet.contains_ofList]

/-- Free names are names. -/
lemma mem_nameList_of_mem_freeOccurrences {scope : Scope} {p : Proposition} {o : Occurrence}
    (h : o ∈ p.freeOccurrences scope) : o.name ∈ p.nameList := by
  induction p generalizing scope with
  | atomic head args ih =>
    rw [freeOccurrences, List.mem_append, mem_headOccurrence, mem_freeOccurrencesAll] at h
    rcases h with ⟨-, -, rfl⟩ | ⟨a, ha, ho⟩
    · exact List.mem_cons_self
    · exact List.mem_cons_of_mem _ (mem_nameListAll.2 ⟨a, ha, ih a ha ho⟩)
  | connective kind operands ih =>
    rw [freeOccurrences, mem_freeOccurrencesAll] at h
    obtain ⟨a, ha, ho⟩ := h
    exact mem_nameListAll.2 ⟨a, ha, ih a ha ho⟩
  | quantifier kind vars body ih => exact List.mem_append_right _ (ih h)
  | fixpoint kind name params body args ihbody ihargs =>
    rw [freeOccurrences, List.mem_append, mem_freeOccurrencesAll] at h
    rcases h with ⟨a, ha, ho⟩ | ho
    · simp [nameList, mem_nameListAll.2 ⟨a, ha, ihargs a ha ho⟩]
    · exact List.mem_append_right _ (ihbody ho)

/-- The walk from the top, with the supply that avoids everything. -/
lemma replaceIn_run'_nameless {initial : Bindings} {avoid : NameSet} {reserved : List Name}
    {p q : Proposition} (hinitial : initial.Guarded avoid)
    (havoid : ∀ y, avoid.contains y = true → y ∈ reserved) (hp : ∀ x ∈ p.nameList, x ∈ reserved)
    (hbinders : ∀ v ∈ p.binders, v.isConstant = true → ¬ initial.Exposes v)
    (h : (p.replaceIn avoid initial).run' (.avoiding (KeySet.ofList reserved)) = .ok q) :
    q.nameless = p.nameless.subst initial.image := by
  obtain ⟨supply', h⟩ := Fresh.run'_eq_ok.1 h
  have ht : Bindings.Tracks initial reserved avoid initial [] [] [] :=
    ⟨by simp [Scope.index?], by simp [Scope.index?], by simp, by simp⟩
  have hcovers : Bindings.Covers (.avoiding (KeySet.ofList reserved)) reserved [] := fun x hx =>
    KeySet.contains_ofList.2 (hx.resolve_right List.not_mem_nil)
  exact (replaceIn_nameless hinitial havoid hp hbinders ht hcovers h).1

end Proposition

/-! ## Substitution -/

lemma lookup_eq_some_iff_mem {α : Type} {l : List (Name × α)} (h : (l.map Prod.fst).Nodup)
    {x : Name} {a : α} : l.lookup x = some a ↔ (x, a) ∈ l := by
  induction l with
  | nil => simp
  | cons e l ih =>
    obtain ⟨y, b⟩ := e
    rw [List.map_cons, List.nodup_cons] at h
    rw [List.lookup_cons, List.mem_cons, Prod.mk.injEq]
    by_cases hxy : x = y
    · subst hxy
      have hnot : (x, a) ∉ l := fun hmem => h.1 (List.mem_map.2 ⟨_, hmem, rfl⟩)
      simp [hnot, eq_comm]
    · rw [beq_eq_false_iff_ne.2 hxy, ih h.2]
      simp [hxy]

/-- What a substitution makes of a name on nameless forms; the constants are left alone. -/
def Substitution.image (σ : Substitution) (x : Name) : Nameless.Image :=
  match σ.get? x with
  | some p => if x.isConstant then .ofName x else .term p.nameless (p.asName?.getD x)
  | none => .ofName x

/-- The bindings that a substitution starts with. -/
def Substitution.bindings (σ : Substitution) : Bindings :=
  (σ.entries.filter fun (name, _) => !name.isConstant).map fun (name, q) => (name, .term q)

namespace Substitution

lemma lookup_bindings {σ : Substitution} {x : Name} {replacement : Replacement} :
    σ.bindings.lookup x = some replacement ↔
      x.isConstant = false ∧ ∃ q, σ.get? x = some q ∧ replacement = .term q := by
  have hkeys : (σ.bindings.map Prod.fst).Nodup := by
    have hmap : σ.bindings.map Prod.fst =
        (σ.entries.filter fun e => !e.1.isConstant).map Prod.fst := by
      rw [bindings, List.map_map]
      rfl
    rw [hmap]
    exact (List.filter_sublist.map Prod.fst).nodup σ.keys_nodup
  rw [lookup_eq_some_iff_mem hkeys, bindings]
  simp only [List.mem_map, List.mem_filter, Prod.exists, Prod.mk.injEq, Bool.not_eq_true',
    Table.get?_eq_some_iff]
  constructor
  · rintro ⟨y, q, ⟨hmem, hconst⟩, rfl, rfl⟩
    exact ⟨hconst, q, hmem, rfl⟩
  · rintro ⟨hconst, q, hmem, rfl⟩
    exact ⟨x, q, ⟨hmem, hconst⟩, rfl, rfl⟩

lemma image_bindings (σ : Substitution) : σ.bindings.image = σ.image := by
  funext x
  rw [Bindings.image, image]
  cases hlookup : σ.bindings.lookup x with
  | none =>
    cases hget : σ.get? x with
    | none => rfl
    | some q =>
      cases hconst : x.isConstant with
      | true => rfl
      | false =>
        rw [lookup_bindings.2 ⟨hconst, q, hget, rfl⟩] at hlookup
        cases hlookup
  | some replacement =>
    obtain ⟨hconst, q, hget, rfl⟩ := lookup_bindings.1 hlookup
    simp [hget, hconst]

/-- A substitution brings in the names of its values. -/
lemma exposes_bindings {σ : Substitution} {y : Name} (h : σ.bindings.Exposes y) :
    ∃ x t, σ.get? x = some t ∧ y ∈ t.nameless.names := by
  obtain ⟨x, replacement, hlookup, hy⟩ := h
  obtain ⟨-, t, hget, rfl⟩ := lookup_bindings.1 hlookup
  exact ⟨x, t, hget, hy⟩

end Substitution

/-- **Substitution on nameless forms.**  If substituting succeeds, the result has the nameless form
in which every free head is replaced by its image, all at once.  A constant may be bound if no
value of the substitution brings it in. -/
lemma Proposition.substitute_nameless_of_not_exposes {p q : Proposition} {σ : Substitution}
    (hp : ∀ v ∈ p.binders, v.isConstant = true → ¬ σ.bindings.Exposes v)
    (h : p.substitute σ = .ok q) : q.nameless = p.nameless.subst σ.image := by
  rw [← Substitution.image_bindings]
  refine replaceIn_run'_nameless ?_ ?_ ?_ hp h
  · intro y hy
    obtain ⟨x, t, hget, hy⟩ := Substitution.exposes_bindings hy
    refine (occursFree_of_mem_names hy).1.imp_right fun hmem => ?_
    refine KeySet.contains_ofList.2 (List.mem_flatMap.2 ⟨t, Table.mem_values_iff.2 ⟨x, hget⟩, ?_⟩)
    exact Table.mem_keys_iff.2 (mem_freeNames.2 hmem)
  · intro y hy
    obtain ⟨t, ht, hy⟩ := List.mem_flatMap.1 (KeySet.contains_ofList.1 hy)
    obtain ⟨x, hx⟩ := Table.mem_values_iff.1 ht
    obtain ⟨o, ho, rfl⟩ := List.mem_map.1 (mem_freeNames.1 (Table.mem_keys_iff.1 hy))
    refine List.mem_append_right _ (List.mem_flatMap.2 ⟨(x, t), Table.get?_eq_some_iff.1 hx, ?_⟩)
    exact List.mem_cons_of_mem _ (mem_nameList_of_mem_freeOccurrences ho)
  · exact fun x hx => List.mem_append_left _ hx

/-- This covers all propositions that bind no constant. -/
lemma Proposition.substitute_nameless {p q : Proposition} {σ : Substitution}
    (hp : p.BindsNoConstant) (h : p.substitute σ = .ok q) :
    q.nameless = p.nameless.subst σ.image :=
  substitute_nameless_of_not_exposes (Bindings.not_exposes_of_bindsNoConstant hp _) h

/-! ## Instantiation and unfolding -/

namespace Proposition

/-- Replacing exactly the names of a scope replaces the loose indices of the scope. -/
lemma subst_nameless_eq_instantiate {scope : Scope} {p : Proposition} {f : Name → Nameless.Image}
    (hclosed : ∀ x, (f x).Closed) (hf : ∀ x ∉ scope, f x = .ofName x) :
    p.nameless.subst f = (p.namelessIn scope).instantiate (fun i => f (scope.getD i "")) 0 := by
  have hopen := namelessIn_open [] scope p
  rw [List.nil_append, List.length_nil] at hopen
  rw [nameless, ← hopen, Nameless.subst_instantiate_ofName hclosed]
  congr 1
  calc (p.namelessIn scope).subst f = (p.namelessIn scope).subst Nameless.Image.ofName :=
        Nameless.subst_congr fun x hx => hf x (occursFree_of_mem_names hx).2
    _ = p.namelessIn scope := Nameless.subst_ofName _

/-- Counted from the end, the members of two lists of one length belong together. -/
lemma mem_zip_of_getElem?_reverse {vars : List Name} {terms : List Proposition}
    (hlength : terms.length = vars.length) {i : ℕ} {t : Proposition}
    (h : terms.reverse[i]? = some t) : (vars.reverse.getD i "", t) ∈ vars.zip terms := by
  have hi : i < terms.reverse.length := (List.getElem?_eq_some_iff.1 h).1
  have hi' : i < vars.reverse.length := by simpa [hlength] using hi
  rw [← List.mem_reverse, List.zip, List.reverse_zipWith hlength.symm, List.mem_iff_getElem?]
  refine ⟨i, List.getElem?_zip_eq_some.2 ⟨?_, h⟩⟩
  rw [List.getD_eq_getElem?_getD, List.getElem?_eq_getElem hi', Option.getD_some]

lemma closed_nameless (p : Proposition) : p.nameless.Closed 0 := closed_namelessIn [] p

end Proposition

lemma Substitution.image_closed (σ : Substitution) (x : Name) : (σ.image x).Closed := by
  rw [image]
  split
  · split
    · exact Nameless.Image.ofName_closed x
    · exact Proposition.closed_nameless _
  · exact Nameless.Image.ofName_closed x

namespace Proposition

/-- **Instantiation on nameless forms.**  The witnesses take the place of the variables, which are
the loose indices of the body, the last variable first. -/
lemma instantiate_nameless {vars : List Name} {body q : Proposition} {witnesses : List Proposition}
    (hbody : body.BindsNoConstant) (hvars : ∀ v ∈ vars, v.isConstant = false) (hnodup : vars.Nodup)
    (hlength : witnesses.length = vars.length)
    (h : body.substitute (Table.ofList (vars.zip witnesses)) = .ok q) :
    ∃ b : ℕ → Nameless.Image, (∀ i, (b i).Closed) ∧
      q.nameless = (body.namelessIn (Scope.enter [] vars)).instantiate b 0 ∧
      ∀ i w, witnesses.reverse[i]? = some w → ∃ head, b i = .term w.nameless head := by
  have hkeys : (vars.zip witnesses).map Prod.fst = vars := List.map_fst_zip (by omega)
  have hscope : Scope.enter [] vars = vars.reverse := by simp [Scope.enter]
  refine ⟨fun i => Substitution.image (Table.ofList (vars.zip witnesses)) (vars.reverse.getD i ""),
    fun _ => Substitution.image_closed _ _, ?_, ?_⟩
  · rw [substitute_nameless hbody h, hscope]
    refine subst_nameless_eq_instantiate (Substitution.image_closed _) fun x hx => ?_
    rw [List.mem_reverse, ← hkeys] at hx
    rw [Substitution.image, Table.get?_ofList_of_not_mem hx]
  · intro i w hw
    have hmem := mem_zip_of_getElem?_reverse hlength hw
    have hconst := hvars _ (List.of_mem_zip hmem).1
    refine ⟨w.asName?.getD (vars.reverse.getD i ""), ?_⟩
    simp only [Substitution.image, Table.get?_ofList_of_mem (hkeys.symm ▸ hnodup) hmem, hconst,
      Bool.false_eq_true, if_false]

/-- The bindings that unfolding starts with. -/
def unfoldingBindings (kind : FixpointKind) (name : Name) (params : List Name) (body : Proposition)
    (args : List Proposition) : Bindings :=
  (name, .reference kind params body) :: (params.zip args).map fun (x, t) => (x, .term t)

section

variable {kind : FixpointKind} {name : Name} {params : List Name} {body : Proposition}
  {args : List Proposition}

lemma lookup_unfoldingBindings (hnodup : params.Nodup) (hname : name ∉ params)
    (hlength : args.length = params.length) {x : Name} {replacement : Replacement} :
    (unfoldingBindings kind name params body args).lookup x = some replacement ↔
      x = name ∧ replacement = .reference kind params body ∨
        ∃ t, (x, t) ∈ params.zip args ∧ replacement = .term t := by
  have hkeys : (unfoldingBindings kind name params body args).map Prod.fst = name :: params := by
    rw [unfoldingBindings, List.map_cons, List.map_map]
    exact congrArg _ (List.map_fst_zip (by omega))
  rw [lookup_eq_some_iff_mem (hkeys ▸ List.nodup_cons.2 ⟨hname, hnodup⟩), unfoldingBindings]
  simp only [List.mem_cons, Prod.mk.injEq, List.mem_map, Prod.exists]
  refine or_congr_right ⟨?_, ?_⟩
  · rintro ⟨y, t, hmem, rfl, rfl⟩
    exact ⟨t, hmem, rfl⟩
  · rintro ⟨t, hmem, rfl⟩
    exact ⟨x, t, hmem, rfl, rfl⟩

/-- Unfolding replaces the identifier and the parameters in the body. -/
lemma unfoldFixpoint_subst {q : Proposition} (hbody : body.BindsNoConstant) (hnodup : params.Nodup)
    (hname : name ∉ params) (hlength : args.length = params.length)
    (h : unfoldFixpoint kind name params body args = .ok q) :
    q.nameless = body.nameless.subst (unfoldingBindings kind name params body args).image := by
  refine replaceIn_run'_nameless ?_ ?_ ?_ (Bindings.not_exposes_of_bindsNoConstant hbody _) h
  · rintro y ⟨x, replacement, hlookup, hy⟩
    rcases (lookup_unfoldingBindings hnodup hname hlength).1 hlookup with ⟨rfl, rfl⟩ |
      ⟨t, hzip, rfl⟩
    · refine (occursFree_of_mem_names hy).1.imp_right fun hmem =>
        KeySet.contains_ofList.2 (List.mem_append_left _ ?_)
      obtain ⟨o, ho, rfl⟩ := List.mem_map.1 hmem
      have hsplit := @mem_freeOccurrences_append [] (Scope.enterFixpoint [] x params) body o
      rw [List.nil_append] at hsplit
      obtain ⟨ho, hscope⟩ := hsplit.1 ho
      rw [List.mem_filter]
      refine ⟨Table.mem_keys_iff.2 (mem_freeNames.2 (List.mem_map_of_mem ho)), ?_⟩
      rw [Scope.mem_enterFixpoint] at hscope
      simpa using hscope
    · refine (occursFree_of_mem_names hy).1.imp_right fun hmem =>
        KeySet.contains_ofList.2 (List.mem_append_right _ ?_)
      exact List.mem_flatMap.2 ⟨t, (List.of_mem_zip hzip).2,
        Table.mem_keys_iff.2 (mem_freeNames.2 hmem)⟩
  · intro y hy
    rcases List.mem_append.1 (KeySet.contains_ofList.1 hy) with hy | hy
    · obtain ⟨o, ho, rfl⟩ :=
        List.mem_map.1 (mem_freeNames.1 (Table.mem_keys_iff.1 (List.mem_filter.1 hy).1))
      exact List.mem_append_left _ (List.mem_append_left _ (mem_nameList_of_mem_freeOccurrences ho))
    · obtain ⟨t, ht, hy⟩ := List.mem_flatMap.1 hy
      obtain ⟨o, ho, rfl⟩ := List.mem_map.1 (mem_freeNames.1 (Table.mem_keys_iff.1 hy))
      exact List.mem_append_right _
        (List.mem_flatMap.2 ⟨t, ht, mem_nameList_of_mem_freeOccurrences ho⟩)
  · exact fun x hx => List.mem_append_left _ (List.mem_append_left _ hx)

/-- **Unfolding on nameless forms.**  In the body, the arguments take the place of the parameters
and the fixpoint that of the identifier; these are the loose indices, the last parameter first. -/
lemma unfoldFixpoint_nameless {q : Proposition} (hbody : body.BindsNoConstant)
    (hnodup : params.Nodup) (hname : name ∉ params) (hlength : args.length = params.length)
    (h : unfoldFixpoint kind name params body args = .ok q) :
    ∃ b : ℕ → Nameless.Image, (∀ i, (b i).Closed) ∧
      q.nameless = (body.namelessIn (Scope.enterFixpoint [] name params)).instantiate b 0 ∧
      (∀ i t, args.reverse[i]? = some t → ∃ head, b i = .term t.nameless head) ∧
      b params.length =
        .reference kind params.length (body.namelessIn (Scope.enterFixpoint [] name params)) := by
  have hscope : Scope.enterFixpoint [] name params = params.reverse ++ [name] := by
    simp [Scope.enterFixpoint, Scope.enter]
  have hlookup {x replacement} := @lookup_unfoldingBindings kind name params body args hnodup hname
    hlength x replacement
  have hclosed : ∀ x, ((unfoldingBindings kind name params body args).image x).Closed := by
    intro x
    rw [Bindings.image]
    split
    · exact Nameless.Image.ofName_closed x
    · exact closed_nameless _
    · rename_i hbinding
      rcases hlookup.1 hbinding with ⟨rfl, heq⟩ | ⟨t, -, heq⟩
      · cases heq
        have hclosed := closed_namelessIn (Scope.enterFixpoint [] x params) body
        rwa [Scope.length_enterFixpoint, List.length_nil, Nat.zero_add] at hclosed
      · cases heq
  refine ⟨fun i => (unfoldingBindings kind name params body args).image
    ((Scope.enterFixpoint [] name params).getD i ""), fun i => hclosed _, ?_, ?_, ?_⟩
  · rw [unfoldFixpoint_subst hbody hnodup hname hlength h]
    refine subst_nameless_eq_instantiate hclosed fun x hx => ?_
    rw [Bindings.image]
    cases hbinding : (unfoldingBindings kind name params body args).lookup x with
    | none => rfl
    | some replacement =>
      refine absurd (Scope.mem_enterFixpoint.2 ?_) hx
      rcases hlookup.1 hbinding with ⟨heq, -⟩ | ⟨t, hmem, -⟩
      · exact .inl heq
      · exact .inr (.inl (List.of_mem_zip hmem).1)
  · intro i t ht
    have hi : i < params.reverse.length := by
      simpa [hlength] using (List.getElem?_eq_some_iff.1 ht).1
    have hget : (Scope.enterFixpoint [] name params).getD i "" = params.reverse.getD i "" := by
      rw [hscope, List.getD_eq_getElem?_getD, List.getElem?_append_left hi,
        List.getD_eq_getElem?_getD]
    have hmem := mem_zip_of_getElem?_reverse hlength ht
    refine ⟨t.asName?.getD (params.reverse.getD i ""), ?_⟩
    simp only [hget, Bindings.image, hlookup.2 (.inr ⟨t, hmem, rfl⟩)]
  · have hget : (Scope.enterFixpoint [] name params).getD params.length "" = name := by
      rw [hscope, List.getD_eq_getElem?_getD, List.getElem?_append_right (by simp)]
      simp
    simp only [hget, Bindings.image, hlookup.2 (.inl ⟨rfl, rfl⟩)]

end

end Proposition

end CyclicProof
