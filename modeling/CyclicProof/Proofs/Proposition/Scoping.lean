import CyclicProof.Proofs.Nameless.Substitution
import CyclicProof.Proofs.Proposition.AlphaEquivalence

/-!
# What a nameless form depends on

The nameless form of a proposition depends on the scope only through the binders of its free names
(`Proposition.namelessIn_append_congr`); it has no loose indices beyond the scope; and opening the
scope, that is, putting the names back for the loose indices, gives the nameless form in the
smaller scope (`Proposition.namelessIn_open`).
-/

namespace CyclicProof

namespace Scope

lemma enter_append (inner outer : Scope) (vars : List Name) :
    enter (inner ++ outer) vars = inner.enter vars ++ outer := by
  simp [enter]

lemma enterFixpoint_append (inner outer : Scope) (name : Name) (params : List Name) :
    enterFixpoint (inner ++ outer) name params = inner.enterFixpoint name params ++ outer := by
  simp [enterFixpoint, enter]

lemma mem_enter {scope : Scope} {vars : List Name} {x : Name} :
    x ∈ scope.enter vars ↔ x ∈ vars ∨ x ∈ scope := by
  simp [enter]

lemma mem_enterFixpoint {scope : Scope} {name : Name} {params : List Name} {x : Name} :
    x ∈ scope.enterFixpoint name params ↔ x = name ∨ x ∈ params ∨ x ∈ scope := by
  simp only [enterFixpoint, enter, List.mem_append, List.mem_reverse, List.mem_cons]
  tauto

end Scope

namespace Proposition

/-! ## Free names -/

lemma mem_headOccurrence {scope : Scope} {head : Name} {arity : ℕ} {o : Occurrence} :
    o ∈ headOccurrence scope head arity ↔
      head.isConstant = false ∧ head ∉ scope ∧ o = ⟨head, arity⟩ := by
  rw [headOccurrence]
  split
  · rename_i h
    simp only [List.not_mem_nil, false_iff, not_and]
    intro hconst hscope
    simp [hconst, hscope] at h
  · rename_i h
    simp_all

/-- Outer binders only take occurrences away. -/
lemma mem_freeOccurrences_append {inner outer : Scope} {p : Proposition} {o : Occurrence} :
    o ∈ p.freeOccurrences (inner ++ outer) ↔ o ∈ p.freeOccurrences inner ∧ o.name ∉ outer := by
  induction p generalizing inner with
  | atomic head args ih =>
    simp only [freeOccurrences, List.mem_append, mem_headOccurrence, mem_freeOccurrencesAll, not_or]
    constructor
    · rintro (⟨hconst, hscope, rfl⟩ | ⟨p, hp, ho⟩)
      · exact ⟨.inl ⟨hconst, hscope.1, rfl⟩, hscope.2⟩
      · obtain ⟨ho, houter⟩ := (ih p hp).1 ho
        exact ⟨.inr ⟨p, hp, ho⟩, houter⟩
    · rintro ⟨⟨hconst, hscope, rfl⟩ | ⟨p, hp, ho⟩, houter⟩
      · exact .inl ⟨hconst, ⟨hscope, houter⟩, rfl⟩
      · exact .inr ⟨p, hp, (ih p hp).2 ⟨ho, houter⟩⟩
  | connective kind operands ih =>
    simp only [freeOccurrences, mem_freeOccurrencesAll]
    constructor
    · rintro ⟨p, hp, ho⟩
      obtain ⟨ho, houter⟩ := (ih p hp).1 ho
      exact ⟨⟨p, hp, ho⟩, houter⟩
    · rintro ⟨⟨p, hp, ho⟩, houter⟩
      exact ⟨p, hp, (ih p hp).2 ⟨ho, houter⟩⟩
  | quantifier kind vars body ih =>
    rw [freeOccurrences, freeOccurrences, Scope.enter_append, ih]
  | fixpoint kind name params body args ihbody ihargs =>
    simp only [freeOccurrences, List.mem_append, mem_freeOccurrencesAll, Scope.enterFixpoint_append,
      ihbody]
    constructor
    · rintro (⟨p, hp, ho⟩ | ⟨ho, houter⟩)
      · obtain ⟨ho, houter⟩ := (ihargs p hp).1 ho
        exact ⟨.inl ⟨p, hp, ho⟩, houter⟩
      · exact ⟨.inr ho, houter⟩
    · rintro ⟨⟨p, hp, ho⟩ | ho, houter⟩
      · exact .inl ⟨p, hp, (ihargs p hp).2 ⟨ho, houter⟩⟩
      · exact .inr ⟨ho, houter⟩

/-- The name occurs free below the scope: it is a constant or has a free occurrence. -/
def OccursFree (scope : Scope) (p : Proposition) (x : Name) : Prop :=
  x.isConstant = true ∨ x ∈ (p.freeOccurrences scope).map Occurrence.name

/-! ## Scopes -/

/-- Only the binders of the free names matter. -/
lemma namelessIn_append_congr {inner left right : Scope} {p : Proposition}
    (h : ∀ x ∈ (p.namelessIn inner).names, left.index? x = right.index? x) :
    p.namelessIn (inner ++ left) = p.namelessIn (inner ++ right) := by
  induction p generalizing inner with
  | atomic head args ih =>
    rw [namelessIn, namelessAllIn_eq_map] at h
    have hhead : Scope.index? (inner ++ left) head = Scope.index? (inner ++ right) head := by
      rw [Scope.index?_append, Scope.index?_append]
      by_cases hmem : head ∈ inner
      · rw [if_pos hmem, if_pos hmem]
      · rw [Scope.index?_eq_none_iff.2 hmem] at h
        rw [if_neg hmem, if_neg hmem, h head List.mem_cons_self]
    have hargs :
        args.map (namelessIn (inner ++ left)) = args.map (namelessIn (inner ++ right)) := by
      refine List.map_congr_left fun a ha => ih a ha fun x hx => h x ?_
      have hall : x ∈ Nameless.namesAll (args.map (namelessIn inner)) :=
        Nameless.mem_namesAll.2 ⟨_, List.mem_map_of_mem ha, hx⟩
      cases inner.index? head with
      | none => exact List.mem_cons_of_mem _ hall
      | some i => exact hall
    rw [namelessIn, namelessIn, hhead, namelessAllIn_eq_map, namelessAllIn_eq_map, hargs]
  | connective kind operands ih =>
    rw [namelessIn, namelessAllIn_eq_map] at h
    rw [namelessIn, namelessIn, namelessAllIn_eq_map, namelessAllIn_eq_map]
    congr 1
    refine List.map_congr_left fun a ha => ih a ha fun x hx => h x ?_
    exact Nameless.mem_namesAll.2 ⟨_, List.mem_map_of_mem ha, hx⟩
  | quantifier kind vars body ih =>
    rw [namelessIn, namelessIn, Scope.enter_append, Scope.enter_append, ih h]
  | fixpoint kind name params body args ihbody ihargs =>
    rw [namelessIn, namelessAllIn_eq_map] at h
    rw [namelessIn, namelessIn, Scope.enterFixpoint_append, Scope.enterFixpoint_append,
      namelessAllIn_eq_map, namelessAllIn_eq_map,
      ihbody fun x hx => h x (List.mem_append_left _ hx)]
    congr 1
    refine List.map_congr_left fun a ha => ihargs a ha fun x hx => h x ?_
    exact List.mem_append_right _ (Nameless.mem_namesAll.2 ⟨_, List.mem_map_of_mem ha, hx⟩)

/-- There are no loose indices beyond the scope. -/
lemma closed_namelessIn (scope : Scope) (p : Proposition) :
    (p.namelessIn scope).Closed scope.length := by
  induction p generalizing scope with
  | atomic head args ih =>
    rw [namelessIn, namelessAllIn_eq_map]
    have hargs : ∀ m ∈ args.map (namelessIn scope), m.Closed scope.length := by
      intro m hm
      obtain ⟨a, ha, rfl⟩ := List.mem_map.1 hm
      exact ih a ha scope
    cases hindex : scope.index? head with
    | none => simpa only [Nameless.Closed, Nameless.closedAll_iff] using hargs
    | some i =>
      simpa only [Nameless.Closed, Nameless.closedAll_iff] using ⟨Scope.index?_lt hindex, hargs⟩
  | connective kind operands ih =>
    rw [namelessIn, namelessAllIn_eq_map, Nameless.Closed, Nameless.closedAll_iff]
    intro m hm
    obtain ⟨a, ha, rfl⟩ := List.mem_map.1 hm
    exact ih a ha scope
  | quantifier kind vars body ih =>
    rw [namelessIn, Nameless.Closed, ← Scope.length_enter]
    exact ih _
  | fixpoint kind name params body args ihbody ihargs =>
    rw [namelessIn, namelessAllIn_eq_map, Nameless.Closed, Nameless.closedAll_iff,
      ← Scope.length_enterFixpoint scope name params]
    refine ⟨ihbody _, fun m hm => ?_⟩
    obtain ⟨a, ha, rfl⟩ := List.mem_map.1 hm
    exact ihargs a ha scope

/-- The names in a nameless form are the free ones. -/
lemma occursFree_of_mem_names {scope : Scope} {p : Proposition} {x : Name}
    (h : x ∈ (p.namelessIn scope).names) : OccursFree scope p x ∧ x ∉ scope := by
  induction p generalizing scope with
  | atomic head args ih =>
    have hargs : ∀ a ∈ args, x ∈ (a.namelessIn scope).names →
        OccursFree scope (atomic head args) x ∧ x ∉ scope := by
      intro a ha hx
      refine (ih a ha hx).imp_left fun hfree => hfree.imp_right fun hmem => ?_
      obtain ⟨o, ho, rfl⟩ := List.mem_map.1 hmem
      exact List.mem_map_of_mem (List.mem_append_right _ (mem_freeOccurrencesAll.2 ⟨a, ha, ho⟩))
    rw [namelessIn, namelessAllIn_eq_map] at h
    cases hindex : scope.index? head with
    | none =>
      rw [hindex] at h
      simp only [Nameless.names, List.mem_cons, Nameless.mem_namesAll, List.mem_map] at h
      rcases h with rfl | ⟨_, ⟨a, ha, rfl⟩, hx⟩
      · have hscope := Scope.index?_eq_none_iff.1 hindex
        refine ⟨?_, hscope⟩
        cases hconst : x.isConstant with
        | true => exact .inl hconst
        | false =>
          refine .inr (List.mem_map.2 ⟨⟨x, args.length⟩, ?_, rfl⟩)
          exact List.mem_append_left _ (mem_headOccurrence.2 ⟨hconst, hscope, rfl⟩)
      · exact hargs a ha hx
    | some i =>
      rw [hindex] at h
      simp only [Nameless.names, Nameless.mem_namesAll, List.mem_map] at h
      obtain ⟨_, ⟨a, ha, rfl⟩, hx⟩ := h
      exact hargs a ha hx
  | connective kind operands ih =>
    simp only [namelessIn, namelessAllIn_eq_map, Nameless.names, Nameless.mem_namesAll,
      List.mem_map] at h
    obtain ⟨_, ⟨a, ha, rfl⟩, hx⟩ := h
    refine (ih a ha hx).imp_left fun hfree => hfree.imp_right fun hmem => ?_
    obtain ⟨o, ho, rfl⟩ := List.mem_map.1 hmem
    exact List.mem_map_of_mem (mem_freeOccurrencesAll.2 ⟨a, ha, ho⟩)
  | quantifier kind vars body ih =>
    refine (ih h).imp_right fun hscope hmem => hscope (Scope.mem_enter.2 (.inr hmem))
  | fixpoint kind name params body args ihbody ihargs =>
    simp only [namelessIn, namelessAllIn_eq_map, Nameless.names, List.mem_append,
      Nameless.mem_namesAll, List.mem_map] at h
    rcases h with hx | ⟨_, ⟨a, ha, rfl⟩, hx⟩
    · refine (ihbody hx).imp (fun hfree => hfree.imp_right fun hmem => ?_)
        fun hscope hmem => hscope (Scope.mem_enterFixpoint.2 (.inr (.inr hmem)))
      obtain ⟨o, ho, rfl⟩ := List.mem_map.1 hmem
      exact List.mem_map_of_mem (List.mem_append_right _ ho)
    · refine (ihargs a ha hx).imp_left fun hfree => hfree.imp_right fun hmem => ?_
      obtain ⟨o, ho, rfl⟩ := List.mem_map.1 hmem
      exact List.mem_map_of_mem (List.mem_append_left _ (mem_freeOccurrencesAll.2 ⟨a, ha, ho⟩))

/-- Putting the names of outer binders back for their indices opens the scope. -/
lemma namelessIn_open (inner outer : Scope) (p : Proposition) :
    (p.namelessIn (inner ++ outer)).instantiate (fun i => .ofName (outer.getD i "")) inner.length =
      p.namelessIn inner := by
  induction p generalizing inner with
  | atomic head args ih =>
    have hargs : (args.map (namelessIn (inner ++ outer))).map
        (Nameless.instantiate (fun i => .ofName (outer.getD i "")) inner.length) =
          args.map (namelessIn inner) := by
      rw [List.map_map]
      exact List.map_congr_left fun a ha => ih a ha inner
    rw [namelessIn, namelessIn, Scope.index?_append, namelessAllIn_eq_map, namelessAllIn_eq_map]
    by_cases hmem : head ∈ inner
    · rw [if_pos hmem]
      cases hindex : inner.index? head with
      | none => exact absurd hmem (Scope.index?_eq_none_iff.1 hindex)
      | some i =>
        simp only [Nameless.instantiate, if_pos (Scope.index?_lt hindex),
          Nameless.instantiateAll_eq_map, hargs]
    · rw [if_neg hmem, Scope.index?_eq_none_iff.2 hmem]
      cases hindex : outer.index? head with
      | none => simp only [Option.map_none, Nameless.instantiate,
        Nameless.instantiateAll_eq_map, hargs]
      | some i =>
        have hname : outer.getD i "" = head := by
          rw [List.getD_eq_getElem?_getD, Scope.getElem?_of_index? hindex, Option.getD_some]
        simp only [Option.map_some, Nameless.instantiate, Nameless.instantiateAll_eq_map, hargs,
          Nat.not_lt.2 (Nat.le_add_left _ _), if_false, Nat.add_sub_cancel, hname,
          Nameless.Image.ofName_apply]
  | connective kind operands ih =>
    simp only [namelessIn, namelessAllIn_eq_map, Nameless.instantiate,
      Nameless.instantiateAll_eq_map, List.map_map]
    exact congrArg _ (List.map_congr_left fun a ha => ih a ha inner)
  | quantifier kind vars body ih =>
    rw [namelessIn, namelessIn, Nameless.instantiate, Scope.enter_append,
      ← Scope.length_enter inner vars, ih]
  | fixpoint kind name params body args ihbody ihargs =>
    simp only [namelessIn, namelessAllIn_eq_map, Nameless.instantiate,
      Nameless.instantiateAll_eq_map, List.map_map, Scope.enterFixpoint_append,
      ← Scope.length_enterFixpoint inner name params, ihbody]
    exact congrArg _ (List.map_congr_left fun a ha => ihargs a ha inner)

/-! ## Binders and their roles -/

lemma lookup_of_index? {binders : List (Name × BinderRole)} {x : Name} {i : ℕ}
    (h : Scope.index? (binders.map Prod.fst) x = some i) :
    ∃ role, binders.lookup x = some role ∧ binders[i]? = some (x, role) := by
  induction binders generalizing i with
  | nil => cases h
  | cons e binders ih =>
    obtain ⟨y, role⟩ := e
    rw [List.map_cons, Scope.index?] at h
    rw [List.lookup_cons]
    by_cases hyx : y = x
    · rw [if_pos hyx] at h
      obtain rfl := Option.some.inj h
      exact ⟨role, by simp [hyx], by simp [hyx]⟩
    · rw [if_neg hyx] at h
      obtain ⟨j, hj, rfl⟩ := Option.map_eq_some_iff.1 h
      obtain ⟨role', hlookup, hget⟩ := ih hj
      exact ⟨role', by simpa [beq_eq_false_iff_ne.2 (Ne.symm hyx)] using hlookup,
        by simpa using hget⟩

lemma map_fst_bindVariables (binders : List (Name × BinderRole)) (vars : List Name) :
    (bindVariables binders vars).map Prod.fst = Scope.enter (binders.map Prod.fst) vars := by
  simp [bindVariables, Scope.enter, Function.comp_def]

lemma map_snd_bindVariables (binders : List (Name × BinderRole)) (vars : List Name) :
    (bindVariables binders vars).map Prod.snd =
      List.replicate vars.length .individual ++ binders.map Prod.snd := by
  simp [bindVariables, Function.comp_def, List.map_const']

lemma bindVariables_append (inner outer : List (Name × BinderRole)) (vars : List Name) :
    bindVariables (inner ++ outer) vars = bindVariables inner vars ++ outer := by
  simp [bindVariables]

lemma length_bindVariables (binders : List (Name × BinderRole)) (vars : List Name) :
    (bindVariables binders vars).length = binders.length + vars.length := by
  simp [bindVariables, Nat.add_comm]

end Proposition

end CyclicProof
