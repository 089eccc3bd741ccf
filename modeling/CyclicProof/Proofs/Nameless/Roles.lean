import CyclicProof.Proofs.Proposition.Substitution

/-!
# Well-formedness without names

Whether a proposition is well-formed can be read off its nameless form: the roles of the binders
around an occurrence say how many arguments it may have (`Nameless.Fits`).  So propositions that
differ in bound names only are well-formed together, and they have the same free names
(`Proposition.fits_iff`, `Proposition.mem_freeNames_iff`).

Replacing the loose indices of a well-formed body by images that suit their roles gives a
well-formed proposition (`Nameless.Fits.instantiate`).  It does not matter what an image would make
of other numbers of arguments (`Nameless.Fits.instantiate_congr`), and no name comes in that is not
a name of the body or of an image (`Nameless.Fits.mem_names_instantiate`).
-/

namespace CyclicProof

namespace Nameless

/-- The roles below a quantifier. -/
def quantifierRoles (count : ℕ) (roles : List BinderRole) : List BinderRole :=
  List.replicate count .individual ++ roles

/-- The roles in the body of a fixpoint. -/
def fixpointRoles (count : ℕ) (roles : List BinderRole) : List BinderRole :=
  quantifierRoles count (.identifier count :: roles)

mutual

/-- Every bound occurrence has as many arguments as its binder asks for, where `roles` are the
roles of the binders around the form, innermost first. -/
def Fits (roles : List BinderRole) : Nameless → Prop
  | bound index args =>
    (∃ role, roles[index]? = some role ∧ role.admits args.length = true) ∧ FitsAll roles args
  | free _ args => FitsAll roles args
  | connective _ operands => FitsAll roles operands
  | quantifier _ count body => Fits (quantifierRoles count roles) body
  | fixpoint _ count body args => Fits (fixpointRoles count roles) body ∧ FitsAll roles args

/-- Every bound occurrence in a list has as many arguments as its binder asks for. -/
def FitsAll (roles : List BinderRole) : List Nameless → Prop
  | [] => True
  | m :: ms => Fits roles m ∧ FitsAll roles ms

end

@[simp] lemma fitsAll_iff {roles : List BinderRole} {ms : List Nameless} :
    FitsAll roles ms ↔ ∀ m ∈ ms, Fits roles m := by
  induction ms with
  | nil => simp [FitsAll]
  | cons m ms ih => rw [FitsAll, ih, List.forall_mem_cons]

lemma quantifierRoles_append (count : ℕ) (inner outer : List BinderRole) :
    quantifierRoles count (inner ++ outer) = quantifierRoles count inner ++ outer := by
  simp [quantifierRoles]

lemma fixpointRoles_append (count : ℕ) (inner outer : List BinderRole) :
    fixpointRoles count (inner ++ outer) = fixpointRoles count inner ++ outer := by
  simp [fixpointRoles, quantifierRoles]

lemma length_quantifierRoles (count : ℕ) (roles : List BinderRole) :
    (quantifierRoles count roles).length = roles.length + count := by
  simp [quantifierRoles, Nat.add_comm]

lemma length_fixpointRoles (count : ℕ) (roles : List BinderRole) :
    (fixpointRoles count roles).length = roles.length + count + 1 := by
  simp [fixpointRoles, quantifierRoles]
  omega

/-- More binders around do not matter. -/
lemma Fits.weaken {roles : List BinderRole} {m : Nameless} (h : m.Fits roles)
    (more : List BinderRole) : m.Fits (roles ++ more) := by
  induction m generalizing roles with
  | bound index args ih =>
    simp only [Fits, fitsAll_iff] at h ⊢
    obtain ⟨⟨role, hrole, hadmits⟩, hargs⟩ := h
    refine ⟨⟨role, ?_, hadmits⟩, fun a ha => ih a ha (hargs a ha)⟩
    rw [List.getElem?_append_left (List.getElem?_eq_some_iff.1 hrole).1, hrole]
  | free name args ih =>
    simp only [Fits, fitsAll_iff] at h ⊢
    exact fun a ha => ih a ha (h a ha)
  | connective kind operands ih =>
    simp only [Fits, fitsAll_iff] at h ⊢
    exact fun a ha => ih a ha (h a ha)
  | quantifier kind count body ih =>
    rw [Fits, quantifierRoles_append]
    exact ih h
  | fixpoint kind count body args ihbody ihargs =>
    simp only [Fits, fitsAll_iff, fixpointRoles_append] at h ⊢
    exact ⟨ihbody h.1, fun a ha => ihargs a ha (h.2 a ha)⟩

/-! ## Images that suit a role -/

namespace Image

/-- The image may take the place of a head with the given role. -/
def Suits : BinderRole → Image → Prop
  | .individual, term m _ => m.Fits []
  | .identifier arity, reference _ count body => arity = count ∧ body.Fits (fixpointRoles count [])
  | _, _ => False

/-- The names that an image brings in where it suits the role of the head. -/
def names : Image → List Name
  | term m _ => m.names
  | reference _ _ body => body.names

variable {role : BinderRole} {i : Image} {args : List Nameless}

lemma Suits.fits_apply {roles : List BinderRole} (h : i.Suits role)
    (hadmits : role.admits args.length = true) (hargs : ∀ a ∈ args, a.Fits roles) :
    (i.apply args).Fits roles := by
  cases role with
  | individual =>
    cases i with
    | term m head =>
      obtain rfl : args = [] := by simpa [BinderRole.admits] using hadmits
      exact Fits.weaken h roles
    | reference kind count body => exact h.elim
  | identifier arity =>
    cases i with
    | term m head => exact h.elim
    | reference kind count body =>
      have hbody := Fits.weaken h.2 roles
      rw [← fixpointRoles_append, List.nil_append] at hbody
      rw [reference_apply, Fits, fitsAll_iff]
      exact ⟨hbody, hargs⟩

lemma Suits.mem_names_apply (h : i.Suits role) (hadmits : role.admits args.length = true) {x : Name}
    (hx : x ∈ (i.apply args).names) : x ∈ i.names ∨ ∃ a ∈ args, x ∈ a.names := by
  cases role with
  | individual =>
    cases i with
    | term m head =>
      obtain rfl : args = [] := by simpa [BinderRole.admits] using hadmits
      exact .inl hx
    | reference kind count body => exact h.elim
  | identifier arity =>
    cases i with
    | term m head => exact h.elim
    | reference kind count body =>
      rwa [reference_apply, Nameless.names, List.mem_append, mem_namesAll] at hx

end Image

/-! ## Replacing the loose indices of a well-formed body -/

section

variable {b b' : ℕ → Image} {inner outer : List BinderRole} {m : Nameless}

/-- An index beyond the inner roles has one of the outer ones. -/
lemma role_of_le {index : ℕ} {role : BinderRole} (h : (inner ++ outer)[index]? = some role)
    (hle : inner.length ≤ index) : outer[index - inner.length]? = some role := by
  rwa [List.getElem?_append_right hle] at h

/-- Putting in what suits the roles leaves the form well-formed. -/
lemma Fits.instantiate (h : m.Fits (inner ++ outer))
    (hb : ∀ (i : ℕ) (role : BinderRole), outer[i]? = some role → (b i).Suits role) :
    (m.instantiate b inner.length).Fits inner := by
  induction m generalizing inner with
  | bound index args ih =>
    simp only [Fits, fitsAll_iff] at h
    obtain ⟨⟨role, hrole, hadmits⟩, hargs⟩ := h
    have hargs' : ∀ a ∈ args.map (Nameless.instantiate b inner.length), a.Fits inner :=
      List.forall_mem_map.2 fun a ha => ih a ha (hargs a ha)
    rw [Nameless.instantiate, instantiateAll_eq_map]
    split
    · rename_i hlt
      rw [Fits, fitsAll_iff]
      rw [List.getElem?_append_left hlt] at hrole
      exact ⟨⟨role, hrole, by rwa [List.length_map]⟩, hargs'⟩
    · rename_i hge
      exact (hb _ role (role_of_le hrole (Nat.not_lt.1 hge))).fits_apply
        (by rwa [List.length_map]) hargs'
  | free name args ih =>
    simp only [Fits, fitsAll_iff, Nameless.instantiate, instantiateAll_eq_map,
      List.forall_mem_map] at h ⊢
    exact fun a ha => ih a ha (h a ha)
  | connective kind operands ih =>
    simp only [Fits, fitsAll_iff, Nameless.instantiate, instantiateAll_eq_map,
      List.forall_mem_map] at h ⊢
    exact fun a ha => ih a ha (h a ha)
  | quantifier kind count body ih =>
    rw [Fits, quantifierRoles_append] at h
    rw [Nameless.instantiate, Fits, ← length_quantifierRoles]
    exact ih h
  | fixpoint kind count body args ihbody ihargs =>
    simp only [Fits, fitsAll_iff, fixpointRoles_append] at h
    simp only [Nameless.instantiate, Fits, fitsAll_iff, instantiateAll_eq_map, List.forall_mem_map,
      ← length_fixpointRoles]
    exact ⟨ihbody h.1, fun a ha => ihargs a ha (h.2 a ha)⟩

/-- Only the numbers of arguments that the roles ask for matter. -/
lemma Fits.instantiate_congr (h : m.Fits (inner ++ outer))
    (hb : ∀ (i : ℕ) (role : BinderRole), outer[i]? = some role → ∀ args : List Nameless,
      role.admits args.length = true → (b i).apply args = (b' i).apply args) :
    m.instantiate b inner.length = m.instantiate b' inner.length := by
  induction m generalizing inner with
  | bound index args ih =>
    simp only [Fits, fitsAll_iff] at h
    obtain ⟨⟨role, hrole, hadmits⟩, hargs⟩ := h
    simp only [Nameless.instantiate, instantiateAll_eq_map]
    rw [List.map_congr_left fun a ha => ih a ha (hargs a ha)]
    split
    · rfl
    · rename_i hge
      exact hb _ role (role_of_le hrole (Nat.not_lt.1 hge)) _ (by rwa [List.length_map])
  | free name args ih =>
    simp only [Fits, fitsAll_iff] at h
    simp only [Nameless.instantiate, instantiateAll_eq_map]
    rw [List.map_congr_left fun a ha => ih a ha (h a ha)]
  | connective kind operands ih =>
    simp only [Fits, fitsAll_iff] at h
    simp only [Nameless.instantiate, instantiateAll_eq_map]
    rw [List.map_congr_left fun a ha => ih a ha (h a ha)]
  | quantifier kind count body ih =>
    rw [Fits, quantifierRoles_append] at h
    rw [Nameless.instantiate, Nameless.instantiate, ← length_quantifierRoles, ih h]
  | fixpoint kind count body args ihbody ihargs =>
    simp only [Fits, fitsAll_iff, fixpointRoles_append] at h
    simp only [Nameless.instantiate, instantiateAll_eq_map, ← length_fixpointRoles]
    rw [ihbody h.1, List.map_congr_left fun a ha => ihargs a ha (h.2 a ha)]

/-- Every name comes from the form or from an image. -/
lemma Fits.mem_names_instantiate (h : m.Fits (inner ++ outer))
    (hb : ∀ (i : ℕ) (role : BinderRole), outer[i]? = some role → (b i).Suits role) {x : Name}
    (hx : x ∈ (m.instantiate b inner.length).names) :
    x ∈ m.names ∨ ∃ i < outer.length, x ∈ (b i).names := by
  induction m generalizing inner with
  | bound index args ih =>
    simp only [Fits, fitsAll_iff] at h
    obtain ⟨⟨role, hrole, hadmits⟩, hargs⟩ := h
    have hmap : (∃ a ∈ args.map (Nameless.instantiate b inner.length), x ∈ a.names) →
        x ∈ (bound index args).names ∨ ∃ i < outer.length, x ∈ (b i).names := by
      rintro ⟨_, hmem, hx⟩
      obtain ⟨a, ha, rfl⟩ := List.mem_map.1 hmem
      exact (ih a ha (hargs a ha) hx).imp_left fun hx => mem_namesAll.2 ⟨a, ha, hx⟩
    rw [Nameless.instantiate, instantiateAll_eq_map] at hx
    split at hx
    · exact hmap (mem_namesAll.1 hx)
    · rename_i hge
      have hrole' := role_of_le hrole (Nat.not_lt.1 hge)
      rcases (hb _ role hrole').mem_names_apply (by rwa [List.length_map]) hx with hx | hx
      · exact .inr ⟨_, (List.getElem?_eq_some_iff.1 hrole').1, hx⟩
      · exact hmap hx
  | free name args ih =>
    simp only [Fits, fitsAll_iff] at h
    simp only [Nameless.instantiate, instantiateAll_eq_map, names, List.mem_cons, mem_namesAll,
      List.mem_map] at hx ⊢
    rcases hx with rfl | ⟨_, ⟨a, ha, rfl⟩, hx⟩
    · exact .inl (.inl rfl)
    · exact (ih a ha (h a ha) hx).imp_left fun hx => .inr ⟨a, ha, hx⟩
  | connective kind operands ih =>
    simp only [Fits, fitsAll_iff] at h
    simp only [Nameless.instantiate, instantiateAll_eq_map, names, mem_namesAll,
      List.mem_map] at hx ⊢
    obtain ⟨_, ⟨a, ha, rfl⟩, hx⟩ := hx
    exact (ih a ha (h a ha) hx).imp_left fun hx => ⟨a, ha, hx⟩
  | quantifier kind count body ih =>
    rw [Fits, quantifierRoles_append] at h
    rw [Nameless.instantiate, names, ← length_quantifierRoles] at hx
    exact ih h hx
  | fixpoint kind count body args ihbody ihargs =>
    simp only [Fits, fitsAll_iff, fixpointRoles_append] at h
    simp only [Nameless.instantiate, instantiateAll_eq_map, ← length_fixpointRoles, names,
      List.mem_append, mem_namesAll, List.mem_map] at hx ⊢
    rcases hx with hx | ⟨_, ⟨a, ha, rfl⟩, hx⟩
    · exact (ihbody h.1 hx).imp_left .inl
    · exact (ihargs a ha (h.2 a ha) hx).imp_left fun hx => .inr ⟨a, ha, hx⟩

end

end Nameless

/-! ## Propositions and their nameless forms -/

namespace Proposition

/-- Well-formedness is well-formedness of the nameless form. -/
lemma fits_iff {binders : List (Name × BinderRole)} {p : Proposition} :
    p.fits binders = true ↔
      (p.namelessIn (binders.map Prod.fst)).Fits (binders.map Prod.snd) := by
  induction p generalizing binders with
  | atomic head args ih =>
    have hargs : fitsAll binders args = true ↔ Nameless.FitsAll (binders.map Prod.snd)
        (args.map (namelessIn (binders.map Prod.fst))) := by
      rw [fitsAll_iff, Nameless.fitsAll_iff, List.forall_mem_map]
      exact forall₂_congr fun a ha => ih a ha
    rw [fits, Bool.and_eq_true, namelessIn, namelessAllIn_eq_map, hargs, headFits]
    cases hindex : Scope.index? (binders.map Prod.fst) head with
    | none =>
      have hlookup : binders.lookup head = none := by
        have hnot := Scope.index?_eq_none_iff.1 hindex
        rw [List.lookup_eq_none_iff]
        intro e he
        simp only [bne_iff_ne]
        rintro rfl
        exact hnot (List.mem_map_of_mem he)
      rw [hlookup, Nameless.Fits]
      simp
    | some i =>
      obtain ⟨role, hlookup, hget⟩ := lookup_of_index? hindex
      rw [hlookup, Nameless.Fits, List.length_map]
      simp [hget]
  | connective kind operands ih =>
    rw [fits, fitsAll_iff, namelessIn, namelessAllIn_eq_map, Nameless.Fits, Nameless.fitsAll_iff,
      List.forall_mem_map]
    exact forall₂_congr fun a ha => ih a ha
  | quantifier kind vars body ih =>
    rw [fits, ih, namelessIn, Nameless.Fits, map_fst_bindVariables, map_snd_bindVariables,
      Nameless.quantifierRoles]
  | fixpoint kind name params body args ihbody ihargs =>
    rw [fits, Bool.and_eq_true, fitsAll_iff, ihbody, namelessIn, namelessAllIn_eq_map,
      Nameless.Fits, Nameless.fitsAll_iff, List.forall_mem_map, map_fst_bindVariables,
      map_snd_bindVariables, and_comm]
    exact and_congr Iff.rfl (forall₂_congr fun a ha => ihargs a ha)

lemma isWellFormed_iff {p : Proposition} : p.isWellFormed = true ↔ p.nameless.Fits [] := fits_iff

/-- What occurs free is no constant and a name of the nameless form. -/
lemma mem_names_of_mem_freeOccurrences {scope : Scope} {p : Proposition} {o : Occurrence}
    (h : o ∈ p.freeOccurrences scope) :
    o.name.isConstant = false ∧ o.name ∈ (p.namelessIn scope).names := by
  induction p generalizing scope with
  | atomic head args ih =>
    rw [freeOccurrences, List.mem_append, mem_headOccurrence, mem_freeOccurrencesAll] at h
    rw [namelessIn, namelessAllIn_eq_map]
    rcases h with ⟨hconst, hscope, rfl⟩ | ⟨a, ha, ho⟩
    · refine ⟨hconst, ?_⟩
      rw [Scope.index?_eq_none_iff.2 hscope]
      exact List.mem_cons_self
    · refine (ih a ha ho).imp_right fun hmem => ?_
      have hargs := Nameless.mem_namesAll.2 ⟨_, List.mem_map_of_mem ha, hmem⟩
      cases scope.index? head with
      | none => exact List.mem_cons_of_mem _ hargs
      | some i => exact hargs
  | connective kind operands ih =>
    rw [freeOccurrences, mem_freeOccurrencesAll] at h
    obtain ⟨a, ha, ho⟩ := h
    rw [namelessIn, namelessAllIn_eq_map]
    exact (ih a ha ho).imp_right fun hmem =>
      Nameless.mem_namesAll.2 ⟨_, List.mem_map_of_mem ha, hmem⟩
  | quantifier kind vars body ih => exact ih h
  | fixpoint kind name params body args ihbody ihargs =>
    rw [freeOccurrences, List.mem_append, mem_freeOccurrencesAll] at h
    rw [namelessIn, namelessAllIn_eq_map, Nameless.names, List.mem_append]
    rcases h with ⟨a, ha, ho⟩ | ho
    · exact (ihargs a ha ho).imp_right fun hmem =>
        .inr (Nameless.mem_namesAll.2 ⟨_, List.mem_map_of_mem ha, hmem⟩)
    · exact (ihbody ho).imp_right .inl

/-- The free names are the names of the nameless form that are no constants. -/
lemma mem_freeNames_iff {p : Proposition} {x : Name} :
    p.freeNames.contains x = true ↔ x.isConstant = false ∧ x ∈ p.nameless.names := by
  rw [mem_freeNames]
  constructor
  · intro h
    obtain ⟨o, ho, rfl⟩ := List.mem_map.1 h
    exact mem_names_of_mem_freeOccurrences ho
  · rintro ⟨hconst, hx⟩
    exact (occursFree_of_mem_names hx).1.resolve_left (by simp [hconst])

end Proposition

end CyclicProof
