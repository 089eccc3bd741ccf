import CyclicProof.Proofs.Nameless.Roles
import CyclicProof.Proofs.Proposition.Regularity

/-!
# Unfolding a well-formed fixpoint

Unfolding `μN(x). B` at `t` is one step of computation on nameless forms (`Nameless.unfold`): in the
body, the parameters become the arguments, and a reference `N(s)` becomes the fixpoint at what `s`
becomes.  For a well-formed fixpoint this is all that can happen
(`Proposition.unfoldFixpoint_is_unfold`): the references have the right number of arguments, so only
a want of fresh names keeps unfolding from a result, and the result is regular and well-formed
again and has no new free names.
-/

namespace CyclicProof

namespace Nameless

/-- What the loose indices of the body of a fixpoint become: its arguments, the last first, and
behind them the fixpoint itself.  Variables have no arguments of their own, so no head is needed for
them. -/
def unfoldImages (kind : FixpointKind) (body : Nameless) (args : List Nameless) (i : ℕ) : Image :=
  match args.reverse[i]? with
  | some arg => .term arg ""
  | none => .reference kind args.length body

/-- The unfolding of a fixpoint at its arguments. -/
def unfold (kind : FixpointKind) (body : Nameless) (args : List Nameless) : Nameless :=
  body.instantiate (unfoldImages kind body args) 0

variable {kind : FixpointKind} {body : Nameless} {args : List Nameless}

/-- The roles in the body of a fixpoint are those of the parameters and of the identifier. -/
lemma role_fixpointRoles {count i : ℕ} {role : BinderRole}
    (h : (fixpointRoles count [])[i]? = some role) :
    i < count ∧ role = .individual ∨ i = count ∧ role = .identifier count := by
  rw [fixpointRoles, quantifierRoles, List.getElem?_append] at h
  split at h
  · rename_i hlt
    rw [List.length_replicate] at hlt
    rw [List.getElem?_replicate_of_lt hlt] at h
    exact .inl ⟨hlt, (Option.some.inj h).symm⟩
  · rename_i hge
    rw [List.length_replicate] at hge h
    obtain ⟨hlt, hget⟩ := List.getElem?_eq_some_iff.1 h
    rw [List.length_singleton] at hlt
    rw [List.getElem_singleton] at hget
    exact .inr ⟨by omega, hget.symm⟩

lemma unfoldImages_param {i : ℕ} (h : i < args.length) :
    ∃ arg ∈ args, args.reverse[i]? = some arg ∧ unfoldImages kind body args i = .term arg "" := by
  have hlt : i < args.reverse.length := by rwa [List.length_reverse]
  have hget := List.getElem?_eq_getElem hlt
  exact ⟨_, List.mem_reverse.1 (List.getElem_mem hlt), hget, by rw [unfoldImages, hget]⟩

lemma unfoldImages_identifier :
    unfoldImages kind body args args.length = .reference kind args.length body := by
  rw [unfoldImages, List.getElem?_eq_none (Nat.le_of_eq List.length_reverse)]

/-- Arguments and fixpoint suit the roles of the parameters and of the identifier. -/
lemma suits_unfoldImages (hbody : body.Fits (fixpointRoles args.length []))
    (hargs : ∀ a ∈ args, a.Fits []) (i : ℕ) (role : BinderRole)
    (h : (fixpointRoles args.length [])[i]? = some role) :
    (unfoldImages kind body args i).Suits role := by
  rcases role_fixpointRoles h with ⟨hlt, rfl⟩ | ⟨rfl, rfl⟩
  · obtain ⟨arg, harg, -, himage⟩ := unfoldImages_param hlt
    rw [himage]
    exact hargs arg harg
  · rw [unfoldImages_identifier]
    exact ⟨rfl, hbody⟩

lemma fits_unfold (hbody : body.Fits (fixpointRoles args.length []))
    (hargs : ∀ a ∈ args, a.Fits []) : (unfold kind body args).Fits [] :=
  Fits.instantiate hbody (suits_unfoldImages hbody hargs)

/-- Unfolding brings in no new names. -/
lemma mem_names_unfold (hbody : body.Fits (fixpointRoles args.length []))
    (hargs : ∀ a ∈ args, a.Fits []) {x : Name} (hx : x ∈ (unfold kind body args).names) :
    x ∈ (fixpoint kind args.length body args).names := by
  rw [names, List.mem_append, mem_namesAll]
  have hsuits := @suits_unfoldImages kind body args hbody hargs
  rcases @Fits.mem_names_instantiate _ [] (fixpointRoles args.length []) _ hbody hsuits x hx with
    hx | ⟨i, hi, hx⟩
  · exact .inl hx
  · rw [length_fixpointRoles, List.length_nil, Nat.zero_add] at hi
    rcases Nat.lt_or_ge i args.length with hlt | hge
    · obtain ⟨arg, harg, -, himage⟩ := unfoldImages_param hlt
      rw [himage] at hx
      exact .inr ⟨arg, harg, hx⟩
    · obtain rfl : i = args.length := by omega
      rw [unfoldImages_identifier] at hx
      exact .inl hx

end Nameless

namespace Proposition

/-! ## References of a well-formed body -/

/-- A free occurrence has as many arguments as its binder further out asks for. -/
lemma admits_of_mem_freeOccurrences {inner outer : List (Name × BinderRole)} {p : Proposition}
    (h : p.fits (inner ++ outer) = true) {o : Occurrence}
    (ho : o ∈ p.freeOccurrences (inner.map Prod.fst)) {role : BinderRole}
    (hrole : outer.lookup o.name = some role) : role.admits o.arity = true := by
  induction p generalizing inner with
  | atomic head args ih =>
    rw [fits, Bool.and_eq_true, fitsAll_iff, headFits] at h
    rw [freeOccurrences, List.mem_append, mem_headOccurrence, mem_freeOccurrencesAll] at ho
    rcases ho with ⟨-, hnot, rfl⟩ | ⟨a, ha, ho⟩
    · have hinner : inner.lookup head = none := by
        rw [List.lookup_eq_none_iff]
        intro e he
        rw [bne_iff_ne]
        rintro rfl
        exact hnot (List.mem_map_of_mem he)
      have hlookup : (inner ++ outer).lookup head = some role := by
        rw [List.lookup_append, hinner, Option.none_or, hrole]
      rw [hlookup] at h
      exact h.1
    · exact ih a ha (h.2 a ha) ho
  | connective kind operands ih =>
    rw [fits, fitsAll_iff] at h
    rw [freeOccurrences, mem_freeOccurrencesAll] at ho
    obtain ⟨a, ha, ho⟩ := ho
    exact ih a ha (h a ha) ho
  | quantifier kind vars body ih =>
    rw [fits, bindVariables_append] at h
    rw [freeOccurrences, ← map_fst_bindVariables] at ho
    exact ih h ho
  | fixpoint kind name params body args ihbody ihargs =>
    rw [fits, Bool.and_eq_true, fitsAll_iff, ← List.cons_append, bindVariables_append] at h
    rw [freeOccurrences, List.mem_append, mem_freeOccurrencesAll] at ho
    rcases ho with ⟨a, ha, ho⟩ | ho
    · exact ihargs a ha (h.1 a ha) ho
    · refine ihbody h.2 ?_
      rwa [map_fst_bindVariables]

section

variable {kind : FixpointKind} {name : Name} {params : List Name} {body r : Proposition}
  {args : List Proposition}

lemma fits_of_isWellFormed (h : (fixpoint kind name params body args).isWellFormed = true) :
    body.fits (bindVariables [(name, .identifier params.length)] params) = true ∧
      ∀ a ∈ args, a.isWellFormed = true := by
  rw [isWellFormed, fits, Bool.and_eq_true, fitsAll_iff] at h
  exact ⟨h.2, h.1⟩

/-- The body of a well-formed fixpoint refers to it with the right number of arguments. -/
lemma respected_unfoldingBindings (hq : (fixpoint kind name params body args).Regular)
    (hwf : (fixpoint kind name params body args).isWellFormed = true) :
    (unfoldingBindings kind name params body args).Respected body := by
  obtain ⟨-, hname, -, hconst, -⟩ := hq.fixpoint
  have hlookup : (bindVariables [(name, .identifier params.length)] params).lookup name =
      some (.identifier params.length) := by
    have hnone : ((params.map fun v => (v, BinderRole.individual)).reverse).lookup name = none := by
      rw [List.lookup_eq_none_iff]
      intro e he
      obtain ⟨v, hv, rfl⟩ := List.mem_map.1 (List.mem_reverse.1 he)
      rw [bne_iff_ne]
      rintro rfl
      exact hname hv
    rw [bindVariables, List.lookup_append, hnone, Option.none_or, List.lookup_cons_self]
  intro x kind' params' body' hmem
  rcases List.mem_cons.1 hmem with heq | hmem
  · cases heq
    refine ⟨hconst, fun o ho hx => ?_⟩
    obtain ⟨y, arity⟩ := o
    obtain rfl : y = name := hx
    have hadmits := @admits_of_mem_freeOccurrences []
      (bindVariables [(y, .identifier params.length)] params) body (fits_of_isWellFormed hwf).1
      ⟨y, arity⟩ ho _ hlookup
    simpa [BinderRole.admits] using hadmits
  · obtain ⟨e, -, heq⟩ := List.mem_map.1 hmem
    cases heq

/-! ## The unfolding -/

/-- All names of a fixpoint. -/
def fixpointNames (name : Name) (params : List Name) (body : Proposition)
    (args : List Proposition) : NameSet :=
  KeySet.ofList (body.nameList ++ name :: params ++ args.flatMap nameList)

/-- Unfolding a well-formed fixpoint fails only if its names use up all numbers. -/
lemma unfoldFixpoint_error (hq : (fixpoint kind name params body args).Regular)
    (hwf : (fixpoint kind name params body args).isWellFormed = true) {e : FormError}
    (h : unfoldFixpoint kind name params body args = .error e) :
    ∃ base ∈ body.binders, e = .namesExhausted base ∧
      UInt32.size ≤ (fixpointNames name params body args).size + body.binders.length :=
  (replaceIn_draws (respected_unfoldingBindings hq hwf)).run'_error h

/-- The nameless form of the body below its own binders fits their roles. -/
lemma fits_body (hwf : (fixpoint kind name params body args).isWellFormed = true) :
    (body.namelessIn (Scope.enterFixpoint [] name params)).Fits
      (Nameless.fixpointRoles params.length []) := by
  have hfits := fits_iff.1 (fits_of_isWellFormed hwf).1
  rwa [map_fst_bindVariables, map_snd_bindVariables] at hfits

lemma unfoldFixpoint_eq_unfold (hq : (fixpoint kind name params body args).Regular)
    (hwf : (fixpoint kind name params body args).isWellFormed = true)
    (h : unfoldFixpoint kind name params body args = .ok r) :
    r.nameless = Nameless.unfold kind (body.namelessIn (Scope.enterFixpoint [] name params))
      (args.map nameless) := by
  obtain ⟨hnodup, hname, hlength, -, hbody⟩ := hq.fixpoint
  obtain ⟨b, -, heq, hargs, hidentifier⟩ :=
    unfoldFixpoint_nameless hbody hnodup hname hlength h
  have hcount : (args.map nameless).length = params.length := by rw [List.length_map, hlength]
  rw [heq]
  refine @Nameless.Fits.instantiate_congr _ _ [] (Nameless.fixpointRoles params.length []) _
    (fits_body hwf) fun i role hrole as hadmits => ?_
  rcases Nameless.role_fixpointRoles hrole with ⟨hlt, rfl⟩ | ⟨rfl, rfl⟩
  · obtain rfl : as = [] := by simpa [BinderRole.admits] using hadmits
    obtain ⟨arg, -, hget, himage⟩ :=
      @Nameless.unfoldImages_param kind (body.namelessIn (Scope.enterFixpoint [] name params)) _ i
        (hcount ▸ hlt)
    rw [← List.map_reverse, List.getElem?_map, Option.map_eq_some_iff] at hget
    obtain ⟨t, ht, rfl⟩ := hget
    obtain ⟨head, hb⟩ := hargs i t ht
    rw [hb, himage]
    rfl
  · rw [hidentifier, ← hcount, Nameless.unfoldImages_identifier]

/-- **Unfolding substitutes arguments and fixpoint at once.**  For a well-formed fixpoint that binds
no constant, the result is, up to bound names, the body with the arguments in place of the
parameters and the fixpoint in place of its identifier.  It is regular and well-formed, and its free
names are free in the fixpoint.  There is a result unless the names of the fixpoint, and one more
for every binder of the body, are too many for the numbers of fresh names. -/
theorem unfoldFixpoint_is_unfold (kind : FixpointKind) (name : Name) (params : List Name)
    (body : Proposition) (args : List Proposition)
    (hq : (fixpoint kind name params body args).Regular)
    (hwf : (fixpoint kind name params body args).isWellFormed = true) :
    (∀ r, unfoldFixpoint kind name params body args = .ok r →
      r.nameless = Nameless.unfold kind (body.namelessIn (Scope.enterFixpoint [] name params))
        (args.map nameless) ∧
      (r.Regular ∧ r.isWellFormed = true) ∧
      ∀ x, r.freeNames.contains x = true →
        (fixpoint kind name params body args).freeNames.contains x = true) ∧
    ∀ e, unfoldFixpoint kind name params body args = .error e →
      ∃ base ∈ body.binders, e = .namesExhausted base ∧
        UInt32.size ≤ (fixpointNames name params body args).size + body.binders.length := by
  refine ⟨fun r h => ?_, fun e h => unfoldFixpoint_error hq hwf h⟩
  have hnameless := unfoldFixpoint_eq_unfold hq hwf h
  have hcount : (args.map nameless).length = params.length := by
    rw [List.length_map, hq.fixpoint.2.2.1]
  have hbody := fits_body hwf
  rw [← hcount] at hbody
  have hargs : ∀ a ∈ args.map nameless, a.Fits [] := List.forall_mem_map.2 fun a ha =>
    isWellFormed_iff.1 ((fits_of_isWellFormed hwf).2 a ha)
  refine ⟨hnameless, ⟨unfoldFixpoint_regular hq h, ?_⟩, fun x hx => ?_⟩
  · rw [isWellFormed_iff, hnameless]
    exact Nameless.fits_unfold hbody hargs
  · rw [mem_freeNames_iff] at hx ⊢
    refine hx.imp_right fun hmem => ?_
    rw [hnameless] at hmem
    have hmem' := Nameless.mem_names_unfold hbody hargs hmem
    rw [hcount] at hmem'
    rwa [nameless, namelessIn, namelessAllIn_eq_map]

end

/-- The proposition `∃y. R(x, y) ∧ rest`. -/
def edgeThen (x y : Name) (rest : Proposition) : Proposition :=
  quantifier .existential [y] (connective .conjunction [atomic "R" [atom x, atom y], rest])

/-- The body of the fixpoint `μN(x). ∃y. R(x, y) ∧ N(y)`. -/
def pathBody : Proposition := edgeThen "x" "y" (atomic "N" [atom "y"])

/-- At `y`, the fixpoint unfolds to `∃z. R(y, z) ∧ (μN(x). …)(z)` for a new name `z`. -/
theorem unfoldFixpoint_is_unfold_path :
    (fixpoint .least "N" ["x"] pathBody [atom "y"]).Regular ∧
    (fixpoint .least "N" ["x"] pathBody [atom "y"]).isWellFormed = true ∧
    unfoldFixpoint .least "N" ["x"] pathBody [atom "y"] =
      .ok (edgeThen "y" "y_1" (fixpoint .least "N" ["x"] pathBody [atom "y_1"])) ∧
    (edgeThen "y" "y_1" (fixpoint .least "N" ["x"] pathBody [atom "y_1"])).nameless =
      Nameless.unfold .least (pathBody.namelessIn (Scope.enterFixpoint [] "N" ["x"]))
        [(atom "y").nameless] := by
  have hq : (fixpoint .least "N" ["x"] pathBody [atom "y"]).Regular := by decide +kernel
  have hwf : (fixpoint .least "N" ["x"] pathBody [atom "y"]).isWellFormed = true := by
    decide +kernel
  have hr : unfoldFixpoint .least "N" ["x"] pathBody [atom "y"] =
      .ok (edgeThen "y" "y_1" (fixpoint .least "N" ["x"] pathBody [atom "y_1"])) := by rfl
  exact ⟨hq, hwf, hr, ((unfoldFixpoint_is_unfold _ _ _ _ _ hq hwf).1 _ hr).1⟩

end Proposition

end CyclicProof
