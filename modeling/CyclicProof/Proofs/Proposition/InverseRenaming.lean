import CyclicProof.Proofs.Proposition.AppliedHeads

/-!
# Renaming away and back

A renaming that gives no two names the same new name has an inverse (`Renaming.inverse`).  Carried
out one after the other as substitutions, the two bring back the proposition up to bound names
(`Proposition.substitute_inverse_alphaEquiv`).

The two walks rename binders as they need to, and not in the same way, so the propositions on the
way cannot be compared name by name.  On nameless forms there are no such choices: renamings compose
(`Renaming.subst_image_image`), and what is left to show is that every free name comes back.  The
one thing that can go wrong is that a free name which stays as it is becomes the new name of another
one; the way back cannot tell the two apart.
-/

namespace CyclicProof

namespace Renaming

variable {r s : Renaming} {x y : Name}

/-! ## Composition -/

/-- A renaming as an assignment on nameless forms. -/
def assignment (r : Renaming) : Nameless.Assignment where
  term x := .free (r.rename x) []
  head := r.rename
  closed x := Nameless.Image.ofName_closed (r.rename x)

lemma image_assignment (r : Renaming) : r.assignment.image = r.image := rfl

/-- Two renamings, one after the other, rename every free head twice. -/
lemma subst_image_image (m : Nameless) :
    (m.subst r.image).subst s.image = m.subst fun x => .ofName (s.rename (r.rename x)) := by
  rw [← image_assignment s, Nameless.subst_subst]
  rfl

/-- The free heads after renaming are the renamed ones. -/
lemma names_subst_image (m : Nameless) : (m.subst r.image).names = m.names.map r.rename := by
  have hall : ∀ args : List Nameless,
      (∀ a ∈ args, (a.subst r.image).names = a.names.map r.rename) →
        Nameless.namesAll (args.map (Nameless.subst r.image)) =
          (Nameless.namesAll args).map r.rename := by
    intro args h
    induction args with
    | nil => rfl
    | cons a args ih =>
      obtain ⟨ha, hargs⟩ := List.forall_mem_cons.1 h
      rw [List.map_cons, Nameless.namesAll, Nameless.namesAll, List.map_append, ha, ih hargs]
  induction m with
  | bound index args ih =>
    rw [Nameless.subst, Nameless.substAll_eq_map, Nameless.names, Nameless.names, hall args ih]
  | free name args ih =>
    rw [Nameless.subst, Nameless.substAll_eq_map, image, Nameless.Image.ofName_apply,
      Nameless.names, Nameless.names, hall args ih, List.map_cons]
  | connective kind operands ih =>
    rw [Nameless.subst, Nameless.substAll_eq_map, Nameless.names, Nameless.names, hall operands ih]
  | quantifier kind count body ih => exact ih
  | fixpoint kind count body args ihbody ihargs =>
    rw [Nameless.subst, Nameless.substAll_eq_map, Nameless.names, Nameless.names, ihbody,
      hall args ihargs, List.map_append]

lemma rename_of_get?_eq_none (h : r.get? x = none) : r.rename x = x := by
  rw [rename, h, Option.getD_none]

lemma SparesConstants.isConstant_rename (h : r.SparesConstants) (x : Name) :
    (r.rename x).isConstant = x.isConstant := by
  cases hget : r.get? x with
  | some y => rw [rename_of_get? hget, (h x y hget).1, (h x y hget).2]
  | none => rw [rename_of_get?_eq_none hget]

/-! ## Inverses -/

/-- No two names are renamed to the same name. -/
def IsInjective (r : Renaming) : Prop :=
  ∀ x x' y, r.get? x = some y → r.get? x' = some y → x = x'

/-- The renaming that takes every new name back. -/
def inverse (r : Renaming) : Renaming := Table.ofList (r.entries.map Prod.swap)

lemma isInjective_iff : r.IsInjective ↔ r.values.Nodup := by
  have hentries : r.entries.Nodup := .of_map Prod.fst r.keys_nodup
  rw [Table.values, List.nodup_map_iff_inj_on hentries]
  constructor
  · rintro h ⟨x, y⟩ hx ⟨x', y'⟩ hx' (rfl : y = y')
    rw [h x x' y (Table.get?_eq_some_iff.2 hx) (Table.get?_eq_some_iff.2 hx')]
  · intro h x x' y hx hx'
    exact congrArg Prod.fst (h _ (Table.get?_eq_some_iff.1 hx) _ (Table.get?_eq_some_iff.1 hx') rfl)

lemma get?_inverse (h : r.IsInjective) : r.inverse.get? y = some x ↔ r.get? x = some y := by
  have hswap : r.get? x = some y ↔ (y, x) ∈ r.entries.map Prod.swap := by
    simp [Table.get?_eq_some_iff]
  have hkeys : (r.entries.map Prod.swap).map Prod.fst = r.values := by simp [Table.values]
  rw [hswap]
  exact ⟨Table.mem_of_get?_ofList, Table.get?_ofList_of_mem (hkeys ▸ isInjective_iff.1 h)⟩

lemma SparesConstants.inverse (hr : r.SparesConstants) (h : r.IsInjective) :
    r.inverse.SparesConstants :=
  fun y x hyx => (hr x y ((get?_inverse h).1 hyx)).symm

/-- A name comes back if it is renamed, or if it is not the new name of another one. -/
lemma rename_inverse_rename (h : r.IsInjective)
    (hx : ∀ z, r.get? z = some x → r.contains x = true) : r.inverse.rename (r.rename x) = x := by
  cases hget : r.get? x with
  | some y => rw [rename_of_get? hget, rename_of_get? ((get?_inverse h).2 hget)]
  | none =>
    rw [rename_of_get?_eq_none hget]
    refine rename_eq_self_iff.2 fun z hz => ?_
    obtain ⟨y, hy⟩ := Table.contains_eq_true_iff.1 (hx z ((get?_inverse h).1 hz))
    rw [hget] at hy
    cases hy

end Renaming

namespace Proposition

/-- After renaming, exactly the new names of the free names are free. -/
lemma contains_freeNames_substitute_ofRenaming {p q : Proposition} {r : Renaming}
    (hr : r.SparesConstants) (h : p.substitute (.ofRenaming r) = .ok q) {y : Name} :
    q.freeNames.contains y = true ↔ ∃ x, p.freeNames.contains x = true ∧ r.rename x = y := by
  simp only [mem_freeNames_iff]
  rw [substitute_ofRenaming hr h, Renaming.names_subst_image, List.mem_map]
  constructor
  · rintro ⟨hconstant, x, hx, rfl⟩
    exact ⟨x, ⟨hr.isConstant_rename x ▸ hconstant, hx⟩, rfl⟩
  · rintro ⟨x, ⟨hconstant, hx⟩, rfl⟩
    exact ⟨(hr.isConstant_rename x).trans hconstant, x, hx, rfl⟩

/-- **Renaming away and back.**  Let a renaming between names that are no constants give no two
names the same new name, and let every new name that occurs free already be renamed itself.  If
renaming a proposition and renaming the result by the inverse both succeed, the free names in
between are the new ones, and in the end the proposition is back up to bound names. -/
theorem substitute_inverse_alphaEquiv {p q p' : Proposition} {r : Renaming}
    (hconstants : r.SparesConstants) (hinjective : r.IsInjective)
    (htargets : ∀ x y, r.get? x = some y → p.freeNames.contains y = true → r.contains y = true)
    (haway : p.substitute (.ofRenaming r) = .ok q)
    (hback : q.substitute (.ofRenaming r.inverse) = .ok p') :
    (∀ y, q.freeNames.contains y = true ↔ ∃ x, p.freeNames.contains x = true ∧ r.rename x = y) ∧
      p'.alphaEquiv p = true := by
  refine ⟨fun y => contains_freeNames_substitute_ofRenaming hconstants haway, ?_⟩
  have hconstants' := hconstants.inverse hinjective
  have hreturns : ∀ x ∈ p.nameless.names, r.inverse.rename (r.rename x) = x := by
    intro x hx
    rcases (occursFree_of_mem_names hx).1 with hconstant | hfree
    · rw [hconstants.rename_eq_self hconstant, hconstants'.rename_eq_self hconstant]
    · exact Renaming.rename_inverse_rename hinjective fun z hz =>
        htargets z x hz (mem_freeNames.2 hfree)
  rw [alphaEquiv_iff]
  calc p'.nameless
      = (p.nameless.subst r.image).subst r.inverse.image := by
        rw [substitute_ofRenaming hconstants' hback, substitute_ofRenaming hconstants haway]
    _ = p.nameless.subst fun x => .ofName (r.inverse.rename (r.rename x)) :=
        Renaming.subst_image_image _
    _ = p.nameless.subst Nameless.Image.ofName :=
        Nameless.subst_congr fun x hx => congrArg _ (hreturns x hx)
    _ = p.nameless := Nameless.subst_ofName _

/-- Two names change places and a head is renamed.  One of the two is also the name of a binder, and
the other one is also a head. -/
theorem substitute_inverse_alphaEquiv_transposed :
    let p := connective .conjunction
      [quantifier .existential ["y"] (atomic "R" [.atom "x", .atom "y"]), atomic "x" [.atom "y"]]
    let q := connective .conjunction
      [quantifier .existential ["y_1"] (atomic "S" [.atom "y", .atom "y_1"]),
        atomic "y" [.atom "x"]]
    let p' := connective .conjunction
      [quantifier .existential ["y_1"] (atomic "R" [.atom "x", .atom "y_1"]),
        atomic "x" [.atom "y"]]
    let r : Renaming := Table.ofList [("x", "y"), ("y", "x"), ("R", "S")]
    r.SparesConstants ∧ r.IsInjective ∧
      (∀ x y, r.get? x = some y → p.freeNames.contains y = true → r.contains y = true) ∧
      p.substitute (.ofRenaming r) = .ok q ∧ q.substitute (.ofRenaming r.inverse) = .ok p' ∧
      (∀ y, q.freeNames.contains y = true ↔
        ∃ x, p.freeNames.contains x = true ∧ r.rename x = y) ∧ p'.alphaEquiv p = true := by
  intro p q p' r
  have hentries : ∀ e ∈ r.entries, (e.1.isConstant = false ∧ e.2.isConstant = false) ∧
      (p.freeNames.contains e.2 = true → r.contains e.2 = true) := by decide +kernel
  have hconstants : r.SparesConstants := fun x y h =>
    (hentries (x, y) (Table.get?_eq_some_iff.1 h)).1
  have htargets : ∀ x y, r.get? x = some y → p.freeNames.contains y = true →
      r.contains y = true := fun x y h => (hentries (x, y) (Table.get?_eq_some_iff.1 h)).2
  have hinjective : r.IsInjective := Renaming.isInjective_iff.2 (by decide +kernel)
  have haway : p.substitute (.ofRenaming r) = .ok q := by
    unfold p q r
    rfl
  have hback : q.substitute (.ofRenaming r.inverse) = .ok p' := by
    unfold p' q r
    rfl
  exact ⟨hconstants, hinjective, htargets, haway, hback,
    substitute_inverse_alphaEquiv hconstants hinjective htargets haway hback⟩

end Proposition

end CyclicProof
