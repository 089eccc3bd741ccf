import CyclicProof.Proposition.Alignment
import CyclicProof.Proposition.Display

/-!
# Substitution and unfolding

A substitution replaces free names by propositions, all at once. A binder that would capture a
free name of a replacement is renamed first, to a fresh name. Unfolding a fixpoint is the same
walk with other replacements: its parameters become its arguments and its recursive references
become the fixpoint again, taken at the arguments of the reference.

Both are instances of `Proposition.replaceIn`, which carries

* the bindings that are still in force, that is, not shadowed by a binder passed on the way;
* the set `avoid` of the free names of all replacements: exactly the binders with one of these
  names are renamed;
* the supply of fresh names, threaded through the whole walk.
-/

namespace CyclicProof

/-- A simultaneous substitution of propositions for free names. -/
abbrev Substitution := Table Name Proposition

namespace Substitution

/-- The substitution of names for names. -/
def ofRenaming (r : Renaming) : Substitution :=
  r.mapValues fun _ target => .atom target

/-- Whether every name is bound to itself. -/
def isIdentity (σ : Substitution) : Bool :=
  σ.entries.all fun (name, p) => p.asName? == some name

/-- Whether two substitutions bind the same names, to propositions equal up to bound names. -/
def alphaEquiv (σ τ : Substitution) : Bool :=
  σ.keys == τ.keys && Proposition.alphaEquivAll σ.values τ.values

/-- The written form, `{x ↦ p, y ↦ q}`. -/
def display (σ : Substitution) : String :=
  "\x7b" ++ ", ".intercalate (σ.entries.map fun (name, p) => name ++ " ↦ " ++ p.display) ++ "\x7d"

end Substitution

/-! ## Replacements -/

/-- What the occurrences of a name are replaced by. -/
inductive Replacement where
  /-- A proposition. Occurrences with arguments keep them; their head moves only if the
  proposition is a name. -/
  | term (p : Proposition)
  /-- A fixpoint without its arguments: a recursive reference becomes the fixpoint taken at the
  arguments of the reference. -/
  | reference (kind : FixpointKind) (params : List Name) (body : Proposition)
deriving Repr

/-- The replacements in force. -/
abbrev Bindings := List (Name × Replacement)

/-- Computations that may draw fresh names. -/
abbrev Fresh := StateT NameSupply (Except FormError)

namespace Fresh

/-- Draw a fresh name derived from `base`. -/
def name (base : Name) : Fresh Name := fun supply =>
  match supply.fresh base with
  | (some name, supply) => .ok (name, supply)
  | (none, _) => .error (.namesExhausted base)

end Fresh

namespace Bindings

/-- The bindings that stay in force below binders. -/
def without (bindings : Bindings) (binders : List Name) : Bindings :=
  bindings.filter fun (name, _) => !binders.contains name

/-- Pass a binder: if it has to be avoided, it gets a fresh name and its occurrences will
follow. -/
def passBinder (avoid : NameSet) (bindings : Bindings) (binder : Name) : Fresh (Name × Bindings) :=
  if avoid.contains binder then do
    let renamed ← Fresh.name binder
    return (renamed, (binder, .term (.atom renamed)) :: bindings)
  else return (binder, bindings)

/-- Pass several binders, outermost first. -/
def passBinders (avoid : NameSet) (bindings : Bindings) : List Name → Fresh (List Name × Bindings)
  | [] => return ([], bindings)
  | binder :: binders => do
    let (binder, bindings) ← passBinder avoid bindings binder
    let (binders, bindings) ← passBinders avoid bindings binders
    return (binder :: binders, bindings)

end Bindings

namespace Proposition

/-! ## The walk -/

/-- Replace the head of an atom whose arguments have been dealt with. -/
def replaceHead (head : Name) (args : List Proposition) :
    Option Replacement → Except FormError Proposition
  | none => .ok (atomic head args)
  | some (.term p) => .ok (if args.isEmpty then p else atomic (p.asName?.getD head) args)
  | some (.reference kind params body) =>
    if args.length = params.length then .ok (fixpoint kind head params body args)
    else
      .error (.malformedFixpoint (.fixpoint kind)
        (.referenceArity head args.length params.length))

mutual

/-- Replace the free occurrences of the bound names, renaming the binders to avoid. Below binders
that shadow all bindings nothing changes, so nothing is renamed there. -/
def replaceIn (avoid : NameSet) (bindings : Bindings) : Proposition → Fresh Proposition
  | atomic head args => do
    if bindings.isEmpty then return atomic head args
    let args ← replaceAllIn avoid bindings args
    replaceHead head args (bindings.lookup head)
  | connective kind operands => do
    if bindings.isEmpty then return connective kind operands
    return connective kind (← replaceAllIn avoid bindings operands)
  | quantifier kind vars body => do
    let inner := bindings.without vars
    if inner.isEmpty then return quantifier kind vars body
    let (vars, inner) ← inner.passBinders avoid vars
    return quantifier kind vars (← replaceIn avoid inner body)
  | fixpoint kind name params body args => do
    if bindings.isEmpty then return fixpoint kind name params body args
    let args ← replaceAllIn avoid bindings args
    let inner := bindings.without (name :: params)
    if inner.isEmpty then return fixpoint kind name params body args
    let (name, inner) ← inner.passBinder avoid name
    let (params, inner) ← inner.passBinders avoid params
    return fixpoint kind name params (← replaceIn avoid inner body) args

/-- Replace the free occurrences in every proposition of a list. -/
def replaceAllIn (avoid : NameSet) (bindings : Bindings) :
    List Proposition → Fresh (List Proposition)
  | [] => return []
  | p :: ps => do
    let p ← replaceIn avoid bindings p
    let ps ← replaceAllIn avoid bindings ps
    return p :: ps

end

/-! ## Substituting -/

/-- Replace the free occurrences of every name bound by `σ`, without capturing the free names of
the replacements. Bindings of the constants are ignored, though the names in them are avoided. -/
def substitute (p : Proposition) (σ : Substitution) : Except FormError Proposition :=
  let bindings : Bindings :=
    (σ.entries.filter fun (name, _) => !name.isConstant).map fun (name, q) => (name, .term q)
  let avoid : NameSet := KeySet.ofList (σ.values.flatMap fun q => q.freeNames.keys)
  let supply := NameSupply.avoiding
    (KeySet.ofList (p.nameList ++ σ.entries.flatMap fun (name, q) => name :: q.nameList))
  (p.replaceIn avoid bindings).run' supply

/-! ## Unfolding -/

/-- Unfold the equation `name(params) ⇔ body` once at `args`: in the body, each parameter becomes
its argument, and each recursive reference becomes the fixpoint at the reference's arguments. -/
def unfoldFixpoint (kind : FixpointKind) (name : Name) (params : List Name) (body : Proposition)
    (args : List Proposition) : Except FormError Proposition :=
  let bindings : Bindings :=
    (name, .reference kind params body) :: (params.zip args).map fun (x, t) => (x, .term t)
  let ownNames := body.freeNames.keys.filter fun x => !(name :: params).contains x
  let avoid : NameSet := KeySet.ofList (ownNames ++ args.flatMap fun t => t.freeNames.keys)
  let supply := NameSupply.avoiding
    (KeySet.ofList (body.nameList ++ name :: params ++ args.flatMap nameList))
  (body.replaceIn avoid bindings).run' supply

/-- Unfold a fixpoint once. A quantifier cannot be unfolded, and for any other proposition there
is nothing to unfold. -/
def unfoldOnce? : Proposition → Option (Except FormError Proposition)
  | fixpoint kind name params body args => some (unfoldFixpoint kind name params body args)
  | quantifier kind _ _ =>
    some (.error (.malformedFixpoint (.quantifier kind) .notUnfoldable))
  | _ => none

end Proposition

end CyclicProof
