/-!
# TOML tables

A TOML document builds a tree of tables line by line. A table can come about in three ways: a header
names it, it lies on the way to a table that a header names, or a dotted key leads through it. They
differ in what later lines may do to it, and a line that defines something twice is an error.

Of the values only integers are kept, because nothing else is ever asked for.
-/

namespace CyclicProof

namespace Toml

/-- How a table came about. -/
inductive Origin where
  /-- A header names it. -/
  | header
  /-- It lies on the way to a table that a header names. -/
  | implied
  /-- A dotted key leads through it. -/
  | dotted
deriving DecidableEq, Repr

/-- What stands under a key. -/
inductive Item where
  /-- An integer. -/
  | integer (value : Int)
  /-- Any other value. -/
  | other
  /-- A table. -/
  | table (origin : Origin) (entries : List (String × Item))
  /-- An array of tables, each with a header of its own. -/
  | tables (elements : List (List (String × Item)))
deriving Repr

/-- The entries of a table, in order of definition. -/
abbrev Entries := List (String × Item)

namespace Entries

/-- Store an item under a key, replacing what stands there. -/
def put (key : String) (item : Item) : Entries → Entries
  | [] => [(key, item)]
  | (k, old) :: rest => if k = key then (k, item) :: rest else (k, old) :: put key item rest

/-- Go down from a table along `path` and change the table at its end by `change`, which is also
told how that table came about. Missing tables on the way come about as `origin`, and `mayEnter`
says which of the others may be passed. An array of tables stands for its last element, which may
always be passed. The answer is `none` where the way is blocked. -/
def alterAt (origin : Origin) (mayEnter : Origin → Bool)
    (change : Origin → Entries → Option Entries) :
    List String → Origin → Entries → Option Entries
  | [], here, entries => change here entries
  | key :: path, _, entries =>
    match entries.lookup key with
    | none => do
      let inner ← alterAt origin mayEnter change path origin []
      return entries ++ [(key, .table origin inner)]
    | some (.table there inner) =>
      if mayEnter there then do
        let inner ← alterAt origin mayEnter change path there inner
        return entries.put key (.table there inner)
      else none
    | some (.tables elements) =>
      match elements.getLast? with
      | none => none
      | some last => do
        let last ← alterAt origin mayEnter change path .header last
        return entries.put key (.tables (elements.dropLast ++ [last]))
    | some _ => none

/-- Store an item under a new key. -/
def addNew (key : String) (item : Item) (entries : Entries) : Option Entries :=
  if (entries.lookup key).isSome then none else some (entries ++ [(key, item)])

/-- Store an item under a dotted key: go through tables that no header names, and put the item into
a new entry of the last one, which itself has to come about by a dotted key. -/
def assign (path : List String) (key : String) (item : Item) (entries : Entries) :
    Option Entries :=
  alterAt .dotted (· ≠ .header)
    (fun origin entries =>
      if path.isEmpty || origin = .dotted then addNew key item entries else none)
    path .header entries

/-- The header `[path.key]`: a new table, or one that had only been implied. -/
def openTable (path : List String) (key : String) (entries : Entries) : Option Entries :=
  alterAt .implied (fun _ => true)
    (fun _ entries =>
      match entries.lookup key with
      | none => some (entries ++ [(key, .table .header [])])
      | some (.table .implied inner) => some (entries.put key (.table .header inner))
      | some _ => none)
    path .header entries

/-- The header `[[path.key]]`: a new element of an array of tables. -/
def openElement (path : List String) (key : String) (entries : Entries) : Option Entries :=
  alterAt .implied (fun _ => true)
    (fun _ entries =>
      match entries.lookup key with
      | none => some (entries ++ [(key, .tables [[]])])
      | some (.tables elements) => some (entries.put key (.tables (elements ++ [[]])))
      | some _ => none)
    path .header entries

/-- Change the table that the last header named. -/
def atSection (header : List String) (change : Entries → Option Entries) (entries : Entries) :
    Option Entries :=
  alterAt .implied (fun _ => true) (fun _ entries => change entries) header .header entries

end Entries

end Toml

end CyclicProof
