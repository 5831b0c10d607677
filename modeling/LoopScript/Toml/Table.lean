import LoopScript.Toml.Value

/-! TOML tables under construction.

A table comes into being by its own header, by the header of a table inside it, or by a dotted key.
A header may define a table once, and complete one that only a deeper header had implied; dotted
keys may extend only what dotted keys made. -/

namespace LoopScript.Toml

/-- What brought a table into being. -/
inductive Origin where
  | header | implied | dotted
deriving DecidableEq

/-- What a key stands for while the document is read. An array of tables has its last one first. -/
inductive Item where
  | value (value : Value)
  | table (origin : Origin) (entries : List (String × Item))
  | tables (elements : List (List (String × Item)))

abbrev Entries := List (String × Item)

namespace Entries

def replace (entries : Entries) (key : String) (item : Item) : Entries :=
  entries.map fun entry => if entry.1 = key then (key, item) else entry

/-- Adds a key that is new. -/
def add? (entries : Entries) (key : String) (item : Item) : Option Entries :=
  match entries.lookup key with
  | none => some (entries ++ [(key, item)])
  | some _ => none

end Entries

/-- What a table becomes: it may depend on the table's origin, and may be refused. -/
abbrev Change := Origin → Entries → Option Entries

/-- Changes the table at a path, and makes the tables on the way that do not exist yet. `made` is
the origin of those, and dotted paths do not enter a table that has a header. -/
def within (made : Origin) : List String → Change → Change
  | [], change => change
  | key :: path, change => fun _ entries =>
      match entries.lookup key with
      | none => do
          let inner ← within made path change made []
          return entries ++ [(key, .table made inner)]
      | some (.value _) => none
      | some (.tables []) => none
      | some (.tables (last :: earlier)) => do
          let inner ← within made path change .header last
          return entries.replace key (.tables (inner :: earlier))
      | some (.table origin inner) =>
          if made = .dotted ∧ origin = .header then none
          else do
            let inner ← within made path change origin inner
            return entries.replace key (.table origin inner)

/-- Adds a value under a dotted key. A key with a path ends in a table that dotted keys made, a
key without one in a table of another origin. -/
def assign (path : List String) (key : String) (value : Value) : Change :=
  within .dotted path fun origin entries =>
    if (origin == .dotted) == path.isEmpty then none else entries.add? key (.value value)

def define (path : List String) (key : String) : Change :=
  within .implied path fun _ entries =>
    match entries.lookup key with
    | none => some (entries ++ [(key, .table .header [])])
    | some (.table .implied inner) => some (entries.replace key (.table .header inner))
    | some _ => none

/-- Starts a further element of an array of tables. -/
def append (path : List String) (key : String) : Change :=
  within .implied path fun _ entries =>
    match entries.lookup key with
    | none => some (entries ++ [(key, .tables [[]])])
    | some (.tables elements) => some (entries.replace key (.tables ([] :: elements)))
    | some _ => none

mutual

def Item.toValue : Item → Value
  | .value value => value
  | .table _ entries => .table (entriesToValues entries)
  | .tables elements => .array (elementsToValues elements).reverse

def entriesToValues : List (String × Item) → List (String × Value)
  | [] => []
  | (key, item) :: rest => (key, item.toValue) :: entriesToValues rest

/-- The elements of an array of tables as values, in the same order. -/
def elementsToValues : List (List (String × Item)) → List Value
  | [] => []
  | element :: rest => .table (entriesToValues element) :: elementsToValues rest

end

end LoopScript.Toml
