import LoopScript.Diagnostic

/-! Symbol tables: the numbers bound to names.

The entries are kept in increasing order of their names, so that two tables with the same bindings
are the same table. Strings are ordered by code points. -/

namespace LoopScript

open Diagnostic (Cause)

/-- Names with their numbers, in increasing order of the names. -/
structure SymbolTable where
  entries : List (String × Float) := []
  sorted : entries.Pairwise (fun first second => first.1 < second.1) := by exact List.Pairwise.nil

namespace SymbolTable

/-- The entries with one more binding, in order. -/
def insertEntry (name : String) (value : Float) : List (String × Float) → List (String × Float)
  | [] => [(name, value)]
  | (key, old) :: rest =>
      if name = key then (name, value) :: rest
      else if name < key then (name, value) :: (key, old) :: rest
      else (key, old) :: insertEntry name value rest

theorem mem_insertEntry {name : String} {value : Float} {entries : List (String × Float)}
    {entry : String × Float} (h : entry ∈ insertEntry name value entries) :
    entry = (name, value) ∨ entry ∈ entries := by
  induction entries with
  | nil => exact Or.inl (List.mem_singleton.mp h)
  | cons head rest ih =>
      obtain ⟨key, old⟩ := head
      simp only [insertEntry] at h
      split at h
      · rcases List.mem_cons.mp h with hhead | hrest
        · exact Or.inl hhead
        · exact Or.inr (List.mem_cons_of_mem _ hrest)
      · split at h
        · rcases List.mem_cons.mp h with hhead | hrest
          · exact Or.inl hhead
          · exact Or.inr hrest
        · rcases List.mem_cons.mp h with hhead | hrest
          · exact Or.inr (hhead ▸ List.mem_cons_self)
          · rcases ih hrest with hnew | hold
            · exact Or.inl hnew
            · exact Or.inr (List.mem_cons_of_mem _ hold)

theorem pairwise_insertEntry (name : String) (value : Float) {entries : List (String × Float)}
    (sorted : entries.Pairwise (fun first second => first.1 < second.1)) :
    (insertEntry name value entries).Pairwise (fun first second => first.1 < second.1) := by
  induction entries with
  | nil => exact List.pairwise_singleton _ _
  | cons head rest ih =>
      obtain ⟨key, old⟩ := head
      obtain ⟨hhead, hrest⟩ := List.pairwise_cons.mp sorted
      simp only [insertEntry]
      split
      · next heq =>
          refine List.pairwise_cons.mpr ⟨?_, hrest⟩
          intro entry hentry
          exact heq ▸ hhead entry hentry
      · next hne =>
          split
          · next hlt =>
              refine List.pairwise_cons.mpr ⟨?_, sorted⟩
              intro entry hentry
              rcases List.mem_cons.mp hentry with rfl | hentry
              · exact hlt
              · exact String.lt_trans hlt (hhead entry hentry)
          · next hnot =>
              refine List.pairwise_cons.mpr ⟨?_, ih hrest⟩
              intro entry hentry
              rcases mem_insertEntry hentry with rfl | hentry
              · rcases Std.lt_trichotomy name key with hlt | heq | hgt
                · exact absurd hlt hnot
                · exact absurd heq hne
                · exact hgt
              · exact hhead entry hentry

def get? (table : SymbolTable) (name : String) : Option Float := table.entries.lookup name

/-- Binds a name to a number, in place of its earlier one. -/
def set (table : SymbolTable) (name : String) (value : Float) : SymbolTable where
  entries := insertEntry name value table.entries
  sorted := pairwise_insertEntry name value table.sorted

theorem lookup_insertEntry_self (name : String) (value : Float) (entries : List (String × Float)) :
    (insertEntry name value entries).lookup name = some value := by
  induction entries with
  | nil => simp [insertEntry]
  | cons head rest ih =>
      obtain ⟨key, old⟩ := head
      by_cases hkey : name = key
      · simp [insertEntry, hkey]
      · by_cases hlt : name < key
        · simp [insertEntry, hkey, hlt]
        · simp [insertEntry, hkey, hlt, List.lookup_cons, beq_false_of_ne hkey, ih]

theorem lookup_insertEntry_of_ne {name other : String} (value : Float)
    (entries : List (String × Float)) (hne : other ≠ name) :
    (insertEntry name value entries).lookup other = entries.lookup other := by
  induction entries with
  | nil => simp [insertEntry, List.lookup_cons, beq_false_of_ne hne]
  | cons head rest ih =>
      obtain ⟨key, old⟩ := head
      by_cases hkey : name = key
      · subst hkey
        simp [insertEntry, List.lookup_cons, beq_false_of_ne hne]
      · by_cases hlt : name < key
        · simp [insertEntry, hkey, hlt, List.lookup_cons, beq_false_of_ne hne]
        · simp [insertEntry, hkey, hlt, List.lookup_cons, ih]

/-- A name that was just bound has the new number. -/
@[simp]
theorem get?_set_self (table : SymbolTable) (name : String) (value : Float) :
    (table.set name value).get? name = some value :=
  lookup_insertEntry_self name value table.entries

/-- Binding a name leaves the other names as they were. -/
theorem get?_set_of_ne {name other : String} (table : SymbolTable) (value : Float)
    (hne : other ≠ name) : (table.set name value).get? other = table.get? other :=
  lookup_insertEntry_of_ne value table.entries hne

/-- The bound names in increasing order. -/
def names (table : SymbolTable) : List String := table.entries.map (·.1)

def size (table : SymbolTable) : Nat := table.entries.length

def isEmpty (table : SymbolTable) : Bool := table.entries.isEmpty

/-- The number bound to a name that is used at a place. -/
def lookup (table : SymbolTable) (name : String) (location : Location) : Except Diagnostic Float :=
  match table.get? name with
  | some value => .ok value
  | none => .error ((Cause.unboundIdentifier name table.names).reportAt location)

end SymbolTable
end LoopScript
