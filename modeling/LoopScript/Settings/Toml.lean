import LoopScript.Settings
import LoopScript.Toml

/-! Settings read from a TOML document.

A section is a table with some of its fields, or an array of the values of its first fields in
order. Fields that are left out keep their defaults, and fields that do not exist are refused. -/

namespace LoopScript.Settings

open Toml (Value)

/-- A named field: how its value changes the settings, if it is of the right type. -/
structure Field (α : Type) where
  name : String
  set? : Value → α → Option α

/-- Sets the named fields. -/
def setNamed? {α : Type} (fields : List (Field α)) (settings : α) (entry : String × Value) :
    Option α := do
  let field ← fields.find? (·.name == entry.1)
  field.set? entry.2 settings

/-- Sets the first fields, in order. Values beyond the last field are ignored. -/
def setPositional? {α : Type} : List (Field α) → List Value → α → Option α
  | field :: fields, value :: values, settings => do
      let settings ← field.set? value settings
      setPositional? fields values settings
  | _, _, settings => some settings

/-- A section with these fields, starting from its defaults. -/
def ofValue? {α : Type} (fields : List (Field α)) (defaults : α) : Value → Option α
  | .table entries => entries.foldlM (setNamed? fields) defaults
  | .array values => setPositional? fields values defaults
  | _ => none

def boolean? : Value → Option Bool
  | .boolean value => some value
  | _ => none

def count? : Value → Option Nat
  | .integer (.ofNat value) => some value
  | _ => none

def text? : Value → Option String
  | .text value => some value
  | _ => none

def runFields : List (Field RunSettings) :=
  [⟨"check_labels", fun value settings =>
      (boolean? value).map fun check => { settings with checkLabels := check }⟩,
   ⟨"max_loop_iterations", fun value settings =>
      (count? value).map fun most => { settings with maxLoopIterations := some most }⟩]

def logFields : List (Field LogSettings) :=
  [⟨"filter", fun value settings =>
      (text? value).map fun filter => { settings with filter := filter }⟩]

def fields : List (Field Settings) :=
  [⟨"run", fun value settings =>
      (ofValue? runFields {} value).map fun run => { settings with run := run }⟩,
   ⟨"log", fun value settings =>
      (ofValue? logFields {} value).map fun log => { settings with log := log }⟩]

/-- The settings in a TOML text. -/
def ofToml? (text : String) : Option Settings := do
  let entries ← Toml.parse? text
  ofValue? fields {} (.table entries)

end LoopScript.Settings
