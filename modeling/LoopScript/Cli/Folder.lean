/-! Files by their paths.

The command line sees the files around it only through a function from paths to contents. A folder
is one such function: names with contents, where a slash in a name stands for a folder inside. -/

namespace LoopScript.Cli

/-- Why a file cannot be read. -/
inductive FileError where
  | notFound | isFolder | notFolder | nameTooLong
  | other (reason : String)
deriving DecidableEq

namespace FileError

/-- The text of the system for an error. -/
def message : FileError → String
  | notFound => "No such file or directory (os error 2)"
  | isFolder => "Is a directory (os error 21)"
  | notFolder => "Not a directory (os error 20)"
  | nameTooLong => "File name too long (os error 36)"
  | other reason => reason

/-- Whether there is a file at the path, although it cannot be read. -/
def isFile : FileError → Bool
  | other _ => true
  | _ => false

end FileError

abbrev Files := String → Except FileError (List UInt8)

/-- The parts of a path between its slashes. -/
def pathParts (path : String) : List String := path.splitOn "/"

/-- Files by the parts of their names. -/
structure Folder where
  files : List (List String × List UInt8)

namespace Folder

def ofNames (files : List (String × List UInt8)) : Folder :=
  ⟨files.map fun (name, content) => (pathParts name, content)⟩

/-- The longest name of a file, in bytes. -/
def longestName : Nat := 255

/-- A place that a path has come to: inside the folder, or somewhere above it. -/
inductive Place where
  | inside (parts : List String)
  | above

def isFolder (folder : Folder) (parts : List String) : Bool :=
  parts.isEmpty ||
    folder.files.any fun (name, _) => parts.isPrefixOf name && parts.length < name.length

/-- Follows one part of a path from a folder. Nothing is known of what lies above. -/
def enter (folder : Folder) (place : Place) (part : String) : Except FileError Place :=
  if part = "" ∨ part = "." then .ok place
  else
    match place with
    | .above => if part = ".." then .ok .above else .error .notFound
    | .inside parts =>
        if part = ".." then
          if parts.isEmpty then .ok .above else .ok (.inside parts.dropLast)
        else if longestName < part.utf8ByteSize then .error .nameTooLong
        else
          let deeper := parts ++ [part]
          if folder.isFolder deeper || (folder.files.lookup deeper).isSome then .ok (.inside deeper)
          else .error .notFound

/-- Follows the parts of a path. Only a folder has anything behind it. -/
def follow (folder : Folder) : Place → List String → Except FileError Place
  | place, [] => .ok place
  | place, part :: rest => do
      if let .inside parts := place then
        if !folder.isFolder parts then throw .notFolder
      let place ← folder.enter place part
      folder.follow place rest

/-- The file at a path. Absolute paths lead out of the folder. -/
def read (folder : Folder) : Files := fun path =>
  match pathParts path with
  | "" :: _ => .error .notFound
  | parts => do
      match ← folder.follow (.inside []) parts with
      | .above => throw .isFolder
      | .inside parts =>
          match folder.files.lookup parts with
          | some content => return content
          | none => throw .isFolder

end Folder
end LoopScript.Cli
