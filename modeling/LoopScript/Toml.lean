import LoopScript.Toml.Grammar

/-! TOML documents: the table that the lines of a text describe. -/

namespace LoopScript.Toml

/-- The tables so far, and the path of the one that pairs are added to. -/
structure Document where
  current : List String := []
  root : Entries := []

/-- Takes in one line, if it agrees with the lines before. -/
def Document.add? (document : Document) : Line → Option Document
  | .pair path name value => do
      let change := within .implied document.current (assign path name value)
      let root ← change .header document.root
      return { document with root := root }
  | .header path name => do
      let root ← define path name .header document.root
      return { current := path ++ [name], root := root }
  | .element path name => do
      let root ← append path name .header document.root
      return { current := path ++ [name], root := root }

/-- The entries of the document that a text is. -/
def parse? (text : String) : Option (List (String × Value)) := do
  let lines ← lines? text
  let document ← lines.foldlM Document.add? {}
  return entriesToValues document.root

end LoopScript.Toml
