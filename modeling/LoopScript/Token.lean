import LoopScript.Location
import LoopScript.Token.Kind

/-! Tokens: the units that a reader hands out and takes back. -/

namespace LoopScript

/-- A kind at a place, with the characters it was read from when the kind keeps them. -/
structure Token where
  kind : Token.Kind
  text : Option String := none
  location : Location := Location.unknown
deriving DecidableEq

end LoopScript
