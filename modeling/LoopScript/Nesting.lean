import LoopScript.Reader

/-! Whether a text closes everything it opens.

A LOOP is closed by a REPEAT and an IF by an END; only their numbers are compared. A text with a
lexical error counts as closed, since no further line can mend it. -/

namespace LoopScript

namespace Token.Kind

/-- Whether a token opens a construct that runs over several statements. -/
def opens : Kind → Bool
  | loopWord => true
  | ifWord => true
  | _ => false

def closes : Kind → Bool
  | repeatWord => true
  | endWord => true
  | _ => false

end Token.Kind

/-- Whether a text has at least as many closing tokens as opening ones. -/
def isComplete (source : String) : Bool :=
  match tokenize source with
  | .error _ => true
  | .ok tokens => tokens.countP (·.kind.opens) ≤ tokens.countP (·.kind.closes)

end LoopScript
