import LoopScript.Log
import LoopScript.Reader

/-! Lookahead: speculative scans over a reader.

A scan pulls tokens and remembers them; closing it puts them all back, so that the reader hands
them out again in the same order. -/

namespace LoopScript

/-- A reader and the tokens that a scan has pulled from it, last one first. -/
structure Lookahead where
  reader : Reader
  taken : List Token := []
deriving DecidableEq

/-- What a scan for a sequence of kinds found, and how many tokens it had pulled by then. -/
inductive Verdict where
  | matched (depth : Nat)
  | rejected (found : Token.Kind) (depth : Nat)
deriving DecidableEq

namespace Verdict

def isMatch : Verdict → Bool
  | matched _ => true
  | rejected _ _ => false

def event (kinds : List Token.Kind) : Verdict → Event
  | matched depth => .matched kinds depth
  | rejected found depth => .rejected kinds found depth

end Verdict

namespace Lookahead

def ofReader (reader : Reader) : Lookahead := { reader := reader }

/-- The number of tokens that closing the scan puts back. -/
def depth (look : Lookahead) : Nat := look.taken.length

/-- Pulls one token, blank or not. -/
def next : EStateM Diagnostic Lookahead Token := fun look =>
  match Reader.next look.reader with
  | .ok token reader => .ok token { reader := reader, taken := token :: look.taken }
  | .error report reader => .error report { look with reader := reader }

theorem size_lt_of_next {look after : Lookahead} {token : Token}
    (h : next look = .ok token after) (htoken : token.kind ≠ .endOfText) :
    after.reader.size < look.reader.size := by
  unfold next at h
  split at h
  · next hnext =>
      obtain ⟨rfl, rfl⟩ := EStateM.Result.ok.inj h
      exact Reader.size_lt_of_next hnext htoken
  · cases h

/-- Pulls tokens up to the first one that is not blank, and returns its kind. -/
def significant (look : Lookahead) : EStateM.Result Diagnostic Lookahead Token.Kind :=
  match _hnext : next look with
  | .ok token after => if token.kind = .space then significant after else .ok token.kind after
  | .error report after => .error report after
termination_by look.reader.size
decreasing_by exact size_lt_of_next _hnext (by simp_all)

/-- Looks for these kinds as the next tokens that are not blank, and stops at the first other. -/
def see : List Token.Kind → EStateM Diagnostic Lookahead Verdict
  | [] => fun look => .ok (.matched look.depth) look
  | kind :: kinds => fun look =>
      match significant look with
      | .ok found after =>
          if found = kind then see kinds after else .ok (.rejected found after.depth) after
      | .error report after => .error report after

/-- Ends a scan: every token it pulled is put back, the last one first. -/
def close (look : Lookahead) : Reader := look.taken.foldl Reader.unread look.reader

end Lookahead
end LoopScript
