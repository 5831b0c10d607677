import LoopScript.Diagnostic
import LoopScript.Token
import LoopScript.Token.Lexeme

/-! Readers: tokens pulled one at a time from a text, and put back.

A token that is put back is the next one to be read. At the end of the text every further token
is the end token. A character that starts no token is an error; it is skipped, so that reading can
go on behind it. -/

namespace LoopScript

/-- The unread part of a text, its place, and the tokens that were put back, next one first. -/
structure Reader where
  chars : List Char
  location : Location := Location.start
  pushback : List Token := []
deriving DecidableEq

/-- Reading steps: they may fail, and leave a reader in either case. -/
abbrev Reading := EStateM Diagnostic Reader

namespace Reader

def ofString (source : String) : Reader := { chars := source.toList }

/-- Takes the next token from the text, as if nothing had been put back. -/
def scan : Reading Token := fun reader =>
  match reader.chars with
  | [] => .ok { kind := .endOfText, location := reader.location } reader
  | c :: rest =>
      match Token.Lexeme.starting c rest with
      | some lexeme =>
          let text := if lexeme.kind.hasText then some (String.ofList lexeme.covered) else none
          .ok { kind := lexeme.kind, text := text, location := reader.location }
            { reader with
              chars := lexeme.rest
              location := reader.location.after lexeme.covered }
      | none =>
          .error ((Diagnostic.Cause.unexpectedCharacter c).reportAt reader.location)
            { reader with chars := rest, location := reader.location.step c }

def next : Reading Token := fun reader =>
  match reader.pushback with
  | token :: rest => .ok token { reader with pushback := rest }
  | [] => scan reader

/-- Puts a token back in front of all others. -/
def unread (reader : Reader) (token : Token) : Reader :=
  { reader with pushback := token :: reader.pushback }

/-- A token that was put back is the next one. -/
@[simp]
theorem next_unread (reader : Reader) (token : Token) :
    next (reader.unread token) = .ok token reader := rfl

/-- A bound on the tokens before the end: the characters left and the tokens put back. End tokens
that were put back do not count. -/
def size (reader : Reader) : Nat :=
  reader.chars.length + (reader.pushback.filter (·.kind ≠ .endOfText)).length

theorem size_lt_of_scan {reader after : Reader} {token : Token}
    (h : scan reader = .ok token after) (htoken : token.kind ≠ .endOfText) :
    after.size < reader.size := by
  unfold scan at h
  split at h
  · obtain ⟨rfl, rfl⟩ := EStateM.Result.ok.inj h
    exact absurd rfl htoken
  · next c rest hchars =>
      split at h
      · next lexeme hlexeme =>
          obtain ⟨rfl, rfl⟩ := EStateM.Result.ok.inj h
          obtain ⟨happend, hne⟩ := Token.Lexeme.covered_append_rest hlexeme
          have hlength := congrArg List.length happend
          have hpos := List.length_pos_iff.mpr hne
          simp only [List.length_append, List.length_cons] at hlength
          simp only [size, hchars, List.length_cons]
          omega
      · cases h

/-- Every token but the end token makes the rest smaller. -/
theorem size_lt_of_next {reader after : Reader} {token : Token}
    (h : next reader = .ok token after) (htoken : token.kind ≠ .endOfText) :
    after.size < reader.size := by
  unfold next at h
  split at h
  · next rest hpushback =>
      obtain ⟨rfl, rfl⟩ := EStateM.Result.ok.inj h
      simp [size, hpushback, htoken]
  · exact size_lt_of_scan h htoken

/-- Takes tokens up to the first one that is not blank, and returns that one. -/
def skipSpaces (reader : Reader) : EStateM.Result Diagnostic Reader Token :=
  match _hnext : next reader with
  | .ok token after => if token.kind = .space then skipSpaces after else .ok token after
  | .error report after => .error report after
termination_by reader.size
decreasing_by exact size_lt_of_next _hnext (by simp_all)

/-- All tokens up to the first end token, which is included, or the first error. -/
def tokens (reader : Reader) : Except Diagnostic (List Token) :=
  match _hnext : next reader with
  | .ok token after =>
      if token.kind = .endOfText then .ok [token] else (tokens after).map (token :: ·)
  | .error report _ => .error report
termination_by reader.size
decreasing_by exact size_lt_of_next _hnext (by assumption)

end Reader

/-- All tokens of a text, the end token last, or its first lexical error. -/
def tokenize (source : String) : Except Diagnostic (List Token) :=
  (Reader.ofString source).tokens

end LoopScript
