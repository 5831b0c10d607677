import LoopScript.Text.Blank
import LoopScript.Token.Kind

/-! Lexemes: the longest token at the front of a text.

A lexeme is a run of blanks and comments, a word, a number, or an operator. A comment runs from a
number sign to the end of its line and counts as blank. -/

namespace LoopScript.Token

def isWordStart (c : Char) : Bool := c.isAlpha || c = '_'

def isWordPart (c : Char) : Bool := c.isAlphanum || c = '_'

/-- The longest run of blanks and comments at the front of a text, and what follows it. -/
def blankRun : (inComment : Bool) → List Char → List Char × List Char
  | _, [] => ([], [])
  | true, c :: rest =>
      let (run, left) := blankRun (c != '\n') rest
      (c :: run, left)
  | false, c :: rest =>
      if c = '#' then
        let (run, left) := blankRun true rest
        (c :: run, left)
      else if Text.isBlank c then
        let (run, left) := blankRun false rest
        (c :: run, left)
      else ([], c :: rest)

theorem blankRun_append (inComment : Bool) (text : List Char) :
    (blankRun inComment text).1 ++ (blankRun inComment text).2 = text := by
  fun_induction blankRun inComment text <;> simp_all

/-- The longest decimal at the front of a text: digits, then a point only if a digit follows it. -/
def numberRun (text : List Char) : List Char × List Char :=
  let whole := text.takeWhile Char.isDigit
  match text.dropWhile Char.isDigit with
  | '.' :: d :: rest =>
      if d.isDigit then
        (whole ++ '.' :: d :: rest.takeWhile Char.isDigit, rest.dropWhile Char.isDigit)
      else (whole, '.' :: d :: rest)
  | rest => (whole, rest)

theorem numberRun_append (text : List Char) : (numberRun text).1 ++ (numberRun text).2 = text := by
  have split : text.takeWhile Char.isDigit ++ text.dropWhile Char.isDigit = text :=
    List.takeWhile_append_dropWhile
  unfold numberRun
  split
  · next d rest hrest =>
      rw [hrest] at split
      by_cases hd : d.isDigit
      · simpa [hd] using split
      · simpa [hd] using split
  · exact split

/-- A token's kind, the characters it covers and the text after it. -/
structure Lexeme where
  kind : Kind
  covered : List Char
  rest : List Char
deriving DecidableEq

/-- An operator and the one that a following equals sign turns it into. -/
def operatorPair (c : Char) (alone paired : Kind) : List Char → Lexeme
  | '=' :: rest => ⟨paired, [c, '='], rest⟩
  | rest => ⟨alone, [c], rest⟩

/-- The lexeme that starts with `c`, if one does. -/
def Lexeme.starting (c : Char) (rest : List Char) : Option Lexeme :=
  if Text.isBlank c || c = '#' then
    let (run, left) := blankRun false (c :: rest)
    some ⟨.space, run, left⟩
  else if isWordStart c then
    let word := c :: rest.takeWhile isWordPart
    some ⟨(Kind.keyword? word).getD .identifier, word, rest.dropWhile isWordPart⟩
  else if c.isDigit then
    let (run, left) := numberRun (c :: rest)
    some ⟨.number, run, left⟩
  else
    match c with
    | ',' => some ⟨.comma, [c], rest⟩
    | ':' => some ⟨.colon, [c], rest⟩
    | ';' => some ⟨.semicolon, [c], rest⟩
    | '(' => some ⟨.leftParen, [c], rest⟩
    | ')' => some ⟨.rightParen, [c], rest⟩
    | '+' => some ⟨.plus, [c], rest⟩
    | '-' => some ⟨.minus, [c], rest⟩
    | '*' => some ⟨.star, [c], rest⟩
    | '/' => some ⟨.slash, [c], rest⟩
    | '=' => some (operatorPair c .assign .equal rest)
    | '<' => some (operatorPair c .less .lessEqual rest)
    | '>' => some (operatorPair c .greater .greaterEqual rest)
    | '!' =>
        match rest with
        | '=' :: left => some ⟨.notEqual, [c, '='], left⟩
        | _ => none
    | _ => none

theorem blankRun_ne_nil {c : Char} (rest : List Char) (h : (Text.isBlank c || c = '#') = true) :
    (blankRun false (c :: rest)).1 ≠ [] := by
  unfold blankRun
  split
  · simp
  · next hhash => simp_all

theorem numberRun_ne_nil {c : Char} (rest : List Char) (h : c.isDigit = true) :
    (numberRun (c :: rest)).1 ≠ [] := by
  unfold numberRun
  simp only [List.takeWhile_cons, h, if_true]
  split
  · split <;> simp
  · simp

theorem operatorPair_append (c : Char) (alone paired : Kind) (rest : List Char) :
    (operatorPair c alone paired rest).covered ++ (operatorPair c alone paired rest).rest = c :: rest ∧
      (operatorPair c alone paired rest).covered ≠ [] := by
  unfold operatorPair
  split <;> simp

/-- A lexeme covers the front of the text, and at least its first character. -/
theorem Lexeme.covered_append_rest {c : Char} {rest : List Char} {lexeme : Lexeme}
    (h : Lexeme.starting c rest = some lexeme) :
    lexeme.covered ++ lexeme.rest = c :: rest ∧ lexeme.covered ≠ [] := by
  unfold Lexeme.starting at h
  split at h
  · next hblank =>
      obtain rfl := Option.some.inj h
      exact ⟨blankRun_append false (c :: rest), blankRun_ne_nil rest hblank⟩
  · split at h
    · obtain rfl := Option.some.inj h
      simp
    · split at h
      · next hdigit =>
          obtain rfl := Option.some.inj h
          exact ⟨numberRun_append (c :: rest), numberRun_ne_nil rest hdigit⟩
      · split at h
        case h_10 | h_11 | h_12 =>
          obtain rfl := Option.some.inj h
          exact operatorPair_append _ _ _ rest
        case h_13 =>
          split at h
          · obtain rfl := Option.some.inj h
            simp
          · simp at h
        case h_14 => simp at h
        all_goals
          obtain rfl := Option.some.inj h
          simp

end LoopScript.Token
