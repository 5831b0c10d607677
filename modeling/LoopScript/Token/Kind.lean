/-! The kinds of tokens, and how each is written in messages. -/

namespace LoopScript.Token

/-- What a token is. Blanks are tokens of their own, and the end of the text is one too. -/
inductive Kind where
  | space | identifier | number
  | comma | colon | semicolon | leftParen | rightParen
  | assign | equal | notEqual | less | lessEqual | greater | greaterEqual
  | plus | minus | star | slash
  | loopWord | repeatWord | breakWord | readWord | printWord
  | ifWord | thenWord | elseWord | endWord
  | endOfText
deriving DecidableEq

namespace Kind

/-- A kind as messages speak of it. -/
def describe : Kind → String
  | space => "whitespace"
  | identifier => "identifier"
  | number => "number"
  | comma => "','"
  | colon => "':'"
  | semicolon => "';'"
  | leftParen => "'('"
  | rightParen => "')'"
  | assign => "'='"
  | equal => "'=='"
  | notEqual => "'!='"
  | less => "'<'"
  | lessEqual => "'<='"
  | greater => "'>'"
  | greaterEqual => "'>='"
  | plus => "'+'"
  | minus => "'-'"
  | star => "'*'"
  | slash => "'/'"
  | loopWord => "'LOOP'"
  | repeatWord => "'REPEAT'"
  | breakWord => "'BREAK'"
  | readWord => "'READ'"
  | printWord => "'PRINT'"
  | ifWord => "'IF'"
  | thenWord => "'THEN'"
  | elseWord => "'ELSE'"
  | endWord => "'END'"
  | endOfText => "end of input"

def name : Kind → String
  | space => "Space"
  | identifier => "Id"
  | number => "Number"
  | comma => "Comma"
  | colon => "Colon"
  | semicolon => "Semicolon"
  | leftParen => "LParen"
  | rightParen => "RParen"
  | assign => "Assign"
  | equal => "Eq"
  | notEqual => "Ne"
  | less => "Lt"
  | lessEqual => "Le"
  | greater => "Gt"
  | greaterEqual => "Ge"
  | plus => "Plus"
  | minus => "Minus"
  | star => "Star"
  | slash => "Slash"
  | loopWord => "Loop"
  | repeatWord => "Repeat"
  | breakWord => "Break"
  | readWord => "Read"
  | printWord => "Print"
  | ifWord => "If"
  | thenWord => "Then"
  | elseWord => "Else"
  | endWord => "End"
  | endOfText => "Eof"

def all : List Kind :=
  [space, identifier, number, comma, colon, semicolon, leftParen, rightParen, assign, equal,
   notEqual, less, lessEqual, greater, greaterEqual, plus, minus, star, slash, loopWord,
   repeatWord, breakWord, readWord, printWord, ifWord, thenWord, elseWord, endWord, endOfText]

def ofName? (name : String) : Option Kind := all.find? (·.name == name)

/-- The keyword that a word spells, whatever the case of its letters. -/
def keyword? (word : List Char) : Option Kind :=
  match String.ofList (word.map Char.toUpper) with
  | "LOOP" => some loopWord
  | "REPEAT" => some repeatWord
  | "BREAK" => some breakWord
  | "READ" => some readWord
  | "PRINT" => some printWord
  | "IF" => some ifWord
  | "THEN" => some thenWord
  | "ELSE" => some elseWord
  | "END" => some endWord
  | _ => none

/-- Whether tokens of a kind carry the characters they were read from. -/
def hasText : Kind → Bool
  | identifier => true
  | number => true
  | _ => false

end Kind
end LoopScript.Token
