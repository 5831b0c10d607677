import LoopScript.Number.Literal
import LoopScript.Program
import LoopScript.Token

/-! The grammar of programs, as a derivation of a program from the tokens that count. A derivation
says nothing about how a text is read: no order of decisions, no lookahead and no blanks. Each binary
tier is left-recursive, so that operators of one tier group to the left, and parentheses leave no
node. -/

namespace LoopScript

/-- The characters that an identifier or a number stands for. -/
def Token.word (token : Token) : String := token.text.getD ""

/-- A token is an identifier, and these are its characters. -/
def Token.IsIdentifier (token : Token) (name : String) : Prop :=
  token.kind = .identifier ∧ token.text = some name

namespace Grammar

/-- The tiers of binary operators, the ones that bind tighter first. -/
inductive Tier where
  | product | sum | comparison
deriving DecidableEq

/-- The binary operators of a tier, and the tokens they are written with. -/
inductive Operator : Tier → Token.Kind → BinaryOp → Prop
  | star : Operator .product .star .mul
  | slash : Operator .product .slash .div
  | plus : Operator .sum .plus .add
  | minus : Operator .sum .minus .sub
  | equal : Operator .comparison .equal .equal
  | notEqual : Operator .comparison .notEqual .notEqual
  | less : Operator .comparison .less .less
  | lessEqual : Operator .comparison .lessEqual .lessEqual
  | greater : Operator .comparison .greater .greater
  | greaterEqual : Operator .comparison .greaterEqual .greaterEqual

/-- How loose an expression may be at its top: a primary one, one with signs, or one with operators
of a tier. -/
inductive Rank where
  | primary
  | signed
  | binary (tier : Tier)
deriving DecidableEq

/-- The operands of a tier are the expressions one step tighter. -/
def Tier.operand : Tier → Rank
  | product => .signed
  | sum => .binary .product
  | comparison => .binary .sum

/-- The tokens of an expression of some rank, and its tree. -/
inductive Expression : Rank → List Token → Expr → Prop
  | number {token : Token} {value : Float} (hkind : token.kind = .number)
      (hvalue : Number.Literal.value? token.word = some value) :
      Expression .primary [token] (.number value)
  | name {token : Token} (hkind : token.kind = .identifier) :
      Expression .primary [token] (.var token.word token.location)
  | group {opening closing : Token} {ts : List Token} {e : Expr} (hopening : opening.kind = .leftParen)
      (inner : Expression (.binary .comparison) ts e) (hclosing : closing.kind = .rightParen) :
      Expression .primary (opening :: (ts ++ [closing])) e
  | unsigned {ts : List Token} {e : Expr} (operand : Expression .primary ts e) :
      Expression .signed ts e
  | negated {sign : Token} {ts : List Token} {e : Expr} (hsign : sign.kind = .minus)
      (operand : Expression .signed ts e) : Expression .signed (sign :: ts) (.negate e)
  | operand {tier : Tier} {ts : List Token} {e : Expr} (operand : Expression tier.operand ts e) :
      Expression (.binary tier) ts e
  | operation {tier : Tier} {sign : Token} {op : BinaryOp} {ls rs : List Token} {left right : Expr}
      (hleft : Expression (.binary tier) ls left) (hsign : Operator tier sign.kind op)
      (hright : Expression tier.operand rs right) :
      Expression (.binary tier) (ls ++ sign :: rs) (.binary op left right sign.location)

/-- Identifiers, each after a comma. -/
inductive NamesTail : List Token → List String → Prop
  | nil : NamesTail [] []
  | cons {comma token : Token} {name : String} {ts : List Token} {names : List String}
      (hcomma : comma.kind = .comma) (hname : token.IsIdentifier name) (rest : NamesTail ts names) :
      NamesTail (comma :: token :: ts) (name :: names)

/-- One or more identifiers with commas between them, and the place of the first. -/
inductive Names : List Token → List String × Location → Prop
  | mk {token : Token} {name : String} {ts : List Token} {names : List String}
      (hname : token.IsIdentifier name) (rest : NamesTail ts names) :
      Names (token :: ts) (name :: names, token.location)

mutual

/-- The tokens of a statement, and its tree. -/
inductive Statement : List Token → Stmt → Prop
  | loop {keyword label colon closing : Token} {name : String} {ts : List Token} {body : List Stmt}
      (hkeyword : keyword.kind = .loopWord) (hlabel : label.IsIdentifier name)
      (hcolon : colon.kind = .colon) (hbody : Block ts body) (hclosing : closing.kind = .repeatWord) :
      Statement (keyword :: label :: colon :: (ts ++ [closing]))
        (.loop (some name) body keyword.location)
  | leave {keyword : Token} (hkeyword : keyword.kind = .breakWord) :
      Statement [keyword] (.leave none keyword.location)
  | leaveNamed {keyword target : Token} {name : String} (hkeyword : keyword.kind = .breakWord)
      (htarget : target.IsIdentifier name) :
      Statement [keyword, target] (.leave (some name) keyword.location)
  | read {keyword : Token} {ts : List Token} {names : List String} {location : Location}
      (hkeyword : keyword.kind = .readWord) (hnames : Names ts (names, location)) :
      Statement (keyword :: ts) (.read names location)
  | print {keyword : Token} {ts : List Token} {names : List String} {location : Location}
      (hkeyword : keyword.kind = .printWord) (hnames : Names ts (names, location)) :
      Statement (keyword :: ts) (.print names location)
  | cond {keyword thenWord closing : Token} {ts us : List Token} {condition : Expr}
      {branch : List Stmt} (hkeyword : keyword.kind = .ifWord)
      (hcondition : Expression (.binary .comparison) ts condition)
      (hthen : thenWord.kind = .thenWord) (hbranch : Block us branch)
      (hclosing : closing.kind = .endWord) :
      Statement (keyword :: (ts ++ thenWord :: (us ++ [closing]))) (.cond condition branch none)
  | condElse {keyword thenWord elseWord closing : Token} {ts us vs : List Token} {condition : Expr}
      {branch other : List Stmt} (hkeyword : keyword.kind = .ifWord)
      (hcondition : Expression (.binary .comparison) ts condition)
      (hthen : thenWord.kind = .thenWord) (hbranch : Block us branch)
      (helse : elseWord.kind = .elseWord) (hother : Block vs other)
      (hclosing : closing.kind = .endWord) :
      Statement (keyword :: (ts ++ thenWord :: (us ++ elseWord :: (vs ++ [closing]))))
        (.cond condition branch (some other))
  | assign {token sign : Token} {name : String} {ts : List Token} {value : Expr}
      (hname : token.IsIdentifier name) (hsign : sign.kind = .assign)
      (hvalue : Expression (.binary .comparison) ts value) :
      Statement (token :: sign :: ts) (.assign name value token.location)

/-- The tokens of a list of statements, each with a semicolon behind it. -/
inductive Block : List Token → List Stmt → Prop
  | nil : Block [] []
  | cons {semicolon : Token} {ts us : List Token} {stmt : Stmt} {stmts : List Stmt}
      (head : Statement ts stmt) (hsemicolon : semicolon.kind = .semicolon) (tail : Block us stmts) :
      Block (ts ++ semicolon :: us) (stmt :: stmts)

end

/-- The tokens of a whole text, the end token last, and its program. -/
inductive Derives : List Token → Program → Prop
  | mk {closing : Token} {ts : List Token} {body : List Stmt} (hbody : Block ts body)
      (hclosing : closing.kind = .endOfText) : Derives (ts ++ [closing]) { body := body }

/-! The end token stands nowhere inside. -/

/-- Tokens before the end of a text. -/
def Inside (ts : List Token) : Prop := ∀ token ∈ ts, token.kind ≠ .endOfText

@[simp]
theorem inside_nil : Inside [] := by simp [Inside]

@[simp]
theorem inside_cons {token : Token} {ts : List Token} :
    Inside (token :: ts) ↔ token.kind ≠ .endOfText ∧ Inside ts := List.forall_mem_cons

@[simp]
theorem inside_append {ts us : List Token} : Inside (ts ++ us) ↔ Inside ts ∧ Inside us :=
  List.forall_mem_append

theorem Operator.kind_ne_endOfText {tier : Tier} {kind : Token.Kind} {op : BinaryOp}
    (h : Operator tier kind op) : kind ≠ .endOfText := by
  cases h <;> decide

theorem Expression.inside {rank : Rank} {ts : List Token} {e : Expr} (h : Expression rank ts e) :
    Inside ts := by
  induction h with
  | number hkind => simp [hkind]
  | name hkind => simp [hkind]
  | group hopening inner hclosing ih => simpa [hopening, hclosing] using ih
  | unsigned operand ih => exact ih
  | negated hsign operand ih => simpa [hsign] using ih
  | operand operand ih => exact ih
  | operation hleft hsign hright ihl ihr =>
      exact inside_append.mpr ⟨ihl, inside_cons.mpr ⟨hsign.kind_ne_endOfText, ihr⟩⟩

theorem NamesTail.inside {ts : List Token} {names : List String} (h : NamesTail ts names) :
    Inside ts := by
  induction h with
  | nil => exact inside_nil
  | cons hcomma hname rest ih => simpa [hcomma, hname.1] using ih

theorem Names.inside {ts : List Token} {names : List String × Location} (h : Names ts names) :
    Inside ts := by
  cases h with
  | mk hname rest => simpa [hname.1] using rest.inside

mutual

theorem Statement.inside {ts : List Token} {stmt : Stmt} (h : Statement ts stmt) : Inside ts := by
  cases h with
  | loop hkeyword hlabel hcolon hbody hclosing =>
      simpa [hkeyword, hlabel.1, hcolon, hclosing] using hbody.inside
  | leave hkeyword => simp [hkeyword]
  | leaveNamed hkeyword htarget => simp [hkeyword, htarget.1]
  | read hkeyword hnames => simpa [hkeyword] using hnames.inside
  | print hkeyword hnames => simpa [hkeyword] using hnames.inside
  | cond hkeyword hcondition hthen hbranch hclosing =>
      simpa [hkeyword, hthen, hclosing] using ⟨hcondition.inside, hbranch.inside⟩
  | condElse hkeyword hcondition hthen hbranch helse hother hclosing =>
      simpa [hkeyword, hthen, helse, hclosing] using
        ⟨hcondition.inside, hbranch.inside, hother.inside⟩
  | assign hname hsign hvalue => simpa [hname.1, hsign] using hvalue.inside

theorem Block.inside {ts : List Token} {stmts : List Stmt} (h : Block ts stmts) : Inside ts := by
  cases h with
  | nil => exact inside_nil
  | cons head hsemicolon tail => simpa [hsemicolon] using ⟨head.inside, tail.inside⟩

end

end Grammar
end LoopScript
