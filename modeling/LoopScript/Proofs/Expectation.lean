import LoopScript.Proofs.Acceptance

/-! What may still come. After some tokens of a program the grammar has a stack of parts left over,
and one more token either opens the topmost part, or passes over parts that may be missing, or fits
nowhere. The tokens that can be gone through in this way are exactly the fronts of programs: every
derivation is gone through, and whatever is left over can be completed. -/

namespace LoopScript

/-- Whether a token can be made sense of on its own: words and numbers have their characters, and
those of a number stand for a value. -/
def Token.Legible (token : Token) : Prop :=
  token.Spelled ∧ (token.kind = .number → (Number.Literal.value? token.word).isSome = true)

namespace Grammar

open Token (Kind)

/-- Parts of a program that are still to come. The operators part is what may follow an operand. -/
inductive Part where
  | token (kind : Kind)
  | operand | operators
  | namesTail | target
  | block | elsePart
deriving DecidableEq

/-- What is left of a part when it opens with a token of some kind. -/
def Part.opens : Part → Kind → Option (List Part)
  | .token wanted, kind => if kind = wanted then some [] else none
  | .operand, .minus => some [.operand]
  | .operand, .number | .operand, .identifier => some []
  | .operand, .leftParen => some [.operand, .operators, .token .rightParen]
  | .operators, .star | .operators, .slash | .operators, .plus | .operators, .minus
  | .operators, .equal | .operators, .notEqual | .operators, .less | .operators, .lessEqual
  | .operators, .greater | .operators, .greaterEqual => some [.operand, .operators]
  | .namesTail, .comma => some [.token .identifier, .namesTail]
  | .target, .identifier => some []
  | .elsePart, .elseWord => some [.block]
  | .block, .loopWord =>
      some [.token .identifier, .token .colon, .block, .token .repeatWord, .token .semicolon, .block]
  | .block, .breakWord => some [.target, .token .semicolon, .block]
  | .block, .readWord | .block, .printWord =>
      some [.token .identifier, .namesTail, .token .semicolon, .block]
  | .block, .ifWord =>
      some [.operand, .operators, .token .thenWord, .block, .elsePart, .token .endWord,
        .token .semicolon, .block]
  | .block, .identifier => some [.token .assign, .operand, .operators, .token .semicolon, .block]
  | _, _ => none

def Part.isOptional : Part → Bool
  | .operators | .namesTail | .target | .block | .elsePart => true
  | .token _ | .operand => false

/-- What is left over after one more token, if it fits. -/
def advance : List Part → Kind → Option (List Part)
  | [], _ => none
  | part :: parts, kind =>
      match part.opens kind with
      | some opened => some (opened ++ parts)
      | none => if part.isOptional then advance parts kind else none

/-- What is left over after some tokens, if they fit. -/
def advanceAll (parts : List Part) : List Token → Option (List Part)
  | [] => some parts
  | token :: ts => (advance parts token.kind).bind fun left => advanceAll left ts

/-- A whole text is a list of statements and the end token. -/
def wholeText : List Part := [.block, .token .endOfText]

theorem advance_of_opens {part : Part} {kind : Kind} {opened : List Part}
    (h : part.opens kind = some opened) (parts : List Part) :
    advance (part :: parts) kind = some (opened ++ parts) := by
  rw [advance, h]

theorem advance_of_missing {part : Part} {kind : Kind} (h : part.opens kind = none)
    (hoptional : part.isOptional = true) (parts : List Part) :
    advance (part :: parts) kind = advance parts kind := by
  rw [advance, h]
  exact if_pos hoptional

@[simp]
theorem advanceAll_nil (parts : List Part) : advanceAll parts [] = some parts := rfl

theorem advanceAll_append (parts : List Part) (ts us : List Token) :
    advanceAll parts (ts ++ us) = (advanceAll parts ts).bind fun left => advanceAll left us := by
  induction ts generalizing parts with
  | nil => rfl
  | cons token ts ih =>
      simp only [List.cons_append, advanceAll, Option.bind_assoc]
      exact congrArg _ (funext fun left => ih left)

theorem advanceAll_cons {parts left : List Part} {token : Token}
    (h : advance parts token.kind = some left) (ts : List Token) :
    advanceAll parts (token :: ts) = advanceAll left ts := by
  rw [advanceAll, h]
  rfl

/-- Only the kinds of the tokens count. -/
theorem advanceAll_congr {ts us : List Token} (h : ts.map Token.kind = us.map Token.kind)
    (parts : List Part) : advanceAll parts ts = advanceAll parts us := by
  induction ts generalizing us parts with
  | nil =>
      rw [List.map_nil, eq_comm, List.map_eq_nil_iff] at h
      rw [h]
  | cons token ts ih =>
      cases us with
      | nil => cases h
      | cons other us =>
          obtain ⟨hkind, hrest⟩ := List.cons.inj h
          simp only [advanceAll, hkind]
          exact congrArg _ (funext fun left => ih hrest left)

theorem namesTail_opens_of_ne {kind : Kind} (h : kind ≠ .comma) : Part.namesTail.opens kind = none := by
  cases kind <;> first | rfl | contradiction

theorem target_opens_of_ne {kind : Kind} (h : kind ≠ .identifier) : Part.target.opens kind = none := by
  cases kind <;> first | rfl | contradiction

theorem elsePart_opens_of_ne {kind : Kind} (h : kind ≠ .elseWord) :
    Part.elsePart.opens kind = none := by
  cases kind <;> first | rfl | contradiction

/-! ### Every derivation is gone through -/

theorem opens_of_operator {tier : Tier} {kind : Kind} {op : BinaryOp} (h : Operator tier kind op) :
    Part.operators.opens kind = some [.operand, .operators] := by
  cases h <;> rfl

theorem operator_of_opens {kind : Kind} {opened : List Part}
    (h : Part.operators.opens kind = some opened) :
    ∃ tier op, Operator tier kind op ∧ opened = [.operand, .operators] := by
  cases kind <;> cases h <;> exact ⟨_, _, by constructor, rfl⟩

theorem advanceAll_expression {rank : Rank} {ts : List Token} {e : Expr} (h : Expression rank ts e)
    (parts : List Part) :
    advanceAll (.operand :: .operators :: parts) ts = some (.operators :: parts) := by
  induction h generalizing parts with
  | number hkind | name hkind => simp [advanceAll, advance, Part.opens, hkind]
  | @group opening closing ts e hopening inner hclosing ih =>
      have hopen : advance (.operand :: .operators :: parts) opening.kind =
          some (.operand :: .operators :: .token .rightParen :: .operators :: parts) := by
        rw [hopening]
        rfl
      rw [advanceAll_cons hopen, advanceAll_append, ih]
      simp [advanceAll, advance, Part.opens, Part.isOptional, hclosing]
  | unsigned operand ih => exact ih parts
  | @negated sign ts e hsign operand ih =>
      have hopen : advance (.operand :: .operators :: parts) sign.kind =
          some (.operand :: .operators :: parts) := by
        rw [hsign]
        rfl
      rw [advanceAll_cons hopen, ih]
  | operand operand ih => exact ih parts
  | operation hleft hsign hright ihleft ihright =>
      have hopen := advance_of_opens (opens_of_operator hsign) parts
      rw [advanceAll_append, ihleft, Option.bind_some, advanceAll_cons hopen]
      exact ihright parts

theorem advanceAll_namesTail {ts : List Token} {names : List String} (h : NamesTail ts names)
    (parts : List Part) : advanceAll (.namesTail :: parts) ts = some (.namesTail :: parts) := by
  induction h with
  | nil => rfl
  | cons hcomma hname rest ih =>
      simp only [advanceAll, hcomma, hname.1]
      exact ih

theorem advanceAll_names {ts : List Token} {names : List String × Location} (h : Names ts names)
    (parts : List Part) :
    advanceAll (.token .identifier :: .namesTail :: parts) ts = some (.namesTail :: parts) := by
  cases h with
  | mk hname rest =>
      simp only [advanceAll, hname.1]
      exact advanceAll_namesTail rest parts

/-- The tokens of a conditional statement up to its first branch. -/
theorem advanceAll_condition {keyword thenWord : Token} {ts : List Token} {condition : Expr}
    (hkeyword : keyword.kind = .ifWord) (hcondition : Expression (.binary .comparison) ts condition)
    (hthen : thenWord.kind = .thenWord) (us : List Token) (parts : List Part) :
    advanceAll (.block :: parts) (keyword :: (ts ++ thenWord :: us)) =
      advanceAll (.block :: .elsePart :: .token .endWord :: .token .semicolon :: .block :: parts) us := by
  have hopen : advance (.block :: parts) keyword.kind =
      some (.operand :: .operators :: .token .thenWord :: .block :: .elsePart :: .token .endWord ::
        .token .semicolon :: .block :: parts) := by
    rw [hkeyword]
    rfl
  rw [advanceAll_cons hopen, advanceAll_append, advanceAll_expression hcondition, Option.bind_some,
    advanceAll, hthen]
  rfl

mutual

theorem advanceAll_statement {ts : List Token} {stmt : Stmt} (h : Statement ts stmt)
    (parts : List Part) :
    ∃ left, advanceAll (.block :: parts) ts = some left ∧
      advance left .semicolon = some (.block :: parts) := by
  cases h with
  | @loop keyword label colon closing name ts body hkeyword hlabel hcolon hbody hclosing =>
      refine ⟨.token .semicolon :: .block :: parts, ?_, rfl⟩
      have hblock := advanceAll_block hbody (.token .repeatWord :: .token .semicolon :: .block :: parts)
      simp only [advanceAll, hkeyword, hlabel.1, hcolon]
      show advanceAll (.block :: .token .repeatWord :: .token .semicolon :: .block :: parts) _ = _
      rw [advanceAll_append, hblock, Option.bind_some]
      simp only [advanceAll, hclosing]
      rfl
  | leave hkeyword =>
      refine ⟨.target :: .token .semicolon :: .block :: parts, ?_, rfl⟩
      simp only [advanceAll, hkeyword]
      rfl
  | leaveNamed hkeyword htarget =>
      refine ⟨.token .semicolon :: .block :: parts, ?_, rfl⟩
      simp only [advanceAll, hkeyword, htarget.1]
      rfl
  | read hkeyword hnames | print hkeyword hnames =>
      refine ⟨.namesTail :: .token .semicolon :: .block :: parts, ?_, rfl⟩
      simp only [advanceAll, hkeyword]
      exact advanceAll_names hnames (.token .semicolon :: .block :: parts)
  | @cond keyword thenWord closing ts us condition branch hkeyword hcondition hthen hbranch hclosing =>
      refine ⟨.token .semicolon :: .block :: parts, ?_, rfl⟩
      rw [advanceAll_condition hkeyword hcondition hthen, advanceAll_append, advanceAll_block hbranch,
        Option.bind_some, advanceAll, hclosing]
      rfl
  | @condElse keyword thenWord elseWord closing ts us vs condition branch other hkeyword hcondition
      hthen hbranch helse hother hclosing =>
      refine ⟨.token .semicolon :: .block :: parts, ?_, rfl⟩
      have helse' : advance (.block :: .elsePart :: .token .endWord :: .token .semicolon :: .block :: parts)
          elseWord.kind = some (.block :: .token .endWord :: .token .semicolon :: .block :: parts) := by
        rw [helse]
        rfl
      rw [advanceAll_condition hkeyword hcondition hthen, advanceAll_append, advanceAll_block hbranch,
        Option.bind_some, advanceAll_cons helse', advanceAll_append, advanceAll_block hother,
        Option.bind_some, advanceAll, hclosing]
      rfl
  | assign hname hsign hvalue =>
      refine ⟨.operators :: .token .semicolon :: .block :: parts, ?_, rfl⟩
      simp only [advanceAll, hname.1, hsign]
      exact advanceAll_expression hvalue (.token .semicolon :: .block :: parts)

theorem advanceAll_block {ts : List Token} {stmts : List Stmt} (h : Block ts stmts)
    (parts : List Part) : advanceAll (.block :: parts) ts = some (.block :: parts) := by
  cases h with
  | nil => rfl
  | cons head hsemicolon tail =>
      obtain ⟨left, hhead, hleft⟩ := advanceAll_statement head parts
      rw [advanceAll_append, hhead, Option.bind_some, advanceAll, hsemicolon, hleft]
      exact advanceAll_block tail parts

end

theorem advanceAll_derives {ts : List Token} {program : Program} (h : Derives ts program) :
    advanceAll wholeText ts = some [] := by
  cases h with
  | mk hbody hclosing =>
      rw [wholeText, advanceAll_append, advanceAll_block hbody, Option.bind_some, advanceAll, hclosing]
      rfl

/-! ### Whatever is left over can be completed -/

/-- Operators with an operand behind each, whatever their tiers. -/
inductive Operations : List Token → Prop
  | nil : Operations []
  | cons {tier : Tier} {sign : Token} {op : BinaryOp} {rs ts : List Token} {right : Expr}
      (hsign : Operator tier sign.kind op) (hright : Expression .signed rs right)
      (rest : Operations ts) : Operations (sign :: (rs ++ ts))

/-- The tokens of a part. -/
def Part.Covers (ts : List Token) : Part → Prop
  | .token kind => ∃ token, ts = [token] ∧ token.kind = kind ∧ token.Spelled
  | .operand => ∃ e, Expression .signed ts e
  | .operators => Operations ts
  | .namesTail => ∃ names, NamesTail ts names
  | .target => ts = [] ∨ ∃ token name, ts = [token] ∧ token.IsIdentifier name
  | .block => ∃ stmts, Block ts stmts
  | .elsePart => ∃ branch, Parser.ElsePart ts branch

/-- The tokens of parts that come one after the other. -/
def Yields : List Part → List Token → Prop
  | [], ts => ts = []
  | part :: parts, ts => ∃ us vs, ts = us ++ vs ∧ part.Covers us ∧ Yields parts vs

theorem exists_of_yields_append {front back : List Part} {ts : List Token}
    (h : Yields (front ++ back) ts) :
    ∃ us vs, ts = us ++ vs ∧ Yields front us ∧ Yields back vs := by
  induction front generalizing ts with
  | nil => exact ⟨[], ts, rfl, rfl, h⟩
  | cons part front ih =>
      obtain ⟨us, _, rfl, hpart, hrest⟩ := h
      obtain ⟨vs, ws, rfl, hfront, hback⟩ := ih hrest
      exact ⟨us ++ vs, ws, (List.append_assoc us vs ws).symm, ⟨us, vs, rfl, hpart, hfront⟩, hback⟩

theorem covers_nil_of_isOptional {part : Part} (h : part.isOptional = true) : part.Covers [] := by
  cases part with
  | token | operand => cases h
  | operators => exact .nil
  | namesTail => exact ⟨[], .nil⟩
  | target => exact .inl rfl
  | block => exact ⟨[], .nil⟩
  | elsePart => exact ⟨none, .missing⟩

/-- What can follow the operands of a tier can follow its expressions, behind the last operand. -/
theorem exists_expression_of_operand {tier : Tier} {ts us : List Token} {e : Expr}
    (hoperand : ∀ {vs f}, Expression tier.operand vs f → ∃ g, Expression tier.operand (vs ++ us) g)
    (h : Expression (.binary tier) ts e) : ∃ g, Expression (.binary tier) (ts ++ us) g := by
  cases h with
  | operand hlast =>
      obtain ⟨g, hg⟩ := hoperand hlast
      exact ⟨g, .operand hg⟩
  | operation hleft hsign hlast =>
      obtain ⟨g, hg⟩ := hoperand hlast
      have hwhole := Expression.operation hleft hsign hg
      exact ⟨_, by simpa using hwhole⟩

/-- An expression goes on with any operator and an operand. -/
theorem exists_expression_of_operator {tier : Tier} {sign : Token} {op : BinaryOp}
    {ls rs : List Token} {left right : Expr} (hleft : Expression (.binary .comparison) ls left)
    (hsign : Operator tier sign.kind op) (hright : Expression .signed rs right) :
    ∃ e, Expression (.binary .comparison) (ls ++ sign :: rs) e := by
  cases tier with
  | comparison => exact ⟨_, .operation hleft hsign (.operand (.operand hright))⟩
  | sum =>
      refine exists_expression_of_operand (fun hsum => ?_) hleft
      exact ⟨_, .operation hsum hsign (.operand hright)⟩
  | product =>
      refine exists_expression_of_operand (fun hsum => ?_) hleft
      refine exists_expression_of_operand (fun hproduct => ?_) hsum
      exact ⟨_, .operation hproduct hsign hright⟩

theorem exists_expression_of_operations {ls ts : List Token} {left : Expr} (h : Operations ts)
    (hleft : Expression (.binary .comparison) ls left) :
    ∃ e, Expression (.binary .comparison) (ls ++ ts) e := by
  induction h generalizing ls left with
  | nil => exact ⟨left, by simpa using hleft⟩
  | cons hsign hright rest ih =>
      obtain ⟨_, hlonger⟩ := exists_expression_of_operator hleft hsign hright
      obtain ⟨e, he⟩ := ih hlonger
      exact ⟨e, by simpa using he⟩

theorem exists_expression {ts us : List Token} (hoperand : Part.operand.Covers ts)
    (hoperators : Part.operators.Covers us) :
    ∃ e, Expression (.binary .comparison) (ts ++ us) e := by
  obtain ⟨first, hfirst⟩ := hoperand
  exact exists_expression_of_operations hoperators (.operand (.operand (.operand hfirst)))

theorem operand_covers {token : Token} {opened : List Part} {ts : List Token}
    (hlegible : token.Legible) (h : Part.operand.opens token.kind = some opened)
    (hts : Yields opened ts) : Part.operand.Covers (token :: ts) := by
  generalize hkind : token.kind = kind at h
  cases kind <;> cases h
  case identifier =>
    obtain rfl := hts
    exact ⟨_, .unsigned (.name hkind)⟩
  case number =>
    obtain rfl := hts
    obtain ⟨value, hvalue⟩ := Option.isSome_iff_exists.mp (hlegible.2 hkind)
    exact ⟨_, .unsigned (.number hkind hvalue)⟩
  case leftParen =>
    obtain ⟨us, _, rfl, hoperand, vs, _, rfl, hoperators, _, _, rfl, ⟨closing, rfl, hclosing, -⟩, rfl⟩ :=
      hts
    obtain ⟨e, he⟩ := exists_expression hoperand hoperators
    exact ⟨e, .unsigned (by simpa using Expression.group hkind he hclosing)⟩
  case minus =>
    obtain ⟨_, _, rfl, ⟨e, he⟩, rfl⟩ := hts
    exact ⟨_, .negated hkind (by simpa using he)⟩

theorem operators_covers {token : Token} {opened : List Part} {ts : List Token}
    (h : Part.operators.opens token.kind = some opened) (hts : Yields opened ts) :
    Part.operators.Covers (token :: ts) := by
  obtain ⟨tier, op, hsign, rfl⟩ := operator_of_opens h
  obtain ⟨_, _, rfl, ⟨right, hright⟩, _, _, rfl, hrest, rfl⟩ := hts
  rw [List.append_nil]
  exact .cons hsign hright hrest

/-- A first statement, its semicolon and further statements. -/
theorem block_covers_of_statement {ts us : List Token} {stmt : Stmt} (h : Statement ts stmt)
    (hrest : Yields [.token .semicolon, .block] us) : Part.block.Covers (ts ++ us) := by
  obtain ⟨_, _, rfl, ⟨semicolon, rfl, hsemicolon, -⟩, _, _, rfl, ⟨stmts, hstmts⟩, rfl⟩ := hrest
  exact ⟨stmt :: stmts, by simpa using Block.cons h hsemicolon hstmts⟩

theorem exists_names {ts us : List Token} (hname : (Part.token .identifier).Covers ts)
    (htail : Part.namesTail.Covers us) : ∃ names location, Names (ts ++ us) (names, location) := by
  obtain ⟨token, rfl, hkind, hspelled⟩ := hname
  obtain ⟨names, hnames⟩ := htail
  obtain ⟨name, hname⟩ := Parser.isIdentifier_of_spelled hkind hspelled
  exact ⟨_, _, .mk hname hnames⟩

theorem block_covers {token : Token} {opened : List Part} {ts : List Token}
    (hspelled : token.Spelled) (h : Part.block.opens token.kind = some opened)
    (hts : Yields opened ts) : Part.block.Covers (token :: ts) := by
  generalize hkind : token.kind = kind at h
  cases kind <;> cases h
  case identifier =>
    obtain ⟨_, _, rfl, ⟨sign, rfl, hsign, -⟩, us, _, rfl, hoperand, vs, rest, rfl, hoperators, hrest⟩ := hts
    obtain ⟨name, hname⟩ := Parser.isIdentifier_of_spelled hkind hspelled
    obtain ⟨e, he⟩ := exists_expression hoperand hoperators
    simpa using block_covers_of_statement (.assign hname hsign he) hrest
  case loopWord =>
    obtain ⟨_, _, rfl, ⟨label, rfl, hlabel, hspelled⟩, _, _, rfl, ⟨colon, rfl, hcolon, -⟩, body, _, rfl,
      ⟨stmts, hbody⟩, _, rest, rfl, ⟨closing, rfl, hclosing, -⟩, hrest⟩ := hts
    obtain ⟨name, hname⟩ := Parser.isIdentifier_of_spelled hlabel hspelled
    simpa using block_covers_of_statement (.loop hkind hname hcolon hbody hclosing) hrest
  case breakWord =>
    obtain ⟨_, rest, rfl, rfl | ⟨target, name, rfl, hname⟩, hrest⟩ := hts
    · exact block_covers_of_statement (.leave hkind) hrest
    · exact block_covers_of_statement (.leaveNamed hkind hname) hrest
  case readWord =>
    obtain ⟨us, _, rfl, hname, vs, rest, rfl, htail, hrest⟩ := hts
    obtain ⟨names, location, hnames⟩ := exists_names hname htail
    simpa using block_covers_of_statement (.read hkind hnames) hrest
  case printWord =>
    obtain ⟨us, _, rfl, hname, vs, rest, rfl, htail, hrest⟩ := hts
    obtain ⟨names, location, hnames⟩ := exists_names hname htail
    simpa using block_covers_of_statement (.print hkind hnames) hrest
  case ifWord =>
    obtain ⟨us, _, rfl, hoperand, vs, _, rfl, hoperators, _, _, rfl, ⟨thenWord, rfl, hthen, -⟩, ws, _, rfl,
      ⟨branch, hbranch⟩, xs, _, rfl, ⟨other, hother⟩, _, rest, rfl, ⟨closing, rfl, hclosing, -⟩,
      hrest⟩ := hts
    obtain ⟨e, he⟩ := exists_expression hoperand hoperators
    have hstatement := Parser.statement_of_elsePart hkind he hthen hbranch hother hclosing
    simpa using block_covers_of_statement hstatement hrest

/-- A token that opens a part, and the tokens of what is left of it, are the tokens of the part. -/
theorem covers_of_opens {part : Part} {token : Token} {opened : List Part} {ts : List Token}
    (hlegible : token.Legible) (h : part.opens token.kind = some opened) (hts : Yields opened ts) :
    part.Covers (token :: ts) := by
  cases part with
  | token wanted =>
      simp only [Part.opens] at h
      split at h
      · next hkind =>
          obtain rfl := Option.some.inj h
          obtain rfl := hts
          exact ⟨token, rfl, hkind, hlegible.1⟩
      · cases h
  | operand => exact operand_covers hlegible h hts
  | operators => exact operators_covers h hts
  | namesTail =>
      generalize hkind : token.kind = kind at h
      cases kind <;> cases h
      obtain ⟨_, _, rfl, ⟨second, rfl, hsecond, hspelled⟩, _, _, rfl, ⟨names, hnames⟩, rfl⟩ := hts
      obtain ⟨name, hname⟩ := Parser.isIdentifier_of_spelled hsecond hspelled
      exact ⟨name :: names, .cons hkind hname (by simpa using hnames)⟩
  | target =>
      generalize hkind : token.kind = kind at h
      cases kind <;> cases h
      obtain rfl := hts
      obtain ⟨name, hname⟩ := Parser.isIdentifier_of_spelled hkind hlegible.1
      exact .inr ⟨token, name, rfl, hname⟩
  | block => exact block_covers hlegible.1 h hts
  | elsePart =>
      generalize hkind : token.kind = kind at h
      cases kind <;> cases h
      obtain ⟨_, _, rfl, ⟨branch, hbranch⟩, rfl⟩ := hts
      exact ⟨some branch, .present hkind (by simpa using hbranch)⟩

theorem yields_of_advance {parts left : List Part} {token : Token} {ts : List Token}
    (hlegible : token.Legible) (h : advance parts token.kind = some left) (hts : Yields left ts) :
    Yields parts (token :: ts) := by
  induction parts with
  | nil => cases h
  | cons part parts ih =>
      cases hopens : part.opens token.kind with
      | some opened =>
          rw [advance_of_opens hopens] at h
          obtain rfl := Option.some.inj h
          obtain ⟨us, vs, rfl, hus, hvs⟩ := exists_of_yields_append hts
          exact ⟨token :: us, vs, rfl, covers_of_opens hlegible hopens hus, hvs⟩
      | none =>
          by_cases hoptional : part.isOptional = true
          · rw [advance_of_missing hopens hoptional] at h
            exact ⟨[], token :: ts, rfl, covers_nil_of_isOptional hoptional, ih h⟩
          · simp only [advance, hopens, hoptional] at h
            cases h

theorem yields_of_advanceAll {parts left : List Part} {ts us : List Token}
    (hlegible : ∀ token ∈ ts, token.Legible) (h : advanceAll parts ts = some left)
    (hus : Yields left us) : Yields parts (ts ++ us) := by
  induction ts generalizing parts with
  | nil =>
      obtain rfl := Option.some.inj h
      exact hus
  | cons token ts ih =>
      obtain ⟨htoken, hrest⟩ := List.forall_mem_cons.mp hlegible
      obtain ⟨next, hnext, h⟩ := Option.bind_eq_some_iff.mp h
      exact yields_of_advance htoken hnext (ih hrest h)

/-- Some token of a kind. -/
def sample (kind : Kind) : Token where
  kind := kind
  text := if kind = .identifier then some "x" else if kind = .number then some "0" else none

theorem sample_spelled (kind : Kind) : (sample kind).Spelled := by
  cases kind <;> simp [Token.Spelled, sample, Kind.hasText]

/-- The fewest tokens that make up a part. -/
def Part.least : Part → List Token
  | .token kind => [sample kind]
  | .operand => [sample .identifier]
  | _ => []

theorem yields_least (parts : List Part) : Yields parts (parts.flatMap Part.least) := by
  induction parts with
  | nil => rfl
  | cons part parts ih =>
      refine ⟨part.least, _, rfl, ?_, ih⟩
      cases part with
      | token kind => exact ⟨sample kind, rfl, rfl, sample_spelled kind⟩
      | operand => exact ⟨_, .unsigned (.name rfl)⟩
      | operators | namesTail | target | block | elsePart => exact covers_nil_of_isOptional rfl

/-- Tokens that can be gone through are the front of a program. -/
theorem derives_least {ts : List Token} {left : List Part} (hlegible : ∀ token ∈ ts, token.Legible)
    (h : advanceAll wholeText ts = some left) :
    ∃ program, Derives (ts ++ left.flatMap Part.least) program := by
  obtain ⟨body, _, hsplit, ⟨stmts, hbody⟩, _, _, rfl, ⟨closing, rfl, hclosing, -⟩, rfl⟩ :=
    yields_of_advanceAll hlegible h (yields_least left)
  rw [hsplit, List.append_nil]
  exact ⟨_, .mk hbody hclosing⟩

/-! ### Blanks are never wanted -/

theorem opens_space {part : Part} {kind : Kind} {opened : List Part}
    (h : part.opens kind = some opened) : Part.token .space ∉ opened := by
  unfold Part.opens at h
  split at h
  · split at h <;> cases h
    simp
  all_goals cases h <;> simp

theorem advance_space {parts left : List Part} {kind : Kind} (hparts : Part.token .space ∉ parts)
    (h : advance parts kind = some left) : Part.token .space ∉ left := by
  induction parts with
  | nil => cases h
  | cons part parts ih =>
      rw [List.mem_cons, not_or] at hparts
      unfold advance at h
      split at h
      · next opened hopens =>
          obtain rfl := Option.some.inj h
          simp [opens_space hopens, hparts.2]
      · split at h
        · exact ih hparts.2 h
        · cases h

theorem advanceAll_space {parts left : List Part} {ts : List Token}
    (hparts : Part.token .space ∉ parts) (h : advanceAll parts ts = some left) :
    Part.token .space ∉ left := by
  induction ts generalizing parts with
  | nil =>
      obtain rfl := Option.some.inj h
      exact hparts
  | cons token ts ih =>
      obtain ⟨next, hnext, h⟩ := Option.bind_eq_some_iff.mp h
      exact ih (advance_space hparts hnext) h

end Grammar
end LoopScript
