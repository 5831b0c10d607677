import LoopScript.Proofs.Rejection

/-! Budgets that do not matter. All parsing is made of a few steps, and a budget only cuts a parsing
function short: as long as it is not used up, a larger one gives the same result. A budget is used up
only behind as many tokens, so one above the number of characters and tokens that are left never is.
The methods that the parser offers are listed once, each with the step that takes a budget. -/

namespace LoopScript

namespace Reader

/-- Skipping blanks up to a token makes the rest smaller, unless the text is at its end. -/
theorem size_lt_of_skipSpaces {reader after : Reader} {token : Token}
    (h : reader.skipSpaces = .ok token after) (htoken : token.kind ≠ .endOfText) :
    after.size < reader.size := by
  fun_induction skipSpaces reader with
  | case1 reader taken left hnext hspace ih =>
      have hsize := size_lt_of_next hnext (by simp [hspace])
      exact Nat.lt_trans (ih h) hsize
  | case2 reader taken left hnext hspace =>
      obtain ⟨rfl, rfl⟩ := EStateM.Result.ok.inj h
      exact size_lt_of_next hnext htoken
  | case3 => cases h

/-- There are no more tokens in front of the end than the size of the reader. -/
theorem length_le_size {reader : Reader} {ts : List Token} {rest : Stream' (Except Diagnostic Token)}
    (h : reader.upcoming = ts.map .ok ++ₛ rest) (hinside : Grammar.Inside ts) :
    ts.length ≤ reader.size := by
  induction ts generalizing reader with
  | nil => exact Nat.zero_le _
  | cons token ts ih =>
      obtain ⟨hend, hlater⟩ := Grammar.inside_cons.mp hinside
      obtain ⟨after, hskip, hafter⟩ := skipSpaces_of_upcoming h
      have hlength := ih hafter hlater
      have hsize := size_lt_of_skipSpaces hskip hend
      rw [List.length_cons]
      omega

end Reader

namespace Parser

open Grammar

variable {α β : Type}

/-! ### Steps and larger budgets -/

/-- A step, and the step it becomes with a budget that is at least as large. All parsing is made of
these steps. -/
inductive Truncates : {α : Type} → Parse α → Parse α → Prop
  | pure {α : Type} (value : α) : Truncates (pure value) (pure value)
  | fail {α : Type} (cause : Diagnostic.Cause) (location : Location) :
      Truncates (Parser.fail cause location : Parse α) (Parser.fail cause location)
  | significant : Truncates significant significant
  | peekKind : Truncates peekKind peekKind
  | detect (kinds : List Token.Kind) : Truncates (detect kinds) (detect kinds)
  | record (event : Event) : Truncates (record event) (record event)
  | target : Truncates target target
  | bind {α β : Type} {step whole : Parse α} {next later : α → Parse β} (hstep : Truncates step whole)
      (hnext : ∀ value, Truncates (next value) (later value)) :
      Truncates (step >>= next) (whole >>= later)
  | exhausted {α : Type} (whole : Parse α) : Truncates (throw .outOfFuel) whole

/-- A larger budget changes nothing, unless the smaller one is used up. -/
theorem Truncates.agree {step whole : Parse α} (h : Truncates step whole) (state : State) :
    (∃ left, step state = .error .outOfFuel left) ∨ whole state = step state := by
  induction h generalizing state with
  | pure | fail | significant | peekKind | detect | record | target => exact .inr rfl
  | exhausted whole => exact .inl ⟨state, rfl⟩
  | @bind _ _ step whole next later _ _ ihstep ihnext =>
      rcases ihstep state with ⟨left, hleft⟩ | hsame
      · exact .inl ⟨left, bind_of_error hleft⟩
      · cases hresult : step state with
        | error failure left =>
            rw [bind_of_error hresult, bind_of_error (hsame.trans hresult)]
            exact .inr rfl
        | ok value mid =>
            rw [bind_of_ok hresult, bind_of_ok (hsame.trans hresult)]
            exact ihnext value mid

theorem Truncates.map_some {step whole : Parse α} (h : Truncates step whole) :
    Truncates (some <$> step) (some <$> whole) := by
  rw [map_eq_pure_bind, map_eq_pure_bind]
  exact h.bind fun value => .pure (some value)

theorem truncates_expect (kind : Token.Kind) (wanted : Diagnostic.Wanted) :
    Truncates (expect kind wanted) (expect kind wanted) := by
  refine .bind .significant fun token => ?_
  by_cases hkind : token.kind = kind
  · rw [if_pos hkind]
    exact .pure token
  · rw [if_neg hkind]
    exact .fail _ _

/-! ### Expressions -/

theorem truncates_primary {inner whole : Parse Expr} (hinner : Truncates inner whole) :
    Truncates (primary inner) (primary whole) := by
  refine .bind .significant fun token => ?_
  generalize token.kind = kind
  cases kind
  case number =>
    dsimp only
    cases Number.Literal.value? (token.text.getD "") with
    | some value => exact .pure _
    | none => exact .fail _ _
  case identifier => exact .pure _
  case leftParen =>
    exact hinner.bind fun value => (truncates_expect _ _).bind fun _ => .pure value
  all_goals exact .fail _ _

theorem truncates_unary {operand whole : Parse Expr} (hoperand : Truncates operand whole)
    {fuel more : Nat} (hfuel : fuel ≤ more) : Truncates (unary operand fuel) (unary whole more) := by
  induction fuel generalizing more with
  | zero => exact .exhausted _
  | succ fuel ih =>
      obtain ⟨more, rfl⟩ := Nat.exists_eq_add_of_le' hfuel
      refine .bind .peekKind fun kind => ?_
      by_cases hminus : kind = .minus
      · rw [if_pos hminus, if_pos hminus]
        refine .bind .significant fun _ => ?_
        exact (ih (Nat.le_add_left fuel more)).bind fun value => .pure _
      · rw [if_neg hminus, if_neg hminus]
        exact hoperand

theorem truncates_operations (operator? : Token.Kind → Option BinaryOp) {operand whole : Parse Expr}
    (hoperand : Truncates operand whole) {fuel more : Nat} (hfuel : fuel ≤ more) (left : Expr) :
    Truncates (operations operator? operand fuel left) (operations operator? whole more left) := by
  induction fuel generalizing more left with
  | zero => exact .exhausted _
  | succ fuel ih =>
      obtain ⟨more, rfl⟩ := Nat.exists_eq_add_of_le' hfuel
      refine .bind .peekKind fun kind => ?_
      cases operator? kind with
      | none => exact .pure left
      | some op =>
          refine .bind .significant fun token => ?_
          exact hoperand.bind fun right => ih (Nat.le_add_left fuel more) _

theorem truncates_level (operator? : Token.Kind → Option BinaryOp) {operand whole : Parse Expr}
    (hoperand : Truncates operand whole) {fuel more : Nat} (hfuel : fuel ≤ more) :
    Truncates (level operator? operand fuel) (level operator? whole more) :=
  hoperand.bind fun left => truncates_operations operator? hoperand hfuel left

/-- The operands of every rank within a budget, the comparisons being the expressions themselves. -/
def operandWithin (fuel : Nat) (rank : Rank) : Parse Expr :=
  let operand := primary (expressionWithin fuel)
  let signed := unary operand (fuel + 1)
  let product := level (operatorOf? .product) signed (fuel + 1)
  let sum := level (operatorOf? .sum) product (fuel + 1)
  match rank with
  | .primary => operand
  | .signed => signed
  | .binary .product => product
  | .binary .sum => sum
  | .binary .comparison => level (operatorOf? .comparison) sum (fuel + 1)

theorem expressionWithin_succ (fuel : Nat) :
    expressionWithin (fuel + 1) = operandWithin fuel (.binary .comparison) := rfl

theorem truncates_operandWithin_of_expression {fuel more : Nat}
    (h : Truncates (expressionWithin fuel) (expressionWithin more)) (hfuel : fuel ≤ more) (rank : Rank) :
    Truncates (operandWithin fuel rank) (operandWithin more rank) := by
  have hsucc : fuel + 1 ≤ more + 1 := Nat.succ_le_succ hfuel
  have hprimary := truncates_primary h
  have hsigned := truncates_unary hprimary hsucc
  have hproduct := truncates_level (operatorOf? .product) hsigned hsucc
  have hsum := truncates_level (operatorOf? .sum) hproduct hsucc
  match rank with
  | .primary => exact hprimary
  | .signed => exact hsigned
  | .binary .product => exact hproduct
  | .binary .sum => exact hsum
  | .binary .comparison => exact truncates_level (operatorOf? .comparison) hsum hsucc

theorem truncates_expressionWithin {fuel more : Nat} (hfuel : fuel ≤ more) :
    Truncates (expressionWithin fuel) (expressionWithin more) := by
  induction fuel generalizing more with
  | zero => exact .exhausted _
  | succ fuel ih =>
      obtain ⟨more, rfl⟩ := Nat.exists_eq_add_of_le' hfuel
      have hle := Nat.le_of_succ_le_succ hfuel
      exact truncates_operandWithin_of_expression (ih hle) hle (.binary .comparison)

theorem truncates_operandWithin {fuel more : Nat} (hfuel : fuel ≤ more) (rank : Rank) :
    Truncates (operandWithin fuel rank) (operandWithin more rank) :=
  truncates_operandWithin_of_expression (truncates_expressionWithin hfuel) hfuel rank

/-! ### Lists of names -/

theorem truncates_namesTailWithin {fuel more : Nat} (hfuel : fuel ≤ more) :
    Truncates (namesTailWithin fuel) (namesTailWithin more) := by
  induction fuel generalizing more with
  | zero => exact .exhausted _
  | succ fuel ih =>
      obtain ⟨more, rfl⟩ := Nat.exists_eq_add_of_le' hfuel
      refine .bind (.detect [.comma, .identifier]) fun found => ?_
      cases found with
      | false => exact .pure []
      | true =>
          refine (truncates_expect .comma .comma).bind fun _ => ?_
          refine (truncates_expect .identifier .identifierAfterComma).bind fun token => ?_
          exact (ih (Nat.le_add_left fuel more)).bind fun rest => .pure _

theorem truncates_namesWithin {fuel more : Nat} (hfuel : fuel ≤ more) :
    Truncates (namesWithin fuel) (namesWithin more) :=
  (truncates_expect .identifier .identifier).bind fun _ =>
    (truncates_namesTailWithin hfuel).bind fun _ => .pure _

/-! ### Statements -/

theorem truncates_loopWith {block whole : Parse (List Stmt)} (hblock : Truncates block whole) :
    Truncates (loopWith block) (loopWith whole) := by
  refine (truncates_expect .loopWord .loopWord).bind fun keyword => ?_
  refine (truncates_expect .identifier .loopName).bind fun label => ?_
  refine (truncates_expect .colon .loopColon).bind fun _ => ?_
  refine hblock.bind fun body => ?_
  refine (truncates_expect .repeatWord .repeatWord).bind fun _ => ?_
  exact (Truncates.record _).bind fun _ => .pure _

theorem truncates_breakStmt : Truncates breakStmt breakStmt :=
  (truncates_expect .breakWord .breakWord).bind fun _ => Truncates.target.bind fun _ => .pure _

/-- READ and PRINT: a keyword and a list of names. -/
theorem truncates_listing (kind : Token.Kind) (wanted : Diagnostic.Wanted)
    (make : List String → Location → Stmt) {fuel more : Nat} (hfuel : fuel ≤ more) :
    Truncates
      (do
        let _ ← expect kind wanted
        let (names, location) ← namesWithin fuel
        return make names location)
      (do
        let _ ← expect kind wanted
        let (names, location) ← namesWithin more
        return make names location) :=
  (truncates_expect kind wanted).bind fun _ => (truncates_namesWithin hfuel).bind fun _ => .pure _

theorem truncates_elseWith {block whole : Parse (List Stmt)} (hblock : Truncates block whole) :
    Truncates (elseWith block) (elseWith whole) := by
  refine (Truncates.detect [.elseWord]).bind fun found => ?_
  cases found with
  | false => exact .pure none
  | true =>
      refine (truncates_expect .elseWord .elseWord).bind fun _ => ?_
      exact hblock.bind fun branch => .pure (some branch)

theorem truncates_ifWith {block whole : Parse (List Stmt)} (hblock : Truncates block whole)
    {fuel more : Nat} (hfuel : fuel ≤ more) : Truncates (ifWith fuel block) (ifWith more whole) := by
  refine (truncates_expect .ifWord .ifWord).bind fun _ => ?_
  refine (truncates_expressionWithin hfuel).bind fun condition => ?_
  refine (truncates_expect .thenWord .thenWord).bind fun _ => ?_
  refine hblock.bind fun thenBranch => ?_
  refine (truncates_elseWith hblock).bind fun elseBranch => ?_
  exact (truncates_expect .endWord .endWord).bind fun _ => .pure _

theorem truncates_assignWithin {fuel more : Nat} (hfuel : fuel ≤ more) :
    Truncates (assignWithin fuel) (assignWithin more) := by
  refine (truncates_expect .identifier .identifier).bind fun name => ?_
  refine (truncates_expect .assign .assignSign).bind fun _ => ?_
  exact (truncates_expressionWithin hfuel).bind fun value => .pure _

/-- A test for one kind, and what is done in either case. -/
theorem Truncates.choose {yes no yes' no' : Parse α} (kind : Token.Kind) (hyes : Truncates yes yes')
    (hno : Truncates no no') :
    Truncates (Parser.detect [kind] >>= fun found => if found = true then yes else no)
      (Parser.detect [kind] >>= fun found => if found = true then yes' else no') := by
  refine .bind (.detect [kind]) fun found => ?_
  cases found with
  | false => exact hno
  | true => exact hyes

theorem truncates_statementWith {block whole : Parse (List Stmt)} (hblock : Truncates block whole)
    {fuel more : Nat} (hfuel : fuel ≤ more) :
    Truncates (statementWith fuel block) (statementWith more whole) := by
  refine .choose .loopWord (truncates_loopWith hblock).map_some ?_
  refine .choose .breakWord truncates_breakStmt.map_some ?_
  refine .choose .readWord (truncates_listing .readWord .readWord .read hfuel).map_some ?_
  refine .choose .printWord (truncates_listing .printWord .printWord .print hfuel).map_some ?_
  refine .choose .ifWord (truncates_ifWith hblock hfuel).map_some ?_
  refine .choose .identifier (truncates_assignWithin hfuel).map_some ?_
  exact (Truncates.record _).bind fun _ => .pure none

theorem truncates_blockWithin {fuel more : Nat} (hfuel : fuel ≤ more) :
    Truncates (blockWithin fuel) (blockWithin more) := by
  induction fuel generalizing more with
  | zero => exact .exhausted _
  | succ fuel ih =>
      obtain ⟨more, rfl⟩ := Nat.exists_eq_add_of_le' hfuel
      have hle := Nat.le_of_succ_le_succ hfuel
      refine (truncates_statementWith (ih hle) hle).bind fun stmt? => ?_
      cases stmt? with
      | none => exact .pure []
      | some stmt =>
          refine (truncates_expect .semicolon .semicolon).bind fun _ => ?_
          exact (ih hle).bind fun rest => .pure (stmt :: rest)

def programWithin (fuel : Nat) : Parse Program := do
  let body ← blockWithin fuel
  let token ← significant
  if token.kind = .endOfText then return { body := body }
  fail (.missing .statement token.kind) token.location

theorem truncates_programWithin {fuel more : Nat} (hfuel : fuel ≤ more) :
    Truncates (programWithin fuel) (programWithin more) := by
  refine (truncates_blockWithin hfuel).bind fun body => .bind .significant fun token => ?_
  by_cases hend : token.kind = .endOfText
  · rw [if_pos hend]
    exact .pure _
  · rw [if_neg hend]
    exact .fail _ _

/-! ### Budgets that last -/

/-- A budget is used up only behind as many tokens, none of them the end token. -/
theorem exists_tokens_of_exhausted {n : Nat} {parts : List Part} {s : Stream' (Except Diagnostic Token)}
    (h : Fails n parts s .outOfFuel) :
    ∃ ts rest, s = ts.map .ok ++ₛ rest ∧ Inside ts ∧ n = ts.length := by
  generalize hfailure : Failure.outOfFuel = failure at h
  induction h with
  | exhausted => exact ⟨[], _, rfl, inside_nil, rfl⟩
  | lexical | rejected | dangling | illegible => cases hfailure
  | @step n _ _ _ _ token _ hs _ hend _ _ ih =>
      obtain ⟨ts, rest, hrest, hinside, hlength⟩ := ih hfailure
      cases n with
      | zero => exact ⟨[], _, rfl, inside_nil, rfl⟩
      | succ n =>
          refine ⟨token :: ts, rest, by rw [hs, hrest]; rfl, inside_cons.mpr ⟨hend, hinside⟩, ?_⟩
          rw [List.length_cons, ← hlength, Nat.add_sub_cancel]

/-- Where as many tokens are not left, a budget is not used up. -/
theorem Fails.lasts {n : Nat} {parts : List Part} {state : State} {failure : Failure}
    (h : Fails n parts state.upcoming failure) (hsize : state.reader.size < n) :
    failure ≠ .outOfFuel := by
  rintro rfl
  obtain ⟨ts, rest, hts, hinside, rfl⟩ := exists_tokens_of_exhausted h
  exact absurd (Reader.length_le_size hts hinside) (Nat.not_le.mpr hsize)

/-- A step that ends, with a value or with a report. -/
def Ends (result : EStateM.Result Failure State α) : Prop := ∀ left, result ≠ .error .outOfFuel left

theorem Follows.ends {fuel : Nat} {before : List Part} {after : α → List Part} {state : State}
    {result : EStateM.Result Failure State α} (h : Follows fuel before state.upcoming after result)
    (hsize : state.reader.size < fuel) : Ends result := by
  rintro left rfl
  exact Fails.lasts h hsize rfl

theorem Tracks.ends {fuel : Nat} {before : List Part} {after : α → List Part} {step : Parse α}
    (h : Tracks fuel before after step) {state : State} (hsize : state.reader.size < fuel) :
    Ends (step state) := (h state).ends hsize

theorem Ends.bind {step : Parse α} {next : α → Parse β} {state : State} (hstep : Ends (step state))
    (hnext : ∀ value mid, step state = .ok value mid → Ends (next value mid)) :
    Ends ((step >>= next) state) := by
  cases hresult : step state with
  | ok value mid =>
      rw [bind_of_ok hresult]
      exact hnext value mid hresult
  | error failure mid =>
      rw [bind_of_error hresult]
      rintro left h
      obtain ⟨rfl, -⟩ := EStateM.Result.error.inj h
      exact hstep mid hresult

theorem pure_ends (value : α) (state : State) : Ends ((pure value : Parse α) state) := by
  rintro left ⟨⟩

theorem fail_ends (cause : Diagnostic.Cause) (location : Location) (state : State) :
    Ends ((fail cause location : Parse α) state) := by
  rintro left ⟨⟩

theorem significant_ends (state : State) : Ends (significant state) := by
  intro left h
  unfold significant reading at h
  split at h <;> cases h

theorem expect_ends (kind : Token.Kind) (wanted : Diagnostic.Wanted) (state : State) :
    Ends (expect kind wanted state) := by
  refine (significant_ends state).bind fun token mid _ => ?_
  split
  · exact pure_ends token mid
  · exact fail_ends _ _ mid

theorem peeking_ends (scan : EStateM Diagnostic Lookahead α) (state : State) :
    Ends (peeking scan state) := by
  intro left h
  unfold peeking at h
  split at h <;> cases h

theorem detect_ends (kinds : List Token.Kind) (state : State) : Ends (detect kinds state) := by
  refine (peeking_ends _ state).bind fun verdict mid _ => ?_
  rintro left ⟨⟩

/-- An operand without signs takes an opening parenthesis before it needs its budget. -/
theorem primary_ends {fuel : Nat} {state : State} (hsize : state.reader.size ≤ fuel) :
    Ends (primary (expressionWithin fuel) state) := by
  refine (significant_ends state).bind fun token mid htoken => ?_
  generalize hkind : token.kind = kind
  split
  · dsimp only
    cases Number.Literal.value? (token.text.getD "") with
    | some value => exact pure_ends _ mid
    | none => exact fail_ends _ _ mid
  · exact pure_ends _ mid
  · have hless := Reader.size_lt_of_skipSpaces (skipSpaces_of_significant htoken) (by simp [hkind])
    refine ((expressionWithin_tracks fuel []).ends (by omega)).bind fun value left _ => ?_
    exact (expect_ends _ _ left).bind fun _ last _ => pure_ends value last
  · exact fail_ends _ _ mid

theorem operandWithin_ends {fuel : Nat} {state : State} (hsize : state.reader.size ≤ fuel) (rank : Rank) :
    Ends (operandWithin fuel rank state) := by
  have hless : state.reader.size < fuel + 1 := Nat.lt_succ_of_le hsize
  have hsigned : Tracks (fuel + 1) [.operand, .operators] (fun _ => [.operators]) _ :=
    unary_tracks (primary_follows (expressionWithin_tracks fuel)) (fuel + 1) le_rfl [.operators]
  have hproduct := level_tracks .product [] hsigned
  have hsum := level_tracks .sum [] hproduct
  match rank with
  | .primary => exact primary_ends hsize
  | .signed => exact hsigned.ends hless
  | .binary .product => exact hproduct.ends hless
  | .binary .sum => exact hsum.ends hless
  | .binary .comparison =>
      rw [← expressionWithin_succ]
      exact (expressionWithin_tracks (fuel + 1) []).ends hless

theorem programWithin_ends {fuel : Nat} {state : State} (hsize : state.reader.size < fuel) :
    Ends (programWithin fuel state) := by
  refine ((blockWithin_tracks fuel []).ends hsize).bind fun body mid _ => ?_
  refine (significant_ends mid).bind fun token last _ => ?_
  split
  · exact pure_ends _ last
  · exact fail_ends _ _ last

/-! ### The methods of the parser -/

inductive Test where
  | loopStmt | breakStmt | readStmt | printStmt | ifStmt | assignStmt | namesTail
deriving DecidableEq

def Test.kinds : Test → List Token.Kind
  | loopStmt => [.loopWord]
  | breakStmt => [.breakWord]
  | readStmt => [.readWord]
  | printStmt => [.printWord]
  | ifStmt => [.ifWord]
  | assignStmt => [.identifier]
  | namesTail => [.comma, .identifier]

def Test.run : Test → Parse Bool
  | loopStmt => detectLoop
  | breakStmt => detectBreak
  | readStmt => detectRead
  | printStmt => detectPrint
  | ifStmt => detectIf
  | assignStmt => detectAssign
  | namesTail => detectNamesTail

theorem Test.run_eq (test : Test) : test.run = detect test.kinds := by cases test <;> rfl

/-- Whatever the parser can be asked for, by the type of the answer. -/
inductive Method : Type → Type
  | test (test : Test) : Method Bool
  | program : Method Program
  | block : Method (List Stmt)
  | statement : Method (Option Stmt)
  | loopStmt : Method Stmt
  | breakStmt : Method Stmt
  | target : Method (Option String)
  | readStmt : Method Stmt
  | printStmt : Method Stmt
  | names : Method (List String × Location)
  | namesTail : Method (List String)
  | ifStmt : Method Stmt
  | assignStmt : Method Stmt
  | expression : Method Expr
  | operand (rank : Rank) : Method Expr

def Method.within {α : Type} (fuel : Nat) : Method α → Parse α
  | .test which => which.run
  | program => programWithin fuel
  | block => blockWithin fuel
  | statement => statementWith fuel (blockWithin fuel)
  | loopStmt => loopWith (blockWithin fuel)
  | breakStmt => Parser.breakStmt
  | target => Parser.target
  | readStmt => readWithin fuel
  | printStmt => printWithin fuel
  | names => namesWithin fuel
  | namesTail => namesTailWithin fuel
  | ifStmt => ifWith fuel (blockWithin fuel)
  | assignStmt => assignWithin fuel
  | expression => expressionWithin fuel
  | operand rank => operandWithin fuel rank

def Method.run {α : Type} : Method α → Parse α
  | .test which => which.run
  | program => Parser.program
  | block => Parser.block
  | statement => withFuel fun fuel => statementWith fuel (blockWithin fuel)
  | loopStmt => Parser.loopStmt
  | breakStmt => Parser.breakStmt
  | target => Parser.target
  | readStmt => Parser.readStmt
  | printStmt => Parser.printStmt
  | names => Parser.names
  | namesTail => Parser.namesTail
  | ifStmt => Parser.ifStmt
  | assignStmt => Parser.assignStmt
  | expression => Parser.expression
  | operand rank => withFuel fun fuel => operandWithin fuel rank

/-- The budget of a method is one more than the size of the reader. -/
theorem Method.run_eq {α : Type} (method : Method α) (state : State) :
    method.run state = method.within (state.reader.size + 1) state := by
  cases method <;> rfl

theorem Method.truncates {α : Type} (method : Method α) {fuel more : Nat} (hfuel : fuel ≤ more) :
    Truncates (method.within fuel) (method.within more) := by
  cases method with
  | test which =>
      rw [within, within, which.run_eq]
      exact .detect _
  | program => exact truncates_programWithin hfuel
  | block => exact truncates_blockWithin hfuel
  | statement => exact truncates_statementWith (truncates_blockWithin hfuel) hfuel
  | loopStmt => exact truncates_loopWith (truncates_blockWithin hfuel)
  | breakStmt => exact truncates_breakStmt
  | target => exact .target
  | readStmt => exact truncates_listing .readWord .readWord .read hfuel
  | printStmt => exact truncates_listing .printWord .printWord .print hfuel
  | names => exact truncates_namesWithin hfuel
  | namesTail => exact truncates_namesTailWithin hfuel
  | ifStmt => exact truncates_ifWith (truncates_blockWithin hfuel) hfuel
  | assignStmt => exact truncates_assignWithin hfuel
  | expression => exact truncates_expressionWithin hfuel
  | operand rank => exact truncates_operandWithin hfuel rank

/-- A budget above the size of the reader is never used up. -/
theorem Method.ends_within {α : Type} (method : Method α) {fuel : Nat} {state : State}
    (hsize : state.reader.size < fuel) : Ends (method.within fuel state) := by
  have hblock : ∀ parts, Tracks fuel (.block :: parts) (fun _ => parts) (blockWithin fuel) :=
    blockWithin_tracks fuel
  have hmore : state.reader.size < fuel + 1 := Nat.lt_succ_of_lt hsize
  cases method with
  | test which =>
      rw [within, which.run_eq]
      exact detect_ends which.kinds state
  | program => exact programWithin_ends hsize
  | block => exact (hblock []).ends hsize
  | statement => exact (statementWith_tracks hblock []).ends hmore
  | loopStmt => exact (loopWith_tracks hblock []).ends hmore
  | breakStmt => exact (breakStmt_tracks fuel []).ends hmore
  | target => exact (target_tracks fuel []).ends hsize
  | readStmt => exact (listing_tracks .readWord (by decide) .read fuel []).ends hmore
  | printStmt => exact (listing_tracks .printWord (by decide) .print fuel []).ends hmore
  | names => exact (namesWithin_tracks fuel []).ends hmore
  | namesTail => exact (namesTailWithin_tracks fuel []).ends hsize
  | ifStmt => exact (ifWith_tracks hblock []).ends hmore
  | assignStmt => exact (assignWithin_tracks fuel []).ends hmore
  | expression => exact (expressionWithin_tracks fuel []).ends hsize
  | operand rank => exact operandWithin_ends (Nat.le_of_lt hsize) rank

theorem Method.ends {α : Type} (method : Method α) (state : State) : Ends (method.run state) := by
  rw [method.run_eq]
  exact method.ends_within (Nat.lt_succ_self state.reader.size)

/-- Every budget above the size of the reader gives the same. -/
theorem Method.within_eq_run {α : Type} (method : Method α) {fuel : Nat} {state : State}
    (hsize : state.reader.size < fuel) : method.within fuel state = method.run state := by
  rw [method.run_eq]
  rcases (method.truncates hsize).agree state with ⟨left, hleft⟩ | hsame
  · exact absurd hleft (method.ends_within (Nat.lt_succ_self state.reader.size) left)
  · exact hsame

end Parser
end LoopScript
