import LoopScript.Proofs.Relocation
import LoopScript.Proofs.Spelling
import LoopScript.Proofs.Tracking

/-! Parsing two readers whose tokens are alike. The parser sees of a reader only the tokens that count,
one after the other, and of a token only its kind and its characters; the place of a token is put into
trees and reports and never looked at. So every parsing step, run on two readers whose streams differ
in places only, gives values that differ in places only and leaves streams that do so again, or it
fails with reports that differ in places only. The two runs may have different budgets; a run that has
used up its budget is compared with nothing. -/

namespace LoopScript

open Stmt (relocateBlock relocateBranch)

/-- No place in particular, instead of a place. -/
def Location.erase (_ : Location) : Location := .unknown

/-- Streams of tokens that are alike but for their places. -/
def Alike (s s' : Stream' (Except Diagnostic Token)) : Prop :=
  ∀ n, ∃ token token', s.get n = .ok token ∧ s'.get n = .ok token' ∧ token.shape = token'.shape

theorem Alike.exists_heads {s s' : Stream' (Except Diagnostic Token)} (h : Alike s s') :
    ∃ token token' rest rest', s = Stream'.cons (.ok token) rest ∧
      s' = Stream'.cons (.ok token') rest' ∧ token.shape = token'.shape ∧ Alike rest rest' := by
  obtain ⟨token, token', hhead, hhead', hshape⟩ := h 0
  refine ⟨token, token', s.tail, s'.tail, ?_, ?_, hshape, fun n => h (n + 1)⟩
  · rw [← hhead]
    exact (Stream'.eta s).symm
  · rw [← hhead']
    exact (Stream'.eta s').symm

theorem alike_cons {token token' : Token} {rest rest' : Stream' (Except Diagnostic Token)}
    (hshape : token.shape = token'.shape) (hrest : Alike rest rest') :
    Alike (Stream'.cons (.ok token) rest) (Stream'.cons (.ok token') rest') := by
  intro n
  cases n with
  | zero => exact ⟨token, token', rfl, rfl, hshape⟩
  | succ n => exact hrest n

namespace Parser

variable {α β : Type}

/-- Two results that come to the same: values that are related and streams that are alike, or reports
that differ in places only. -/
inductive Agree (same : α → α → Prop) :
    EStateM.Result Failure State α → EStateM.Result Failure State α → Prop
  | ok {value value' : α} {after after' : State} (hvalue : same value value')
      (hafter : Alike after.upcoming after'.upcoming) : Agree same (.ok value after) (.ok value' after')
  | report {report report' : Diagnostic} {after after' : State}
      (hreport : report.relocate Location.erase = report'.relocate Location.erase) :
      Agree same (.error (.report report) after) (.error (.report report') after')
  | exhaustedLeft {after : State} {result : EStateM.Result Failure State α} :
      Agree same (.error .outOfFuel after) result
  | exhaustedRight {after : State} {result : EStateM.Result Failure State α} :
      Agree same result (.error .outOfFuel after)

/-- Results that agree, when neither budget is used up. -/
theorem Agree.cases {same : α → α → Prop} {result result' : EStateM.Result Failure State α}
    (h : Agree same result result') (hfuel : ∀ after, result ≠ .error .outOfFuel after)
    (hfuel' : ∀ after, result' ≠ .error .outOfFuel after) :
    (∃ value value' after after', result = .ok value after ∧ result' = .ok value' after' ∧
      same value value') ∨
    ∃ report report' after after', result = .error (.report report) after ∧
      result' = .error (.report report') after' ∧
      report.relocate Location.erase = report'.relocate Location.erase := by
  cases h with
  | ok hvalue _ => exact .inl ⟨_, _, _, _, rfl, rfl, hvalue⟩
  | report hreport => exact .inr ⟨_, _, _, _, rfl, rfl, hreport⟩
  | exhaustedLeft => exact absurd rfl (hfuel _)
  | exhaustedRight => exact absurd rfl (hfuel' _)

/-- Two steps that do the same on streams that are alike. -/
def Similar (same : α → α → Prop) (step step' : Parse α) : Prop :=
  ∀ ⦃state state' : State⦄, Alike state.upcoming state'.upcoming →
    Agree same (step state) (step' state')

/-! ### Steps made of steps -/

theorem similar_pure {same : α → α → Prop} {value value' : α} (h : same value value') :
    Similar same (pure value) (pure value') := fun _ _ halike => .ok h halike

theorem Similar.bind {same : α → α → Prop} {same' : β → β → Prop} {step step' : Parse α}
    {next next' : α → Parse β} (hstep : Similar same step step')
    (hnext : ∀ value value', same value value' → Similar same' (next value) (next' value')) :
    Similar same' (step >>= next) (step' >>= next') := by
  intro state state' halike
  have hagree := hstep halike
  cases hresult : step state with
  | ok value after =>
      cases hresult' : step' state' with
      | ok value' after' =>
          rw [hresult, hresult'] at hagree
          rw [bind_of_ok hresult, bind_of_ok hresult']
          cases hagree with
          | ok hvalue hafter => exact hnext value value' hvalue hafter
      | error failure' after' =>
          rw [hresult, hresult'] at hagree
          rw [bind_of_error hresult']
          cases hagree with
          | exhaustedRight => exact .exhaustedRight
  | error failure after =>
      rw [hresult] at hagree
      rw [bind_of_error hresult]
      cases hresult' : step' state' with
      | ok value' after' =>
          rw [hresult'] at hagree
          cases hagree with
          | exhaustedLeft => exact .exhaustedLeft
      | error failure' after' =>
          rw [hresult'] at hagree
          rw [bind_of_error hresult']
          cases hagree with
          | report hreport => exact .report hreport
          | exhaustedLeft => exact .exhaustedLeft
          | exhaustedRight => exact .exhaustedRight

theorem similar_fail (same : α → α → Prop) (cause : Diagnostic.Cause) (location location' : Location) :
    Similar same (fail cause location) (fail cause location') :=
  fun _ _ _ => .report rfl

theorem similar_record (event event' : Event) :
    Similar (fun _ _ => True) (record event) (record event') :=
  fun _ _ halike => .ok trivial halike

theorem Similar.map_some {same : α → α → Prop} {same' : Option α → Option α → Prop}
    {step step' : Parse α} (h : Similar same step step')
    (hsome : ∀ value value', same value value' → same' (some value) (some value')) :
    Similar same' (some <$> step) (some <$> step') := by
  have hmap : ∀ step : Parse α, some <$> step = step >>= fun value => pure (some value) :=
    fun step => map_eq_pure_bind some step
  rw [hmap, hmap]
  exact h.bind fun value value' hvalue => similar_pure (hsome value value' hvalue)

/-! ### Steps that take or show tokens -/

/-- Tokens of one kind and with the same characters. -/
def SameShape (token token' : Token) : Prop := token.shape = token'.shape

theorem SameShape.kind {token token' : Token} (h : SameShape token token') : token.kind = token'.kind :=
  congrArg Prod.fst h

theorem SameShape.text {token token' : Token} (h : SameShape token token') : token.text = token'.text :=
  congrArg Prod.snd h

theorem similar_significant : Similar SameShape significant significant := by
  intro state state' halike
  obtain ⟨token, token', rest, rest', hstate, hstate', hshape, hrest⟩ := halike.exists_heads
  obtain ⟨after, hafter, rfl⟩ := significant_of_upcoming hstate
  obtain ⟨after', hafter', rfl⟩ := significant_of_upcoming hstate'
  rw [hafter, hafter']
  exact .ok hshape hrest

theorem similar_peekKind : Similar (· = ·) peekKind peekKind := by
  intro state state' halike
  obtain ⟨token, token', rest, rest', hstate, hstate', hshape, -⟩ := halike.exists_heads
  obtain ⟨after, hafter, hsame⟩ := peekKind_of_upcoming hstate
  obtain ⟨after', hafter', hsame'⟩ := peekKind_of_upcoming hstate'
  rw [hafter, hafter']
  refine .ok (SameShape.kind hshape) ?_
  rwa [hsame, hsame']

theorem see_of_alike (kinds : List Token.Kind) {look look' : Lookahead}
    (h : Alike look.reader.upcoming look'.reader.upcoming) :
    ∃ verdict after verdict' after', Lookahead.see kinds look = .ok verdict after ∧
      Lookahead.see kinds look' = .ok verdict' after' ∧ verdict.isMatch = verdict'.isMatch := by
  induction kinds generalizing look look' with
  | nil => exact ⟨_, _, _, _, rfl, rfl, rfl⟩
  | cons kind kinds ih =>
      obtain ⟨token, token', rest, rest', hlook, hlook', hshape, hrest⟩ := h.exists_heads
      have hsame : token.kind = token'.kind := SameShape.kind hshape
      by_cases hkind : token.kind = kind
      · obtain ⟨mid, hmid, rfl⟩ := Lookahead.see_cons_of_eq kinds hlook hkind
        obtain ⟨mid', hmid', rfl⟩ := Lookahead.see_cons_of_eq kinds hlook' (hsame.symm.trans hkind)
        rw [hmid, hmid']
        exact ih hrest
      · obtain ⟨mid, hmid⟩ := Lookahead.see_cons_of_ne kinds hlook hkind
        obtain ⟨mid', hmid'⟩ := Lookahead.see_cons_of_ne kinds hlook' (hsame ▸ hkind)
        exact ⟨_, _, _, _, hmid, hmid', rfl⟩

theorem similar_detect (kinds : List Token.Kind) : Similar (· = ·) (detect kinds) (detect kinds) := by
  intro state state' halike
  have hopen : Alike (Lookahead.ofReader state.reader).reader.upcoming
    (Lookahead.ofReader state'.reader).reader.upcoming := halike
  obtain ⟨verdict, look, verdict', look', hsee, hsee', hmatch⟩ := see_of_alike kinds hopen
  obtain ⟨after, hafter, hsame⟩ := detect_of_see hsee
  obtain ⟨after', hafter', hsame'⟩ := detect_of_see hsee'
  rw [hafter, hafter']
  refine .ok hmatch ?_
  rwa [hsame, hsame']

theorem similar_expect (kind : Token.Kind) (wanted : Diagnostic.Wanted) :
    Similar SameShape (expect kind wanted) (expect kind wanted) := by
  refine similar_significant.bind fun token token' hshape => ?_
  rw [← hshape.kind]
  by_cases hkind : token.kind = kind
  · rw [if_pos hkind, if_pos hkind]
    exact similar_pure hshape
  · rw [if_neg hkind, if_neg hkind]
    exact similar_fail SameShape _ _ _

theorem similar_target : Similar (· = ·) target target := by
  intro state state' halike
  obtain ⟨token, token', rest, rest', hstate, hstate', hshape, hrest⟩ := halike.exists_heads
  have hsame : token.kind = token'.kind := SameShape.kind hshape
  by_cases hname : token.kind = .identifier
  · obtain ⟨after, hafter, rfl⟩ := target_of_identifier hname hstate
    obtain ⟨after', hafter', rfl⟩ := target_of_identifier (hsame.symm.trans hname) hstate'
    rw [hafter, hafter']
    exact .ok (SameShape.text hshape) hrest
  · obtain ⟨after, hafter, hback⟩ := target_of_other hname hstate
    obtain ⟨after', hafter', hback'⟩ := target_of_other (hsame ▸ hname) hstate'
    rw [hafter, hafter']
    refine .ok rfl ?_
    rwa [hback, hback']

/-! ### Expressions -/

/-- Expressions that differ in places only. -/
def SameExpr (e e' : Expr) : Prop := e.relocate Location.erase = e'.relocate Location.erase

theorem similar_primary {inner inner' : Parse Expr} (hinner : Similar SameExpr inner inner') :
    Similar SameExpr (primary inner) (primary inner') := by
  refine similar_significant.bind fun token token' hshape => ?_
  rw [← hshape.kind, ← hshape.text]
  generalize token.kind = kind
  cases kind
  case number =>
    dsimp only
    cases Number.Literal.value? (token.text.getD "") with
    | some value => exact similar_pure rfl
    | none => exact similar_fail SameExpr _ _ _
  case identifier => exact similar_pure rfl
  case leftParen =>
    refine hinner.bind fun value value' hvalue => ?_
    exact (similar_expect .rightParen .rightParen).bind fun _ _ _ => similar_pure hvalue
  all_goals exact similar_fail SameExpr _ _ _

theorem similar_unary {operand operand' : Parse Expr} (hoperand : Similar SameExpr operand operand')
    (fuel fuel' : Nat) : Similar SameExpr (unary operand fuel) (unary operand' fuel') := by
  induction fuel generalizing fuel' with
  | zero => exact fun _ _ _ => .exhaustedLeft
  | succ fuel ih =>
      cases fuel' with
      | zero => exact fun _ _ _ => .exhaustedRight
      | succ fuel' =>
          refine similar_peekKind.bind fun kind kind' hkind => ?_
          subst hkind
          by_cases hminus : kind = .minus
          · rw [if_pos hminus, if_pos hminus]
            refine similar_significant.bind fun _ _ _ => ?_
            exact (ih fuel').bind fun value value' hvalue => similar_pure (congrArg Expr.negate hvalue)
          · rw [if_neg hminus, if_neg hminus]
            exact hoperand

theorem similar_operations (operator? : Token.Kind → Option BinaryOp) {operand operand' : Parse Expr}
    (hoperand : Similar SameExpr operand operand') (fuel fuel' : Nat) {left left' : Expr}
    (hleft : SameExpr left left') :
    Similar SameExpr (operations operator? operand fuel left)
      (operations operator? operand' fuel' left') := by
  induction fuel generalizing fuel' left left' with
  | zero => exact fun _ _ _ => .exhaustedLeft
  | succ fuel ih =>
      cases fuel' with
      | zero => exact fun _ _ _ => .exhaustedRight
      | succ fuel' =>
          refine similar_peekKind.bind fun kind kind' hkind => ?_
          subst hkind
          cases operator? kind with
          | none => exact similar_pure hleft
          | some op =>
              refine similar_significant.bind fun token token' _ => ?_
              refine hoperand.bind fun right right' hright => ih fuel' ?_
              rw [SameExpr] at hleft hright ⊢
              rw [Expr.relocate, Expr.relocate, hleft, hright]
              rfl

theorem similar_level (operator? : Token.Kind → Option BinaryOp) {operand operand' : Parse Expr}
    (hoperand : Similar SameExpr operand operand') (fuel fuel' : Nat) :
    Similar SameExpr (level operator? operand fuel) (level operator? operand' fuel') :=
  hoperand.bind fun _ _ hleft => similar_operations operator? hoperand fuel fuel' hleft

theorem similar_expressionWithin (fuel fuel' : Nat) :
    Similar SameExpr (expressionWithin fuel) (expressionWithin fuel') := by
  induction fuel generalizing fuel' with
  | zero => exact fun _ _ _ => .exhaustedLeft
  | succ fuel ih =>
      cases fuel' with
      | zero => exact fun _ _ _ => .exhaustedRight
      | succ fuel' =>
          have hsigned := similar_unary (similar_primary (ih fuel')) (fuel + 1) (fuel' + 1)
          have hproduct := similar_level BinaryOp.multiplicative? hsigned (fuel + 1) (fuel' + 1)
          have hsum := similar_level BinaryOp.additive? hproduct (fuel + 1) (fuel' + 1)
          exact similar_level BinaryOp.comparison? hsum (fuel + 1) (fuel' + 1)

/-! ### Lists of names -/

theorem similar_namesTailWithin (fuel fuel' : Nat) :
    Similar (· = ·) (namesTailWithin fuel) (namesTailWithin fuel') := by
  induction fuel generalizing fuel' with
  | zero => exact fun _ _ _ => .exhaustedLeft
  | succ fuel ih =>
      cases fuel' with
      | zero => exact fun _ _ _ => .exhaustedRight
      | succ fuel' =>
          refine (similar_detect [.comma, .identifier]).bind fun found found' hfound => ?_
          subst hfound
          cases found with
          | false => exact similar_pure rfl
          | true =>
              refine (similar_expect .comma .comma).bind fun _ _ _ => ?_
              refine (similar_expect .identifier .identifierAfterComma).bind fun token token' hshape => ?_
              refine (ih fuel').bind fun names names' hnames => similar_pure ?_
              rw [hshape.text, hnames]

theorem similar_namesWithin (fuel fuel' : Nat) :
    Similar (fun names names' => names.1 = names'.1) (namesWithin fuel) (namesWithin fuel') := by
  refine (similar_expect .identifier .identifier).bind fun token token' hshape => ?_
  refine (similar_namesTailWithin fuel fuel').bind fun names names' hnames => similar_pure ?_
  rw [hshape.text, hnames]

/-! ### Statements -/

def SameStmt (stmt stmt' : Stmt) : Prop := stmt.relocate Location.erase = stmt'.relocate Location.erase

def SameBlock (stmts stmts' : List Stmt) : Prop :=
  relocateBlock Location.erase stmts = relocateBlock Location.erase stmts'

def SameBranch (branch branch' : Option (List Stmt)) : Prop :=
  relocateBranch Location.erase branch = relocateBranch Location.erase branch'

theorem similar_loopWith {block block' : Parse (List Stmt)} (hblock : Similar SameBlock block block') :
    Similar SameStmt (loopWith block) (loopWith block') := by
  refine (similar_expect .loopWord .loopWord).bind fun _ _ _ => ?_
  refine (similar_expect .identifier .loopName).bind fun label label' hlabel => ?_
  refine (similar_expect .colon .loopColon).bind fun _ _ _ => ?_
  refine hblock.bind fun body body' hbody => ?_
  refine (similar_expect .repeatWord .repeatWord).bind fun _ _ _ => ?_
  refine (similar_record _ _).bind fun _ _ _ => similar_pure ?_
  rw [SameStmt, Stmt.relocate, Stmt.relocate, hlabel.text, hbody]
  rfl

theorem similar_breakStmt : Similar SameStmt breakStmt breakStmt := by
  refine (similar_expect .breakWord .breakWord).bind fun _ _ _ => ?_
  refine similar_target.bind fun target target' htarget => similar_pure ?_
  rw [SameStmt, Stmt.relocate, Stmt.relocate, htarget]
  rfl

/-- READ and PRINT: a keyword and a list of names. -/
theorem similar_listing (kind : Token.Kind) (wanted : Diagnostic.Wanted)
    (make : List String → Location → Stmt)
    (hmake : ∀ names location location', SameStmt (make names location) (make names location'))
    (fuel fuel' : Nat) :
    Similar SameStmt
      (do
        let _ ← expect kind wanted
        let (names, location) ← namesWithin fuel
        return make names location)
      (do
        let _ ← expect kind wanted
        let (names, location) ← namesWithin fuel'
        return make names location) := by
  refine (similar_expect kind wanted).bind fun _ _ _ => ?_
  refine (similar_namesWithin fuel fuel').bind fun names names' hnames => similar_pure ?_
  rw [hnames]
  exact hmake _ _ _

theorem similar_elseWith {block block' : Parse (List Stmt)} (hblock : Similar SameBlock block block') :
    Similar SameBranch (elseWith block) (elseWith block') := by
  refine (similar_detect [.elseWord]).bind fun found found' hfound => ?_
  subst hfound
  cases found with
  | false => exact similar_pure rfl
  | true =>
      refine (similar_expect .elseWord .elseWord).bind fun _ _ _ => ?_
      exact hblock.bind fun branch branch' hbranch => similar_pure (congrArg some hbranch)

theorem similar_ifWith {block block' : Parse (List Stmt)} (hblock : Similar SameBlock block block')
    (fuel fuel' : Nat) : Similar SameStmt (ifWith fuel block) (ifWith fuel' block') := by
  refine (similar_expect .ifWord .ifWord).bind fun _ _ _ => ?_
  refine (similar_expressionWithin fuel fuel').bind fun condition condition' hcondition => ?_
  refine (similar_expect .thenWord .thenWord).bind fun _ _ _ => ?_
  refine hblock.bind fun branch branch' hbranch => ?_
  refine (similar_elseWith hblock).bind fun other other' hother => ?_
  refine (similar_expect .endWord .endWord).bind fun _ _ _ => similar_pure ?_
  rw [SameStmt, Stmt.relocate, Stmt.relocate, hcondition, hbranch, hother]

theorem similar_assignWithin (fuel fuel' : Nat) :
    Similar SameStmt (assignWithin fuel) (assignWithin fuel') := by
  refine (similar_expect .identifier .identifier).bind fun name name' hname => ?_
  refine (similar_expect .assign .assignSign).bind fun _ _ _ => ?_
  refine (similar_expressionWithin fuel fuel').bind fun value value' hvalue => similar_pure ?_
  rw [SameStmt, Stmt.relocate, Stmt.relocate, hname.text, hvalue]
  rfl

/-- Statements that are there or not there, and then differ in places only. -/
def SameStmt? (stmt? stmt?' : Option Stmt) : Prop :=
  stmt?.map (Stmt.relocate Location.erase) = stmt?'.map (Stmt.relocate Location.erase)

/-- A test for one kind, which two streams that are alike pass or fail alike. -/
theorem Similar.choose {same : α → α → Prop} {yes yes' no no' : Parse α} (kind : Token.Kind)
    (hyes : Similar same yes yes') (hno : Similar same no no') :
    Similar same (detect [kind] >>= fun found => if found = true then yes else no)
      (detect [kind] >>= fun found => if found = true then yes' else no') := by
  refine (similar_detect [kind]).bind fun found found' hfound => ?_
  subst hfound
  cases found with
  | false => exact hno
  | true => exact hyes

theorem similar_statementWith {block block' : Parse (List Stmt)} (hblock : Similar SameBlock block block')
    (fuel fuel' : Nat) : Similar SameStmt? (statementWith fuel block) (statementWith fuel' block') := by
  have hsome : ∀ {step step' : Parse Stmt}, Similar SameStmt step step' →
      Similar SameStmt? (some <$> step) (some <$> step') :=
    fun h => h.map_some fun _ _ hstmt => congrArg some hstmt
  refine .choose .loopWord (hsome (similar_loopWith hblock)) ?_
  refine .choose .breakWord (hsome similar_breakStmt) ?_
  refine .choose .readWord
    (hsome (similar_listing .readWord .readWord .read (fun _ _ _ => rfl) fuel fuel')) ?_
  refine .choose .printWord
    (hsome (similar_listing .printWord .printWord .print (fun _ _ _ => rfl) fuel fuel')) ?_
  refine .choose .ifWord (hsome (similar_ifWith hblock fuel fuel')) ?_
  refine .choose .identifier (hsome (similar_assignWithin fuel fuel')) ?_
  exact (similar_record _ _).bind fun _ _ _ => similar_pure rfl

theorem similar_blockWithin (fuel fuel' : Nat) :
    Similar SameBlock (blockWithin fuel) (blockWithin fuel') := by
  induction fuel generalizing fuel' with
  | zero => exact fun _ _ _ => .exhaustedLeft
  | succ fuel ih =>
      cases fuel' with
      | zero => exact fun _ _ _ => .exhaustedRight
      | succ fuel' =>
          refine (similar_statementWith (ih fuel') fuel fuel').bind fun stmt? stmt?' hstmt => ?_
          cases stmt? with
          | none =>
              cases stmt?' with
              | none => exact similar_pure rfl
              | some stmt' => cases hstmt
          | some stmt =>
              cases stmt?' with
              | none => cases hstmt
              | some stmt' =>
                  refine (similar_expect .semicolon .semicolon).bind fun _ _ _ => ?_
                  refine (ih fuel').bind fun rest rest' hrest => similar_pure ?_
                  rw [SameBlock, relocateBlock, relocateBlock, Option.some.inj hstmt, hrest]

/-- Readers whose tokens are alike are parsed alike. -/
theorem similar_program :
    Similar (fun program program' : Program => SameBlock program.body program'.body) program program := by
  have hblock : Similar SameBlock block block :=
    fun _ _ halike => similar_blockWithin _ _ halike
  refine hblock.bind fun body body' hbody => ?_
  refine similar_significant.bind fun token token' hshape => ?_
  rw [← hshape.kind]
  by_cases hend : token.kind = .endOfText
  · rw [if_pos hend, if_pos hend]
    exact similar_pure hbody
  · rw [if_neg hend, if_neg hend]
    exact similar_fail _ _ _ _

end Parser
end LoopScript
