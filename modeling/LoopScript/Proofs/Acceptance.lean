import LoopScript.Proofs.Recognition

/-! The parser accepts exactly the grammar. Statements are told apart by their first token, so that
the scans for each kind of statement in turn come to one choice; every statement parser is then sound
and complete for its rule, a list of statements for any list, by induction on the budget, and the
budget that a reader gives is above the number of its tokens. -/

namespace LoopScript.Parser

open Grammar

variable {α : Type}

/-- What is derived once all words and numbers have their characters. -/
def WhenSpelled (derives : List Token → α → Prop) (ts : List Token) (value : α) : Prop :=
  (∀ token ∈ ts, token.Spelled) → derives ts value

theorem isIdentifier_of_spelled {token : Token} (hkind : token.kind = .identifier)
    (hspelled : token.Spelled) : ∃ name, token.IsIdentifier name := by
  have hsome : token.text.isSome = true := hspelled (by rw [hkind]; rfl)
  obtain ⟨name, hname⟩ := Option.isSome_iff_exists.mp hsome
  exact ⟨name, hkind, hname⟩

/-! Lists of names. -/

theorem namesTailWithin_sound (fuel : Nat) :
    Sound (namesTailWithin fuel) (WhenSpelled NamesTail) := by
  induction fuel with
  | zero =>
      intro state value after h
      cases h
  | succ fuel ih =>
      intro state value after h
      obtain ⟨found, mid, hdetect, h⟩ := exists_of_bind h
      have hmid := Takes.refl_of_eq (detect_ok hdetect)
      split at h
      · obtain ⟨comma, behind, hcomma, h⟩ := exists_of_bind h
        obtain ⟨token, last, htoken, h⟩ := exists_of_bind h
        obtain ⟨names, done, hnames, h⟩ := exists_of_bind h
        obtain ⟨rfl, rfl⟩ := pure_ok h
        obtain ⟨hcommaKind, hbehind⟩ := expect_ok hcomma
        obtain ⟨htokenKind, hlast⟩ := expect_ok htoken
        obtain ⟨ts, hts, hderives⟩ := ih hnames
        refine ⟨comma :: token :: ts, hmid.trans (hbehind.trans (hlast.trans hts)), fun hspelled => ?_⟩
        simp only [List.forall_mem_cons] at hspelled
        obtain ⟨name, hname⟩ := isIdentifier_of_spelled htokenKind hspelled.2.1
        rw [hname.2]
        exact .cons hcommaKind hname (hderives hspelled.2.2)
      · obtain ⟨rfl, rfl⟩ := pure_ok h
        exact ⟨[], hmid, fun _ => .nil⟩

theorem namesWithin_sound (fuel : Nat) : Sound (namesWithin fuel) (WhenSpelled Names) := by
  intro state value after h
  obtain ⟨token, mid, htoken, h⟩ := exists_of_bind h
  obtain ⟨names, last, hnames, h⟩ := exists_of_bind h
  obtain ⟨rfl, rfl⟩ := pure_ok h
  obtain ⟨hkind, hmid⟩ := expect_ok htoken
  obtain ⟨ts, hts, hderives⟩ := namesTailWithin_sound fuel hnames
  refine ⟨token :: ts, hmid.trans hts, fun hspelled => ?_⟩
  simp only [List.forall_mem_cons] at hspelled
  obtain ⟨name, hname⟩ := isIdentifier_of_spelled hkind hspelled.1
  rw [hname.2]
  exact .mk hname (hderives hspelled.2)

/-- Two tokens are looked at to see whether a list of names goes on; without a comma the first one
is enough. -/
theorem namesTailWithin_complete (fuel : Nat) :
    Complete (namesTailWithin fuel) NamesTail fuel (· ≠ .comma) := by
  induction fuel with
  | zero =>
      intro state ts value behind rest _ hlength
      exact absurd hlength (Nat.not_lt_zero _)
  | succ fuel ih =>
      intro state ts value behind rest hderives hlength hbehind hstate
      have hopen : (Lookahead.ofReader state.reader).reader.upcoming =
          ts.map .ok ++ₛ Stream'.cons (.ok behind) rest := hstate
      cases hderives with
      | nil =>
          obtain ⟨look, hlook⟩ := Lookahead.see_cons_of_ne [.identifier] hopen hbehind
          obtain ⟨after, hafter, hsame⟩ := detect_of_see hlook
          refine ⟨after, ?_, hsame.trans hstate⟩
          rw [namesTailWithin, detectNamesTail, bind_of_ok hafter]
          rfl
      | @cons comma token name ts names hcomma hname htail =>
          obtain ⟨next, hnext, hopen⟩ := Lookahead.see_cons_of_eq [.identifier] hopen hcomma
          obtain ⟨look, hlook, -⟩ := Lookahead.see_cons_of_eq [] hopen hname.1
          obtain ⟨mid, hmid, hsame⟩ := detect_of_see (hnext.trans hlook)
          obtain ⟨second, hsecond, hstate⟩ := expect_of_upcoming .comma (hsame.trans hstate) hcomma
          obtain ⟨third, hthird, hstate⟩ := expect_of_upcoming .identifierAfterComma hstate hname.1
          simp only [List.length_cons] at hlength
          obtain ⟨after, hafter, hrest⟩ := ih htail (by omega) hbehind hstate
          refine ⟨after, ?_, hrest⟩
          rw [namesTailWithin, detectNamesTail, bind_of_ok hmid]
          show (expect .comma .comma >>= fun _ => expect .identifier .identifierAfterComma >>=
            fun token => namesTailWithin fuel >>= fun rest => pure (token.text.toList ++ rest)) mid = _
          rw [bind_of_ok hsecond, bind_of_ok hthird, bind_of_ok hafter, hname.2]
          rfl

theorem namesWithin_complete (fuel : Nat) : Complete (namesWithin fuel) Names fuel (· ≠ .comma) := by
  intro state ts value behind rest hderives hlength hbehind hstate
  cases hderives with
  | @mk token name ts names hname htail =>
      obtain ⟨mid, hmid, hstate⟩ := expect_of_upcoming .identifier hstate hname.1
      rw [List.length_cons] at hlength
      obtain ⟨after, hafter, hrest⟩ :=
        namesTailWithin_complete fuel htail (by omega) hbehind hstate
      refine ⟨after, ?_, hrest⟩
      rw [namesWithin, bind_of_ok hmid, bind_of_ok hafter, hname.2]
      rfl

/-! The statements: what is taken derives what is returned. -/

/-- The tokens of a statement that may be missing. -/
def MaybeStatement (ts : List Token) : Option Stmt → Prop
  | some stmt => Statement ts stmt
  | none => ts = []

theorem loopWith_sound {block : Parse (List Stmt)} (hblock : Sound block (WhenSpelled Block)) :
    Sound (loopWith block) (WhenSpelled Statement) := by
  intro state value after h
  obtain ⟨keyword, first, hkeyword, h⟩ := exists_of_bind h
  obtain ⟨label, second, hlabel, h⟩ := exists_of_bind h
  obtain ⟨colon, third, hcolon, h⟩ := exists_of_bind h
  obtain ⟨body, fourth, hbody, h⟩ := exists_of_bind h
  obtain ⟨closing, fifth, hclosing, h⟩ := exists_of_bind h
  obtain ⟨_, last, hrecord, h⟩ := exists_of_bind h
  obtain ⟨rfl, rfl⟩ := pure_ok h
  obtain ⟨-, rfl⟩ := EStateM.Result.ok.inj hrecord
  obtain ⟨hkeywordKind, hfirst⟩ := expect_ok hkeyword
  obtain ⟨hlabelKind, hsecond⟩ := expect_ok hlabel
  obtain ⟨hcolonKind, hthird⟩ := expect_ok hcolon
  obtain ⟨ts, hts, hderives⟩ := hblock hbody
  obtain ⟨hclosingKind, hfifth⟩ := expect_ok hclosing
  refine ⟨keyword :: label :: colon :: (ts ++ [closing]),
    hfirst.trans (hsecond.trans (hthird.trans (hts.trans hfifth))), fun hspelled => ?_⟩
  simp only [List.forall_mem_cons, List.forall_mem_append] at hspelled
  obtain ⟨name, hname⟩ := isIdentifier_of_spelled hlabelKind hspelled.2.1
  rw [hname.2]
  exact .loop hkeywordKind hname hcolonKind (hderives hspelled.2.2.2.1) hclosingKind

/-- The name behind a BREAK, if there is one. The token that is no name is put back. -/
theorem target_ok {state after : State} {name? : Option String} (h : target state = .ok name? after) :
    (name? = none ∧ Takes state [] after) ∨
      ∃ token, token.kind = .identifier ∧ name? = token.text ∧ Takes state [token] after := by
  obtain ⟨token, mid, htoken, h⟩ := exists_of_bind h
  split at h
  · next hkind =>
      obtain ⟨rfl, rfl⟩ := pure_ok h
      exact .inr ⟨token, hkind, rfl, takes_of_significant htoken⟩
  · obtain ⟨_, last, hmodify, h⟩ := exists_of_bind h
    obtain ⟨rfl, rfl⟩ := pure_ok h
    obtain ⟨-, rfl⟩ := EStateM.Result.ok.inj hmodify
    refine .inl ⟨rfl, Takes.refl_of_eq ?_⟩
    have hsignificant := Reader.isSignificant_of_skipSpaces (skipSpaces_of_significant htoken)
    have htakes := takes_of_significant htoken
    exact (Reader.upcoming_unread hsignificant).trans htakes.symm

theorem breakStmt_sound : Sound breakStmt (WhenSpelled Statement) := by
  intro state value after h
  obtain ⟨keyword, mid, hkeyword, h⟩ := exists_of_bind h
  obtain ⟨name?, last, htarget, h⟩ := exists_of_bind h
  obtain ⟨rfl, rfl⟩ := pure_ok h
  obtain ⟨hkind, hmid⟩ := expect_ok hkeyword
  rcases target_ok htarget with ⟨rfl, hlast⟩ | ⟨token, htoken, rfl, hlast⟩
  · exact ⟨[keyword], hmid.trans hlast, fun _ => .leave hkind⟩
  · refine ⟨[keyword, token], hmid.trans hlast, fun hspelled => ?_⟩
    simp only [List.forall_mem_cons] at hspelled
    obtain ⟨name, hname⟩ := isIdentifier_of_spelled htoken hspelled.2.1
    rw [hname.2]
    exact .leaveNamed hkind hname

/-- READ and PRINT: a keyword and a list of names. -/
theorem listing_sound (kind : Token.Kind) (wanted : Diagnostic.Wanted)
    {make : List String → Location → Stmt} (fuel : Nat)
    (hrule : ∀ {keyword ts names location}, keyword.kind = kind → Names ts (names, location) →
      Statement (keyword :: ts) (make names location)) :
    Sound (do
      let _ ← expect kind wanted
      let (names, location) ← namesWithin fuel
      return make names location) (WhenSpelled Statement) := by
  intro state value after h
  obtain ⟨keyword, mid, hkeyword, h⟩ := exists_of_bind h
  obtain ⟨⟨names, location⟩, last, hnames, h⟩ := exists_of_bind h
  obtain ⟨rfl, rfl⟩ := pure_ok h
  obtain ⟨hkind, hmid⟩ := expect_ok hkeyword
  obtain ⟨ts, hts, hderives⟩ := namesWithin_sound fuel hnames
  exact ⟨keyword :: ts, hmid.trans hts, fun hspelled =>
    hrule hkind (hderives (List.forall_mem_cons.mp hspelled).2)⟩

/-- The branch after ELSE with its keyword, if there is one. -/
inductive ElsePart : List Token → Option (List Stmt) → Prop
  | missing : ElsePart [] none
  | present {keyword : Token} {ts : List Token} {branch : List Stmt}
      (hkeyword : keyword.kind = .elseWord) (hbranch : Block ts branch) :
      ElsePart (keyword :: ts) (some branch)

theorem elseWith_sound {block : Parse (List Stmt)} (hblock : Sound block (WhenSpelled Block)) :
    Sound (elseWith block) (WhenSpelled ElsePart) := by
  intro state value after h
  obtain ⟨found, mid, hdetect, h⟩ := exists_of_bind h
  have hmid := Takes.refl_of_eq (detect_ok hdetect)
  split at h
  · obtain ⟨keyword, second, hkeyword, h⟩ := exists_of_bind h
    obtain ⟨branch, last, hbranch, h⟩ := exists_of_bind h
    obtain ⟨rfl, rfl⟩ := pure_ok h
    obtain ⟨hkind, hsecond⟩ := expect_ok hkeyword
    obtain ⟨ts, hts, hderives⟩ := hblock hbranch
    exact ⟨keyword :: ts, hmid.trans (hsecond.trans hts), fun hspelled =>
      .present hkind (hderives (List.forall_mem_cons.mp hspelled).2)⟩
  · obtain ⟨rfl, rfl⟩ := pure_ok h
    exact ⟨[], hmid, fun _ => .missing⟩

/-- An IF with or without ELSE is a conditional statement. -/
theorem statement_of_elsePart {keyword thenWord closing : Token} {ts us vs : List Token}
    {condition : Expr} {branch : List Stmt} {other : Option (List Stmt)}
    (hkeyword : keyword.kind = .ifWord) (hcondition : Expression (.binary .comparison) ts condition)
    (hthen : thenWord.kind = .thenWord) (hbranch : Block us branch) (helse : ElsePart vs other)
    (hclosing : closing.kind = .endWord) :
    Statement (keyword :: (ts ++ thenWord :: (us ++ (vs ++ [closing])))) (.cond condition branch other) := by
  cases helse with
  | missing => exact .cond hkeyword hcondition hthen hbranch hclosing
  | present helse hother => exact .condElse hkeyword hcondition hthen hbranch helse hother hclosing

theorem ifWith_sound {block : Parse (List Stmt)} (hblock : Sound block (WhenSpelled Block))
    (fuel : Nat) : Sound (ifWith fuel block) (WhenSpelled Statement) := by
  intro state value after h
  obtain ⟨keyword, first, hkeyword, h⟩ := exists_of_bind h
  obtain ⟨condition, second, hcondition, h⟩ := exists_of_bind h
  obtain ⟨thenWord, third, hthen, h⟩ := exists_of_bind h
  obtain ⟨branch, fourth, hbranch, h⟩ := exists_of_bind h
  obtain ⟨other, fifth, hother, h⟩ := exists_of_bind h
  obtain ⟨closing, last, hclosing, h⟩ := exists_of_bind h
  obtain ⟨rfl, rfl⟩ := pure_ok h
  obtain ⟨hkeywordKind, hfirst⟩ := expect_ok hkeyword
  obtain ⟨ts, hts, hexpression⟩ := expressionWithin_sound fuel hcondition
  obtain ⟨hthenKind, hthird⟩ := expect_ok hthen
  obtain ⟨us, hus, hblockDerives⟩ := hblock hbranch
  obtain ⟨vs, hvs, helse⟩ := elseWith_sound hblock hother
  obtain ⟨hclosingKind, hlast⟩ := expect_ok hclosing
  refine ⟨keyword :: (ts ++ thenWord :: (us ++ (vs ++ [closing]))),
    hfirst.trans (hts.trans (hthird.trans (hus.trans (hvs.trans hlast)))), fun hspelled => ?_⟩
  simp only [List.forall_mem_cons, List.forall_mem_append] at hspelled
  obtain ⟨-, -, -, hspelledThen, hspelledElse, -⟩ := hspelled
  exact statement_of_elsePart hkeywordKind hexpression hthenKind (hblockDerives hspelledThen)
    (helse hspelledElse) hclosingKind

theorem assignWithin_sound (fuel : Nat) : Sound (assignWithin fuel) (WhenSpelled Statement) := by
  intro state value after h
  obtain ⟨token, first, htoken, h⟩ := exists_of_bind h
  obtain ⟨sign, second, hsign, h⟩ := exists_of_bind h
  obtain ⟨e, last, he, h⟩ := exists_of_bind h
  obtain ⟨rfl, rfl⟩ := pure_ok h
  obtain ⟨hkind, hfirst⟩ := expect_ok htoken
  obtain ⟨hsignKind, hsecond⟩ := expect_ok hsign
  obtain ⟨ts, hts, hderives⟩ := expressionWithin_sound fuel he
  refine ⟨token :: sign :: ts, hfirst.trans (hsecond.trans hts), fun hspelled => ?_⟩
  obtain ⟨name, hname⟩ := isIdentifier_of_spelled hkind (List.forall_mem_cons.mp hspelled).1
  rw [hname.2]
  exact .assign hname hsignKind hderives

/-! The choice of a statement. -/

/-- The statement that starts with a kind of token. -/
def statementAt (fuel : Nat) (block : Parse (List Stmt)) : Token.Kind → Parse (Option Stmt)
  | .loopWord => some <$> loopWith block
  | .breakWord => some <$> breakStmt
  | .readWord => some <$> readWithin fuel
  | .printWord => some <$> printWithin fuel
  | .ifWord => some <$> ifWith fuel block
  | .identifier => some <$> assignWithin fuel
  | _ => do
      record .noStatement
      return none

def StartsStatement (kind : Token.Kind) : Prop :=
  kind ∈ [.loopWord, .breakWord, .readWord, .printWord, .ifWord, .identifier]

theorem statementAt_of_not_starts {kind : Token.Kind} (fuel : Nat) (block : Parse (List Stmt))
    (h : ¬ StartsStatement kind) :
    statementAt fuel block kind = (do record .noStatement; return none) := by
  cases kind <;> first | rfl | exact absurd (by simp [StartsStatement]) h

/-- A step that does as the kind of the next token says, some kinds left out. -/
def Chooses (step : Parse α) (choice : Token.Kind → Parse α) (excluded : List Token.Kind) : Prop :=
  ∀ ⦃state : State⦄ ⦃token : Token⦄ ⦃rest : Stream' (Except Diagnostic Token)⦄,
    state.upcoming = Stream'.cons (.ok token) rest → token.kind ∉ excluded →
    ∃ mid, mid.upcoming = Stream'.cons (.ok token) rest ∧ step state = choice token.kind mid

/-- A test for one kind makes the choice for it and leaves the others to the next test. -/
theorem Chooses.detect {kind : Token.Kind} {yes no : Parse α} {choice : Token.Kind → Parse α}
    {excluded : List Token.Kind} (hyes : yes = choice kind)
    (hno : Chooses no choice (kind :: excluded)) :
    Chooses (detect [kind] >>= fun found => if found = true then yes else no) choice excluded := by
  intro state token rest h hfresh
  obtain ⟨mid, hmid, hsame⟩ := detect_one kind h
  by_cases hkind : token.kind = kind
  · refine ⟨mid, hsame.trans h, ?_⟩
    rw [bind_of_ok hmid, decide_eq_true hkind, if_pos rfl, hyes, hkind]
  · have hothers : token.kind ∉ kind :: excluded := by simp [hkind, hfresh]
    obtain ⟨last, hlast, heq⟩ := hno (hsame.trans h) hothers
    refine ⟨last, hlast, ?_⟩
    rw [bind_of_ok hmid, decide_eq_false hkind, if_neg Bool.false_ne_true, heq]

/-- The scans for one statement after another come to one choice by the next token. -/
theorem statementWith_chooses (fuel : Nat) (block : Parse (List Stmt)) :
    Chooses (statementWith fuel block) (statementAt fuel block) [] := by
  unfold statementWith detectLoop detectBreak detectRead detectPrint detectIf detectAssign
  refine .detect rfl (.detect rfl (.detect rfl (.detect rfl (.detect rfl (.detect rfl ?_)))))
  intro state token rest h hfresh
  have hother : ¬ StartsStatement token.kind := by
    simp only [List.mem_cons, List.not_mem_nil, not_or] at hfresh
    simp [StartsStatement, hfresh]
  refine ⟨state, h, ?_⟩
  rw [statementAt_of_not_starts fuel block hother]

theorem map_some_ok {step : Parse α} {state after : State} {value : Option α}
    (h : (some <$> step) state = .ok value after) :
    ∃ result, value = some result ∧ step state = .ok result after := by
  cases hstep : step state with
  | ok result last =>
      have hmap : (some <$> step) state = .ok (some result) last := by
        show EStateM.map some step state = _
        rw [EStateM.map, hstep]
      rw [h] at hmap
      obtain ⟨rfl, rfl⟩ := EStateM.Result.ok.inj hmap
      exact ⟨result, rfl, rfl⟩
  | error failure last =>
      have hmap : (some <$> step) state = .error failure last := by
        show EStateM.map some step state = _
        rw [EStateM.map, hstep]
      rw [h] at hmap
      cases hmap

theorem map_some_of_ok {step : Parse α} {state after : State} {value : α}
    (h : step state = .ok value after) : (some <$> step) state = .ok (some value) after := by
  show EStateM.map some step state = _
  rw [EStateM.map, h]

theorem Sound.map_some {step : Parse Stmt} (h : Sound step (WhenSpelled Statement)) :
    Sound (some <$> step) (WhenSpelled MaybeStatement) := by
  intro state value after hstep
  obtain ⟨stmt, rfl, hresult⟩ := map_some_ok hstep
  exact h hresult

theorem statementAt_sound {block : Parse (List Stmt)} (hblock : Sound block (WhenSpelled Block))
    (fuel : Nat) (kind : Token.Kind) :
    Sound (statementAt fuel block kind) (WhenSpelled MaybeStatement) := by
  unfold statementAt
  split
  · exact (loopWith_sound hblock).map_some
  · exact breakStmt_sound.map_some
  · exact Sound.map_some (listing_sound .readWord .readWord fuel .read)
  · exact Sound.map_some (listing_sound .printWord .printWord fuel .print)
  · exact (ifWith_sound hblock fuel).map_some
  · exact (assignWithin_sound fuel).map_some
  · intro state value after h
    obtain ⟨_, mid, hrecord, h⟩ := exists_of_bind h
    obtain ⟨rfl, rfl⟩ := pure_ok h
    obtain ⟨-, rfl⟩ := EStateM.Result.ok.inj hrecord
    exact ⟨[], Takes.refl_of_eq rfl, fun _ => rfl⟩

theorem statementWith_sound {block : Parse (List Stmt)} (hblock : Sound block (WhenSpelled Block))
    (fuel : Nat) : Sound (statementWith fuel block) (WhenSpelled MaybeStatement) := by
  intro state value after h
  obtain ⟨_, _, hdetect, -⟩ := exists_of_bind h
  obtain ⟨token, rest, hhead⟩ := exists_head_of_detect hdetect
  obtain ⟨mid, hmid, heq⟩ := statementWith_chooses fuel block hhead List.not_mem_nil
  rw [heq] at h
  obtain ⟨ts, hts, hderives⟩ := statementAt_sound hblock fuel token.kind h
  exact ⟨ts, (Takes.refl_of_eq (hmid.trans hhead.symm)).trans hts, hderives⟩

theorem blockWithin_sound (fuel : Nat) : Sound (blockWithin fuel) (WhenSpelled Block) := by
  induction fuel with
  | zero =>
      intro state value after h
      cases h
  | succ fuel ih =>
      intro state value after h
      obtain ⟨stmt?, mid, hstmt, h⟩ := exists_of_bind h
      obtain ⟨ts, hts, hderives⟩ := statementWith_sound ih fuel hstmt
      cases stmt? with
      | none =>
          obtain ⟨rfl, rfl⟩ := pure_ok h
          refine ⟨ts, hts, fun hspelled => ?_⟩
          rw [hderives hspelled]
          exact .nil
      | some stmt =>
          obtain ⟨semicolon, behind, hsemicolon, h⟩ := exists_of_bind h
          obtain ⟨stmts, last, hstmts, h⟩ := exists_of_bind h
          obtain ⟨rfl, rfl⟩ := pure_ok h
          obtain ⟨hkind, hbehind⟩ := expect_ok hsemicolon
          obtain ⟨us, hus, hrest⟩ := ih hstmts
          refine ⟨ts ++ semicolon :: us, hts.trans (hbehind.trans hus), fun hspelled => ?_⟩
          simp only [List.forall_mem_cons, List.forall_mem_append] at hspelled
          exact .cons (hderives hspelled.1) hkind (hrest hspelled.2.2)

/-! The statements: what is derived is returned. -/

def openingKind : Stmt → Token.Kind
  | .loop _ _ _ => .loopWord
  | .leave _ _ => .breakWord
  | .read _ _ => .readWord
  | .print _ _ => .printWord
  | .cond _ _ _ => .ifWord
  | .assign _ _ _ => .identifier

theorem startsStatement_openingKind (stmt : Stmt) : StartsStatement (openingKind stmt) := by
  cases stmt <;> simp [openingKind, StartsStatement]

theorem exists_head_of_statement {ts : List Token} {stmt : Stmt} (h : Statement ts stmt) :
    ∃ token later, ts = token :: later ∧ token.kind = openingKind stmt := by
  cases h with
  | loop hkeyword | leave hkeyword | leaveNamed hkeyword | read hkeyword | print hkeyword
  | cond hkeyword | condElse hkeyword => exact ⟨_, _, rfl, hkeyword⟩
  | assign hname => exact ⟨_, _, rfl, hname.1⟩

def StatementOf (kind : Token.Kind) (ts : List Token) (stmt : Stmt) : Prop :=
  Statement ts stmt ∧ openingKind stmt = kind

def EndsBlock (kind : Token.Kind) : Prop := ¬ StartsStatement kind

theorem endsBlock_of_closing {kind : Token.Kind}
    (h : kind ∈ [.repeatWord, .elseWord, .endWord, .endOfText]) : EndsBlock kind := by
  simp only [List.mem_cons, List.not_mem_nil, or_false] at h
  rcases h with rfl | rfl | rfl | rfl <;> simp [EndsBlock, StartsStatement]

theorem stops_of_closing {kind : Token.Kind} (h : kind ∈ [.thenWord, .semicolon]) :
    Stops (.binary .comparison) kind := by
  simp only [List.mem_cons, List.not_mem_nil, or_false] at h
  rcases h with rfl | rfl <;> exact ⟨rfl, rfl, rfl⟩

theorem record_eq (event : Event) (state : State) :
    ∃ after, record event state = .ok () after ∧ after.upcoming = state.upcoming :=
  ⟨{ state with log := state.log.record event }, rfl, rfl⟩

theorem loopWith_complete {block : Parse (List Stmt)} {fuel : Nat}
    (hblock : Complete block Block fuel EndsBlock) :
    Complete (loopWith block) (StatementOf .loopWord) fuel (· = .semicolon) := by
  rintro state ts stmt behind rest ⟨hderives, hkind⟩ hlength _ hstate
  cases hderives with
  | @loop keyword label colon closing name ts body hkeyword hlabel hcolon hbody hclosing =>
      simp only [List.map_cons, List.map_append, Stream'.cons_append_stream,
        Stream'.append_append_stream] at hstate
      simp only [List.length_cons, List.length_append] at hlength
      have hends : EndsBlock closing.kind := endsBlock_of_closing (by simp [hclosing])
      obtain ⟨first, hfirst, hstate⟩ := expect_of_upcoming .loopWord hstate hkeyword
      obtain ⟨second, hsecond, hstate⟩ := expect_of_upcoming .loopName hstate hlabel.1
      obtain ⟨third, hthird, hstate⟩ := expect_of_upcoming .loopColon hstate hcolon
      obtain ⟨fourth, hfourth, hstate⟩ := hblock hbody (by omega) hends hstate
      obtain ⟨fifth, hfifth, hstate⟩ := expect_of_upcoming .repeatWord hstate hclosing
      obtain ⟨last, hlast, hsame⟩ := record_eq (.parsedLoop label.text body.length) fifth
      refine ⟨last, ?_, hsame.trans hstate⟩
      rw [loopWith, bind_of_ok hfirst, bind_of_ok hsecond, bind_of_ok hthird, bind_of_ok hfourth,
        bind_of_ok hfifth, bind_of_ok hlast, hlabel.2]
      rfl
  | leave | leaveNamed | read | print | cond | condElse | assign => cases hkind

theorem target_of_identifier {state : State} {token : Token}
    {rest : Stream' (Except Diagnostic Token)} (hkind : token.kind = .identifier)
    (h : state.upcoming = Stream'.cons (.ok token) rest) :
    ∃ after, target state = .ok token.text after ∧ after.upcoming = rest := by
  obtain ⟨mid, hmid, hrest⟩ := significant_of_upcoming h
  refine ⟨mid, ?_, hrest⟩
  rw [target, bind_of_ok hmid, if_pos hkind]
  rfl

theorem target_of_other {state : State} {token : Token} {rest : Stream' (Except Diagnostic Token)}
    (hkind : token.kind ≠ .identifier) (h : state.upcoming = Stream'.cons (.ok token) rest) :
    ∃ after, target state = .ok none after ∧ after.upcoming = state.upcoming := by
  obtain ⟨mid, hmid, rfl⟩ := significant_of_upcoming h
  refine ⟨{ mid with reader := mid.reader.unread token }, ?_, ?_⟩
  · rw [target, bind_of_ok hmid, if_neg hkind]
    rfl
  · have hsignificant := Reader.isSignificant_of_skipSpaces (skipSpaces_of_significant hmid)
    exact (Reader.upcoming_unread hsignificant).trans h.symm

theorem breakStmt_complete (fuel : Nat) :
    Complete breakStmt (StatementOf .breakWord) fuel (· = .semicolon) := by
  rintro state ts stmt behind rest ⟨hderives, hkind⟩ _ hbehind hstate
  cases hderives with
  | @leave keyword hkeyword =>
      obtain ⟨mid, hmid, hstate⟩ := expect_of_upcoming .breakWord hstate hkeyword
      obtain ⟨after, hafter, hsame⟩ := target_of_other (by simp [hbehind]) hstate
      refine ⟨after, ?_, hsame.trans hstate⟩
      rw [breakStmt, bind_of_ok hmid, bind_of_ok hafter]
      rfl
  | @leaveNamed keyword token name hkeyword hname =>
      obtain ⟨mid, hmid, hstate⟩ := expect_of_upcoming .breakWord hstate hkeyword
      obtain ⟨after, hafter, hrest⟩ := target_of_identifier hname.1 hstate
      refine ⟨after, ?_, hrest⟩
      rw [breakStmt, bind_of_ok hmid, bind_of_ok hafter, hname.2]
      rfl
  | loop | read | print | cond | condElse | assign => cases hkind

/-- READ and PRINT: a keyword and a list of names. -/
theorem listing_complete (kind : Token.Kind) (wanted : Diagnostic.Wanted)
    {make : List String → Location → Stmt} (fuel : Nat)
    (hrule : ∀ {ts stmt}, StatementOf kind ts stmt → ∃ keyword us names location,
      ts = keyword :: us ∧ stmt = make names location ∧ keyword.kind = kind ∧
        Names us (names, location)) :
    Complete (do
      let _ ← expect kind wanted
      let (names, location) ← namesWithin fuel
      return make names location) (StatementOf kind) fuel (· = .semicolon) := by
  intro state ts stmt behind rest hderives hlength hbehind hstate
  obtain ⟨keyword, us, names, location, rfl, rfl, hkeyword, hnames⟩ := hrule hderives
  rw [List.length_cons] at hlength
  obtain ⟨mid, hmid, hstate⟩ := expect_of_upcoming wanted hstate hkeyword
  obtain ⟨after, hafter, hrest⟩ :=
    namesWithin_complete fuel hnames (by omega) (by simp [hbehind]) hstate
  refine ⟨after, ?_, hrest⟩
  rw [bind_of_ok hmid, bind_of_ok hafter]
  rfl

theorem readWithin_complete (fuel : Nat) :
    Complete (readWithin fuel) (StatementOf .readWord) fuel (· = .semicolon) := by
  refine listing_complete .readWord .readWord fuel ?_
  rintro ts stmt ⟨hderives, hkind⟩
  cases hderives with
  | read hkeyword hnames => exact ⟨_, _, _, _, rfl, rfl, hkeyword, hnames⟩
  | loop | leave | leaveNamed | print | cond | condElse | assign => cases hkind

theorem printWithin_complete (fuel : Nat) :
    Complete (printWithin fuel) (StatementOf .printWord) fuel (· = .semicolon) := by
  refine listing_complete .printWord .printWord fuel ?_
  rintro ts stmt ⟨hderives, hkind⟩
  cases hderives with
  | print hkeyword hnames => exact ⟨_, _, _, _, rfl, rfl, hkeyword, hnames⟩
  | loop | leave | leaveNamed | read | cond | condElse | assign => cases hkind

theorem elseWith_complete {block : Parse (List Stmt)} {fuel : Nat}
    (hblock : Complete block Block fuel EndsBlock) :
    Complete (elseWith block) ElsePart fuel (· = .endWord) := by
  intro state ts other behind rest hderives hlength hbehind hstate
  cases hderives with
  | missing =>
      obtain ⟨after, hafter, hsame⟩ := detect_one .elseWord hstate
      refine ⟨after, ?_, hsame.trans hstate⟩
      rw [elseWith, bind_of_ok hafter, decide_eq_false (by simp [hbehind])]
      rfl
  | @present keyword ts branch hkeyword hbranch =>
      obtain ⟨mid, hmid, hsame⟩ := detect_one .elseWord hstate
      obtain ⟨second, hsecond, hstate⟩ :=
        expect_of_upcoming .elseWord (hsame.trans hstate) hkeyword
      rw [List.length_cons] at hlength
      have hends : EndsBlock behind.kind := endsBlock_of_closing (by simp [hbehind])
      obtain ⟨after, hafter, hrest⟩ := hblock hbranch (by omega) hends hstate
      refine ⟨after, ?_, hrest⟩
      rw [elseWith, bind_of_ok hmid, decide_eq_true hkeyword, if_pos rfl, bind_of_ok hsecond,
        bind_of_ok hafter]
      rfl

/-- A conditional statement is an IF with or without ELSE. -/
theorem exists_elsePart {ts : List Token} {stmt : Stmt} (h : StatementOf .ifWord ts stmt) :
    ∃ keyword thenWord closing us vs ws condition branch other,
      ts = keyword :: (us ++ thenWord :: (vs ++ (ws ++ [closing]))) ∧
      stmt = .cond condition branch other ∧ keyword.kind = .ifWord ∧
      Expression (.binary .comparison) us condition ∧ thenWord.kind = .thenWord ∧ Block vs branch ∧
      ElsePart ws other ∧ closing.kind = .endWord := by
  obtain ⟨hderives, hkind⟩ := h
  cases hderives with
  | cond hkeyword hcondition hthen hbranch hclosing =>
      exact ⟨_, _, _, _, _, [], _, _, _, rfl, rfl, hkeyword, hcondition, hthen, hbranch, .missing,
        hclosing⟩
  | @condElse _ _ elseWord _ _ _ vs _ _ _ hkeyword hcondition hthen hbranch helse hother hclosing =>
      exact ⟨_, _, _, _, _, elseWord :: vs, _, _, _, rfl, rfl, hkeyword, hcondition, hthen, hbranch,
        .present helse hother, hclosing⟩
  | loop | leave | leaveNamed | read | print | assign => cases hkind

/-- A branch ends at ELSE or at END. -/
theorem ElsePart.head {ts : List Token} {other : Option (List Stmt)} {closing : Token}
    (h : ElsePart ts other) (hclosing : closing.kind = .endWord)
    (rest : Stream' (Except Diagnostic Token)) :
    ∃ token later, ts.map .ok ++ₛ Stream'.cons (.ok closing) rest = Stream'.cons (.ok token) later ∧
      EndsBlock token.kind := by
  cases h with
  | missing => exact ⟨closing, rest, rfl, endsBlock_of_closing (by simp [hclosing])⟩
  | present hkeyword hbranch => exact ⟨_, _, rfl, endsBlock_of_closing (by simp [hkeyword])⟩

theorem ifWith_complete {block : Parse (List Stmt)} {fuel : Nat}
    (hblock : Complete block Block fuel EndsBlock) :
    Complete (ifWith fuel block) (StatementOf .ifWord) fuel (· = .semicolon) := by
  intro state ts stmt behind rest hderives hlength _ hstate
  obtain ⟨keyword, thenWord, closing, us, vs, ws, condition, branch, other, rfl, rfl, hkeyword,
    hcondition, hthen, hbranch, helse, hclosing⟩ := exists_elsePart hderives
  simp only [List.map_cons, List.map_append, Stream'.cons_append_stream,
    Stream'.append_append_stream] at hstate
  simp only [List.length_cons, List.length_append] at hlength
  obtain ⟨first, hfirst, hstate⟩ := expect_of_upcoming .ifWord hstate hkeyword
  have hstops : Stops (.binary .comparison) thenWord.kind := stops_of_closing (by simp [hthen])
  obtain ⟨second, hsecond, hstate⟩ :=
    expressionWithin_complete fuel hcondition (by omega) hstops hstate
  obtain ⟨third, hthird, hstate⟩ := expect_of_upcoming .thenWord hstate hthen
  obtain ⟨token, later, hhead, hends⟩ := helse.head hclosing (Stream'.cons (.ok behind) rest)
  obtain ⟨fourth, hfourth, hlater⟩ := hblock hbranch (by omega) hends (hstate.trans (by rw [← hhead]; rfl))
  obtain ⟨fifth, hfifth, hstate⟩ :=
    elseWith_complete hblock helse (by omega) hclosing (hlater.trans hhead.symm)
  obtain ⟨after, hafter, hrest⟩ := expect_of_upcoming .endWord hstate hclosing
  refine ⟨after, ?_, hrest⟩
  rw [ifWith, bind_of_ok hfirst, bind_of_ok hsecond, bind_of_ok hthird, bind_of_ok hfourth,
    bind_of_ok hfifth, bind_of_ok hafter]
  rfl

theorem assignWithin_complete (fuel : Nat) :
    Complete (assignWithin fuel) (StatementOf .identifier) fuel (· = .semicolon) := by
  rintro state ts stmt behind rest ⟨hderives, hkind⟩ hlength hbehind hstate
  cases hderives with
  | @assign token sign name ts value hname hsign hvalue =>
      simp only [List.length_cons] at hlength
      obtain ⟨first, hfirst, hstate⟩ := expect_of_upcoming .identifier hstate hname.1
      obtain ⟨second, hsecond, hstate⟩ := expect_of_upcoming .assignSign hstate hsign
      have hstops : Stops (.binary .comparison) behind.kind := stops_of_closing (by simp [hbehind])
      obtain ⟨after, hafter, hrest⟩ :=
        expressionWithin_complete fuel hvalue (by omega) hstops hstate
      refine ⟨after, ?_, hrest⟩
      rw [assignWithin, bind_of_ok hfirst, bind_of_ok hsecond, bind_of_ok hafter, hname.2]
      rfl
  | loop | leave | leaveNamed | read | print | cond | condElse => cases hkind

def SomeStatementOf (kind : Token.Kind) (ts : List Token) (stmt? : Option Stmt) : Prop :=
  ∃ stmt, stmt? = some stmt ∧ StatementOf kind ts stmt

theorem Complete.map_some {step : Parse Stmt} {kind : Token.Kind} {fuel : Nat}
    (h : Complete step (StatementOf kind) fuel (· = .semicolon)) :
    Complete (some <$> step) (SomeStatementOf kind) fuel (· = .semicolon) := by
  rintro state ts _ behind rest ⟨stmt, rfl, hderives⟩ hlength hbehind hstate
  obtain ⟨after, hafter, hrest⟩ := h hderives hlength hbehind hstate
  exact ⟨after, map_some_of_ok hafter, hrest⟩

theorem statementAt_complete {block : Parse (List Stmt)} {fuel : Nat}
    (hblock : Complete block Block fuel EndsBlock) (kind : Token.Kind) :
    Complete (statementAt fuel block kind) (SomeStatementOf kind) fuel (· = .semicolon) := by
  by_cases hstarts : StartsStatement kind
  · simp only [StartsStatement, List.mem_cons, List.not_mem_nil, or_false] at hstarts
    rcases hstarts with rfl | rfl | rfl | rfl | rfl | rfl
    · exact (loopWith_complete hblock).map_some
    · exact (breakStmt_complete fuel).map_some
    · exact (readWithin_complete fuel).map_some
    · exact (printWithin_complete fuel).map_some
    · exact (ifWith_complete hblock).map_some
    · exact (assignWithin_complete fuel).map_some
  · rintro state ts _ behind rest ⟨stmt, rfl, -, rfl⟩
    exact absurd (startsStatement_openingKind stmt) hstarts

theorem statementWith_some {block : Parse (List Stmt)} {fuel : Nat}
    (hblock : Complete block Block fuel EndsBlock) {state : State} {ts : List Token} {stmt : Stmt}
    {behind : Token} {rest : Stream' (Except Diagnostic Token)} (hderives : Statement ts stmt)
    (hlength : ts.length < fuel) (hbehind : behind.kind = .semicolon)
    (hstate : state.upcoming = ts.map .ok ++ₛ Stream'.cons (.ok behind) rest) :
    ∃ after, statementWith fuel block state = .ok (some stmt) after ∧
      after.upcoming = Stream'.cons (.ok behind) rest := by
  obtain ⟨token, later, rfl, hkind⟩ := exists_head_of_statement hderives
  obtain ⟨mid, hmid, heq⟩ := statementWith_chooses fuel block hstate List.not_mem_nil
  rw [heq]
  exact statementAt_complete hblock token.kind ⟨stmt, rfl, hderives, hkind.symm⟩ hlength hbehind hmid

theorem statementWith_none {state : State} {token : Token} {rest : Stream' (Except Diagnostic Token)}
    (fuel : Nat) (block : Parse (List Stmt)) (hends : EndsBlock token.kind)
    (hstate : state.upcoming = Stream'.cons (.ok token) rest) :
    ∃ after, statementWith fuel block state = .ok none after ∧ after.upcoming = state.upcoming := by
  obtain ⟨mid, hmid, heq⟩ := statementWith_chooses fuel block hstate List.not_mem_nil
  obtain ⟨after, hafter, hsame⟩ := record_eq .noStatement mid
  refine ⟨after, ?_, hsame.trans (hmid.trans hstate.symm)⟩
  rw [heq, statementAt_of_not_starts fuel block hends, bind_of_ok hafter]
  rfl

/-- A budget above the number of its tokens is enough for a list of statements. -/
theorem blockWithin_complete (fuel : Nat) : Complete (blockWithin fuel) Block fuel EndsBlock := by
  induction fuel with
  | zero =>
      intro state ts value behind rest _ hlength
      exact absurd hlength (Nat.not_lt_zero _)
  | succ fuel ih =>
      intro state ts value behind rest hderives hlength hbehind hstate
      cases hderives with
      | nil =>
          obtain ⟨after, hafter, hsame⟩ := statementWith_none fuel (blockWithin fuel) hbehind hstate
          refine ⟨after, ?_, hsame.trans hstate⟩
          rw [blockWithin, bind_of_ok hafter]
          rfl
      | @cons semicolon ts us stmt stmts hhead hsemicolon htail =>
          simp only [List.map_cons, List.map_append, Stream'.cons_append_stream,
            Stream'.append_append_stream] at hstate
          simp only [List.length_cons, List.length_append] at hlength
          obtain ⟨first, hfirst, hstate⟩ := statementWith_some ih hhead (by omega) hsemicolon hstate
          obtain ⟨second, hsecond, hstate⟩ := expect_of_upcoming .semicolon hstate hsemicolon
          obtain ⟨after, hafter, hrest⟩ := ih htail (by omega) hbehind hstate
          refine ⟨after, ?_, hrest⟩
          rw [blockWithin, bind_of_ok hfirst]
          show (expect .semicolon .semicolon >>= fun _ => blockWithin fuel >>= fun rest =>
            pure (stmt :: rest)) first = _
          rw [bind_of_ok hsecond, bind_of_ok hafter]
          rfl

/-! Programs. -/

theorem program_sound : Sound program (WhenSpelled Derives) := by
  intro state value after h
  obtain ⟨body, mid, hbody, h⟩ := exists_of_bind h
  obtain ⟨closing, last, hclosing, h⟩ := exists_of_bind h
  split at h
  · next hkind =>
      obtain ⟨rfl, rfl⟩ := pure_ok h
      obtain ⟨ts, hts, hderives⟩ := blockWithin_sound _ hbody
      refine ⟨ts ++ [closing], hts.trans (takes_of_significant hclosing), fun hspelled => ?_⟩
      exact .mk (hderives (List.forall_mem_append.mp hspelled).1) hkind
  · cases h

theorem program_of_derives {state : State} {ts : List Token} {value : Program}
    {rest : Stream' (Except Diagnostic Token)} (hderives : Derives ts value)
    (hlength : ts.length ≤ state.reader.size + 1) (hstate : state.upcoming = ts.map .ok ++ₛ rest) :
    ∃ after, program state = .ok value after ∧ after.upcoming = rest := by
  cases hderives with
  | @mk closing ts body hbody hclosing =>
      rw [List.map_append, Stream'.append_append_stream] at hstate
      rw [List.length_append, List.length_singleton] at hlength
      have hends : EndsBlock closing.kind := endsBlock_of_closing (by simp [hclosing])
      obtain ⟨mid, hmid, hstate⟩ :=
        blockWithin_complete (state.reader.size + 1) hbody (by omega) hends hstate
      obtain ⟨after, hafter, hrest⟩ := significant_of_upcoming hstate
      refine ⟨after, ?_, hrest⟩
      have hblock : block state = .ok body mid := hmid
      rw [program, bind_of_ok hblock, bind_of_ok hafter, if_pos hclosing]
      rfl

/-- The end token closes a derivation and stands nowhere else in it. -/
theorem exists_closing {ts : List Token} {value : Program} (h : Derives ts value) :
    ∃ body closing, ts = body ++ [closing] ∧ closing.kind = .endOfText ∧ Inside body := by
  cases h with
  | mk hbody hclosing => exact ⟨_, _, rfl, hclosing, hbody.inside⟩

/-- **Acceptance.** A text is parsed as a program just when it has no lexical error and its tokens,
blanks left out, derive this program. -/
theorem parse_eq_ok_iff_derives (source : String) (log : Log) (value : Program) :
    (∃ state, parse source log = .ok value state) ↔
      ∃ ts, tokenize source = .ok ts ∧ Derives (ts.filter (·.kind ≠ .space)) value := by
  constructor
  · rintro ⟨state, h⟩
    obtain ⟨ts, htakes, hderives⟩ := program_sound h
    have hfresh : (Reader.ofString source).Spelled := by simp [Reader.Spelled, Reader.ofString]
    have htree : Derives ts value := hderives (Reader.spelled_of_upcoming htakes hfresh)
    obtain ⟨body, closing, rfl, hclosing, hbody⟩ := exists_closing htree
    obtain ⟨all, hall, hsignificant⟩ := Reader.tokens_of_upcoming htakes hclosing hbody
    exact ⟨all, hall, hsignificant ▸ htree⟩
  · rintro ⟨ts, htokens, hderives⟩
    obtain ⟨rest, hstate⟩ := Reader.upcoming_of_tokens htokens
    have hfilter : (ts.filter (·.kind ≠ .space)).length ≤ ts.length := List.length_filter_le _ ts
    have hlength := Nat.le_trans hfilter (Reader.length_tokens_le htokens)
    have hstart : State.upcoming { reader := Reader.ofString source, log := log } =
        (ts.filter (·.kind ≠ .space)).map .ok ++ₛ rest := hstate
    obtain ⟨after, hafter, -⟩ := program_of_derives hderives hlength hstart
    exact ⟨after, hafter⟩

end LoopScript.Parser
