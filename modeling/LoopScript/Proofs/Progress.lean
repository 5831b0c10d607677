import Mathlib.Order.Lattice.Nat
import LoopScript.Proofs.Consumption

/-! Parsing goes forward. What is left of a text is counted on its stream of events: those in front of
the end tokens that come for ever. No method of the parser leaves more of them than it has found,
whatever it puts back and whichever error it passes over, and each one ends. The loops of the parser go
in rounds, over statements, operators, names and signs; a round that adds something leaves fewer
events. -/

namespace LoopScript

/-- Nothing but end tokens, for ever. -/
def Ended (s : Stream' Pulled) : Prop := ∀ n, ∃ token, s.get n = .ok token ∧ token.kind = .endOfText

/-- A stream that comes to its end. -/
def Finishes (s : Stream' Pulled) : Prop := ∃ n, Ended (s.drop n)

/-- The number of events in front of the endless end. -/
noncomputable def remaining (s : Stream' Pulled) : Nat := sInf {n | Ended (s.drop n)}

variable {event : Pulled} {s left : Stream' Pulled}

theorem Ended.of_cons (h : Ended (Stream'.cons event s)) : Ended s := fun n => h (n + 1)

theorem Ended.cons {token : Token} (htoken : token.kind = .endOfText) (h : Ended s) :
    Ended (Stream'.cons (.ok token) s)
  | 0 => ⟨token, rfl, htoken⟩
  | n + 1 => h n

theorem Finishes.cons (h : Finishes s) : Finishes (Stream'.cons event s) := by
  obtain ⟨n, hn⟩ := h
  exact ⟨n + 1, hn⟩

theorem Finishes.append (met : List Pulled) (h : Finishes s) : Finishes (met ++ₛ s) := by
  induction met with
  | nil => exact h
  | cons event met ih => exact ih.cons

theorem Finishes.of_append {met : List Pulled} (h : Finishes (met ++ₛ s)) : Finishes s := by
  induction met with
  | nil => exact h
  | cons event met ih =>
      obtain ⟨n, hn⟩ := h
      refine ih ⟨n, fun k => ?_⟩
      have hlater := hn (k + 1)
      rw [Stream'.get_drop, ← Nat.add_assoc] at hlater
      rw [Stream'.get_drop]
      exact hlater

theorem Finishes.ended (h : Finishes s) : Ended (s.drop (remaining s)) := Nat.sInf_mem h

theorem remaining_le {n : Nat} (h : Ended (s.drop n)) : remaining s ≤ n := Nat.sInf_le h

/-- The stream behind an event is finished one step earlier, unless the event is at the end itself. -/
theorem ended_of_cons (event : Pulled) (h : Finishes s) :
    Ended (Stream'.cons event s) ∧ remaining (Stream'.cons event s) = 0 ∨
      ∃ n, remaining (Stream'.cons event s) = n + 1 ∧ remaining s ≤ n := by
  have hended : Ended ((Stream'.cons event s).drop (remaining (Stream'.cons event s))) := h.cons.ended
  cases hcount : remaining (Stream'.cons event s) with
  | zero =>
      rw [hcount] at hended
      exact .inl ⟨hended, rfl⟩
  | succ n =>
      rw [hcount] at hended
      have hlater : Ended (s.drop n) := hended
      exact .inr ⟨n, rfl, remaining_le hlater⟩

/-- An event in front can only make more of a stream. -/
theorem remaining_le_cons (h : Finishes s) : remaining s ≤ remaining (Stream'.cons event s) := by
  rcases ended_of_cons event h with ⟨hended, -⟩ | ⟨n, hcount, hle⟩
  · have hzero : remaining s ≤ 0 := remaining_le hended.of_cons
    exact hzero.trans (Nat.zero_le _)
  · omega

theorem remaining_lt_cons {token : Token} (h : Finishes s) (htoken : token.kind ≠ .endOfText) :
    remaining s < remaining (Stream'.cons (.ok token) s) := by
  rcases ended_of_cons (.ok token) h with ⟨hended, -⟩ | ⟨n, hcount, hle⟩
  · obtain ⟨first, hfirst, hkind⟩ := hended 0
    obtain rfl := Except.ok.inj hfirst
    exact absurd hkind htoken
  · omega

theorem remaining_cons_mono (hs : Finishes s) (hleft : Finishes left)
    (h : remaining left ≤ remaining s) :
    remaining (Stream'.cons event left) ≤ remaining (Stream'.cons event s) := by
  rcases ended_of_cons event hs with ⟨hended, hcount⟩ | ⟨n, hcount, hle⟩
  · obtain ⟨token, htoken, hkind⟩ := hended 0
    have hzero : remaining s ≤ 0 := remaining_le hended.of_cons
    have hleftEnded := hleft.ended
    rw [Nat.le_zero.mp (h.trans hzero)] at hleftEnded
    have hevent : event = .ok token := htoken
    subst hevent
    have hnone : Ended ((Stream'.cons (.ok token) left).drop 0) := hleftEnded.cons hkind
    exact (remaining_le hnone).trans (Nat.zero_le _)
  · have hleftEnded : Ended ((Stream'.cons event left).drop (remaining left + 1)) := hleft.ended
    exact (remaining_le hleftEnded).trans (by omega)

/-- Fewer events in front leave no more of a stream. -/
theorem remaining_append_le {kept met : List Pulled} (hsub : List.Sublist kept met) (h : Finishes s) :
    remaining (kept ++ₛ s) ≤ remaining (met ++ₛ s) := by
  induction hsub with
  | slnil => exact le_rfl
  | @cons kept met event _ ih => exact ih.trans (remaining_le_cons (h.append met))
  | @cons_cons kept met event _ ih => exact remaining_cons_mono (h.append met) (h.append kept) ih

theorem Sheds.remaining_le (h : Sheds s left) (hs : Finishes s) : remaining left ≤ remaining s := by
  obtain ⟨met, kept, rest, rfl, rfl, hsub⟩ := h
  exact remaining_append_le hsub hs.of_append

/-- A front with a token that is no end token counts. -/
theorem remaining_lt_append {front : List Token} (hfront : ∃ token ∈ front, token.kind ≠ .endOfText)
    (h : Finishes s) : remaining s < remaining (front.map .ok ++ₛ s) := by
  induction front with
  | nil => simp at hfront
  | cons first front ih =>
      have hlater : Finishes (front.map .ok ++ₛ s) := h.append _
      have hfew : remaining s ≤ remaining (front.map .ok ++ₛ s) :=
        remaining_append_le (List.nil_sublist _) h
      obtain ⟨token, hmem, hkind⟩ := hfront
      rcases List.mem_cons.mp hmem with rfl | hmem
      · exact hfew.trans_lt (remaining_lt_cons hlater hkind)
      · exact (ih ⟨token, hmem, hkind⟩).trans_le (remaining_le_cons hlater)

namespace Reader

/-- A reader with nothing left hands out the end token for ever. -/
theorem ended_of_empty {reader : Reader} (hchars : reader.chars = []) (hpushback : reader.pushback = []) :
    Ended reader.events := by
  have hnext : next reader = .ok { kind := .endOfText, location := reader.location } reader := by
    rw [next, hpushback, scan, hchars]
  intro n
  induction n with
  | zero =>
      rw [events_of_next hnext]
      exact ⟨_, rfl, rfl⟩
  | succ n ih =>
      rw [events_of_next hnext]
      exact ih

/-- Every token and every error of a text costs a character. -/
theorem finishes_of_text {reader : Reader} (hpushback : reader.pushback = []) :
    Finishes reader.events := by
  induction hlength : reader.chars.length using Nat.strong_induction_on generalizing reader with
  | _ length ih =>
      have hscan : next reader = scan reader := by rw [next, hpushback]
      cases hchars : reader.chars with
      | nil => exact ⟨0, ended_of_empty hchars hpushback⟩
      | cons c rest =>
          rw [hchars, List.length_cons] at hlength
          cases hlexeme : Token.Lexeme.starting c rest with
          | none =>
              simp only [scan, hchars, hlexeme] at hscan
              rw [events_of_next_error hscan]
              exact Finishes.cons (ih rest.length (by omega) hpushback rfl)
          | some lexeme =>
              simp only [scan, hchars, hlexeme] at hscan
              obtain ⟨happend, hne⟩ := Token.Lexeme.covered_append_rest hlexeme
              have hcovered := congrArg List.length happend
              have hpos := List.length_pos_iff.mpr hne
              rw [List.length_append, List.length_cons] at hcovered
              rw [events_of_next hscan]
              exact Finishes.cons (ih lexeme.rest.length (by omega) hpushback rfl)

/-- Every reader comes to the end of its text. -/
theorem finishes (reader : Reader) : Finishes reader.events := by
  obtain ⟨chars, location, pushback⟩ := reader
  induction pushback with
  | nil => exact finishes_of_text rfl
  | cons token rest ih =>
      have hback : (⟨chars, location, token :: rest⟩ : Reader) = unread ⟨chars, location, rest⟩ token := rfl
      rw [hback, events_unread]
      exact ih.cons

end Reader

namespace Parser

open Grammar

variable {α β : Type}

noncomputable def State.remaining (state : State) : Nat := LoopScript.remaining state.events

theorem State.ended_of_remaining_le {state : State} {n : Nat} (h : state.remaining ≤ n) :
    ∃ token, state.events.get n = .ok token ∧ token.kind = .endOfText := by
  have hended := (Reader.finishes state.reader).ended (n - state.remaining)
  rw [Stream'.get_drop] at hended
  have hsum : LoopScript.remaining state.reader.events + (n - state.remaining) = n :=
    Nat.add_sub_cancel' h
  rwa [hsum] at hended

/-! ### Steps -/

theorem Leaves.remaining_le {state : State} {result : EStateM.Result Failure State α}
    (h : Leaves state.events result) : (behind result).remaining ≤ state.remaining := by
  have hfinishes : Finishes state.events := Reader.finishes state.reader
  cases result with
  | error failure after => exact Sheds.remaining_le h hfinishes
  | ok value after =>
      obtain ⟨front, hfront⟩ := h
      rw [State.remaining, State.remaining, hfront]
      exact remaining_append_le (List.nil_sublist _) (Reader.finishes after.reader)

/-- A step that has taken a token, and no end token, leaves less. -/
theorem remaining_lt_of_front {state after : State} {front : List Token}
    (h : state.events = front.map .ok ++ₛ after.events)
    (hfront : ∃ token ∈ front, token.kind ≠ .endOfText) : after.remaining < state.remaining := by
  rw [State.remaining, State.remaining, h]
  exact remaining_lt_append hfront (Reader.finishes after.reader)

theorem remaining_lt_of_significant {state after : State} {token : Token}
    (h : significant state = .ok token after) (htoken : token.kind ≠ .endOfText) :
    after.remaining < state.remaining := by
  obtain ⟨blanks, -, hevents⟩ := events_of_significant h
  exact remaining_lt_of_front hevents ⟨token, by simp, htoken⟩

theorem remaining_lt_of_expect {kind : Token.Kind} {wanted : Diagnostic.Wanted} {state after : State}
    {token : Token} (h : expect kind wanted state = .ok token after) (hkind : kind ≠ .endOfText) :
    after.remaining < state.remaining := by
  obtain ⟨hfound, hsignificant⟩ := significant_of_expect h
  exact remaining_lt_of_significant hsignificant (hfound ▸ hkind)

theorem remaining_of_peekKind {kind : Token.Kind} {state after : State}
    (h : peekKind state = .ok kind after) : after.remaining = state.remaining := by
  rw [State.remaining, State.remaining, events_of_peeking Lookahead.passesFrom_significant h]

/-- A value leaves no more than there was in front of the step that returns it. -/
theorem Truncates.remaining_le {step whole : Parse α} (h : Truncates step whole) {state after : State}
    {value : α} (hstep : step state = .ok value after) : after.remaining ≤ state.remaining := by
  have hleaves := (h.leaves state).remaining_le
  rwa [hstep] at hleaves

/-! ### Rounds -/

/-- A loop in rounds. A round adds something, and then the loop goes on, or it adds nothing, and then
the loop is over; a round that adds something leaves fewer events. -/
structure GoesInRounds (loop : Parse α) (round : Parse (Option β)) (stop : Parse α)
    (goOn : β → Parse α) : Prop where
  unrolled : loop = (do
    match ← round with
    | none => stop
    | some added => goOn added)
  forward : ∀ {state added after}, round state = .ok (some added) after →
    after.remaining < state.remaining

/-- The next statement, if there is one, and its semicolon. -/
def stmtRound (fuel : Nat) : Parse (Option Stmt) := do
  match ← statementWith fuel (blockWithin fuel) with
  | none => return none
  | some stmt =>
      let _ ← expect .semicolon .semicolon
      return some stmt

/-- The next operator of a tier, if there is one, and its operand. -/
def operationRound (tier : Tier) (operand : Parse Expr) (left : Expr) : Parse (Option Expr) := do
  match operatorOf? tier (← peekKind) with
  | none => return none
  | some op =>
      let token ← significant
      let right ← operand
      return some (.binary op left right token.location)

/-- A comma and the characters of the next name, if they come. -/
def nameRound : Parse (Option (Option String)) := do
  if ← detectNamesTail then
    let _ ← expect .comma .comma
    let token ← expect .identifier .identifierAfterComma
    return some token.text
  else return none

/-- The next minus sign, if there is one. -/
def signRound : Parse (Option Unit) := do
  if (← peekKind) = .minus then
    let _ ← significant
    return some ()
  else return none

theorem remaining_lt_of_stmtRound {fuel : Nat} {stmt : Stmt} {state after : State}
    (h : stmtRound fuel state = .ok (some stmt) after) : after.remaining < state.remaining := by
  obtain ⟨stmt?, mid, hstmt, h⟩ := exists_of_bind h
  have hle := (truncates_statementWith (truncates_blockWithin le_rfl) le_rfl).remaining_le hstmt
  cases stmt? with
  | none => cases (pure_ok h).1
  | some stmt =>
      obtain ⟨token, last, hsemicolon, h⟩ := exists_of_bind h
      obtain ⟨-, rfl⟩ := pure_ok h
      exact (remaining_lt_of_expect hsemicolon (by decide)).trans_le hle

theorem remaining_lt_of_operationRound {tier : Tier} {fuel : Nat} {left whole : Expr}
    {state after : State}
    (h : operationRound tier (operandWithin fuel tier.operand) left state = .ok (some whole) after) :
    after.remaining < state.remaining := by
  obtain ⟨kind, peeked, hpeek, h⟩ := exists_of_bind h
  generalize hop : operatorOf? tier kind = found at h
  cases found with
  | none => cases (pure_ok h).1
  | some op =>
      obtain ⟨token, mid, htoken, h⟩ := exists_of_bind h
      obtain ⟨right, last, hright, h⟩ := exists_of_bind h
      obtain ⟨-, rfl⟩ := pure_ok h
      have hkind := (takes_of_peekKind hpeek htoken).1
      have hend : token.kind ≠ .endOfText :=
        hkind ▸ (operatorOf?_eq_some_iff.mp hop).kind_ne_endOfText
      have hsign := remaining_lt_of_significant htoken hend
      have hoperand := (truncates_operandWithin (le_refl fuel) tier.operand).remaining_le hright
      rw [remaining_of_peekKind hpeek] at hsign
      exact hoperand.trans_lt hsign

theorem remaining_lt_of_nameRound {text : Option String} {state after : State}
    (h : nameRound state = .ok (some text) after) : after.remaining < state.remaining := by
  obtain ⟨found, mid, hfound, h⟩ := exists_of_bind h
  have hle := (Truncates.detect [.comma, .identifier]).remaining_le hfound
  cases found with
  | false => cases (pure_ok h).1
  | true =>
      obtain ⟨comma, second, hcomma, h⟩ := exists_of_bind h
      obtain ⟨token, third, hname, h⟩ := exists_of_bind h
      obtain ⟨-, rfl⟩ := pure_ok h
      have hfirst := remaining_lt_of_expect hcomma (by decide)
      have hsecond := remaining_lt_of_expect hname (by decide)
      exact hsecond.trans (hfirst.trans_le hle)

theorem remaining_lt_of_signRound {state after : State} (h : signRound state = .ok (some ()) after) :
    after.remaining < state.remaining := by
  obtain ⟨kind, peeked, hpeek, h⟩ := exists_of_bind h
  split at h
  · next hminus =>
      obtain ⟨token, mid, htoken, h⟩ := exists_of_bind h
      obtain ⟨-, rfl⟩ := pure_ok h
      have hkind : token.kind = .minus := (takes_of_peekKind hpeek htoken).1.trans hminus
      have hsign := remaining_lt_of_significant htoken (by simp [hkind])
      rwa [remaining_of_peekKind hpeek] at hsign
  · cases (pure_ok h).1

theorem blockWithin_goesInRounds (fuel : Nat) :
    GoesInRounds (blockWithin (fuel + 1)) (stmtRound fuel) (pure []) fun stmt => do
      let rest ← blockWithin fuel
      return stmt :: rest where
  unrolled := by
    rw [blockWithin, stmtRound, bind_assoc]
    refine bind_congr fun stmt? => ?_
    cases stmt? with
    | none => rw [pure_bind]
    | some stmt => simp only [bind_assoc, pure_bind]
  forward h := remaining_lt_of_stmtRound h

theorem operations_goesInRounds (tier : Tier) (budget fuel : Nat) (left : Expr) :
    GoesInRounds (operations (operatorOf? tier) (operandWithin budget tier.operand) (fuel + 1) left)
      (operationRound tier (operandWithin budget tier.operand) left) (pure left)
      (operations (operatorOf? tier) (operandWithin budget tier.operand) fuel) where
  unrolled := by
    rw [operations, operationRound, bind_assoc]
    refine bind_congr fun kind => ?_
    cases operatorOf? tier kind with
    | none => rw [pure_bind]
    | some op => simp only [bind_assoc, pure_bind]
  forward h := remaining_lt_of_operationRound h

theorem namesTailWithin_goesInRounds (fuel : Nat) :
    GoesInRounds (namesTailWithin (fuel + 1)) nameRound (pure []) fun text => do
      let rest ← namesTailWithin fuel
      return text.toList ++ rest where
  unrolled := by
    rw [namesTailWithin, nameRound, bind_assoc]
    refine bind_congr fun found => ?_
    cases found with
    | false => rfl
    | true => simp only [if_true, bind_assoc, pure_bind]
  forward h := remaining_lt_of_nameRound h

theorem unary_goesInRounds (operand : Parse Expr) (fuel : Nat) :
    GoesInRounds (unary operand (fuel + 1)) signRound operand fun _ => do
      let value ← unary operand fuel
      return .negate value where
  unrolled := by
    rw [unary, signRound, bind_assoc]
    refine bind_congr fun kind => ?_
    by_cases hminus : kind = .minus
    · simp only [if_pos hminus, bind_assoc, pure_bind]
    · simp only [if_neg hminus, pure_bind]
  forward h := remaining_lt_of_signRound h

/-! ### Runs -/

/-- Each statement of a list has left fewer events than there were in front of it. -/
theorem length_add_remaining_of_blockWithin {fuel : Nat} {stmts : List Stmt} {state after : State}
    (h : blockWithin fuel state = .ok stmts after) :
    stmts.length + after.remaining ≤ state.remaining := by
  induction fuel generalizing stmts state with
  | zero => cases h
  | succ fuel ih =>
      have hle := (truncates_blockWithin le_rfl).remaining_le h
      rw [(blockWithin_goesInRounds fuel).unrolled] at h
      obtain ⟨stmt?, mid, hround, h⟩ := exists_of_bind h
      cases stmt? with
      | none =>
          obtain ⟨rfl, rfl⟩ := pure_ok h
          rwa [List.length_nil, Nat.zero_add]
      | some stmt =>
          obtain ⟨rest, last, hrest, h⟩ := exists_of_bind h
          obtain ⟨rfl, rfl⟩ := pure_ok h
          have hfew := remaining_lt_of_stmtRound hround
          have hmore := ih hrest
          rw [List.length_cons]
          omega

/-- So has each name of a list behind its first one. -/
theorem length_add_remaining_of_namesTailWithin {fuel : Nat} {names : List String} {state after : State}
    (h : namesTailWithin fuel state = .ok names after) :
    names.length + after.remaining ≤ state.remaining := by
  induction fuel generalizing names state with
  | zero => cases h
  | succ fuel ih =>
      have hle := (truncates_namesTailWithin le_rfl).remaining_le h
      rw [(namesTailWithin_goesInRounds fuel).unrolled] at h
      obtain ⟨text?, mid, hround, h⟩ := exists_of_bind h
      cases text? with
      | none =>
          obtain ⟨rfl, rfl⟩ := pure_ok h
          rwa [List.length_nil, Nat.zero_add]
      | some text =>
          obtain ⟨rest, last, hrest, h⟩ := exists_of_bind h
          obtain ⟨rfl, rfl⟩ := pure_ok h
          have hfew := remaining_lt_of_nameRound hround
          have hmore := ih hrest
          have hone : text.toList.length ≤ 1 := by cases text <;> simp
          rw [List.length_append]
          omega

/-- **Parsing ends and goes forward.** From some event on, a reader hands out nothing but end tokens.
Every method of the parser ends there with a value or with a report, and every budget above the number
of characters and tokens that are left gives the same. It never leaves more events in front of the end
than it has found. Its loops over statements, operators, names and signs go in rounds, each of which
leaves fewer; so a list has no more statements, or further names, than the events that it has taken. -/
theorem methods_end_and_go_forward :
    (∀ (state : State) (n : Nat), state.remaining ≤ n →
      ∃ token, state.events.get n = .ok token ∧ token.kind = .endOfText) ∧
    (∀ {α : Type} (method : Method α) (state : State), Ends (method.run state) ∧
      (∀ fuel, state.reader.size < fuel → method.within fuel state = method.run state) ∧
      (behind (method.run state)).remaining ≤ state.remaining) ∧
    (∀ fuel, GoesInRounds (blockWithin (fuel + 1)) (stmtRound fuel) (pure []) fun stmt => do
      let rest ← blockWithin fuel
      return stmt :: rest) ∧
    (∀ tier budget fuel left, GoesInRounds
      (operations (operatorOf? tier) (operandWithin budget tier.operand) (fuel + 1) left)
      (operationRound tier (operandWithin budget tier.operand) left) (pure left)
      (operations (operatorOf? tier) (operandWithin budget tier.operand) fuel)) ∧
    (∀ fuel, GoesInRounds (namesTailWithin (fuel + 1)) nameRound (pure []) fun text => do
      let rest ← namesTailWithin fuel
      return text.toList ++ rest) ∧
    (∀ operand fuel, GoesInRounds (unary operand (fuel + 1)) signRound operand fun _ => do
      let value ← unary operand fuel
      return .negate value) ∧
    (∀ state stmts after, block state = .ok stmts after →
      stmts.length + after.remaining ≤ state.remaining) ∧
    ∀ state names after, namesTail state = .ok names after →
      names.length + after.remaining ≤ state.remaining := by
  refine ⟨fun state n hn => State.ended_of_remaining_le hn,
    fun method state => ⟨method.ends state, fun fuel hfuel => method.within_eq_run hfuel, ?_⟩,
    blockWithin_goesInRounds, operations_goesInRounds, namesTailWithin_goesInRounds,
    unary_goesInRounds, fun _ _ _ h => length_add_remaining_of_blockWithin h,
    fun _ _ _ h => length_add_remaining_of_namesTailWithin h⟩
  rw [method.run_eq]
  exact ((method.truncates le_rfl).leaves state).remaining_le

end Parser
end LoopScript
