import LoopScript.Proofs.Consumption
import LoopScript.Proofs.TokenOrder

/-! The tests for what comes next, and what a test leaves behind. A test that gives an answer leaves the
stream of events as it was, and so no method of the parser can tell that it was made. A test that is
stopped by a character that starts no token puts its tokens back, but this character was skipped: it is
gone from the stream, and the same test does not report it again. -/

namespace LoopScript

namespace Reader

theorem location_of_scan {reader after : Reader} {token : Token} (h : scan reader = .ok token after) :
    after.location = reader.location ∨ reader.location.Before after.location := by
  unfold scan at h
  split at h
  · obtain ⟨-, rfl⟩ := EStateM.Result.ok.inj h
    exact .inl rfl
  · split at h
    · next lexeme hlexeme =>
        obtain ⟨-, rfl⟩ := EStateM.Result.ok.inj h
        obtain ⟨-, hne⟩ := Token.Lexeme.covered_append_rest hlexeme
        exact .inr (Location.before_after _ hne)
    · cases h

/-- Reading goes forward in the text. -/
theorem location_of_next {reader after : Reader} {token : Token} (h : next reader = .ok token after) :
    after.location = reader.location ∨ reader.location.Before after.location := by
  unfold next at h
  split at h
  · obtain ⟨-, rfl⟩ := EStateM.Result.ok.inj h
    exact .inl rfl
  · exact location_of_scan h

/-- An error is about the character at the place of the reader, which is skipped. -/
theorem next_eq_error {reader after : Reader} {report : Diagnostic}
    (h : next reader = .error report after) :
    (∃ c, report = (Diagnostic.Cause.unexpectedCharacter c).reportAt reader.location) ∧
      reader.location.Before after.location := by
  unfold next scan at h
  split at h
  · cases h
  · split at h
    · cases h
    · next c rest _ =>
        split at h
        · cases h
        · obtain ⟨rfl, rfl⟩ := EStateM.Result.error.inj h
          exact ⟨⟨c, rfl⟩, Location.before_step _ c⟩

/-- The errors in front of a reader are about characters, none of them at an earlier place. -/
theorem place_of_error {reader : Reader} {n : Nat} {report : Diagnostic}
    (h : reader.events.get n = .error report) :
    (∃ c, report = (Diagnostic.Cause.unexpectedCharacter c).reportAt report.location) ∧
      (report.location = reader.location ∨ reader.location.Before report.location) := by
  induction n generalizing reader with
  | zero =>
      cases hnext : next reader with
      | ok token after =>
          rw [events_of_next hnext] at h
          cases h
      | error found after =>
          rw [events_of_next_error hnext] at h
          obtain rfl := Except.error.inj h
          obtain ⟨⟨c, rfl⟩, -⟩ := next_eq_error hnext
          exact ⟨⟨c, rfl⟩, .inl rfl⟩
  | succ n ih =>
      cases hnext : next reader with
      | ok token after =>
          rw [events_of_next hnext] at h
          obtain ⟨hreport, hplace⟩ := ih h
          refine ⟨hreport, ?_⟩
          rcases location_of_next hnext with hsame | hbefore
          · rwa [hsame] at hplace
          · exact .inr (hplace.elim (fun heq => heq ▸ hbefore) hbefore.trans)
      | error found after =>
          rw [events_of_next_error hnext] at h
          obtain ⟨hreport, hplace⟩ := ih h
          obtain ⟨-, hbefore⟩ := next_eq_error hnext
          exact ⟨hreport, .inr (hplace.elim (fun heq => heq ▸ hbefore) hbefore.trans)⟩

/-- Of two errors, the later one is at a later place. -/
theorem before_of_errors {reader : Reader} {front : List Token} {rest : Stream' Pulled}
    {report later : Diagnostic} {n : Nat}
    (h : reader.events = front.map .ok ++ₛ Stream'.cons (.error report) rest)
    (hlater : rest.get n = .error later) : report.location.Before later.location := by
  induction front generalizing reader with
  | nil =>
      cases hnext : next reader with
      | ok token after =>
          rw [events_of_next hnext] at h
          cases (Stream'.cons_injective2 h).1
      | error found after =>
          rw [events_of_next_error hnext] at h
          obtain ⟨hreport, rfl⟩ := Stream'.cons_injective2 h
          obtain rfl := Except.error.inj hreport
          obtain ⟨⟨c, rfl⟩, hbefore⟩ := next_eq_error hnext
          obtain ⟨-, hplace⟩ := place_of_error hlater
          exact hplace.elim (fun heq => heq ▸ hbefore) hbefore.trans
  | cons token front ih =>
      obtain ⟨after, -, hafter⟩ := next_of_events h
      exact ih hafter

end Reader

namespace Parser

deriving instance DecidableEq for Failure

variable {α : Type}

/-- A method sees nothing of a state but its events. -/
theorem Method.agreeing (method : Method α) {state state' : State} (h : SameEvents state state') :
    Agreeing SameEvents (method.run state) (method.run state') := by
  let fuel := max state.reader.size state'.reader.size + 1
  rw [← method.within_eq_run (Nat.lt_succ_of_le (le_max_left _ _) : state.reader.size < fuel),
    ← method.within_eq_run (Nat.lt_succ_of_le (le_max_right _ _) : state'.reader.size < fuel)]
  exact (method.truncates le_rfl).agreeing h

theorem events_of_test {test : Test} {state after : State} {found : Bool}
    (h : test.run state = .ok found after) : after.events = state.events := by
  rw [test.run_eq] at h
  obtain ⟨verdict, mid, hverdict, h⟩ := exists_of_bind h
  obtain ⟨-, rfl⟩ := EStateM.Result.ok.inj h
  have hsame : mid.events = state.events :=
    events_of_peeking (Lookahead.passesFrom_see test.kinds) hverdict
  exact hsame

/-- A test that fails has met an error, and has put back all but this error. -/
theorem events_of_test_error {test : Test} {state after : State} {failure : Failure}
    (h : test.run state = .error failure after) :
    ∃ (report : Diagnostic) (front : List Token) (rest : Stream' Pulled), failure = .report report ∧
      state.events = front.map .ok ++ₛ Stream'.cons (.error report) rest ∧
      after.events = front.map .ok ++ₛ rest := by
  rw [test.run_eq] at h
  cases hpeek : peeking (Lookahead.see test.kinds) state with
  | ok verdict mid =>
      rw [detect, bind_of_ok hpeek] at h
      cases h
  | error failed mid =>
      rw [detect, bind_of_error hpeek] at h
      obtain ⟨rfl, rfl⟩ := EStateM.Result.error.inj h
      exact events_of_peeking_error (Lookahead.passesFrom_see test.kinds) hpeek

/-- A test does not fail twice in the same way. -/
theorem outcome_ne_of_test_error {test : Test} {state after : State} {failure : Failure}
    (h : test.run state = .error failure after) : outcome (test.run after) ≠ .error failure := by
  obtain ⟨report, front, rest, rfl, hstate, hafter⟩ := events_of_test_error h
  intro hagain
  cases hresult : test.run after with
  | ok found last =>
      rw [hresult] at hagain
      cases hagain
  | error failure last =>
      rw [hresult] at hagain
      obtain rfl := Except.error.inj hagain
      obtain ⟨later, more, left, hlater, hmore, -⟩ := events_of_test_error hresult
      obtain rfl := Failure.report.inj hlater
      -- The error that is met now stands behind the tokens that were put back, so it is another one.
      have hget : (front.map .ok ++ₛ rest).get (more.map (.ok : Token → Pulled)).length =
          .error report := by
        rw [← hafter, hmore, Stream'.get_append_length]
        rfl
      obtain ⟨k, -, hk⟩ := exists_get_of_not_mem (by simp) hget
      exact (Reader.before_of_errors hstate hk).ne rfl

/-- **What a test leaves behind.** A test that answers leaves the stream of events as it was, and then
every method of the parser returns and leaves what it would have without the test. In no other case is
either of these so: a test that fails has met a character that starts no token, behind tokens that are
put back, and this character is gone; made again, the test does not return what it has returned. -/
theorem tests_are_unseen_iff_they_answer (test : Test) (state : State) :
    ((behind (test.run state)).events = state.events ↔
      ∃ found, outcome (test.run state) = .ok found) ∧
    ((∀ {α : Type} (method : Method α),
        Agreeing SameEvents (method.run (behind (test.run state))) (method.run state)) ↔
      ∃ found, outcome (test.run state) = .ok found) ∧
    ∀ failure, outcome (test.run state) = .error failure →
      (∃ (c : Char) (place : Location) (front : List Token) (rest : Stream' Pulled),
        failure = .report ((Diagnostic.Cause.unexpectedCharacter c).reportAt place) ∧
        state.events = front.map .ok ++ₛ
          Stream'.cons (.error ((Diagnostic.Cause.unexpectedCharacter c).reportAt place)) rest ∧
        (behind (test.run state)).events = front.map .ok ++ₛ rest) ∧
      outcome (test.run (behind (test.run state))) ≠ outcome (test.run state) := by
  cases hresult : test.run state with
  | ok found after =>
      have hsame : SameEvents after state := events_of_test hresult
      exact ⟨⟨fun _ => ⟨found, rfl⟩, fun _ => hsame⟩,
        ⟨fun _ => ⟨found, rfl⟩, fun _ _ method => method.agreeing hsame⟩, fun _ h => by cases h⟩
  | error failure after =>
      have hagain := outcome_ne_of_test_error hresult
      have hnone : ¬ ∃ found : Bool, (Except.error failure : Except Failure Bool) = .ok found := by
        rintro ⟨found, ⟨⟩⟩
      refine ⟨⟨fun hsame => absurd ?_ hagain, fun h => absurd h hnone⟩,
        ⟨fun hall => absurd ?_ hagain, fun h => absurd h hnone⟩, fun failed hfailed => ?_⟩
      · -- With the same events in front of it, the test would fail in the same way.
        have hsees := ((Method.test test).agreeing hsame).outcome_eq
        exact hsees.trans (congrArg outcome hresult)
      · exact (hall (.test test)).outcome_eq.trans (congrArg outcome hresult)
      · obtain rfl := Except.error.inj hfailed
        obtain ⟨report, front, rest, rfl, hstate, hafter⟩ := events_of_test_error hresult
        have hget : state.events.get (front.map (.ok : Token → Pulled)).length = .error report := by
          rw [hstate, Stream'.get_append_length]
          rfl
        obtain ⟨⟨c, hreport⟩, -⟩ := Reader.place_of_error hget
        rw [hreport] at hstate
        exact ⟨⟨c, report.location, front, rest, by rw [← hreport], hstate, hafter⟩, hagain⟩

/-- A question mark is reported once; made again, the test answers. -/
theorem failing_test_is_seen :
    outcome (detectLoop { reader := Reader.ofString "?" }) =
        .error (.report ((Diagnostic.Cause.unexpectedCharacter '?').reportAt .start)) ∧
      outcome (detectLoop (behind (detectLoop { reader := Reader.ofString "?" }))) = .ok false := by
  constructor <;> decide +kernel

end Parser
end LoopScript
