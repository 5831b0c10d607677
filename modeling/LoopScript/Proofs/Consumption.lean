import LoopScript.Proofs.Budgets
import LoopScript.Proofs.EventStream

/-! Parsing steps on the stream of events, blanks included. What a step returns, and the stream that it
leaves, depend on nothing but the stream in front of it: where the reader keeps its tokens does not
matter. A step that returns a value has taken tokens from the front of the stream. A step that fails
has taken what it has gone over, or has put its tokens back and lost the error that stopped it. -/

namespace LoopScript

/-- Two results with one value or one failure, and with states that are the same in some respect. -/
inductive Agreeing {ε σ α : Type} (same : σ → σ → Prop) :
    EStateM.Result ε σ α → EStateM.Result ε σ α → Prop
  | ok {value : α} {left right : σ} (h : same left right) : Agreeing same (.ok value left) (.ok value right)
  | error {failure : ε} {left right : σ} (h : same left right) :
      Agreeing same (.error failure left) (.error failure right)

def outcome {ε σ α : Type} : EStateM.Result ε σ α → Except ε α
  | .ok value _ => .ok value
  | .error failure _ => .error failure

def behind {ε σ α : Type} : EStateM.Result ε σ α → σ
  | .ok _ left => left
  | .error _ left => left

namespace Agreeing

variable {ε σ α : Type} {same : σ → σ → Prop} {result result' : EStateM.Result ε σ α} {left : σ}

theorem of_ok {value : α} (h : Agreeing same result result') (hresult : result = .ok value left) :
    ∃ right, result' = .ok value right ∧ same left right := by
  subst hresult
  cases h with
  | ok h => exact ⟨_, rfl, h⟩

theorem of_error {failure : ε} (h : Agreeing same result result')
    (hresult : result = .error failure left) :
    ∃ right, result' = .error failure right ∧ same left right := by
  subst hresult
  cases h with
  | error h => exact ⟨_, rfl, h⟩

theorem outcome_eq (h : Agreeing same result result') : outcome result = outcome result' := by
  cases h <;> rfl

end Agreeing

/-- What is left of a stream once a front of it was gone over: behind the front nothing is lost, and
inside of it nothing is added. -/
def Sheds (s left : Stream' Pulled) : Prop :=
  ∃ met kept rest, s = met ++ₛ rest ∧ left = kept ++ₛ rest ∧ List.Sublist kept met

theorem Sheds.refl (s : Stream' Pulled) : Sheds s s := ⟨[], [], s, rfl, rfl, List.Sublist.refl []⟩

theorem Sheds.of_append {s mid left : Stream' Pulled} {front : List Pulled} (hfront : s = front ++ₛ mid)
    (h : Sheds mid left) : Sheds s left := by
  obtain ⟨met, kept, rest, hmet, hkept, hsub⟩ := h
  refine ⟨front ++ met, kept, rest, ?_, hkept, hsub.trans (List.sublist_append_right front met)⟩
  rw [hfront, hmet, Stream'.append_append_stream]

/-- One error among tokens. -/
theorem exists_of_reportsIn_eq_singleton {met : List Pulled} {report : Diagnostic}
    (h : reportsIn met = [report]) :
    ∃ front behind : List Token, met = front.map .ok ++ .error report :: behind.map .ok ∧
      tokensIn met = front ++ behind := by
  induction met with
  | nil => cases h
  | cons event met ih =>
      cases event with
      | ok token =>
          obtain ⟨front, behind, hmet, htokens⟩ := ih h
          exact ⟨token :: front, behind, by rw [hmet]; rfl, congrArg (List.cons token) htokens⟩
      | error found =>
          obtain ⟨rfl, hnone⟩ := List.cons.inj h
          refine ⟨[], tokensIn met, ?_, rfl⟩
          rw [← eq_map_ok_of_reportsIn_eq_nil hnone]
          rfl

/-- An event that is not in a front is behind it. -/
theorem exists_get_of_not_mem {met : List Pulled} {s : Stream' Pulled} {event : Pulled}
    (hmet : event ∉ met) {n : Nat} (h : (met ++ₛ s).get n = event) :
    ∃ m, n = met.length + m ∧ s.get m = event := by
  induction met generalizing n with
  | nil => exact ⟨n, (Nat.zero_add n).symm, h⟩
  | cons first met ih =>
      obtain ⟨hfirst, hlater⟩ := not_or.mp (mt List.mem_cons.mpr hmet)
      cases n with
      | zero => exact absurd h.symm hfirst
      | succ n =>
          obtain ⟨m, rfl, hm⟩ := ih hlater h
          exact ⟨m, by rw [List.length_cons]; omega, hm⟩

namespace Reader

/-- Readers with one stream of events. -/
def SameEvents (left right : Reader) : Prop := left.events = right.events

theorem agreeing_next {left right : Reader} (h : SameEvents left right) :
    Agreeing SameEvents (next left) (next right) := by
  cases hleft : next left with
  | ok token mid =>
      obtain ⟨other, hother, hrest⟩ := next_of_events (h.symm.trans (events_of_next hleft))
      rw [hother]
      exact .ok hrest.symm
  | error report mid =>
      have hevents : right.events = _ := h.symm.trans (events_of_next_error hleft)
      cases hright : next right with
      | ok token other =>
          cases (Stream'.cons_injective2 ((events_of_next hright).symm.trans hevents)).1
      | error found other =>
          obtain ⟨hreport, hrest⟩ :=
            Stream'.cons_injective2 ((events_of_next_error hright).symm.trans hevents)
          rw [Except.error.inj hreport]
          exact .error hrest.symm

theorem agreeing_skipSpaces {left right : Reader} (h : SameEvents left right) :
    Agreeing SameEvents left.skipSpaces right.skipSpaces := by
  fun_induction skipSpaces left generalizing right with
  | case1 left token mid hnext hspace ih =>
      obtain ⟨other, hother, hrest⟩ := (agreeing_next h).of_ok hnext
      rw [skipSpaces_of_next_space hother hspace]
      exact ih hrest
  | case2 left token mid hnext hspace =>
      obtain ⟨other, hother, hrest⟩ := (agreeing_next h).of_ok hnext
      rw [skipSpaces_of_next hother hspace]
      exact .ok hrest
  | case3 left report mid hnext =>
      obtain ⟨other, hother, hrest⟩ := (agreeing_next h).of_error hnext
      rw [skipSpaces_of_next_error hother]
      exact .error hrest

/-- A token that is met stands behind blanks. -/
theorem events_of_skipSpaces {reader after : Reader} {token : Token}
    (h : reader.skipSpaces = .ok token after) :
    ∃ blanks : List Token, (∀ blank ∈ blanks, blank.kind = .space) ∧
      reader.events = (blanks ++ [token]).map .ok ++ₛ after.events := by
  fun_induction skipSpaces reader with
  | case1 reader taken mid hnext hspace ih =>
      obtain ⟨blanks, hblanks, hevents⟩ := ih h
      refine ⟨taken :: blanks, List.forall_mem_cons.mpr ⟨hspace, hblanks⟩, ?_⟩
      rw [events_of_next hnext, hevents]
      rfl
  | case2 reader taken mid hnext hspace =>
      obtain ⟨rfl, rfl⟩ := EStateM.Result.ok.inj h
      exact ⟨[], by simp, events_of_next hnext⟩
  | case3 => cases h

/-- An error that is met stands behind blanks. -/
theorem events_of_skipSpaces_error {reader after : Reader} {report : Diagnostic}
    (h : reader.skipSpaces = .error report after) :
    ∃ blanks : List Token, reader.events = (blanks.map .ok ++ [.error report]) ++ₛ after.events := by
  fun_induction skipSpaces reader with
  | case1 reader taken mid hnext hspace ih =>
      obtain ⟨blanks, hevents⟩ := ih h
      refine ⟨taken :: blanks, ?_⟩
      rw [events_of_next hnext, hevents]
      rfl
  | case2 => cases h
  | case3 reader found mid hnext =>
      obtain ⟨rfl, rfl⟩ := EStateM.Result.error.inj h
      exact ⟨[], events_of_next_error hnext⟩

end Reader

namespace Lookahead

/-- Scans that have pulled the same tokens and have one stream of events in front of them. -/
def SameEvents (left right : Lookahead) : Prop :=
  left.taken = right.taken ∧ left.reader.events = right.reader.events

theorem agreeing_next {left right : Lookahead} (h : SameEvents left right) :
    Agreeing SameEvents (next left) (next right) := by
  cases hleft : Reader.next left.reader with
  | ok token mid =>
      obtain ⟨other, hother, hrest⟩ := (Reader.agreeing_next h.2).of_ok hleft
      rw [next_of_reader hleft, next_of_reader hother]
      exact .ok ⟨congrArg (List.cons token) h.1, hrest⟩
  | error report mid =>
      obtain ⟨other, hother, hrest⟩ := (Reader.agreeing_next h.2).of_error hleft
      rw [next, next, hleft, hother]
      exact .error ⟨h.1, hrest⟩

theorem agreeing_significant {left right : Lookahead} (h : SameEvents left right) :
    Agreeing SameEvents (significant left) (significant right) := by
  fun_induction significant left generalizing right with
  | case1 left token mid hnext hspace ih =>
      obtain ⟨other, hother, hrest⟩ := (agreeing_next h).of_ok hnext
      rw [significant_of_next hother, if_pos hspace]
      exact ih hrest
  | case2 left token mid hnext hspace =>
      obtain ⟨other, hother, hrest⟩ := (agreeing_next h).of_ok hnext
      rw [significant_of_next hother, if_neg hspace]
      exact .ok hrest
  | case3 left report mid hnext =>
      obtain ⟨other, hother, hrest⟩ := (agreeing_next h).of_error hnext
      rw [significant_of_next_error hother]
      exact .error hrest

theorem agreeing_see (kinds : List Token.Kind) {left right : Lookahead} (h : SameEvents left right) :
    Agreeing SameEvents (see kinds left) (see kinds right) := by
  induction kinds generalizing left right with
  | nil =>
      show Agreeing SameEvents (.ok (Verdict.matched left.depth) left)
        (.ok (Verdict.matched right.depth) right)
      rw [depth, depth, h.1]
      exact .ok h
  | cons kind kinds ih =>
      unfold see
      cases hleft : significant left with
      | ok found mid =>
          obtain ⟨other, hother, hrest⟩ := (agreeing_significant h).of_ok hleft
          rw [hother]
          by_cases hkind : found = kind
          · simp only [if_pos hkind]
            exact ih hrest
          · simp only [if_neg hkind, depth, hrest.1]
            exact .ok hrest
      | error report mid =>
          obtain ⟨other, hother, hrest⟩ := (agreeing_significant h).of_error hleft
          rw [hother]
          exact .error hrest

theorem SameEvents.close {left right : Lookahead} (h : SameEvents left right) :
    left.close.events = right.close.events := by
  rw [Lookahead.close, Lookahead.close, Reader.events_foldl_unread, Reader.events_foldl_unread, h.1, h.2]

end Lookahead

namespace Parser

variable {α β : Type}

def State.events (state : State) : Stream' Pulled := state.reader.events

/-- Parsing states with one stream of events. -/
def SameEvents (left right : State) : Prop := left.events = right.events

theorem agreeing_reading {step : Reading α} {state state' : State}
    (h : Agreeing Reader.SameEvents (step state.reader) (step state'.reader)) :
    Agreeing SameEvents (reading step state) (reading step state') := by
  unfold reading
  cases hleft : step state.reader with
  | ok value mid =>
      obtain ⟨other, hother, hrest⟩ := h.of_ok hleft
      rw [hother]
      exact .ok hrest
  | error report mid =>
      obtain ⟨other, hother, hrest⟩ := h.of_error hleft
      rw [hother]
      exact .error hrest

theorem agreeing_peeking {scan : EStateM Diagnostic Lookahead α}
    (hscan : ∀ {left right : Lookahead}, Lookahead.SameEvents left right →
      Agreeing Lookahead.SameEvents (scan left) (scan right))
    {state state' : State} (h : SameEvents state state') :
    Agreeing SameEvents (peeking scan state) (peeking scan state') := by
  have hopen : Lookahead.SameEvents (.ofReader state.reader) (.ofReader state'.reader) := ⟨rfl, h⟩
  unfold peeking
  cases hleft : scan (.ofReader state.reader) with
  | ok value look =>
      obtain ⟨other, hother, hrest⟩ := (hscan hopen).of_ok hleft
      rw [hother]
      exact .ok hrest.close
  | error report look =>
      obtain ⟨other, hother, hrest⟩ := (hscan hopen).of_error hleft
      rw [hother]
      exact .error hrest.close

theorem agreeing_bind {same : State → State → Prop} {step step' : Parse α} {next next' : α → Parse β}
    {state state' : State} (hstep : Agreeing same (step state) (step' state'))
    (hnext : ∀ value mid mid', same mid mid' → Agreeing same (next value mid) (next' value mid')) :
    Agreeing same ((step >>= next) state) ((step' >>= next') state') := by
  cases hleft : step state with
  | ok value mid =>
      obtain ⟨other, hother, hrest⟩ := hstep.of_ok hleft
      rw [bind_of_ok hleft, bind_of_ok hother]
      exact hnext value mid other hrest
  | error failure mid =>
      obtain ⟨other, hother, hrest⟩ := hstep.of_error hleft
      rw [bind_of_error hleft, bind_of_error hother]
      exact .error hrest

theorem agreeing_target {state state' : State} (h : SameEvents state state') :
    Agreeing SameEvents (target state) (target state') := by
  refine agreeing_bind (agreeing_reading (Reader.agreeing_skipSpaces h)) ?_
  intro token mid mid' hmid
  by_cases hname : token.kind = .identifier
  · rw [if_pos hname]
    exact .ok hmid
  · rw [if_neg hname]
    refine .ok ?_
    show (mid.reader.unread token).events = (mid'.reader.unread token).events
    rw [Reader.events_unread, Reader.events_unread]
    exact congrArg (Stream'.cons _) hmid

/-- A parsing step sees nothing of a state but its events. -/
theorem Truncates.agreeing {step whole : Parse α} (h : Truncates step whole) {state state' : State}
    (hstate : SameEvents state state') : Agreeing SameEvents (step state) (step state') := by
  induction h generalizing state state' with
  | pure | record => exact .ok hstate
  | fail | exhausted => exact .error hstate
  | significant => exact agreeing_reading (Reader.agreeing_skipSpaces hstate)
  | peekKind => exact agreeing_peeking Lookahead.agreeing_significant hstate
  | detect kinds =>
      refine agreeing_bind (agreeing_peeking (Lookahead.agreeing_see kinds) hstate) ?_
      intro verdict mid mid' hmid
      exact .ok hmid
  | target => exact agreeing_target hstate
  | bind _ _ ihstep ihnext =>
      exact agreeing_bind (ihstep hstate) fun value mid mid' hmid => ihnext value hmid

/-! ### What is left of the stream -/

/-- A scan that is put back leaves the stream as it was, if it has met no error. -/
theorem events_of_peeking {scan : EStateM Diagnostic Lookahead α} {state after : State} {value : α}
    (hscan : ∀ look, Lookahead.PassesFrom look (scan look)) (h : peeking scan state = .ok value after) :
    after.events = state.events := by
  unfold peeking at h
  obtain ⟨met, hmet, hreports⟩ := hscan (.ofReader state.reader)
  split at h
  · next look hlook =>
      obtain ⟨rfl, rfl⟩ := EStateM.Result.ok.inj h
      rw [hlook] at hmet hreports
      have htokens : met = (tokensIn met).map .ok := eq_map_ok_of_reportsIn_eq_nil hreports
      calc look.close.events
          = (tokensIn met).map .ok ++ₛ look.reader.events := hmet.close_events
        _ = met ++ₛ look.reader.events := by rw [← htokens]
        _ = state.events := hmet.events.symm
  · cases h

/-- A scan that is put back after an error has lost this error, and nothing else. -/
theorem events_of_peeking_error {scan : EStateM Diagnostic Lookahead α} {state after : State}
    {failure : Failure} (hscan : ∀ look, Lookahead.PassesFrom look (scan look))
    (h : peeking scan state = .error failure after) :
    ∃ (report : Diagnostic) (front : List Token) (behind : Stream' Pulled), failure = .report report ∧
      state.events = front.map .ok ++ₛ Stream'.cons (.error report) behind ∧
      after.events = front.map .ok ++ₛ behind := by
  unfold peeking at h
  obtain ⟨met, hmet, hreports⟩ := hscan (.ofReader state.reader)
  split at h
  · cases h
  · next report look hlook =>
      obtain ⟨rfl, rfl⟩ := EStateM.Result.error.inj h
      rw [hlook] at hmet hreports
      obtain ⟨front, behind, hsplit, htokens⟩ := exists_of_reportsIn_eq_singleton hreports
      refine ⟨report, front, behind.map .ok ++ₛ look.reader.events, rfl, ?_, ?_⟩
      · have hevents : state.events = met ++ₛ look.reader.events := hmet.events
        rw [hevents, hsplit, Stream'.append_append_stream]
        rfl
      · have hclose : look.close.events = (tokensIn met).map .ok ++ₛ look.reader.events :=
          hmet.close_events
        show look.close.events = _
        rw [hclose, htokens, List.map_append, Stream'.append_append_stream]

/-- What a step does to the stream. A value comes behind tokens that are taken; a failure leaves what
is left of some front. -/
def Leaves (s : Stream' Pulled) : EStateM.Result Failure State α → Prop
  | .ok _ after => ∃ front : List Token, s = front.map .ok ++ₛ after.events
  | .error _ after => Sheds s after.events

theorem leaves_bind {s : Stream' Pulled} {step : Parse α} {next : α → Parse β} {state : State}
    (hstep : Leaves s (step state))
    (hnext : ∀ value mid, step state = .ok value mid → Leaves mid.events (next value mid)) :
    Leaves s ((step >>= next) state) := by
  cases hresult : step state with
  | error failure mid =>
      rw [hresult] at hstep
      rw [bind_of_error hresult]
      exact hstep
  | ok value mid =>
      rw [hresult] at hstep
      obtain ⟨front, hfront⟩ := hstep
      have hlater := hnext value mid hresult
      rw [bind_of_ok hresult]
      cases hlast : next value mid with
      | ok result last =>
          rw [hlast] at hlater
          obtain ⟨more, hmore⟩ := hlater
          refine ⟨front ++ more, ?_⟩
          rw [hfront, hmore, List.map_append, Stream'.append_append_stream]
      | error failure last =>
          rw [hlast] at hlater
          exact Sheds.of_append hfront hlater

theorem leaves_peeking {scan : EStateM Diagnostic Lookahead α}
    (hscan : ∀ look, Lookahead.PassesFrom look (scan look)) (state : State) :
    Leaves state.events (peeking scan state) := by
  cases hpeek : peeking scan state with
  | ok value after => exact ⟨[], (events_of_peeking hscan hpeek).symm⟩
  | error failure after =>
      obtain ⟨report, front, behind, -, hevents, hafter⟩ := events_of_peeking_error hscan hpeek
      refine ⟨front.map .ok ++ [.error report], front.map .ok, behind, ?_, hafter,
        List.sublist_append_left _ _⟩
      rw [hevents, Stream'.append_append_stream]
      rfl

theorem events_of_significant {state after : State} {token : Token}
    (h : significant state = .ok token after) :
    ∃ blanks : List Token, (∀ blank ∈ blanks, blank.kind = .space) ∧
      state.events = (blanks ++ [token]).map .ok ++ₛ after.events :=
  Reader.events_of_skipSpaces (skipSpaces_of_significant h)

/-- A token that was expected is the one that comes next. -/
theorem significant_of_expect {kind : Token.Kind} {wanted : Diagnostic.Wanted} {state after : State}
    {token : Token} (h : expect kind wanted state = .ok token after) :
    token.kind = kind ∧ significant state = .ok token after := by
  obtain ⟨found, mid, hfound, h⟩ := exists_of_bind h
  split at h
  · next hkind =>
      obtain ⟨rfl, rfl⟩ := pure_ok h
      exact ⟨hkind, hfound⟩
  · cases h

theorem leaves_significant (state : State) : Leaves state.events (significant state) := by
  cases hresult : significant state with
  | ok token after =>
      obtain ⟨blanks, -, hevents⟩ := events_of_significant hresult
      exact ⟨blanks ++ [token], hevents⟩
  | error failure after =>
      unfold significant reading at hresult
      split at hresult
      · cases hresult
      · next report reader hskip =>
          obtain ⟨rfl, rfl⟩ := EStateM.Result.error.inj hresult
          obtain ⟨blanks, hevents⟩ := Reader.events_of_skipSpaces_error hskip
          exact ⟨_, [], reader.events, hevents, rfl, List.nil_sublist _⟩

/-- A token that is no target is put back, and only the blanks in front of it are gone. -/
theorem leaves_target (state : State) : Leaves state.events (target state) := by
  cases hresult : significant state with
  | error failure after =>
      have hleaves := leaves_significant state
      rw [hresult] at hleaves
      rw [target, bind_of_error hresult]
      exact hleaves
  | ok token mid =>
      obtain ⟨blanks, -, hevents⟩ := events_of_significant hresult
      rw [target, bind_of_ok hresult]
      by_cases hname : token.kind = .identifier
      · rw [if_pos hname]
        exact ⟨blanks ++ [token], hevents⟩
      · rw [if_neg hname]
        refine ⟨blanks, ?_⟩
        show state.events = blanks.map .ok ++ₛ (mid.reader.unread token).events
        rw [hevents, List.map_append, Stream'.append_append_stream, Reader.events_unread]
        rfl

theorem Truncates.leaves {step whole : Parse α} (h : Truncates step whole) (state : State) :
    Leaves state.events (step state) := by
  induction h generalizing state with
  | pure | record => exact ⟨[], rfl⟩
  | fail | exhausted => exact Sheds.refl _
  | significant => exact leaves_significant state
  | peekKind => exact leaves_peeking Lookahead.passesFrom_significant state
  | detect kinds =>
      refine leaves_bind (leaves_peeking (Lookahead.passesFrom_see kinds) state) ?_
      exact fun verdict mid _ => ⟨[], rfl⟩
  | target => exact leaves_target state
  | bind _ _ ihstep ihnext =>
      exact leaves_bind (ihstep state) fun value mid _ => ihnext value mid

end Parser
end LoopScript
