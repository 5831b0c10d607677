import Mathlib.Data.Stream.Init
import LoopScript.Lookahead

/-! Readers as streams of events. A reader is seen from outside as the endless sequence of results that
taking one token after another would give, blanks included: tokens, lexical errors, and at last the end
token for ever. A scan may pull any number of tokens and meet any number of errors, and go on behind
them. Closing it gives back the stream as it was, less the errors that the scan has met: the characters
behind the reader have moved on, and the tokens come back from the tokens it holds.

What a scan has pulled cannot be told from the scan itself, which forgets the errors. So it is watched:
the same steps are made, and what each pull gives is noted (`performAll_look`). -/

namespace LoopScript

/-- What taking a token gives: the token, or the lexical error in its place. -/
abbrev Pulled := Except Diagnostic Token

def tokensIn (met : List Pulled) : List Token := met.filterMap Except.toOption

def reportsIn (met : List Pulled) : List Diagnostic :=
  met.filterMap fun event => match event with
    | .ok _ => none
    | .error report => some report

@[simp]
theorem tokensIn_append (met later : List Pulled) :
    tokensIn (met ++ later) = tokensIn met ++ tokensIn later := List.filterMap_append

@[simp]
theorem reportsIn_append (met later : List Pulled) :
    reportsIn (met ++ later) = reportsIn met ++ reportsIn later := List.filterMap_append

/-- Events without an error are tokens. -/
theorem eq_map_ok_of_reportsIn_eq_nil {met : List Pulled} (h : reportsIn met = []) :
    met = (tokensIn met).map .ok := by
  induction met with
  | nil => rfl
  | cons event met ih =>
      cases event with
      | ok token => exact congrArg (List.cons _) (ih h)
      | error report => cases h

namespace Reader

/-- The next token or error, and the reader behind it. -/
def poll (reader : Reader) : Pulled × Reader :=
  match next reader with
  | .ok token after => (.ok token, after)
  | .error report after => (.error report, after)

/-- The results of taking tokens one after another. -/
def events (reader : Reader) : Stream' Pulled := Stream'.corec' poll reader

theorem events_eq (reader : Reader) :
    reader.events = Stream'.cons reader.poll.1 reader.poll.2.events :=
  Stream'.corec'_eq poll reader

theorem events_of_next {reader after : Reader} {token : Token} (h : next reader = .ok token after) :
    reader.events = Stream'.cons (.ok token) after.events := by
  have hpoll : reader.poll = (.ok token, after) := by rw [poll, h]
  rw [events_eq, hpoll]

theorem events_of_next_error {reader after : Reader} {report : Diagnostic}
    (h : next reader = .error report after) :
    reader.events = Stream'.cons (.error report) after.events := by
  have hpoll : reader.poll = (.error report, after) := by rw [poll, h]
  rw [events_eq, hpoll]

/-- A token at the head of the stream is the one that is taken. -/
theorem next_of_events {reader : Reader} {token : Token} {rest : Stream' Pulled}
    (h : reader.events = Stream'.cons (.ok token) rest) :
    ∃ after, next reader = .ok token after ∧ after.events = rest := by
  cases hnext : next reader with
  | ok taken after =>
      rw [events_of_next hnext] at h
      obtain ⟨htoken, hrest⟩ := Stream'.cons_injective2 h
      obtain rfl := Except.ok.inj htoken
      exact ⟨after, rfl, hrest⟩
  | error report after =>
      rw [events_of_next_error hnext] at h
      cases (Stream'.cons_injective2 h).1

theorem events_unread (reader : Reader) (token : Token) :
    (reader.unread token).events = Stream'.cons (.ok token) reader.events :=
  events_of_next (next_unread reader token)

/-- Tokens that are put back, the last one first, are in front of the stream in their order. -/
theorem events_foldl_unread (taken : List Token) (reader : Reader) :
    (taken.foldl unread reader).events = taken.reverse.map .ok ++ₛ reader.events := by
  induction taken generalizing reader with
  | nil => rfl
  | cons token taken ih =>
      calc ((token :: taken).foldl unread reader).events
          = taken.reverse.map .ok ++ₛ (reader.unread token).events := ih (reader.unread token)
        _ = taken.reverse.map .ok ++ₛ Stream'.cons (.ok token) reader.events := by rw [events_unread]
        _ = (token :: taken).reverse.map .ok ++ₛ reader.events := by
            rw [List.reverse_cons, List.map_append, Stream'.append_append_stream]
            rfl

/-- Takes so many tokens, blank or not. -/
def takeTokens : Nat → Reading (List Token)
  | 0 => pure []
  | count + 1 => do
      let token ← next
      let rest ← takeTokens count
      return token :: rest

theorem events_of_takeTokens {count : Nat} {reader after : Reader} {ts : List Token}
    (h : takeTokens count reader = .ok ts after) : reader.events = ts.map .ok ++ₛ after.events := by
  induction count generalizing reader ts with
  | zero =>
      obtain ⟨rfl, rfl⟩ := EStateM.Result.ok.inj h
      rfl
  | succ count ih =>
      simp only [takeTokens, bind, EStateM.bind] at h
      split at h
      · next token mid hnext =>
          split at h
          · next rest last hrest =>
              obtain ⟨rfl, rfl⟩ := EStateM.Result.ok.inj h
              rw [events_of_next hnext, ih hrest]
              rfl
          · cases h
      · cases h

end Reader

namespace Lookahead

/-- A scan has gone over some events: its reader is behind them, and it has kept their tokens. -/
structure Passes (look : Lookahead) (met : List Pulled) (after : Lookahead) : Prop where
  events : look.reader.events = met ++ₛ after.reader.events
  taken : after.taken = (tokensIn met).reverse ++ look.taken

theorem Passes.refl (look : Lookahead) : Passes look [] look := ⟨rfl, rfl⟩

theorem Passes.trans {look mid after : Lookahead} {met later : List Pulled}
    (hfirst : Passes look met mid) (hsecond : Passes mid later after) :
    Passes look (met ++ later) after where
  events := by rw [hfirst.events, hsecond.events, Stream'.append_append_stream]
  taken := by
    rw [hsecond.taken, hfirst.taken, tokensIn_append, List.reverse_append, List.append_assoc]

/-- What a scan that is closed gives back: the tokens it has passed and what it has not reached. -/
theorem Passes.close_events {look after : Lookahead} {met : List Pulled}
    (h : Passes look met after) :
    after.close.events =
      (look.taken.reverse ++ tokensIn met).map .ok ++ₛ after.reader.events := by
  rw [close, Reader.events_foldl_unread, h.taken, List.reverse_append, List.reverse_reverse]

/-- The report of a step that fails, and the state that it leaves. -/
def ending {α σ : Type} : EStateM.Result Diagnostic σ α → Option Diagnostic × σ
  | .ok _ after => (none, after)
  | .error report after => (some report, after)

theorem significant_of_next {look after : Lookahead} {token : Token}
    (h : next look = .ok token after) :
    significant look = if token.kind = .space then significant after else .ok token.kind after := by
  rw [significant]
  split
  · next found mid hfound =>
      obtain ⟨rfl, rfl⟩ := EStateM.Result.ok.inj (h.symm.trans hfound)
      rfl
  · next hfound => cases h.symm.trans hfound

theorem significant_of_next_error {look after : Lookahead} {report : Diagnostic}
    (h : next look = .error report after) : significant look = .error report after := by
  rw [significant]
  split
  · next hfound => cases h.symm.trans hfound
  · next hfound =>
      obtain ⟨rfl, rfl⟩ := EStateM.Result.error.inj (hfound.symm.trans h)
      rfl

/-! ### Scans that are watched -/

/-- A scan, and what each of its pulls has given, in order. -/
structure Watched where
  look : Lookahead
  pulled : List Pulled := []

namespace Watched

def ofReader (reader : Reader) : Watched := { look := Lookahead.ofReader reader }

/-- Pulls one token, and notes what the pull has given. -/
def next : EStateM Diagnostic Watched Token := fun watched =>
  match Lookahead.next watched.look with
  | .ok token after => .ok token ⟨after, watched.pulled ++ [.ok token]⟩
  | .error report after => .error report ⟨after, watched.pulled ++ [.error report]⟩

theorem size_lt_of_next {watched after : Watched} {token : Token}
    (h : next watched = .ok token after) (htoken : token.kind ≠ .endOfText) :
    after.look.reader.size < watched.look.reader.size := by
  unfold next at h
  split at h
  · next hnext =>
      obtain ⟨rfl, rfl⟩ := EStateM.Result.ok.inj h
      exact Lookahead.size_lt_of_next hnext htoken
  · cases h

def significant (watched : Watched) : EStateM.Result Diagnostic Watched Token.Kind :=
  match _hnext : next watched with
  | .ok token after => if token.kind = .space then significant after else .ok token.kind after
  | .error report after => .error report after
termination_by watched.look.reader.size
decreasing_by exact size_lt_of_next _hnext (by simp_all)

def see : List Token.Kind → EStateM Diagnostic Watched Verdict
  | [] => fun watched => .ok (.matched watched.look.depth) watched
  | kind :: kinds => fun watched =>
      match significant watched with
      | .ok found after =>
          if found = kind then see kinds after else .ok (.rejected found after.look.depth) after
      | .error report after => .error report after

/-- The result of the scan itself. -/
def plain {α : Type} : EStateM.Result Diagnostic Watched α → EStateM.Result Diagnostic Lookahead α
  | .ok value after => .ok value after.look
  | .error report after => .error report after.look

theorem ending_plain {α : Type} (result : EStateM.Result Diagnostic Watched α) :
    Lookahead.ending (plain result) =
      ((Lookahead.ending result).1, (Lookahead.ending result).2.look) := by
  cases result <;> rfl

/-! A scan does the same whether it is watched or not. -/

theorem plain_next (watched : Watched) : plain (next watched) = Lookahead.next watched.look := by
  unfold next
  cases Lookahead.next watched.look <;> rfl

theorem plain_significant (watched : Watched) :
    plain (significant watched) = Lookahead.significant watched.look := by
  fun_induction significant watched with
  | case1 watched token after hnext hspace ih =>
      have hplain := plain_next watched
      rw [hnext] at hplain
      rw [ih, Lookahead.significant_of_next hplain.symm, if_pos hspace]
  | case2 watched token after hnext hspace =>
      have hplain := plain_next watched
      rw [hnext] at hplain
      rw [Lookahead.significant_of_next hplain.symm, if_neg hspace]
      rfl
  | case3 watched report after hnext =>
      have hplain := plain_next watched
      rw [hnext] at hplain
      exact (Lookahead.significant_of_next_error hplain.symm).symm

theorem plain_see (kinds : List Token.Kind) (watched : Watched) :
    plain (see kinds watched) = Lookahead.see kinds watched.look := by
  induction kinds generalizing watched with
  | nil => rfl
  | cons kind kinds ih =>
      unfold see Lookahead.see
      rw [← plain_significant]
      cases significant watched with
      | error report after => rfl
      | ok found after =>
          by_cases hkind : found = kind
          · simp only [plain, if_pos hkind]
            exact ih after
          · simp only [plain, if_neg hkind]

/-! A scan goes over the events that it pulls. -/

/-- What was pulled since a scan was at some place, with these errors. -/
structure Covers (look : Lookahead) (reports : List Diagnostic) (watched : Watched) : Prop where
  passes : Passes look watched.pulled watched.look
  reports_eq : reportsIn watched.pulled = reports

theorem Covers.start (look : Lookahead) : Covers look [] ⟨look, []⟩ := ⟨Passes.refl look, rfl⟩

/-- A step goes on from there, and its report is the only error that it adds. -/
def CoversFrom {α : Type} (look : Lookahead) (reports : List Diagnostic)
    (result : EStateM.Result Diagnostic Watched α) : Prop :=
  Covers look (reports ++ (Lookahead.ending result).1.toList) (Lookahead.ending result).2

variable {look : Lookahead} {reports : List Diagnostic} {watched : Watched}

/-- One more event in front of the scan is gone over. -/
theorem Covers.snoc (h : Covers look reports watched) {event : Pulled} {after : Lookahead}
    (hpull : Passes watched.look [event] after) :
    Covers look (reports ++ reportsIn [event]) ⟨after, watched.pulled ++ [event]⟩ where
  passes := h.passes.trans hpull
  reports_eq := by rw [reportsIn_append, h.reports_eq]

theorem Covers.next (h : Covers look reports watched) : CoversFrom look reports (next watched) := by
  unfold Watched.next Lookahead.next
  cases hnext : Reader.next watched.look.reader with
  | ok token reader => exact h.snoc ⟨Reader.events_of_next hnext, rfl⟩
  | error report reader =>
      have hpull : Passes watched.look [.error report] ⟨reader, watched.look.taken⟩ :=
        ⟨Reader.events_of_next_error hnext, rfl⟩
      exact h.snoc hpull

theorem Covers.significant (h : Covers look reports watched) :
    CoversFrom look reports (significant watched) := by
  fun_induction Watched.significant watched with
  | case1 watched token after hnext hspace ih =>
      have hfirst := h.next
      rw [hnext] at hfirst
      exact ih (List.append_nil reports ▸ hfirst)
  | case2 watched token after hnext hspace =>
      have hfirst := h.next
      rw [hnext] at hfirst
      exact hfirst
  | case3 watched report after hnext =>
      have hfirst := h.next
      rw [hnext] at hfirst
      exact hfirst

theorem Covers.see (h : Covers look reports watched) (kinds : List Token.Kind) :
    CoversFrom look reports (see kinds watched) := by
  induction kinds generalizing watched with
  | nil =>
      rw [CoversFrom, Watched.see, Lookahead.ending, Option.toList_none, List.append_nil]
      exact h
  | cons kind kinds ih =>
      have hfirst := h.significant
      unfold Watched.see
      cases hsignificant : Watched.significant watched with
      | error report after =>
          rw [hsignificant] at hfirst
          exact hfirst
      | ok found after =>
          rw [hsignificant] at hfirst
          by_cases hkind : found = kind
          · simp only [if_pos hkind]
            exact ih (List.append_nil reports ▸ hfirst)
          · simp only [if_neg hkind]
            exact hfirst

end Watched

/-- A step goes over events of which its report is the only error. -/
def PassesFrom {α : Type} (look : Lookahead) (result : EStateM.Result Diagnostic Lookahead α) : Prop :=
  ∃ met, Passes look met (ending result).2 ∧ reportsIn met = (ending result).1.toList

theorem Watched.CoversFrom.passesFrom {α : Type} {look : Lookahead}
    {result : EStateM.Result Diagnostic Watched α} (h : Watched.CoversFrom look [] result) :
    PassesFrom look (Watched.plain result) := by
  rw [PassesFrom, Watched.ending_plain]
  exact ⟨(ending result).2.pulled, h.passes, h.reports_eq⟩

theorem passesFrom_significant (look : Lookahead) : PassesFrom look (significant look) :=
  Watched.plain_significant ⟨look, []⟩ ▸ (Watched.Covers.start look).significant.passesFrom

theorem passesFrom_see (kinds : List Token.Kind) (look : Lookahead) :
    PassesFrom look (see kinds look) :=
  Watched.plain_see kinds ⟨look, []⟩ ▸ ((Watched.Covers.start look).see kinds).passesFrom

/-! ### Any sequence of steps on one scan -/

/-- The steps that a scan can be asked for. -/
inductive Call where
  | next
  | significant
  | see (kinds : List Token.Kind)

/-- Makes one step, and keeps the report if it fails. -/
def Call.perform : Call → Lookahead → Option Diagnostic × Lookahead
  | .next, look => ending (Lookahead.next look)
  | .significant, look => ending (Lookahead.significant look)
  | .see kinds, look => ending (Lookahead.see kinds look)

/-- Makes one step after another, also behind those that fail, and keeps the reports. -/
def performAll : List Call → Lookahead → List Diagnostic × Lookahead
  | [], look => ([], look)
  | call :: calls, look =>
      let (report?, mid) := call.perform look
      let (reports, after) := performAll calls mid
      (report?.toList ++ reports, after)

def Call.watch : Call → Watched → Option Diagnostic × Watched
  | .next, watched => ending (Watched.next watched)
  | .significant, watched => ending (Watched.significant watched)
  | .see kinds, watched => ending (Watched.see kinds watched)

/-- Makes one step after another of a scan that is watched. -/
def watchAll : List Call → Watched → List Diagnostic × Watched
  | [], watched => ([], watched)
  | call :: calls, watched =>
      let (report?, mid) := call.watch watched
      let (reports, after) := watchAll calls mid
      (report?.toList ++ reports, after)

theorem perform_look (call : Call) (watched : Watched) :
    call.perform watched.look = ((call.watch watched).1, (call.watch watched).2.look) := by
  cases call with
  | next => rw [Call.perform, ← Watched.plain_next, Watched.ending_plain, Call.watch]
  | significant => rw [Call.perform, ← Watched.plain_significant, Watched.ending_plain, Call.watch]
  | see kinds => rw [Call.perform, ← Watched.plain_see, Watched.ending_plain, Call.watch]

/-- Steps do the same whether they are watched or not. -/
theorem performAll_look (calls : List Call) (watched : Watched) :
    performAll calls watched.look = ((watchAll calls watched).1, (watchAll calls watched).2.look) := by
  induction calls generalizing watched with
  | nil => rfl
  | cons call calls ih =>
      rw [performAll, perform_look]
      dsimp only
      rw [ih]
      rfl

theorem covers_watch (call : Call) {look : Lookahead} {reports : List Diagnostic} {watched : Watched}
    (h : Watched.Covers look reports watched) :
    Watched.Covers look (reports ++ (call.watch watched).1.toList) (call.watch watched).2 := by
  cases call with
  | next => exact h.next
  | significant => exact h.significant
  | see kinds => exact h.see kinds

theorem covers_watchAll (calls : List Call) {look : Lookahead} {reports : List Diagnostic}
    {watched : Watched} (h : Watched.Covers look reports watched) :
    Watched.Covers look (reports ++ (watchAll calls watched).1) (watchAll calls watched).2 := by
  induction calls generalizing reports watched with
  | nil => exact (List.append_nil reports).symm ▸ h
  | cons call calls ih =>
      have hlater := ih (covers_watch call h)
      rw [List.append_assoc] at hlater
      exact hlater

/-! ### Looking for kinds -/

/-- The kinds of the tokens that are not blank. -/
def kindsOf (ts : List Token) : List Token.Kind := (ts.filter (·.kind ≠ .space)).map (·.kind)

theorem kindsOf_cons_space {token : Token} (h : token.kind = .space) (ts : List Token) :
    kindsOf (token :: ts) = kindsOf ts := by
  simp [kindsOf, h]

theorem kindsOf_cons {token : Token} (h : token.kind ≠ .space) (ts : List Token) :
    kindsOf (token :: ts) = token.kind :: kindsOf ts := by
  simp [kindsOf, h]

theorem kindsOf_append (ts us : List Token) : kindsOf (ts ++ us) = kindsOf ts ++ kindsOf us := by
  simp [kindsOf]

theorem next_of_reader {look : Lookahead} {token : Token} {reader : Reader}
    (h : Reader.next look.reader = .ok token reader) :
    next look = .ok token ⟨reader, token :: look.taken⟩ := by
  rw [next, h]

theorem events_of_next {look after : Lookahead} {token : Token} (h : next look = .ok token after) :
    look.reader.events = Stream'.cons (.ok token) after.reader.events := by
  unfold next at h
  split at h
  · next reader hnext =>
      obtain ⟨rfl, rfl⟩ := EStateM.Result.ok.inj h
      exact Reader.events_of_next hnext
  · cases h

theorem events_of_significant {look after : Lookahead} {kind : Token.Kind}
    (h : significant look = .ok kind after) :
    ∃ ts, look.reader.events = ts.map .ok ++ₛ after.reader.events ∧ kindsOf ts = [kind] := by
  fun_induction significant look with
  | case1 look token mid hnext hspace ih =>
      obtain ⟨ts, hevents, hkinds⟩ := ih h
      refine ⟨token :: ts, ?_, by rw [kindsOf_cons_space hspace, hkinds]⟩
      rw [events_of_next hnext, hevents]
      rfl
  | case2 look token mid hnext hspace =>
      obtain ⟨rfl, rfl⟩ := EStateM.Result.ok.inj h
      exact ⟨[token], events_of_next hnext, kindsOf_cons hspace []⟩
  | case3 => cases h

/-- The first kind of the tokens in front is the one that is met, and the others stay in front. -/
theorem significant_of_events {look : Lookahead} {ts : List Token} {rest : Stream' Pulled}
    {kind : Token.Kind} {kinds : List Token.Kind} (h : look.reader.events = ts.map .ok ++ₛ rest)
    (hkinds : kindsOf ts = kind :: kinds) :
    ∃ after us, significant look = .ok kind after ∧ after.reader.events = us.map .ok ++ₛ rest ∧
      kindsOf us = kinds := by
  induction ts generalizing look with
  | nil => cases hkinds
  | cons token ts ih =>
      obtain ⟨reader, hreader, hrest⟩ := Reader.next_of_events h
      have hnext := next_of_reader hreader
      by_cases hspace : token.kind = .space
      · rw [kindsOf_cons_space hspace] at hkinds
        have hopen : (Lookahead.mk reader (token :: look.taken)).reader.events = ts.map .ok ++ₛ rest :=
          hrest
        obtain ⟨after, us, hafter, hus, hkinds'⟩ := ih hopen hkinds
        exact ⟨after, us, by rw [significant_of_next hnext, if_pos hspace, hafter], hus, hkinds'⟩
      · rw [kindsOf_cons hspace] at hkinds
        obtain ⟨rfl, rfl⟩ := List.cons.inj hkinds
        exact ⟨_, ts, by rw [significant_of_next hnext, if_neg hspace], hrest, rfl⟩

theorem see_matches_iff (kinds : List Token.Kind) (look : Lookahead) :
    (∃ verdict after, see kinds look = .ok verdict after ∧ verdict.isMatch = true) ↔
      ∃ ts rest, look.reader.events = ts.map .ok ++ₛ rest ∧ kindsOf ts = kinds := by
  induction kinds generalizing look with
  | nil =>
      refine ⟨fun _ => ⟨[], look.reader.events, rfl, rfl⟩, fun _ => ?_⟩
      exact ⟨.matched look.depth, look, rfl, rfl⟩
  | cons kind kinds ih =>
      constructor
      · rintro ⟨verdict, after, hsee, hmatch⟩
        unfold see at hsee
        split at hsee
        · next found mid hfound =>
            split at hsee
            · next hkind =>
                obtain ⟨ts, hts, htsKinds⟩ := events_of_significant hfound
                obtain ⟨us, rest, hus, husKinds⟩ := (ih mid).mp ⟨verdict, after, hsee, hmatch⟩
                refine ⟨ts ++ us, rest, ?_, by rw [kindsOf_append, htsKinds, husKinds, hkind]; rfl⟩
                rw [hts, hus, List.map_append, Stream'.append_append_stream]
            · obtain ⟨rfl, rfl⟩ := EStateM.Result.ok.inj hsee
              cases hmatch
        · cases hsee
      · rintro ⟨ts, rest, hts, hkinds⟩
        obtain ⟨mid, us, hmid, hus, husKinds⟩ := significant_of_events hts hkinds
        obtain ⟨verdict, after, hsee, hmatch⟩ := (ih mid).mpr ⟨us, rest, hus, husKinds⟩
        refine ⟨verdict, after, ?_, hmatch⟩
        simp only [see, hmid, if_true, hsee]

/-- **Scans leave no trace.** Whatever is asked of a scan, and whether it fails or not, the scan is the
same when it is watched. Its reader is behind the events that it has pulled, and its depth is the number
of the tokens among them. Closing it leaves a stream of events from which exactly the errors that were
pulled, and reported, are gone. A scan that met no error leaves the stream as it was; so does taking
tokens and putting them back, the last one first. Looking for some kinds finds them just when the first
tokens that are not blank are of these kinds, with no error before the last of them. -/
theorem closed_scans_leave_no_trace (reader : Reader) :
    (∀ calls reports watched, watchAll calls (.ofReader reader) = (reports, watched) →
      performAll calls (ofReader reader) = (reports, watched.look) ∧
      reader.events = watched.pulled ++ₛ watched.look.reader.events ∧
      reportsIn watched.pulled = reports ∧
      watched.look.depth = (tokensIn watched.pulled).length ∧
      watched.look.close.events =
        (tokensIn watched.pulled).map .ok ++ₛ watched.look.reader.events) ∧
    (∀ calls, (performAll calls (ofReader reader)).1 = [] →
      (performAll calls (ofReader reader)).2.close.events = reader.events) ∧
    (∀ count ts after, Reader.takeTokens count reader = .ok ts after →
      (ts.reverse.foldl Reader.unread after).events = reader.events) ∧
    ∀ kinds, (∃ verdict after, see kinds (ofReader reader) = .ok verdict after ∧
        verdict.isMatch = true) ↔
      ∃ ts rest, reader.events = ts.map .ok ++ₛ rest ∧ kindsOf ts = kinds := by
  have hplain : ∀ calls, performAll calls (ofReader reader) =
      ((watchAll calls (.ofReader reader)).1, (watchAll calls (.ofReader reader)).2.look) :=
    fun calls => performAll_look calls (.ofReader reader)
  have hcovers : ∀ calls, Watched.Covers (ofReader reader) (watchAll calls (.ofReader reader)).1
      (watchAll calls (.ofReader reader)).2 :=
    fun calls => covers_watchAll calls (Watched.Covers.start (ofReader reader))
  refine ⟨fun calls reports watched hwatch => ?_, fun calls hreports => ?_,
    fun count ts after htake => ?_, fun kinds => ?_⟩
  · have hcover := hcovers calls
    have hsame := hplain calls
    rw [hwatch] at hcover hsame
    refine ⟨hsame, hcover.passes.events, hcover.reports_eq, ?_, hcover.passes.close_events⟩
    rw [depth, hcover.passes.taken, List.length_append, List.length_reverse]
    rfl
  · rw [hplain] at hreports ⊢
    obtain ⟨hpasses, hmet⟩ := hcovers calls
    have htokens := eq_map_ok_of_reportsIn_eq_nil (hmet.trans hreports)
    rw [hpasses.close_events]
    exact (htokens ▸ hpasses.events).symm
  · rw [Reader.events_foldl_unread, List.reverse_reverse, Reader.events_of_takeTokens htake]
  · exact see_matches_iff kinds (ofReader reader)

/-- A scan of `x ?y` that meets the question mark, and goes on behind it. -/
def questionCalls : List Call := [.see [.identifier, .identifier], .significant]

/-- What the pulls of that scan give. -/
def questionPulls : List Pulled :=
  [.ok ⟨.identifier, some "x", ⟨1, 1, none⟩⟩, .ok ⟨.space, none, ⟨1, 2, none⟩⟩,
    .error ((Diagnostic.Cause.unexpectedCharacter '?').reportAt ⟨1, 3, none⟩),
    .ok ⟨.identifier, some "y", ⟨1, 4, none⟩⟩]

/-- The scan keeps three tokens, and only the question mark is gone from the stream; a scan that stays in
front of it changes nothing. -/
theorem closed_scans_leave_no_trace_question :
    (∃ rest, (Reader.ofString "x ?y").events = questionPulls ++ₛ rest ∧
      (performAll questionCalls (ofReader (Reader.ofString "x ?y"))).1 = reportsIn questionPulls ∧
      (performAll questionCalls (ofReader (Reader.ofString "x ?y"))).2.depth = 3 ∧
      (performAll questionCalls (ofReader (Reader.ofString "x ?y"))).2.close.events =
        (tokensIn questionPulls).map .ok ++ₛ rest) ∧
    (performAll [.next] (ofReader (Reader.ofString "x ?y"))).1 = [] ∧
    (performAll [.next] (ofReader (Reader.ofString "x ?y"))).2.close.events =
      (Reader.ofString "x ?y").events := by
  obtain ⟨hscan, hquiet, -⟩ := closed_scans_leave_no_trace (Reader.ofString "x ?y")
  obtain ⟨hsame, hevents, hreports, hdepth, hclose⟩ := hscan questionCalls
    (watchAll questionCalls (.ofReader (Reader.ofString "x ?y"))).1
    (watchAll questionCalls (.ofReader (Reader.ofString "x ?y"))).2 rfl
  have hpulls : (watchAll questionCalls (.ofReader (Reader.ofString "x ?y"))).2.pulled =
      questionPulls := by decide +kernel
  have hnone : (performAll [.next] (ofReader (Reader.ofString "x ?y"))).1 = [] := by decide +kernel
  rw [hpulls] at hevents hreports hdepth hclose
  rw [hsame]
  exact ⟨⟨_, hevents, hreports.symm, hdepth, hclose⟩, hnone, hquiet [.next] hnone⟩

end Lookahead
end LoopScript
