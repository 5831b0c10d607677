import LoopScript.Proofs.Expectation

/-! What it means that a parsing step follows the grammar. A step stands between two stacks of parts,
the one in front of it and the one behind it: it fails only where a token does not fit the stack, and
a failure behind it is one for the whole. A failure is a lexical error that is met, a token that does
not fit, or a comma that no name follows; that last one is noticed one token later, by the scan that
looks for a further name. Budgets count the tokens that are taken. Steps that follow the grammar can be
put one behind the other, so that a function with no choice in it is followed step by step. -/

namespace LoopScript.Parser

open Grammar

variable {α β : Type}

/-- A report is about a token that does not fit. -/
def Blames (token : Token) (report : Diagnostic) : Prop :=
  ∃ wanted, report = (Diagnostic.Cause.missing wanted token.kind).reportAt token.location

/-- How going through a stream of tokens can fail, with these parts still to come. A budget is used up
only behind as many tokens. -/
inductive Fails : Nat → List Part → Stream' (Except Diagnostic Token) → Failure → Prop
  | exhausted {parts : List Part} {s : Stream' (Except Diagnostic Token)} :
      Fails 0 parts s .outOfFuel
  | lexical {n : Nat} {parts : List Part} {s rest : Stream' (Except Diagnostic Token)}
      {report : Diagnostic} (hs : s = Stream'.cons (.error report) rest) :
      Fails n parts s (.report report)
  | rejected {n : Nat} {parts : List Part} {s rest : Stream' (Except Diagnostic Token)} {token : Token}
      {report : Diagnostic} (hs : s = Stream'.cons (.ok token) rest)
      (hadvance : advance parts token.kind = none) (hblames : Blames token report) :
      Fails n parts s (.report report)
  | dangling {n : Nat} {parts left : List Part} {s rest : Stream' (Except Diagnostic Token)}
      {comma token : Token} {report : Diagnostic}
      (hs : s = Stream'.cons (.ok comma) (Stream'.cons (.ok token) rest)) (hcomma : comma.kind = .comma)
      (hfirst : advance parts comma.kind = some left) (hsecond : advance left token.kind = none)
      (hblames : Blames comma report) : Fails n parts s (.report report)
  | illegible {n : Nat} {parts : List Part} {s rest : Stream' (Except Diagnostic Token)} {token : Token}
      {report : Diagnostic} (hs : s = Stream'.cons (.ok token) rest) (hillegible : ¬ token.Legible) :
      Fails n parts s (.report report)
  /-- A comma is passed only together with what fits behind it. -/
  | step {n : Nat} {parts left : List Part} {s rest : Stream' (Except Diagnostic Token)} {token : Token}
      {failure : Failure} (hs : s = Stream'.cons (.ok token) rest)
      (hadvance : advance parts token.kind = some left) (hend : token.kind ≠ .endOfText)
      (hcomma : token.kind = .comma → ∀ next later, rest = Stream'.cons (.ok next) later →
        advance left next.kind ≠ none)
      (later : Fails (n - 1) left rest failure) : Fails n parts s failure

variable {n fuel : Nat} {before parts : List Part} {token : Token} {state : State} {failure : Failure}
  {s rest : Stream' (Except Diagnostic Token)} {after : α → List Part}
  {result : EStateM.Result Failure State α}

theorem Fails.mono {m : Nat} (h : Fails n parts s failure) (hle : m ≤ n) : Fails m parts s failure := by
  induction h generalizing m with
  | exhausted =>
      obtain rfl := Nat.le_zero.mp hle
      exact .exhausted
  | lexical hs => exact .lexical hs
  | rejected hs hadvance hblames => exact .rejected hs hadvance hblames
  | dangling hs hcomma hfirst hsecond hblames => exact .dangling hs hcomma hfirst hsecond hblames
  | illegible hs hillegible => exact .illegible hs hillegible
  | step hs hadvance hend hcomma later ih =>
      exact .step hs hadvance hend hcomma (ih (Nat.sub_le_sub_right hle 1))

/-- Of the parts, only what they make of the next token counts. -/
theorem Fails.congr {parts' : List Part} (h : Fails n parts s failure)
    (hparts : ∀ token rest, s = Stream'.cons (.ok token) rest →
      advance parts' token.kind = advance parts token.kind) : Fails n parts' s failure := by
  cases h with
  | exhausted => exact .exhausted
  | lexical hs => exact .lexical hs
  | rejected hs hadvance hblames => exact .rejected hs ((hparts _ _ hs).trans hadvance) hblames
  | dangling hs hcomma hfirst hsecond hblames =>
      exact .dangling hs hcomma ((hparts _ _ hs).trans hfirst) hsecond hblames
  | illegible hs hillegible => exact .illegible hs hillegible
  | step hs hadvance hend hcomma later =>
      exact .step hs ((hparts _ _ hs).trans hadvance) hend hcomma later

/-- A part that may be missing is missing in front of a token that does not open it. -/
theorem Fails.missing (h : Fails n parts s failure) (part : Part) (hoptional : part.isOptional = true)
    (hopens : ∀ token rest, s = Stream'.cons (.ok token) rest → part.opens token.kind = none) :
    Fails n (part :: parts) s failure :=
  h.congr fun token rest hs => advance_of_missing (hopens token rest hs) hoptional parts

theorem cons_ok_inj {other : Token} {later : Stream' (Except Diagnostic Token)}
    (h : Stream'.cons (Except.ok token) rest = Stream'.cons (.ok other) later) :
    token = other ∧ rest = later := by
  obtain ⟨hhead, hrest⟩ := Stream'.cons_injective2 h
  exact ⟨Except.ok.inj hhead, hrest⟩

theorem Fails.missing_before (h : Fails n parts s failure) (part : Part)
    (hoptional : part.isOptional = true) (hs : s = Stream'.cons (.ok token) rest)
    (hopens : part.opens token.kind = none) : Fails n (part :: parts) s failure := by
  refine h.missing part hoptional fun other later hother => ?_
  obtain ⟨rfl, -⟩ := cons_ok_inj (hs.symm.trans hother)
  exact hopens

/-- What the result of a step says about the parts in front of it and behind it. -/
def Follows (fuel : Nat) (before : List Part) (s : Stream' (Except Diagnostic Token))
    (after : α → List Part) : EStateM.Result Failure State α → Prop
  | .ok value left => ∀ n failure, Fails n (after value) left.upcoming failure → Fails n before s failure
  | .error failure _ => Fails fuel before s failure

/-- A step that goes from some parts to others, whatever it is started on. -/
def Tracks (fuel : Nat) (before : List Part) (after : α → List Part) (step : Parse α) : Prop :=
  ∀ state : State, Follows fuel before state.upcoming after (step state)

theorem Follows.mono {m : Nat} (h : Follows n before s after result) (hle : m ≤ n) :
    Follows m before s after result := by
  cases result with
  | ok value left => exact h
  | error failure left => exact Fails.mono h hle

/-- Parts that make the same of the next token can be put in front. -/
theorem Follows.congr {before' : List Part} (h : Follows fuel before s after result)
    (hs : s = Stream'.cons (.ok token) rest)
    (hparts : advance before' token.kind = advance before token.kind) :
    Follows fuel before' s after result := by
  have hhead : ∀ other later, s = Stream'.cons (.ok other) later →
      advance before' other.kind = advance before other.kind := by
    intro other later hother
    obtain ⟨rfl, -⟩ := cons_ok_inj (hs.symm.trans hother)
    exact hparts
  cases result with
  | ok value left => exact fun n failure hfails => (h n failure hfails).congr hhead
  | error failure left => exact Fails.congr h hhead

/-- What follows behind a token follows in front of it, with a budget that is larger by one. -/
theorem Follows.step (hs : s = Stream'.cons (.ok token) rest)
    (hadvance : advance before token.kind = some parts) (hend : token.kind ≠ .endOfText)
    (hcomma : token.kind = .comma → ∀ next later, rest = Stream'.cons (.ok next) later →
      advance parts next.kind ≠ none)
    (h : Follows fuel parts rest after result) : Follows (fuel + 1) before s after result := by
  have hstep : ∀ {n failure}, Fails n parts rest failure → Fails (n + 1) before s failure :=
    fun hfails => .step hs hadvance hend hcomma hfails
  cases result with
  | ok value left =>
      intro n failure hfails
      exact (hstep (h n failure hfails)).mono (Nat.le_succ n)
  | error failure left => exact hstep h

theorem Follows.take (hs : s = Stream'.cons (.ok token) rest)
    (hadvance : advance before token.kind = some parts)
    (hkind : token.kind ≠ .endOfText ∧ token.kind ≠ .comma)
    (h : Follows fuel parts rest after result) : Follows (fuel + 1) before s after result :=
  .step hs hadvance hkind.1 (fun hcomma => absurd hcomma hkind.2) h

theorem Tracks.mono {m : Nat} {step : Parse α} (h : Tracks n before after step) (hle : m ≤ n) :
    Tracks m before after step :=
  fun state => (h state).mono hle

/-! ### One step after another -/

theorem bind_of_error {step : Parse α} {next : α → Parse β} {left : State}
    (h : step state = .error failure left) : (step >>= next) state = .error failure left := by
  show EStateM.bind step next state = .error failure left
  rw [EStateM.bind, h]

theorem tracks_pure (fuel : Nat) (parts : List Part) (value : α) :
    Tracks fuel parts (fun _ => parts) (pure value) :=
  fun _ _ _ hfails => hfails

theorem Follows.bind {mid : α → List Part} {after : β → List Part} {step : Parse α}
    {next : α → Parse β} (hstep : Follows fuel before s mid (step state))
    (hnext : ∀ value left, step state = .ok value left →
      Follows fuel (mid value) left.upcoming after (next value left)) :
    Follows fuel before s after ((step >>= next) state) := by
  cases hresult : step state with
  | error failure left =>
      rw [hresult] at hstep
      rw [bind_of_error hresult]
      exact hstep
  | ok value left =>
      rw [hresult] at hstep
      rw [bind_of_ok hresult]
      have hlater := hnext value left hresult
      cases hlast : next value left with
      | error failure last =>
          rw [hlast] at hlater
          exact hstep _ _ hlater
      | ok result last =>
          rw [hlast] at hlater
          exact fun n failure hfails => hstep _ _ (hlater n failure hfails)

theorem Tracks.bind {mid : α → List Part} {after : β → List Part} {step : Parse α}
    {next : α → Parse β} (hstep : Tracks fuel before mid step)
    (hnext : ∀ value, Tracks fuel (mid value) after (next value)) :
    Tracks fuel before after (step >>= next) :=
  fun state => (hstep state).bind fun value left _ => hnext value left

theorem tracks_record (fuel : Nat) (parts : List Part) (event : Event) :
    Tracks fuel parts (fun _ => parts) (record event) :=
  fun _ _ _ hfails => hfails

/-! ### Steps that meet a lexical error first -/

/-- A step that looks at the next token before anything else. -/
def Looks (step : Parse α) : Prop :=
  ∀ ⦃state : State⦄ ⦃report : Diagnostic⦄ ⦃rest : Stream' (Except Diagnostic Token)⦄,
    state.upcoming = Stream'.cons (.error report) rest → ∃ left, step state = .error (.report report) left

theorem Looks.bind {step : Parse α} (h : Looks step) (next : α → Parse β) : Looks (step >>= next) := by
  intro state report rest hstate
  obtain ⟨left, hleft⟩ := h hstate
  exact ⟨left, bind_of_error hleft⟩

theorem skipSpaces_of_error {reader : Reader} {report : Diagnostic}
    (h : reader.upcoming = Stream'.cons (.error report) rest) :
    ∃ after, reader.skipSpaces = .error report after := by
  cases hskip : reader.skipSpaces with
  | ok token after =>
      rw [Reader.upcoming_of_ok hskip] at h
      have hhead := (Stream'.cons_injective2 h).1
      cases hhead
  | error found after =>
      rw [Reader.upcoming_of_error hskip] at h
      have hhead := (Stream'.cons_injective2 h).1
      rw [Except.error.inj hhead]
      exact ⟨after, rfl⟩

theorem significant_looks : Looks significant := by
  intro state report rest hstate
  obtain ⟨reader, hskip⟩ := skipSpaces_of_error hstate
  exact ⟨{ state with reader := reader }, by simp only [significant, reading, hskip]⟩

theorem lookahead_of_error {look : Lookahead} {report : Diagnostic}
    (h : look.reader.upcoming = Stream'.cons (.error report) rest) :
    ∃ after, Lookahead.significant look = .error report after := by
  obtain ⟨reader, hskip⟩ := skipSpaces_of_error h
  obtain ⟨blanks, -, hfound⟩ := Lookahead.significant_eq look
  rw [hskip] at hfound
  exact ⟨_, hfound⟩

theorem peekKind_looks : Looks peekKind := by
  intro state report rest hstate
  have hopen : (Lookahead.ofReader state.reader).reader.upcoming = _ := hstate
  obtain ⟨look, hlook⟩ := lookahead_of_error hopen
  exact ⟨{ state with reader := look.close }, by simp only [peekKind, peeking, hlook]⟩

/-- What stops a scan stops detecting. -/
theorem detect_of_see_error {kinds : List Token.Kind} {report : Diagnostic} {look : Lookahead}
    (h : Lookahead.see kinds (Lookahead.ofReader state.reader) = .error report look) :
    ∃ left, detect kinds state = .error (.report report) left := by
  have hpeek : peeking (Lookahead.see kinds) state =
      .error (.report report) { state with reader := look.close } := by
    rw [peeking, h]
  exact ⟨_, bind_of_error hpeek⟩

theorem see_of_error {look : Lookahead} {report : Diagnostic}
    (h : look.reader.upcoming = Stream'.cons (.error report) rest) (kind : Token.Kind)
    (kinds : List Token.Kind) : ∃ after, Lookahead.see (kind :: kinds) look = .error report after := by
  obtain ⟨after, hafter⟩ := lookahead_of_error h
  exact ⟨after, by simp only [Lookahead.see, hafter]⟩

theorem detect_looks (kind : Token.Kind) (kinds : List Token.Kind) : Looks (detect (kind :: kinds)) := by
  intro state report rest hstate
  have hopen : (Lookahead.ofReader state.reader).reader.upcoming = _ := hstate
  obtain ⟨look, hlook⟩ := see_of_error hopen kind kinds
  exact detect_of_see_error hlook

theorem head_cases (s : Stream' (Except Diagnostic Token)) :
    (∃ report rest, s = Stream'.cons (.error report) rest) ∨
      ∃ token rest, s = Stream'.cons (.ok token) rest := by
  rw [← Stream'.eta s]
  cases s.head with
  | error report => exact .inl ⟨report, s.tail, rfl⟩
  | ok token => exact .inr ⟨token, s.tail, rfl⟩

/-- A step that looks at the next token first only has to be followed where there is one. -/
theorem Looks.tracks {step : Parse α} (hlooks : Looks step)
    (h : ∀ ⦃state : State⦄ ⦃token : Token⦄ ⦃rest : Stream' (Except Diagnostic Token)⦄,
      state.upcoming = Stream'.cons (.ok token) rest →
      Follows fuel before state.upcoming after (step state)) : Tracks fuel before after step := by
  intro state
  rcases head_cases state.upcoming with ⟨report, rest, hstate⟩ | ⟨token, rest, hstate⟩
  · obtain ⟨left, hleft⟩ := hlooks hstate
    rw [hleft]
    exact Fails.lexical hstate
  · exact h hstate

/-! ### One token of a kind -/

theorem advance_token_of_ne {kind found : Token.Kind} (h : found ≠ kind) (parts : List Part) :
    advance (.token kind :: parts) found = none := by
  simp [advance, Part.opens, Part.isOptional, h]

theorem advance_token (kind : Token.Kind) (parts : List Part) :
    advance (.token kind :: parts) kind = some parts := by
  simp [advance, Part.opens]

theorem expect_of_ne {kind : Token.Kind} (wanted : Diagnostic.Wanted)
    (h : state.upcoming = Stream'.cons (.ok token) rest) (hkind : token.kind ≠ kind) :
    ∃ left, expect kind wanted state =
      .error (.report ((Diagnostic.Cause.missing wanted token.kind).reportAt token.location)) left := by
  obtain ⟨mid, htoken, -⟩ := significant_of_upcoming h
  refine ⟨mid, ?_⟩
  rw [expect, bind_of_ok htoken, if_neg hkind]
  rfl

theorem expect_looks (kind : Token.Kind) (wanted : Diagnostic.Wanted) : Looks (expect kind wanted) :=
  significant_looks.bind _

/-- A token that has to be of some kind, and then further steps. -/
theorem Tracks.expect {kind : Token.Kind} {next : Token → Parse α} (wanted : Diagnostic.Wanted)
    (hkind : kind ≠ .endOfText ∧ kind ≠ .comma)
    (hnext : ∀ token, Tracks fuel parts after (next token)) :
    Tracks (fuel + 1) (.token kind :: parts) after (expect kind wanted >>= next) := by
  refine ((expect_looks kind wanted).bind next).tracks fun state token rest hstate => ?_
  by_cases hfound : token.kind = kind
  · obtain ⟨mid, hmid, hrest⟩ := expect_of_upcoming wanted hstate hfound
    subst hfound
    rw [bind_of_ok hmid]
    refine Follows.take hstate (advance_token _ parts) hkind ?_
    rw [← hrest]
    exact hnext token mid
  · obtain ⟨left, hleft⟩ := expect_of_ne wanted hstate hfound
    rw [bind_of_error hleft]
    exact Fails.rejected hstate (advance_token_of_ne hfound parts) ⟨wanted, rfl⟩

theorem Tracks.expect_within {kind : Token.Kind} {next : Token → Parse α} (wanted : Diagnostic.Wanted)
    (hkind : kind ≠ .endOfText ∧ kind ≠ .comma)
    (hnext : ∀ token, Tracks fuel parts after (next token)) :
    Tracks fuel (.token kind :: parts) after (Parser.expect kind wanted >>= next) :=
  (Tracks.expect wanted hkind hnext).mono (Nat.le_succ fuel)

end LoopScript.Parser
