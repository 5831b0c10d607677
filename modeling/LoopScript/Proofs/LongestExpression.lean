import LoopScript.Proofs.Progress

/-! How far an expression goes. An expression takes tokens from the front of the stream, blanks
included, up to a token of its own: blanks behind that one are put back, and so is the token that ends
the expression, which is none of the binary operators. So it takes the longest front that is an
expression, and when a front that is one stands before a token that cannot go on, that front is what it
takes. -/

namespace LoopScript

open Grammar (Inside)

/-! ### Fronts of streams -/

/-- A stream with an end token does not start over behind tokens in front of the end. -/
theorem eq_nil_of_append_eq {front : List Token} {s : Stream' Pulled} (hfront : Inside front)
    (h : s = front.map .ok ++ₛ s) {n : Nat} {token : Token} (hn : s.get n = .ok token)
    (hkind : token.kind = .endOfText) : front = [] := by
  induction n using Nat.strong_induction_on with
  | _ n ih =>
      by_contra hne
      have hpos := List.length_pos_iff.mpr hne
      have hlater : (front.map .ok ++ₛ s).get n = .ok token := h ▸ hn
      have hinside : (.ok token : Pulled) ∉ front.map .ok := by
        intro hmem
        obtain ⟨other, hother, heq⟩ := List.mem_map.mp hmem
        exact hfront other hother (Except.ok.inj heq ▸ hkind)
      obtain ⟨m, rfl, hm⟩ := exists_get_of_not_mem hinside hlater
      rw [List.length_map] at ih
      exact hne (ih m (by omega) hm)

/-- Of two fronts of one stream, one goes on where the other ends. -/
theorem append_stream_cases {front other : List Token} {s t : Stream' Pulled}
    (h : front.map .ok ++ₛ s = other.map .ok ++ₛ t) :
    (∃ more, other = front ++ more ∧ s = more.map .ok ++ₛ t) ∨
      ∃ more, front = other ++ more ∧ t = more.map .ok ++ₛ s := by
  induction front generalizing other with
  | nil => exact .inl ⟨other, rfl, h⟩
  | cons first front ih =>
      cases other with
      | nil => exact .inr ⟨first :: front, rfl, h.symm⟩
      | cons first' other =>
          obtain ⟨hfirst, hlater⟩ := Stream'.cons_injective2 h
          obtain rfl := Except.ok.inj hfirst
          rcases ih hlater with ⟨more, rfl, hmore⟩ | ⟨more, rfl, hmore⟩
          · exact .inl ⟨more, rfl, hmore⟩
          · exact .inr ⟨more, rfl, hmore⟩

/-- What stands before the rest of a stream is told by the rest. -/
theorem front_unique {front other : List Token} {s : Stream' Pulled} (hfront : Inside front)
    (hother : Inside other) (h : front.map .ok ++ₛ s = other.map .ok ++ₛ s) {n : Nat} {token : Token}
    (hn : s.get n = .ok token) (hkind : token.kind = .endOfText) : front = other := by
  rcases append_stream_cases h with ⟨more, rfl, hmore⟩ | ⟨more, rfl, hmore⟩
  · rw [eq_nil_of_append_eq (Grammar.inside_append.mp hother).2 hmore hn hkind, List.append_nil]
  · rw [eq_nil_of_append_eq (Grammar.inside_append.mp hfront).2 hmore hn hkind, List.append_nil]

namespace Reader

/-- The tokens that count are told by the events. -/
theorem upcoming_of_sameEvents {left right : Reader} (h : SameEvents left right) :
    left.upcoming = right.upcoming := by
  apply Stream'.ext
  intro n
  induction n generalizing left right with
  | zero =>
      rw [upcoming_eq left, upcoming_eq right, pull, pull]
      cases hleft : left.skipSpaces with
      | ok token mid =>
          obtain ⟨other, hother, -⟩ := (agreeing_skipSpaces h).of_ok hleft
          rw [hother]
          rfl
      | error report mid =>
          obtain ⟨other, hother, -⟩ := (agreeing_skipSpaces h).of_error hleft
          rw [hother]
          rfl
  | succ n ih =>
      rw [upcoming_eq left, upcoming_eq right, pull, pull]
      cases hleft : left.skipSpaces with
      | ok token mid =>
          obtain ⟨other, hother, hrest⟩ := (agreeing_skipSpaces h).of_ok hleft
          rw [hother]
          exact ih hrest
      | error report mid =>
          obtain ⟨other, hother, hrest⟩ := (agreeing_skipSpaces h).of_error hleft
          rw [hother]
          exact ih hrest

/-- Of a front of the events, the tokens that count are the front of those. -/
theorem upcoming_of_events {reader other : Reader} {front : List Token}
    (h : reader.events = front.map .ok ++ₛ other.events) :
    reader.upcoming = (front.filter Token.isSignificant).map .ok ++ₛ other.upcoming := by
  have hsame : SameEvents reader (front.reverse.foldl unread other) := by
    rw [SameEvents, h, events_foldl_unread, List.reverse_reverse]
  rw [upcoming_of_sameEvents hsame, upcoming_foldl_unread, List.filter_reverse, List.reverse_reverse]

/-- Behind a front of tokens there is a reader again. -/
theorem exists_reader_behind {reader : Reader} {front : List Token} {s : Stream' Pulled}
    (h : reader.events = front.map .ok ++ₛ s) : ∃ other : Reader, other.events = s := by
  induction front generalizing reader with
  | nil => exact ⟨reader, h⟩
  | cons token front ih =>
      obtain ⟨after, -, hafter⟩ := next_of_events h
      exact ih hafter

/-- Any tokens are put in front of the end. -/
theorem exists_reader_before_end (ts : List Token) :
    ∃ (reader : Reader) (closing : Token) (rest : Stream' Pulled),
      reader.upcoming = (ts.filter Token.isSignificant).map .ok ++ₛ Stream'.cons (.ok closing) rest ∧
      closing.kind = .endOfText := by
  let closing : Token := { kind := .endOfText, location := .start }
  have hnext : next (ofString "") = .ok closing (ofString "") := rfl
  have hempty := upcoming_of_ok (skipSpaces_of_next hnext (by decide))
  refine ⟨ts.reverse.foldl unread (ofString ""), closing, (ofString "").upcoming, ?_, rfl⟩
  rw [upcoming_foldl_unread, List.filter_reverse, List.reverse_reverse]
  exact congrArg _ hempty

/-- An end token among the events is one among the tokens that count. -/
theorem exists_end_of_events {reader : Reader} {n : Nat} {token : Token}
    (hn : reader.events.get n = .ok token) (hkind : token.kind = .endOfText) :
    ∃ m, reader.upcoming.get m = .ok token := by
  induction n generalizing reader with
  | zero =>
      cases hnext : next reader with
      | ok first after =>
          rw [events_of_next hnext] at hn
          obtain rfl := Except.ok.inj hn
          refine ⟨0, ?_⟩
          rw [upcoming_of_ok (skipSpaces_of_next hnext (by simp [hkind]))]
          rfl
      | error report after =>
          rw [events_of_next_error hnext] at hn
          cases hn
  | succ n ih =>
      cases hnext : next reader with
      | ok first after =>
          rw [events_of_next hnext] at hn
          obtain ⟨m, hm⟩ := ih hn
          by_cases hspace : first.kind = .space
          · exact ⟨m, by rw [upcoming_congr (skipSpaces_of_next_space hnext hspace)]; exact hm⟩
          · exact ⟨m + 1, by rw [upcoming_of_ok (skipSpaces_of_next hnext hspace)]; exact hm⟩
      | error report after =>
          rw [events_of_next_error hnext] at hn
          obtain ⟨m, hm⟩ := ih hn
          exact ⟨m + 1, by rw [upcoming_of_error (skipSpaces_of_next_error hnext)]; exact hm⟩

theorem exists_end_of_upcoming (reader : Reader) :
    ∃ n token, reader.upcoming.get n = .ok token ∧ token.kind = .endOfText := by
  obtain ⟨n, hn⟩ := reader.finishes
  obtain ⟨token, htoken, hkind⟩ := hn 0
  obtain ⟨m, hm⟩ := exists_end_of_events htoken hkind
  exact ⟨m, token, hm, hkind⟩

end Reader

namespace Parser

open Grammar

/-! ### What an expression takes -/

/-- The last of some tokens is not blank, if there is one. -/
def EndsPlain (front : List Token) : Prop := ∀ token ∈ front.getLast?, token.kind ≠ .space

theorem endsPlain_append {front more : List Token} (hfront : EndsPlain front) (hmore : EndsPlain more) :
    EndsPlain (front ++ more) := by
  intro token hlast
  cases hmoreLast : more.getLast? with
  | none =>
      rw [List.getLast?_append, hmoreLast] at hlast
      exact hfront token hlast
  | some last =>
      rw [List.getLast?_append, hmoreLast] at hlast
      exact hmore token (hmoreLast ▸ hlast)

/-- A step takes tokens in front of the end, the last one not blank. -/
structure TakesFront (state : State) (front : List Token) (after : State) : Prop where
  events : state.events = front.map .ok ++ₛ after.events
  inside : Inside front
  plain : EndsPlain front

theorem takesFront_nil {state after : State} (h : after.events = state.events) :
    TakesFront state [] after :=
  ⟨h.symm, inside_nil, by simp [EndsPlain]⟩

theorem TakesFront.trans {state mid after : State} {front more : List Token}
    (hfront : TakesFront state front mid) (hmore : TakesFront mid more after) :
    TakesFront state (front ++ more) after where
  events := by rw [hfront.events, hmore.events, List.map_append, Stream'.append_append_stream]
  inside := inside_append.mpr ⟨hfront.inside, hmore.inside⟩
  plain := endsPlain_append hfront.plain hmore.plain

theorem takesFront_of_significant {state after : State} {token : Token}
    (h : significant state = .ok token after) (hend : token.kind ≠ .endOfText) :
    ∃ front, TakesFront state front after := by
  obtain ⟨blanks, hblanks, hevents⟩ := events_of_significant h
  have hspace : token.kind ≠ .space := by
    simpa [Token.isSignificant] using
      Reader.isSignificant_of_skipSpaces (skipSpaces_of_significant h)
  refine ⟨blanks ++ [token], hevents, ?_, ?_⟩
  · refine inside_append.mpr ⟨fun blank hmem => ?_, inside_cons.mpr ⟨hend, inside_nil⟩⟩
    simp [hblanks blank hmem]
  · intro last hlast
    rw [List.getLast?_concat] at hlast
    exact Option.mem_some.mp hlast ▸ hspace

/-- A token of a kind that is not the end is taken so. -/
theorem takesFront_of_expect {kind : Token.Kind} {wanted : Diagnostic.Wanted} {state after : State}
    {token : Token} (h : expect kind wanted state = .ok token after) (hend : kind ≠ .endOfText) :
    ∃ front, TakesFront state front after := by
  obtain ⟨hkind, htoken⟩ := significant_of_expect h
  exact takesFront_of_significant htoken (hkind ▸ hend)

/-- A step that takes such a front whenever it returns. -/
def Fronted (step : Parse Expr) : Prop :=
  ∀ ⦃state : State⦄ ⦃value : Expr⦄ ⦃after : State⦄, step state = .ok value after →
    ∃ front, TakesFront state front after

theorem primary_fronted {inner : Parse Expr} (hinner : Fronted inner) : Fronted (primary inner) := by
  intro state value after h
  obtain ⟨token, mid, htoken, h⟩ := exists_of_bind h
  generalize hkind : token.kind = kind at h
  have htakes : kind ≠ .endOfText → ∃ front, TakesFront state front mid :=
    fun hend => takesFront_of_significant htoken (hkind ▸ hend)
  split at h
  · dsimp only at h
    generalize Number.Literal.value? (token.text.getD "") = found at h
    split at h
    · obtain ⟨-, rfl⟩ := pure_ok h
      exact htakes (by decide)
    · cases h
  · obtain ⟨-, rfl⟩ := pure_ok h
    exact htakes (by decide)
  · obtain ⟨e, last, he, h⟩ := exists_of_bind h
    obtain ⟨closing, behind, hclosing, h⟩ := exists_of_bind h
    obtain ⟨-, rfl⟩ := pure_ok h
    obtain ⟨front, hopening⟩ := htakes (by decide)
    obtain ⟨more, hmore⟩ := hinner he
    obtain ⟨rest, hrest⟩ := takesFront_of_expect hclosing (by decide)
    exact ⟨_, hopening.trans (hmore.trans hrest)⟩
  · cases h

/-- A look at the next token, and then that token. -/
theorem takesFront_of_peekKind {kind : Token.Kind} {token : Token} {state peeked after : State}
    (hpeek : peekKind state = .ok kind peeked) (htake : significant peeked = .ok token after)
    (hend : kind ≠ .endOfText) : ∃ front, TakesFront state front after := by
  obtain ⟨hkind, -⟩ := takes_of_peekKind hpeek htake
  obtain ⟨front, hfront⟩ := takesFront_of_significant htake (hkind ▸ hend)
  exact ⟨front, by rw [← events_of_peeking Lookahead.passesFrom_significant hpeek]; exact hfront.events,
    hfront.inside, hfront.plain⟩

theorem unary_fronted {operand : Parse Expr} (hoperand : Fronted operand) (fuel : Nat) :
    Fronted (unary operand fuel) := by
  induction fuel with
  | zero =>
      intro state value after h
      cases h
  | succ fuel ih =>
      intro state value after h
      obtain ⟨kind, peeked, hpeek, h⟩ := exists_of_bind h
      have hsame := takesFront_nil (events_of_peeking Lookahead.passesFrom_significant hpeek)
      split at h
      · next hminus =>
          obtain ⟨sign, mid, hsign, h⟩ := exists_of_bind h
          obtain ⟨e, last, he, h⟩ := exists_of_bind h
          obtain ⟨-, rfl⟩ := pure_ok h
          obtain ⟨front, hfront⟩ := takesFront_of_peekKind hpeek hsign (by simp [hminus])
          obtain ⟨more, hmore⟩ := ih he
          exact ⟨_, hfront.trans hmore⟩
      · obtain ⟨front, hfront⟩ := hoperand h
        exact ⟨_, hsame.trans hfront⟩

theorem operations_fronted (tier : Tier) {operand : Parse Expr} (hoperand : Fronted operand)
    (fuel : Nat) (left : Expr) : Fronted (operations (operatorOf? tier) operand fuel left) := by
  induction fuel generalizing left with
  | zero =>
      intro state value after h
      cases h
  | succ fuel ih =>
      intro state value after h
      obtain ⟨kind, peeked, hpeek, h⟩ := exists_of_bind h
      generalize hop : operatorOf? tier kind = found at h
      split at h
      · obtain ⟨-, rfl⟩ := pure_ok h
        exact ⟨[], takesFront_nil (events_of_peeking Lookahead.passesFrom_significant hpeek)⟩
      · obtain ⟨sign, mid, hsign, h⟩ := exists_of_bind h
        obtain ⟨right, behind, hright, h⟩ := exists_of_bind h
        have hend := (operatorOf?_eq_some_iff.mp hop).kind_ne_endOfText
        obtain ⟨front, hfront⟩ := takesFront_of_peekKind hpeek hsign hend
        obtain ⟨more, hmore⟩ := hoperand hright
        obtain ⟨rest, hrest⟩ := ih _ h
        exact ⟨_, hfront.trans (hmore.trans hrest)⟩

theorem level_fronted (tier : Tier) {operand : Parse Expr} (hoperand : Fronted operand) (fuel : Nat) :
    Fronted (level (operatorOf? tier) operand fuel) := by
  intro state value after h
  obtain ⟨left, mid, hleft, h⟩ := exists_of_bind h
  obtain ⟨front, hfront⟩ := hoperand hleft
  obtain ⟨more, hmore⟩ := operations_fronted tier hoperand fuel left h
  exact ⟨_, hfront.trans hmore⟩

theorem expressionWithin_fronted (fuel : Nat) : Fronted (expressionWithin fuel) := by
  induction fuel with
  | zero =>
      intro state value after h
      cases h
  | succ fuel ih =>
      have hsigned := unary_fronted (primary_fronted ih) (fuel + 1)
      have hproduct := level_fronted .product hsigned (fuel + 1)
      have hsum := level_fronted .sum hproduct (fuel + 1)
      exact level_fronted .comparison hsum (fuel + 1)

/-! ### Where an expression ends -/

/-- A token that is none of the binary operators. -/
def Ending (kind : Token.Kind) : Prop := ∀ tier op, ¬ Operator tier kind op

theorem stops_iff_ending {kind : Token.Kind} : Stops (.binary .comparison) kind ↔ Ending kind := by
  have hnone : ∀ tier, operatorOf? tier kind = none ↔ ∀ op, ¬ Operator tier kind op := by
    intro tier
    rw [Option.eq_none_iff_forall_ne_some]
    exact forall_congr' fun op => not_congr operatorOf?_eq_some_iff
  constructor
  · rintro ⟨hcomparison, hsum, hproduct⟩ tier
    cases tier with
    | product => exact (hnone .product).mp hproduct
    | sum => exact (hnone .sum).mp hsum
    | comparison => exact (hnone .comparison).mp hcomparison
  · intro hending
    exact ⟨(hnone .comparison).mpr (hending .comparison), (hnone .sum).mpr (hending .sum),
      (hnone .product).mpr (hending .product)⟩

/-- Operations stop with a look at a token. -/
theorem exists_head_of_operations (tier : Tier) {operand : Parse Expr} {fuel : Nat} {left value : Expr}
    {state last : State} (h : operations (operatorOf? tier) operand fuel left state = .ok value last) :
    ∃ token rest, last.upcoming = Stream'.cons (.ok token) rest := by
  induction fuel generalizing left state with
  | zero => cases h
  | succ fuel ih =>
      obtain ⟨kind, peeked, hpeek, h⟩ := exists_of_bind h
      generalize operatorOf? tier kind = found at h
      split at h
      · obtain ⟨-, rfl⟩ := pure_ok h
        obtain ⟨hsame, token, rest, -, hhead⟩ := peekKind_ok hpeek
        exact ⟨token, rest, hsame.trans hhead⟩
      · obtain ⟨sign, mid, -, h⟩ := exists_of_bind h
        obtain ⟨right, behind, -, h⟩ := exists_of_bind h
        exact ih h

/-- An expression stops in front of a token that is no operator. -/
theorem exists_ending_of_expressionWithin {fuel : Nat} {state last : State} {value : Expr}
    (h : expressionWithin fuel state = .ok value last) :
    ∃ token rest, last.upcoming = Stream'.cons (.ok token) rest ∧ Ending token.kind := by
  cases fuel with
  | zero => cases h
  | succ fuel =>
      have hsigned : Halts .signed (unary (primary (expressionWithin fuel)) (fuel + 1)) :=
        fun _ _ _ _ _ _ _ => trivial
      have hproduct := level_halts .product hsigned (fuel + 1)
      have hsum := level_halts .sum hproduct (fuel + 1)
      have hcomparison := level_halts .comparison hsum (fuel + 1)
      have hlevel : level (operatorOf? .comparison) _ (fuel + 1) state = .ok value last := h
      obtain ⟨left, mid, -, hoperations⟩ := exists_of_bind hlevel
      obtain ⟨token, rest, hhead⟩ := exists_head_of_operations .comparison hoperations
      exact ⟨token, rest, hhead, stops_iff_ending.mp (hcomparison h hhead)⟩

/-- Tokens derive an expression once the blanks among them are left out. -/
def Derive (ts : List Token) (value : Expr) : Prop :=
  Expression (.binary .comparison) (ts.filter Token.isSignificant) value

/-- Behind blanks comes a token that is none of the binary operators. -/
def ComesToEnding (s : Stream' Pulled) : Prop :=
  ∃ (blanks : List Token) (token : Token) (rest : Stream' Pulled),
    (∀ blank ∈ blanks, blank.kind = .space) ∧
    s = blanks.map .ok ++ₛ Stream'.cons (.ok token) rest ∧
    token.kind ≠ .space ∧ Ending token.kind

/-- A token that is met next is the first one behind the blanks. -/
theorem comesToEnding_of_upcoming {state : State} {token : Token}
    {rest : Stream' (Except Diagnostic Token)} (h : state.upcoming = Stream'.cons (.ok token) rest)
    (hending : Ending token.kind) : ComesToEnding state.events := by
  obtain ⟨after, hskip, -⟩ := Reader.skipSpaces_of_upcoming h
  obtain ⟨blanks, hblanks, hevents⟩ := Reader.events_of_skipSpaces hskip
  have hspace : token.kind ≠ .space := by
    simpa [Token.isSignificant] using Reader.isSignificant_of_skipSpaces hskip
  refine ⟨blanks, token, after.events, hblanks, ?_, hspace, hending⟩
  rw [State.events, hevents, List.map_append, Stream'.append_append_stream]
  rfl

theorem filter_append_blanks (front : List Token) {blanks : List Token}
    (h : ∀ blank ∈ blanks, blank.kind = .space) :
    (front ++ blanks).filter Token.isSignificant = front.filter Token.isSignificant := by
  rw [List.filter_append, List.append_right_eq_self, List.filter_eq_nil_iff]
  intro blank hmem
  simp [Token.isSignificant, h blank hmem]

theorem upcoming_of_comesToEnding {reader : Reader} (h : ComesToEnding reader.events) :
    ∃ token rest, reader.upcoming = Stream'.cons (.ok token) rest ∧ Ending token.kind := by
  obtain ⟨blanks, token, rest, hblanks, hevents, hspace, hending⟩ := h
  have hfront : reader.events = (blanks ++ [token]).map .ok ++ₛ rest := by
    rw [hevents, List.map_append, Stream'.append_append_stream]
    rfl
  obtain ⟨other, rfl⟩ := Reader.exists_reader_behind hfront
  have hfilter : (blanks ++ [token]).filter Token.isSignificant = [token] := by
    have hnone : blanks.filter Token.isSignificant = [] := filter_append_blanks [] hblanks
    rw [List.filter_append, hnone, List.filter_cons_of_pos (by simpa [Token.isSignificant] using hspace)]
    rfl
  refine ⟨token, other.upcoming, ?_, hending⟩
  rw [Reader.upcoming_of_events hfront, hfilter]
  rfl

theorem ne_nil_of_expression {rank : Rank} {ts : List Token} {value : Expr}
    (h : Expression rank ts value) : ts ≠ [] := by
  induction h with
  | number | name | group | negated => exact List.cons_ne_nil _ _
  | unsigned _ ih => exact ih
  | operand _ ih => exact ih
  | operation => exact List.append_ne_nil_of_right_ne_nil _ (List.cons_ne_nil _ _)

/-- Blanks are what is left of tokens of which none counts. -/
theorem kind_eq_space_of_filter_eq_nil {ts : List Token} (h : ts.filter Token.isSignificant = []) :
    ∀ token ∈ ts, token.kind = .space := by
  intro token hmem
  simpa [Token.isSignificant] using List.filter_eq_nil_iff.mp h token hmem

/-- Behind tokens the last of which is no blank, no blanks are left over. -/
theorem eq_nil_of_endsPlain {front blanks : List Token} (h : EndsPlain (front ++ blanks))
    (hblanks : ∀ blank ∈ blanks, blank.kind = .space) : blanks = [] := by
  by_contra hne
  obtain ⟨last, hlast⟩ := Option.ne_none_iff_exists'.mp (mt List.getLast?_eq_none_iff.mp hne)
  refine h last ?_ (hblanks last (List.mem_of_getLast? hlast))
  rw [List.getLast?_append, hlast]
  rfl

theorem exists_last_of_derive {front : List Token} {value : Expr} (hplain : EndsPlain front)
    (h : Derive front value) : ∃ last, front.getLast? = some last ∧ last.kind ≠ .space := by
  have hne : front ≠ [] := by
    rintro rfl
    exact ne_nil_of_expression h rfl
  obtain ⟨last, hlast⟩ := Option.ne_none_iff_exists'.mp (mt List.getLast?_eq_none_iff.mp hne)
  exact ⟨last, hlast, hplain last hlast⟩

/-- What an expression takes derives what it returns. -/
theorem exists_front_of_expressionWithin {fuel : Nat} {state after : State} {value : Expr}
    (h : expressionWithin fuel state = .ok value after) :
    ∃ front, TakesFront state front after ∧ Derive front value := by
  obtain ⟨front, hfront⟩ := expressionWithin_fronted fuel h
  obtain ⟨ts, hts, hderives⟩ := expressionWithin_sound fuel h
  have hcounting : Inside (front.filter Token.isSignificant) :=
    fun token hmem => hfront.inside token (List.mem_of_mem_filter hmem)
  have hsame : ts.map .ok ++ₛ after.upcoming =
      (front.filter Token.isSignificant).map .ok ++ₛ after.upcoming :=
    hts.symm.trans (Reader.upcoming_of_events hfront.events)
  obtain ⟨n, token, htoken, hkind⟩ := Reader.exists_end_of_upcoming after.reader
  refine ⟨front, hfront, ?_⟩
  rw [Derive, ← front_unique hderives.inside hcounting hsame htoken hkind]
  exact hderives

/-- No expression goes on past a token that is no operator. With the end behind it, the longer one is
read to the end, and the shorter one is read up to the token. -/
theorem not_derive_past_ending {front other more : List Token} {token : Token} {value longer : Expr}
    (hfront : Derive front value) (hending : Ending token.kind) (hother : Derive other longer) :
    other.filter Token.isSignificant ≠ front.filter Token.isSignificant ++ token :: more := by
  intro hsplit
  obtain ⟨reader, closing, rest, hreader, hclosing⟩ := Reader.exists_reader_before_end other
  have hlength : (other.filter Token.isSignificant).length < reader.size + 1 :=
    Nat.lt_succ_of_le (Reader.length_le_size hreader hother.inside)
  have hstops : Stops (.binary .comparison) closing.kind := by
    rw [hclosing]
    exact ⟨rfl, rfl, rfl⟩
  have hstate : State.upcoming ⟨reader, {}⟩ = _ := hreader
  obtain ⟨last, hlast, hend⟩ :=
    expressionWithin_complete (reader.size + 1) hother hlength hstops hstate
  rw [hsplit, List.map_append, Stream'.append_append_stream] at hstate
  rw [hsplit, List.length_append] at hlength
  obtain ⟨stopped, hstopped, htoken⟩ := expressionWithin_complete (reader.size + 1) hfront
    (by omega) (stops_iff_ending.mpr hending) hstate
  obtain ⟨-, rfl⟩ := EStateM.Result.ok.inj (hstopped.symm.trans hlast)
  obtain ⟨rfl, -⟩ := cons_ok_inj (htoken.symm.trans hend)
  have hinside : Inside (other.filter Token.isSignificant) := hother.inside
  rw [hsplit] at hinside
  exact (inside_cons.mp (inside_append.mp hinside).2).1 hclosing

/-- Nothing in front of the tokens that were left derives an expression of more tokens. -/
theorem prefix_of_derive {state after : State} {front other : List Token} {rest : Stream' Pulled}
    {value value' : Expr} (hfront : state.events = front.map .ok ++ₛ after.events)
    (hvalue : Derive front value) (hending : ComesToEnding after.events)
    (hother : state.events = other.map .ok ++ₛ rest) (hvalue' : Derive other value') :
    other.filter Token.isSignificant <+: front.filter Token.isSignificant := by
  obtain ⟨reader, rfl⟩ := Reader.exists_reader_behind hother
  obtain ⟨token, later, hafter, htoken⟩ := upcoming_of_comesToEnding hending
  have hsame : (front.filter Token.isSignificant).map .ok ++ₛ Stream'.cons (.ok token) later =
      (other.filter Token.isSignificant).map .ok ++ₛ reader.upcoming := by
    rw [← hafter, ← Reader.upcoming_of_events hfront, ← Reader.upcoming_of_events hother]
  rcases append_stream_cases hsame with ⟨more, hmore, hrest⟩ | ⟨more, hmore, -⟩
  · cases more with
    | nil => exact ⟨[], by rw [hmore, List.append_nil, List.append_nil]⟩
    | cons first more =>
        obtain ⟨rfl, -⟩ := cons_ok_inj hrest
        exact absurd hmore (not_derive_past_ending hvalue htoken hvalue')
  · exact ⟨more, hmore.symm⟩

/-- A front that derives an expression is taken, except for the blanks at its end. -/
theorem expression_of_derive {state : State} {front : List Token} {rest : Stream' Pulled} {value : Expr}
    (hfront : state.events = front.map .ok ++ₛ rest) (hvalue : Derive front value)
    (hending : ComesToEnding rest) :
    ∃ taken blanks after, front = taken ++ blanks ∧ (∀ blank ∈ blanks, blank.kind = .space) ∧
      EndsPlain taken ∧ expression state = .ok value after ∧ after.events = blanks.map .ok ++ₛ rest := by
  obtain ⟨reader, rfl⟩ := Reader.exists_reader_behind hfront
  obtain ⟨token, later, hreader, htoken⟩ := upcoming_of_comesToEnding hending
  have hstate : state.upcoming = (front.filter Token.isSignificant).map .ok ++ₛ reader.upcoming :=
    Reader.upcoming_of_events hfront
  have hlength := Nat.lt_succ_of_le (Reader.length_le_size hstate hvalue.inside)
  obtain ⟨after, hafter, hleft⟩ := expressionWithin_complete (state.reader.size + 1) hvalue hlength
    (stops_iff_ending.mpr htoken) (by rw [hstate, hreader])
  obtain ⟨taken, htaken, hderive⟩ := exists_front_of_expressionWithin hafter
  -- The tokens that count are the same ones, as the same ones are left behind them.
  have hcounting : taken.filter Token.isSignificant = front.filter Token.isSignificant := by
    have hbehind : after.upcoming = reader.upcoming := hleft.trans hreader.symm
    have hsame : (taken.filter Token.isSignificant).map .ok ++ₛ reader.upcoming =
        (front.filter Token.isSignificant).map .ok ++ₛ reader.upcoming := by
      rw [← hstate, ← hbehind]
      exact (Reader.upcoming_of_events htaken.events).symm
    obtain ⟨n, last, hlast, hkind⟩ := Reader.exists_end_of_upcoming reader
    exact front_unique hderive.inside hvalue.inside hsame hlast hkind
  rcases append_stream_cases (htaken.events.symm.trans hfront) with
    ⟨blanks, rfl, hblanks⟩ | ⟨more, rfl, hmore⟩
  · rw [List.filter_append, List.self_eq_append_right] at hcounting
    exact ⟨taken, blanks, after, rfl, kind_eq_space_of_filter_eq_nil hcounting, htaken.plain, hafter,
      hblanks⟩
  · -- The last token that was taken is no blank, so nothing was taken past the front.
    rw [List.filter_append, List.append_right_eq_self] at hcounting
    obtain rfl := eq_nil_of_endsPlain htaken.plain (kind_eq_space_of_filter_eq_nil hcounting)
    exact ⟨front, [], after, (List.append_nil front).symm, by simp, List.append_nil front ▸ htaken.plain,
      hafter, hmore.symm⟩

/-- **The longest expression.** An expression that is returned is derived by a front of the stream of
events, blanks left out, which ends with a token that is no blank. The stream that is left is the rest
behind this front, and comes to a token that is no operator; no front that derives an expression has
more tokens. A front that derives an expression and has such a token behind it is taken, except for the
blanks at its end. -/
theorem expression_takes_longest_front (state : State) (value : Expr) :
    (∀ after, expression state = .ok value after →
      ∃ front, state.events = front.map .ok ++ₛ after.events ∧
        (∃ last, front.getLast? = some last ∧ last.kind ≠ .space) ∧ Derive front value ∧
        ComesToEnding after.events ∧
        ∀ other rest value', state.events = other.map .ok ++ₛ rest → Derive other value' →
          other.filter Token.isSignificant <+: front.filter Token.isSignificant) ∧
    ∀ front rest, state.events = front.map .ok ++ₛ rest → Derive front value → ComesToEnding rest →
      ∃ taken blanks after, front = taken ++ blanks ∧ (∀ blank ∈ blanks, blank.kind = .space) ∧
        (∃ last, taken.getLast? = some last ∧ last.kind ≠ .space) ∧
        expression state = .ok value after ∧ after.events = blanks.map .ok ++ₛ rest := by
  constructor
  · intro after h
    obtain ⟨front, hfront, hderive⟩ := exists_front_of_expressionWithin h
    obtain ⟨token, later, hafter, htoken⟩ := exists_ending_of_expressionWithin h
    have hending := comesToEnding_of_upcoming hafter htoken
    exact ⟨front, hfront.events, exists_last_of_derive hfront.plain hderive, hderive, hending,
      fun other rest value' hother hvalue' =>
        prefix_of_derive hfront.events hderive hending hother hvalue'⟩
  · intro front rest hfront hderive hending
    obtain ⟨taken, blanks, after, rfl, hblanks, hplain, hafter, hrest⟩ :=
      expression_of_derive hfront hderive hending
    have hcounting := filter_append_blanks taken hblanks
    have htaken : Derive taken value := by
      rw [Derive, ← hcounting]
      exact hderive
    exact ⟨taken, blanks, after, rfl, hblanks, exists_last_of_derive hplain htaken, hafter, hrest⟩

/-- The blank in front of a semicolon is left, although the parser has looked behind it. -/
theorem expression_takes_longest_front_negated :
    ∃ after, expression { reader := Reader.ofString "-a ;" } =
        .ok (.negate (.var "a" ⟨1, 2, none⟩)) after ∧
      after.events = Reader.events { chars := [' ', ';'], location := ⟨1, 3, none⟩ } := by
  let front : List Token := [⟨.minus, none, .start⟩, ⟨.identifier, some "a", ⟨1, 2, none⟩⟩]
  let behind : List Token := [⟨.space, none, ⟨1, 3, none⟩⟩, ⟨.semicolon, none, ⟨1, 4, none⟩⟩]
  let rest : Reader := { chars := [' ', ';'], location := ⟨1, 3, none⟩ }
  let last : Reader := { chars := [], location := ⟨1, 5, none⟩ }
  have hfront : (Reader.ofString "-a ;").events = front.map .ok ++ₛ rest.events :=
    @Reader.events_of_takeTokens 2 _ _ _ rfl
  have hrest : rest.events = behind.map .ok ++ₛ last.events :=
    @Reader.events_of_takeTokens 2 _ _ _ rfl
  have hending : ComesToEnding rest.events :=
    ⟨[⟨.space, none, ⟨1, 3, none⟩⟩], ⟨.semicolon, none, ⟨1, 4, none⟩⟩, last.events, by simp, hrest,
      by decide, by rintro tier op ⟨⟩⟩
  have hderive : Derive front (.negate (.var "a" ⟨1, 2, none⟩)) :=
    .operand (.operand (.operand (.negated rfl (.unsigned (.name rfl)))))
  obtain ⟨taken, blanks, after, hsplit, hblanks, -, hafter, hleft⟩ :=
    (expression_takes_longest_front { reader := Reader.ofString "-a ;" } _).2 front rest.events hfront
      hderive hending
  have hplain : EndsPlain (taken ++ blanks) := by
    rw [← hsplit]
    simp [EndsPlain, front]
  obtain rfl := eq_nil_of_endsPlain hplain hblanks
  exact ⟨after, hafter, hleft⟩

end Parser
end LoopScript
