import LoopScript.Proofs.Grammar
import LoopScript.Proofs.Upcoming

/-! Parsing steps against derivations. A step is sound for a derivation relation when the tokens it
takes derive the value it returns, and complete when it returns every derived value and leaves the
token behind the derivation, provided that this token is one the step stops at. The steps below are
those that every rule of the grammar is made of; then come the expressions, tier by tier. -/

namespace LoopScript.Parser

open Grammar

variable {α β : Type}

/-- The tokens that count, as a parsing state has them in front of it. -/
def State.upcoming (state : State) : Stream' (Except Diagnostic Token) := state.reader.upcoming

/-- The tokens that lie between two states. -/
def Takes (state : State) (ts : List Token) (after : State) : Prop :=
  state.upcoming = ts.map .ok ++ₛ after.upcoming

theorem Takes.refl_of_eq {state after : State} (h : after.upcoming = state.upcoming) :
    Takes state [] after := h.symm

theorem Takes.trans {state mid after : State} {ts us : List Token} (hleft : Takes state ts mid)
    (hright : Takes mid us after) : Takes state (ts ++ us) after := by
  rw [Takes] at hleft hright
  rw [Takes, hleft, hright, List.map_append, Stream'.append_append_stream]

/-- What a step takes derives what it returns. -/
def Sound (step : Parse α) (derives : List Token → α → Prop) : Prop :=
  ∀ ⦃state : State⦄ ⦃value : α⦄ ⦃after : State⦄, step state = .ok value after →
    ∃ ts, Takes state ts after ∧ derives ts value

/-- A step returns what is derived from fewer than `bound` tokens, and stops in front of a token
whose kind is in `follow`. -/
def Complete (step : Parse α) (derives : List Token → α → Prop) (bound : Nat)
    (follow : Token.Kind → Prop) : Prop :=
  ∀ ⦃state : State⦄ ⦃ts : List Token⦄ ⦃value : α⦄ ⦃behind : Token⦄
    ⦃rest : Stream' (Except Diagnostic Token)⦄, derives ts value → ts.length < bound →
    follow behind.kind → state.upcoming = ts.map .ok ++ₛ Stream'.cons (.ok behind) rest →
    ∃ after, step state = .ok value after ∧ after.upcoming = Stream'.cons (.ok behind) rest

/-! One step after another. -/

theorem bind_of_ok {step : Parse α} {next : α → Parse β} {state mid : State} {value : α}
    (h : step state = .ok value mid) : (step >>= next) state = next value mid := by
  show EStateM.bind step next state = next value mid
  rw [EStateM.bind, h]

theorem exists_of_bind {step : Parse α} {next : α → Parse β} {state after : State} {value : β}
    (h : (step >>= next) state = .ok value after) :
    ∃ first mid, step state = .ok first mid ∧ next first mid = .ok value after := by
  cases hstep : step state with
  | ok first mid => exact ⟨first, mid, rfl, by rwa [bind_of_ok hstep] at h⟩
  | error failure mid =>
      have herror : (step >>= next) state = .error failure mid := by
        show EStateM.bind step next state = .error failure mid
        rw [EStateM.bind, hstep]
      rw [h] at herror
      cases herror

theorem pure_ok {state after : State} {value result : α}
    (h : (pure value : Parse α) state = .ok result after) : result = value ∧ after = state := by
  obtain ⟨rfl, rfl⟩ := EStateM.Result.ok.inj h
  exact ⟨rfl, rfl⟩

/-! The steps that take or show one token. -/

theorem skipSpaces_of_significant {state after : State} {token : Token}
    (h : significant state = .ok token after) :
    state.reader.skipSpaces = .ok token after.reader := by
  unfold significant reading at h
  split at h
  · next reader hskip =>
      obtain ⟨rfl, rfl⟩ := EStateM.Result.ok.inj h
      exact hskip
  · cases h

theorem takes_of_significant {state after : State} {token : Token}
    (h : significant state = .ok token after) : Takes state [token] after :=
  Reader.upcoming_of_ok (skipSpaces_of_significant h)

theorem significant_of_upcoming {state : State} {token : Token}
    {rest : Stream' (Except Diagnostic Token)} (h : state.upcoming = Stream'.cons (.ok token) rest) :
    ∃ after, significant state = .ok token after ∧ after.upcoming = rest := by
  obtain ⟨reader, hskip, hrest⟩ := Reader.skipSpaces_of_upcoming h
  refine ⟨{ state with reader := reader }, ?_, hrest⟩
  simp only [significant, reading, hskip]

theorem expect_ok {kind : Token.Kind} {wanted : Diagnostic.Wanted} {state after : State}
    {token : Token} (h : expect kind wanted state = .ok token after) :
    token.kind = kind ∧ Takes state [token] after := by
  obtain ⟨found, mid, hfound, h⟩ := exists_of_bind h
  split at h
  · next hkind =>
      obtain ⟨rfl, rfl⟩ := pure_ok h
      exact ⟨hkind, takes_of_significant hfound⟩
  · cases h

theorem expect_of_upcoming {kind : Token.Kind} {state : State} {token : Token}
    {rest : Stream' (Except Diagnostic Token)} (wanted : Diagnostic.Wanted)
    (h : state.upcoming = Stream'.cons (.ok token) rest) (hkind : token.kind = kind) :
    ∃ after, expect kind wanted state = .ok token after ∧ after.upcoming = rest := by
  obtain ⟨after, htoken, hrest⟩ := significant_of_upcoming h
  refine ⟨after, ?_, hrest⟩
  rw [expect, bind_of_ok htoken, if_pos hkind]
  rfl

theorem peekKind_ok {kind : Token.Kind} {state after : State} (h : peekKind state = .ok kind after) :
    after.upcoming = state.upcoming ∧
      ∃ token rest, token.kind = kind ∧ state.upcoming = Stream'.cons (.ok token) rest := by
  unfold peekKind peeking at h
  split at h
  · next look hlook =>
      obtain ⟨rfl, rfl⟩ := EStateM.Result.ok.inj h
      obtain ⟨token, hkind, hhead, hclose⟩ := Lookahead.upcoming_of_significant hlook
      exact ⟨hclose, token, look.reader.upcoming, hkind, hhead⟩
  · cases h

/-- The token taken after a look at its kind is of this kind. -/
theorem takes_of_peekKind {kind : Token.Kind} {token : Token} {state peeked after : State}
    (hpeek : peekKind state = .ok kind peeked) (htake : significant peeked = .ok token after) :
    token.kind = kind ∧ Takes state [token] after := by
  obtain ⟨hsame, first, rest, hkind, hfirst⟩ := peekKind_ok hpeek
  have htakes := takes_of_significant htake
  rw [Takes, hsame] at htakes
  rw [hfirst] at htakes
  have hhead := Except.ok.inj (Stream'.cons_injective2 htakes).1
  exact ⟨hhead ▸ hkind, hfirst.trans htakes⟩

theorem peekKind_of_upcoming {state : State} {token : Token}
    {rest : Stream' (Except Diagnostic Token)} (h : state.upcoming = Stream'.cons (.ok token) rest) :
    ∃ after, peekKind state = .ok token.kind after ∧ after.upcoming = state.upcoming := by
  have hopen : (Lookahead.ofReader state.reader).reader.upcoming = Stream'.cons (.ok token) rest := h
  obtain ⟨look, hlook, -, hclose⟩ := Lookahead.significant_of_upcoming hopen
  refine ⟨{ state with reader := look.close }, ?_, hclose⟩
  simp only [peekKind, peeking, hlook]

theorem detect_ok {kinds : List Token.Kind} {found : Bool} {state after : State}
    (h : detect kinds state = .ok found after) : after.upcoming = state.upcoming := by
  obtain ⟨verdict, mid, hverdict, h⟩ := exists_of_bind h
  obtain ⟨_, last, hrecord, h⟩ := exists_of_bind h
  obtain ⟨rfl, rfl⟩ := pure_ok h
  obtain ⟨-, rfl⟩ := EStateM.Result.ok.inj hrecord
  unfold peeking at hverdict
  split at hverdict
  · next look hlook =>
      obtain ⟨rfl, rfl⟩ := EStateM.Result.ok.inj hverdict
      exact Lookahead.upcoming_close_of_see hlook
  · cases hverdict

/-- A scan for some kind meets a token. -/
theorem exists_head_of_detect {kind : Token.Kind} {kinds : List Token.Kind} {found : Bool}
    {state after : State} (h : detect (kind :: kinds) state = .ok found after) :
    ∃ token rest, state.upcoming = Stream'.cons (.ok token) rest := by
  obtain ⟨verdict, mid, hverdict, -⟩ := exists_of_bind h
  simp only [peeking, Lookahead.see] at hverdict
  cases hlook : Lookahead.significant (Lookahead.ofReader state.reader) with
  | ok met look =>
      obtain ⟨token, -, hhead, -⟩ := Lookahead.upcoming_of_significant hlook
      exact ⟨token, _, hhead⟩
  | error report look =>
      rw [hlook] at hverdict
      cases hverdict

/-- What a scan finds is what detecting returns, and nothing is taken. -/
theorem detect_of_see {kinds : List Token.Kind} {verdict : Verdict} {state : State} {look : Lookahead}
    (h : Lookahead.see kinds (Lookahead.ofReader state.reader) = .ok verdict look) :
    ∃ after, detect kinds state = .ok verdict.isMatch after ∧ after.upcoming = state.upcoming := by
  have hpeek : peeking (Lookahead.see kinds) state =
      .ok verdict { state with reader := look.close } := by
    rw [peeking, h]
  refine ⟨{ state with
    reader := look.close, log := state.log.record (verdict.event kinds) }, ?_, ?_⟩
  · rw [detect, bind_of_ok hpeek]
    rfl
  · exact Lookahead.upcoming_close_of_see h

/-- One kind is detected just when the next token is of this kind. -/
theorem detect_one {state : State} {token : Token} {rest : Stream' (Except Diagnostic Token)}
    (kind : Token.Kind) (h : state.upcoming = Stream'.cons (.ok token) rest) :
    ∃ after, detect [kind] state = .ok (decide (token.kind = kind)) after ∧
      after.upcoming = state.upcoming := by
  have hopen : (Lookahead.ofReader state.reader).reader.upcoming = Stream'.cons (.ok token) rest := h
  by_cases hkind : token.kind = kind
  · obtain ⟨look, hlook, -⟩ := Lookahead.see_cons_of_eq [] hopen hkind
    rw [decide_eq_true hkind]
    exact detect_of_see hlook
  · obtain ⟨look, hlook⟩ := Lookahead.see_cons_of_ne [] hopen hkind
    rw [decide_eq_false hkind]
    exact detect_of_see hlook

/-! Expressions: the functions that tell the operators of a tier, and the tokens an expression
stops at. -/

def operatorOf? : Tier → Token.Kind → Option BinaryOp
  | .product => BinaryOp.multiplicative?
  | .sum => BinaryOp.additive?
  | .comparison => BinaryOp.comparison?

theorem operatorOf?_eq_some_iff {tier : Tier} {kind : Token.Kind} {op : BinaryOp} :
    operatorOf? tier kind = some op ↔ Operator tier kind op := by
  constructor
  · intro h
    cases tier <;> cases kind <;> cases h <;> constructor
  · intro h
    cases h <;> rfl

/-- An expression of some rank goes no further than this kind of token. -/
def Stops (rank : Rank) (kind : Token.Kind) : Prop :=
  match rank with
  | .primary => True
  | .signed => True
  | .binary .product => operatorOf? .product kind = none
  | .binary .sum => operatorOf? .sum kind = none ∧ operatorOf? .product kind = none
  | .binary .comparison =>
      operatorOf? .comparison kind = none ∧ operatorOf? .sum kind = none ∧
        operatorOf? .product kind = none

theorem Stops.operatorOf?_eq_none {tier : Tier} {kind : Token.Kind}
    (h : Stops (.binary tier) kind) : operatorOf? tier kind = none := by
  cases tier with
  | product => exact h
  | sum => exact h.1
  | comparison => exact h.1

theorem Stops.operand {tier : Tier} {kind : Token.Kind} (h : Stops (.binary tier) kind) :
    Stops tier.operand kind := by
  cases tier with
  | product => trivial
  | sum => exact h.2
  | comparison => exact h.2

/-- An operator of a tier ends its left operand. -/
theorem stops_of_operator {tier : Tier} {kind : Token.Kind} {op : BinaryOp}
    (h : Operator tier kind op) : Stops tier.operand kind := by
  cases h <;> simp [Stops, Tier.operand, operatorOf?, BinaryOp.multiplicative?, BinaryOp.additive?]

/-- The operations of one tier that follow an expression, first one first. -/
inductive Chain (tier : Tier) : Expr → List Token → Expr → Prop
  | nil {left : Expr} : Chain tier left [] left
  | cons {sign : Token} {op : BinaryOp} {left right whole : Expr} {rs ts : List Token}
      (hsign : Operator tier sign.kind op) (hright : Expression tier.operand rs right)
      (rest : Chain tier (.binary op left right sign.location) ts whole) :
      Chain tier left (sign :: (rs ++ ts)) whole

theorem Chain.snoc {tier : Tier} {sign : Token} {op : BinaryOp} {first left right : Expr}
    {ts rs : List Token} (h : Chain tier first ts left) (hsign : Operator tier sign.kind op)
    (hright : Expression tier.operand rs right) :
    Chain tier first (ts ++ sign :: rs) (.binary op left right sign.location) := by
  induction h with
  | nil => simpa using Chain.cons hsign hright .nil
  | cons hfirst hoperand rest ih => simpa using Chain.cons hfirst hoperand ih

/-- Operations joined from the left are an expression of the tier. -/
theorem Chain.expression {tier : Tier} {left whole : Expr} {ls ts : List Token}
    (h : Chain tier left ts whole) (hleft : Expression (.binary tier) ls left) :
    Expression (.binary tier) (ls ++ ts) whole := by
  induction h generalizing ls with
  | nil => simpa using hleft
  | cons hsign hright rest ih => simpa using ih (.operation hleft hsign hright)

/-- An expression of a tier is an operand and the operations that follow it. -/
theorem exists_chain {tier : Tier} {ts : List Token} {whole : Expr}
    (h : Expression (.binary tier) ts whole) :
    ∃ fs us first, ts = fs ++ us ∧ Expression tier.operand fs first ∧ Chain tier first us whole := by
  generalize hrank : Rank.binary tier = rank at h
  induction h with
  | number | name | group | unsigned | negated => cases hrank
  | @operand tier ts e hoperand =>
      cases hrank
      exact ⟨ts, [], e, (List.append_nil ts).symm, hoperand, .nil⟩
  | @operation tier sign op ls rs left right hleft hsign hright ih =>
      cases hrank
      obtain ⟨fs, us, first, rfl, hfirst, hchain⟩ := ih rfl
      exact ⟨fs, us ++ sign :: rs, first, List.append_assoc fs us (sign :: rs), hfirst,
        hchain.snoc hsign hright⟩

/-- Behind an operand comes the next operator, or else what the whole expression stops at. -/
theorem Chain.head {tier : Tier} {left whole : Expr} {ts : List Token} {behind : Token}
    (h : Chain tier left ts whole) (hbehind : Stops (.binary tier) behind.kind)
    (rest : Stream' (Except Diagnostic Token)) :
    ∃ token later, ts.map .ok ++ₛ Stream'.cons (.ok behind) rest = Stream'.cons (.ok token) later ∧
      Stops tier.operand token.kind := by
  cases h with
  | nil => exact ⟨behind, rest, rfl, hbehind.operand⟩
  | cons hsign hright hrest => exact ⟨_, _, rfl, stops_of_operator hsign⟩

/-! Expressions: what is taken derives what is returned. -/

theorem primary_sound {inner : Parse Expr} (hinner : Sound inner (Expression (.binary .comparison))) :
    Sound (primary inner) (Expression .primary) := by
  intro state value after h
  obtain ⟨token, mid, htoken, h⟩ := exists_of_bind h
  have htakes := takes_of_significant htoken
  generalize hkind : token.kind = kind at h
  split at h
  · dsimp only at h
    generalize hnumber : Number.Literal.value? (token.text.getD "") = found at h
    split at h
    · obtain ⟨rfl, rfl⟩ := pure_ok h
      exact ⟨[token], htakes, .number hkind hnumber⟩
    · cases h
  · obtain ⟨rfl, rfl⟩ := pure_ok h
    exact ⟨[token], htakes, .name hkind⟩
  · obtain ⟨e, behind, he, h⟩ := exists_of_bind h
    obtain ⟨closing, last, hclosing, h⟩ := exists_of_bind h
    obtain ⟨rfl, rfl⟩ := pure_ok h
    obtain ⟨ts, hts, hderives⟩ := hinner he
    obtain ⟨hright, hlast⟩ := expect_ok hclosing
    exact ⟨token :: (ts ++ [closing]), htakes.trans (hts.trans hlast), .group hkind hderives hright⟩
  · cases h

theorem unary_sound {operand : Parse Expr} (hoperand : Sound operand (Expression .primary))
    (fuel : Nat) : Sound (unary operand fuel) (Expression .signed) := by
  induction fuel with
  | zero =>
      intro state value after h
      cases h
  | succ fuel ih =>
      intro state value after h
      obtain ⟨kind, peeked, hpeek, h⟩ := exists_of_bind h
      split at h
      · next hminus =>
          obtain ⟨sign, mid, hsign, h⟩ := exists_of_bind h
          obtain ⟨e, last, he, h⟩ := exists_of_bind h
          obtain ⟨rfl, rfl⟩ := pure_ok h
          obtain ⟨hkind, htakes⟩ := takes_of_peekKind hpeek hsign
          obtain ⟨ts, hts, hderives⟩ := ih he
          exact ⟨sign :: ts, htakes.trans hts, .negated (hkind.trans hminus) hderives⟩
      · obtain ⟨ts, hts, hderives⟩ := hoperand h
        have hpeeked := Takes.refl_of_eq (peekKind_ok hpeek).1
        exact ⟨ts, hpeeked.trans hts, .unsigned hderives⟩

theorem operations_sound {tier : Tier} {operand : Parse Expr}
    (hoperand : Sound operand (Expression tier.operand)) (fuel : Nat) (left : Expr) :
    Sound (operations (operatorOf? tier) operand fuel left) (Chain tier left) := by
  induction fuel generalizing left with
  | zero =>
      intro state value after h
      cases h
  | succ fuel ih =>
      intro state value after h
      obtain ⟨kind, peeked, hpeek, h⟩ := exists_of_bind h
      generalize hop : operatorOf? tier kind = found at h
      split at h
      · obtain ⟨rfl, rfl⟩ := pure_ok h
        exact ⟨[], Takes.refl_of_eq (peekKind_ok hpeek).1, .nil⟩
      · next op =>
          obtain ⟨sign, mid, hsign, h⟩ := exists_of_bind h
          obtain ⟨right, last, hright, h⟩ := exists_of_bind h
          obtain ⟨rfl, htakes⟩ := takes_of_peekKind hpeek hsign
          obtain ⟨rs, hrs, hderives⟩ := hoperand hright
          obtain ⟨ts, hts, hchain⟩ := ih _ h
          exact ⟨sign :: (rs ++ ts), htakes.trans (hrs.trans hts),
            .cons (operatorOf?_eq_some_iff.mp hop) hderives hchain⟩

theorem level_sound (tier : Tier) {operand : Parse Expr}
    (hoperand : Sound operand (Expression tier.operand)) (fuel : Nat) :
    Sound (level (operatorOf? tier) operand fuel) (Expression (.binary tier)) := by
  intro state value after h
  obtain ⟨left, mid, hleft, h⟩ := exists_of_bind h
  obtain ⟨ls, hls, hderives⟩ := hoperand hleft
  obtain ⟨ts, hts, hchain⟩ := operations_sound hoperand fuel left h
  exact ⟨ls ++ ts, hls.trans hts, hchain.expression (.operand hderives)⟩

theorem expressionWithin_sound (fuel : Nat) :
    Sound (expressionWithin fuel) (Expression (.binary .comparison)) := by
  induction fuel with
  | zero =>
      intro state value after h
      cases h
  | succ fuel ih =>
      have hsigned := unary_sound (primary_sound ih) (fuel + 1)
      have hproduct := level_sound .product hsigned (fuel + 1)
      have hsum := level_sound .sum hproduct (fuel + 1)
      exact level_sound .comparison hsum (fuel + 1)

/-! Expressions: what is derived is returned. -/

theorem primary_complete {inner : Parse Expr} {bound : Nat}
    (hinner : Complete inner (Expression (.binary .comparison)) bound (Stops (.binary .comparison))) :
    Complete (primary inner) (Expression .primary) (bound + 1) (Stops .primary) := by
  intro state ts value behind rest hderives hlength _ hstate
  cases hderives with
  | @number token value hkind hvalue =>
      obtain ⟨after, htoken, hafter⟩ := significant_of_upcoming hstate
      refine ⟨after, ?_, hafter⟩
      rw [primary, bind_of_ok htoken, hkind]
      simp only [Token.word] at hvalue
      simp only [hvalue]
      rfl
  | @name token hkind =>
      obtain ⟨after, htoken, hafter⟩ := significant_of_upcoming hstate
      refine ⟨after, ?_, hafter⟩
      rw [primary, bind_of_ok htoken, hkind]
      rfl
  | @group opening closing ts e hopening hgroup hclosing =>
      rw [List.map_cons, List.map_append, Stream'.cons_append_stream,
        Stream'.append_append_stream] at hstate
      obtain ⟨mid, htoken, hmid⟩ := significant_of_upcoming hstate
      have hstops : Stops (.binary .comparison) closing.kind := by
        rw [hclosing]
        exact ⟨rfl, rfl, rfl⟩
      have hshort : ts.length < bound := by
        simp only [List.length_cons, List.length_append] at hlength
        omega
      obtain ⟨last, he, hlast⟩ := hinner hgroup hshort hstops hmid
      obtain ⟨after, hexpect, hafter⟩ := expect_of_upcoming .rightParen hlast hclosing
      refine ⟨after, ?_, hafter⟩
      rw [primary, bind_of_ok htoken, hopening]
      show (inner >>= fun value => expect .rightParen .rightParen >>= fun _ => pure value) mid = _
      rw [bind_of_ok he, bind_of_ok hexpect]
      rfl

/-- A primary expression does not start with a sign. -/
theorem exists_head_of_primary {ts : List Token} {e : Expr} (h : Expression .primary ts e) :
    ∃ token later, ts = token :: later ∧ token.kind ≠ .minus := by
  cases h with
  | number hkind => exact ⟨_, _, rfl, by simp [hkind]⟩
  | name hkind => exact ⟨_, _, rfl, by simp [hkind]⟩
  | group hopening inner hclosing => exact ⟨_, _, rfl, by simp [hopening]⟩

theorem unary_complete {operand : Parse Expr} {bound : Nat}
    (hoperand : Complete operand (Expression .primary) bound (Stops .primary)) (fuel : Nat)
    (hfuel : fuel ≤ bound) : Complete (unary operand fuel) (Expression .signed) fuel (Stops .signed) := by
  induction fuel with
  | zero =>
      intro state ts value behind rest _ hlength
      exact absurd hlength (Nat.not_lt_zero _)
  | succ fuel ih =>
      intro state ts value behind rest hderives hlength hbehind hstate
      cases hderives with
      | unsigned hprimary =>
          obtain ⟨token, later, rfl, hminus⟩ := exists_head_of_primary hprimary
          obtain ⟨peeked, hpeek, hpeeked⟩ := peekKind_of_upcoming hstate
          rw [hstate] at hpeeked
          obtain ⟨after, hafter, hrest⟩ := hoperand hprimary (by omega) hbehind hpeeked
          refine ⟨after, ?_, hrest⟩
          rw [unary, bind_of_ok hpeek, if_neg hminus]
          exact hafter
      | @negated sign ts e hsign hsigned =>
          obtain ⟨peeked, hpeek, hpeeked⟩ := peekKind_of_upcoming hstate
          rw [hstate] at hpeeked
          obtain ⟨mid, htoken, hmid⟩ := significant_of_upcoming hpeeked
          rw [List.length_cons] at hlength
          obtain ⟨after, hafter, hrest⟩ := ih (by omega) hsigned (by omega) hbehind hmid
          refine ⟨after, ?_, hrest⟩
          rw [unary, bind_of_ok hpeek, if_pos hsign, bind_of_ok htoken, bind_of_ok hafter]
          rfl

theorem operations_complete {tier : Tier} {operand : Parse Expr} {bound : Nat}
    (hoperand : Complete operand (Expression tier.operand) bound (Stops tier.operand)) (fuel : Nat)
    (hfuel : fuel ≤ bound) (left : Expr) :
    Complete (operations (operatorOf? tier) operand fuel left) (Chain tier left) fuel
      (Stops (.binary tier)) := by
  induction fuel generalizing left with
  | zero =>
      intro state ts value behind rest _ hlength
      exact absurd hlength (Nat.not_lt_zero _)
  | succ fuel ih =>
      intro state ts value behind rest hchain hlength hbehind hstate
      cases hchain with
      | nil =>
          obtain ⟨peeked, hpeek, hpeeked⟩ := peekKind_of_upcoming hstate
          refine ⟨peeked, ?_, hpeeked.trans hstate⟩
          rw [operations, bind_of_ok hpeek, hbehind.operatorOf?_eq_none]
          rfl
      | @cons sign op _ right _ rs ts hsign hright hrest =>
          rw [List.map_cons, List.map_append, Stream'.cons_append_stream,
            Stream'.append_append_stream] at hstate
          obtain ⟨peeked, hpeek, hpeeked⟩ := peekKind_of_upcoming hstate
          rw [hstate] at hpeeked
          obtain ⟨mid, htoken, hmid⟩ := significant_of_upcoming hpeeked
          simp only [List.length_cons, List.length_append] at hlength
          -- What stops the right operand is the next operator, or what stops the whole level.
          obtain ⟨token, later, hhead, hstops⟩ := hrest.head hbehind rest
          rw [hhead] at hmid
          obtain ⟨last, hoperand', hlast⟩ := hoperand hright (by omega) hstops hmid
          rw [← hhead] at hlast
          obtain ⟨after, hafter, hleft⟩ := ih (by omega) _ hrest (by omega) hbehind hlast
          refine ⟨after, ?_, hleft⟩
          rw [operations, bind_of_ok hpeek, operatorOf?_eq_some_iff.mpr hsign]
          show (significant >>= fun token => operand >>= fun right =>
            operations (operatorOf? tier) operand fuel (.binary op left right token.location)) peeked = _
          rw [bind_of_ok htoken, bind_of_ok hoperand', hafter]

theorem level_complete (tier : Tier) {operand : Parse Expr} {bound : Nat}
    (hoperand : Complete operand (Expression tier.operand) bound (Stops tier.operand)) :
    Complete (level (operatorOf? tier) operand bound) (Expression (.binary tier)) bound
      (Stops (.binary tier)) := by
  intro state ts value behind rest hderives hlength hbehind hstate
  obtain ⟨fs, us, first, rfl, hfirst, hchain⟩ := exists_chain hderives
  rw [List.map_append, Stream'.append_append_stream] at hstate
  rw [List.length_append] at hlength
  obtain ⟨token, later, hhead, hstops⟩ := hchain.head hbehind rest
  rw [hhead] at hstate
  obtain ⟨mid, hmid, hlater⟩ := hoperand hfirst (by omega) hstops hstate
  rw [← hhead] at hlater
  obtain ⟨after, hafter, hrest⟩ :=
    operations_complete hoperand bound le_rfl first hchain (by omega) hbehind hlater
  refine ⟨after, ?_, hrest⟩
  rw [level, bind_of_ok hmid, hafter]

/-- A budget above the number of its tokens is enough for an expression. -/
theorem expressionWithin_complete (fuel : Nat) :
    Complete (expressionWithin fuel) (Expression (.binary .comparison)) fuel
      (Stops (.binary .comparison)) := by
  induction fuel with
  | zero =>
      intro state ts value behind rest _ hlength
      exact absurd hlength (Nat.not_lt_zero _)
  | succ fuel ih =>
      have hsigned := unary_complete (primary_complete ih) (fuel + 1) le_rfl
      have hproduct := level_complete .product hsigned
      have hsum := level_complete .sum hproduct
      exact level_complete .comparison hsum

end LoopScript.Parser
