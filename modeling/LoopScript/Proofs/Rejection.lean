import LoopScript.Proofs.Tracking

/-! Where the parser fails. Each parsing function is followed from the parts of its rule to the parts
behind it: expressions tier by tier, lists of names, the statements and the choice between them. A
whole text that is rejected is rejected where its tokens no longer fit the grammar, and the budget that
its reader gives is not used up before. -/

namespace LoopScript.Parser

open Grammar

/-! ### Expressions -/

/-- A primary expression, in front of a token that is no sign. -/
theorem primary_follows {fuel : Nat} {inner : Parse Expr}
    (hinner : ∀ parts, Tracks fuel (.operand :: .operators :: parts) (fun _ => parts) inner)
    (parts : List Part) {state : State} {token : Token} {rest : Stream' (Except Diagnostic Token)}
    (hstate : state.upcoming = Stream'.cons (.ok token) rest) (hminus : token.kind ≠ .minus) :
    Follows (fuel + 1) (.operand :: parts) state.upcoming (fun _ => parts) (primary inner state) := by
  obtain ⟨mid, hmid, rfl⟩ := significant_of_upcoming hstate
  have htake : ∀ {opened : List Part} {result : EStateM.Result Failure State Expr},
      Part.operand.opens token.kind = some opened →
      Follows fuel (opened ++ parts) mid.upcoming (fun _ => parts) result →
      Follows (fuel + 1) (.operand :: parts) state.upcoming (fun _ => parts) result := by
    intro opened result hopens hresult
    have hends : token.kind ≠ .endOfText ∧ token.kind ≠ .comma := by
      constructor <;> intro h <;> rw [h] at hopens <;> cases hopens
    exact Follows.take hstate (advance_of_opens hopens parts) hends hresult
  rw [primary, bind_of_ok hmid]
  generalize hkind : token.kind = kind
  split
  · have hopens : Part.operand.opens token.kind = some [] := by rw [hkind]; rfl
    dsimp only
    cases hvalue : Number.Literal.value? (token.text.getD "") with
    | some value => exact htake hopens (tracks_pure fuel parts _ mid)
    | none =>
        refine Fails.illegible hstate fun hlegible => ?_
        have hsome := hlegible.2 hkind
        rw [Token.word, hvalue] at hsome
        cases hsome
  · have hopens : Part.operand.opens token.kind = some [] := by rw [hkind]; rfl
    exact htake hopens (tracks_pure fuel parts _ mid)
  · have hopens : Part.operand.opens token.kind = some [.operand, .operators, .token .rightParen] := by
      rw [hkind]; rfl
    refine htake hopens ((hinner (.token .rightParen :: parts) mid).bind fun value left _ => ?_)
    exact Tracks.expect_within .rightParen (by decide) (fun _ => tracks_pure fuel parts value) left
  · next hnumber hname hgroup =>
    refine Fails.rejected hstate ?_ ⟨.expression, by rw [hkind]⟩
    have hopens : Part.operand.opens token.kind = none := by
      rw [hkind] at hminus ⊢
      cases kind <;> first | rfl | contradiction
    simp [advance, hopens, Part.isOptional]

theorem unary_tracks {bound : Nat} {operand : Parse Expr}
    (hoperand : ∀ (parts : List Part) {state : State} {token : Token}
      {rest : Stream' (Except Diagnostic Token)}, state.upcoming = Stream'.cons (.ok token) rest →
      token.kind ≠ .minus →
      Follows bound (.operand :: parts) state.upcoming (fun _ => parts) (operand state))
    (fuel : Nat) (hfuel : fuel ≤ bound) (parts : List Part) :
    Tracks fuel (.operand :: parts) (fun _ => parts) (unary operand fuel) := by
  induction fuel with
  | zero => exact fun _ => Fails.exhausted
  | succ fuel ih =>
      have hlooks : Looks (unary operand (fuel + 1)) := peekKind_looks.bind _
      refine hlooks.tracks fun state token rest hstate => ?_
      obtain ⟨peeked, hpeek, hsame⟩ := peekKind_of_upcoming hstate
      rw [unary, bind_of_ok hpeek]
      by_cases hminus : token.kind = .minus
      · obtain ⟨mid, hmid, hrest⟩ := significant_of_upcoming (hsame.trans hstate)
        rw [if_pos hminus, bind_of_ok hmid]
        have hopens : advance (.operand :: parts) token.kind = some (.operand :: parts) := by
          rw [hminus]
          rfl
        refine Follows.take hstate hopens (by simp [hminus]) ?_
        rw [← hrest]
        exact (ih (Nat.le_of_succ_le hfuel) mid).bind fun value left _ => tracks_pure fuel parts _ left
      · rw [if_neg hminus, ← hsame]
        exact (hoperand parts (hsame.trans hstate) hminus).mono hfuel

theorem operations_tracks (tier : Tier) {bound : Nat} {operand : Parse Expr} (parts : List Part)
    (hoperand :
      Tracks bound (.operand :: .operators :: parts) (fun _ => .operators :: parts) operand)
    (fuel : Nat) (hfuel : fuel ≤ bound) (left : Expr) :
    Tracks fuel (.operators :: parts) (fun _ => .operators :: parts)
      (operations (operatorOf? tier) operand fuel left) := by
  induction fuel generalizing left with
  | zero => exact fun _ => Fails.exhausted
  | succ fuel ih =>
      have hlooks : Looks (operations (operatorOf? tier) operand (fuel + 1) left) :=
        peekKind_looks.bind _
      refine hlooks.tracks fun state token rest hstate => ?_
      obtain ⟨peeked, hpeek, hsame⟩ := peekKind_of_upcoming hstate
      rw [operations, bind_of_ok hpeek]
      cases hop : operatorOf? tier token.kind with
      | none =>
          rw [← hsame]
          exact tracks_pure _ _ left peeked
      | some op =>
          have hsign := operatorOf?_eq_some_iff.mp hop
          obtain ⟨mid, hmid, rfl⟩ := significant_of_upcoming (hsame.trans hstate)
          have hcomma : token.kind ≠ .comma := by
            intro h
            rw [h] at hsign
            cases hsign
          dsimp only
          rw [bind_of_ok hmid]
          refine Follows.take hstate (advance_of_opens (opens_of_operator hsign) parts)
            ⟨hsign.kind_ne_endOfText, hcomma⟩ ?_
          exact ((hoperand.mono (Nat.le_of_succ_le hfuel)) mid).bind fun right last _ =>
            ih (Nat.le_of_succ_le hfuel) _ last

theorem level_tracks (tier : Tier) {fuel : Nat} {operand : Parse Expr} (parts : List Part)
    (hoperand :
      Tracks fuel (.operand :: .operators :: parts) (fun _ => .operators :: parts) operand) :
    Tracks fuel (.operand :: .operators :: parts) (fun _ => .operators :: parts)
      (level (operatorOf? tier) operand fuel) :=
  hoperand.bind fun left => operations_tracks tier parts hoperand fuel le_rfl left

/-- What a step stops in front of is something that an expression of some rank goes no further
than. -/
def Halts (rank : Rank) (step : Parse Expr) : Prop :=
  ∀ ⦃state : State⦄ ⦃value : Expr⦄ ⦃left : State⦄, step state = .ok value left →
    ∀ ⦃token : Token⦄ ⦃rest : Stream' (Except Diagnostic Token)⦄,
      left.upcoming = Stream'.cons (.ok token) rest → Stops rank token.kind

theorem stops_of_operatorOf? {tier : Tier} {kind : Token.Kind} (hop : operatorOf? tier kind = none)
    (hoperand : Stops tier.operand kind) : Stops (.binary tier) kind := by
  cases tier with
  | product => exact hop
  | sum => exact ⟨hop, hoperand⟩
  | comparison => exact ⟨hop, hoperand⟩

theorem operations_halts {tier : Tier} {operand : Parse Expr} (hoperand : Halts tier.operand operand)
    {fuel : Nat} {left value : Expr} {state last : State}
    (hstate : ∀ token rest, state.upcoming = Stream'.cons (.ok token) rest →
      Stops tier.operand token.kind)
    (h : operations (operatorOf? tier) operand fuel left state = .ok value last) {token : Token}
    {rest : Stream' (Except Diagnostic Token)}
    (hlast : last.upcoming = Stream'.cons (.ok token) rest) : Stops (.binary tier) token.kind := by
  induction fuel generalizing left state with
  | zero => cases h
  | succ fuel ih =>
      obtain ⟨kind, peeked, hpeek, h⟩ := exists_of_bind h
      generalize hop : operatorOf? tier kind = found at h
      split at h
      · obtain ⟨rfl, rfl⟩ := pure_ok h
        obtain ⟨hsame, first, later, rfl, hfirst⟩ := peekKind_ok hpeek
        rw [hsame, hfirst] at hlast
        obtain ⟨rfl, -⟩ := cons_ok_inj hlast
        exact stops_of_operatorOf? hop (hstate _ _ hfirst)
      · obtain ⟨sign, mid, hsign, h⟩ := exists_of_bind h
        obtain ⟨right, behind, hright, h⟩ := exists_of_bind h
        exact ih (fun _ _ hbehind => hoperand hright hbehind) h

theorem level_halts (tier : Tier) {operand : Parse Expr} (hoperand : Halts tier.operand operand)
    (fuel : Nat) : Halts (.binary tier) (level (operatorOf? tier) operand fuel) := by
  intro state value last h token rest hlast
  obtain ⟨left, mid, hleft, h⟩ := exists_of_bind h
  exact operations_halts hoperand (fun _ _ hmid => hoperand hleft hmid) h hlast

theorem opens_of_stops {kind : Token.Kind} (h : Stops (.binary .comparison) kind) :
    Part.operators.opens kind = none := by
  cases hopens : Part.operators.opens kind with
  | none => rfl
  | some opened =>
      obtain ⟨tier, op, hsign, -⟩ := operator_of_opens hopens
      have hop := operatorOf?_eq_some_iff.mpr hsign
      cases tier with
      | comparison => exact absurd hop (by simp [h.1])
      | sum => exact absurd hop (by simp [h.2.1])
      | product => exact absurd hop (by simp [h.2.2])

theorem expressionWithin_tracks (fuel : Nat) (parts : List Part) :
    Tracks fuel (.operand :: .operators :: parts) (fun _ => parts) (expressionWithin fuel) := by
  induction fuel generalizing parts with
  | zero => exact fun _ => Fails.exhausted
  | succ fuel ih =>
      have hsigned := unary_tracks (primary_follows ih) (fuel + 1) le_rfl (.operators :: parts)
      have hproduct := level_tracks .product parts hsigned
      have hsum := level_tracks .sum parts hproduct
      have hcomparison := level_tracks .comparison parts hsum
      have hhalts : Halts .signed (unary (primary (expressionWithin fuel)) (fuel + 1)) :=
        fun _ _ _ _ _ _ _ => trivial
      have hstops := level_halts .comparison
        (level_halts .sum (level_halts .product hhalts (fuel + 1)) (fuel + 1)) (fuel + 1)
      intro state
      have hfollows : Follows _ _ _ _ (expressionWithin (fuel + 1) state) := hcomparison state
      -- Behind the whole expression no operator comes, so the operators part is passed over.
      cases hresult : expressionWithin (fuel + 1) state with
      | error failure left =>
          rw [hresult] at hfollows
          exact hfollows
      | ok value left =>
          rw [hresult] at hfollows
          intro n failure hfails
          exact hfollows n failure <| hfails.missing .operators rfl fun token rest hleft =>
            opens_of_stops (hstops hresult hleft)

/-! ### Lists of names -/

/-- A further name is looked for behind a comma. What does not fit behind the comma makes the list end
in front of it. -/
theorem detectNamesTail_cases {state : State} {token : Token}
    {rest : Stream' (Except Diagnostic Token)}
    (hstate : state.upcoming = Stream'.cons (.ok token) rest) :
    (token.kind ≠ .comma ∧
      ∃ mid, detectNamesTail state = .ok false mid ∧ mid.upcoming = state.upcoming) ∨
    (token.kind = .comma ∧ ∃ report later, rest = Stream'.cons (.error report) later ∧
      ∃ left, detectNamesTail state = .error (.report report) left) ∨
    ∃ second later, token.kind = .comma ∧ rest = Stream'.cons (.ok second) later ∧
      ∃ mid, detectNamesTail state = .ok (decide (second.kind = .identifier)) mid ∧
        mid.upcoming = state.upcoming := by
  have hopen : (Lookahead.ofReader state.reader).reader.upcoming = Stream'.cons (.ok token) rest :=
    hstate
  by_cases hcomma : token.kind = .comma
  · obtain ⟨look, hlook, hrest⟩ := Lookahead.see_cons_of_eq [.identifier] hopen hcomma
    rcases head_cases rest with ⟨report, later, hlater⟩ | ⟨second, later, hlater⟩
    · obtain ⟨last, hlast⟩ := see_of_error (hrest.trans hlater) .identifier []
      exact .inr (.inl ⟨hcomma, report, later, hlater, detect_of_see_error (hlook.trans hlast)⟩)
    · refine .inr (.inr ⟨second, later, hcomma, hlater, ?_⟩)
      by_cases hname : second.kind = .identifier
      · obtain ⟨last, hlast, -⟩ := Lookahead.see_cons_of_eq [] (hrest.trans hlater) hname
        rw [decide_eq_true hname]
        exact detect_of_see (hlook.trans hlast)
      · obtain ⟨last, hlast⟩ := Lookahead.see_cons_of_ne [] (hrest.trans hlater) hname
        rw [decide_eq_false hname]
        exact detect_of_see (hlook.trans hlast)
  · obtain ⟨look, hlook⟩ := Lookahead.see_cons_of_ne [.identifier] hopen hcomma
    exact .inl ⟨hcomma, detect_of_see hlook⟩

/-- A comma that no name follows is blamed by the step that comes next, which wants a semicolon. -/
theorem Fails.dangling_of_semicolon {n : Nat} {parts : List Part}
    {s later : Stream' (Except Diagnostic Token)} {comma token : Token} {failure : Failure}
    (hs : s = Stream'.cons (.ok comma) (Stream'.cons (.ok token) later)) (hcomma : comma.kind = .comma)
    (hname : token.kind ≠ .identifier) (h : Fails n (.token .semicolon :: parts) s failure) :
    Fails n (.namesTail :: .token .semicolon :: parts) s failure := by
  have hnone : advance (.token .semicolon :: parts) comma.kind = none := by
    rw [hcomma]
    rfl
  have hfirst : advance (.namesTail :: .token .semicolon :: parts) comma.kind =
      some (.token .identifier :: .namesTail :: .token .semicolon :: parts) := by
    rw [hcomma]
    rfl
  have hhead : ∀ {other rest}, s = Stream'.cons (.ok other) rest → other = comma :=
    fun hother => (cons_ok_inj (hother.symm.trans hs)).1
  cases h with
  | exhausted => exact .exhausted
  | lexical hother =>
      rw [hs] at hother
      cases (Stream'.cons_injective2 hother).1
  | rejected hother _ hblames =>
      obtain rfl := hhead hother
      exact .dangling hs hcomma hfirst (advance_token_of_ne hname _) hblames
  | dangling hother _ hadvance =>
      obtain rfl := hhead hother
      rw [hnone] at hadvance
      cases hadvance
  | illegible hother hillegible => exact .illegible hother hillegible
  | step hother hadvance =>
      obtain rfl := hhead hother
      rw [hnone] at hadvance
      cases hadvance

theorem namesTailWithin_tracks (fuel : Nat) (parts : List Part) :
    Tracks fuel (.namesTail :: .token .semicolon :: parts) (fun _ => .token .semicolon :: parts)
      (namesTailWithin fuel) := by
  induction fuel with
  | zero => exact fun _ => Fails.exhausted
  | succ fuel ih =>
      have hlooks : Looks (namesTailWithin (fuel + 1)) := (detect_looks .comma [.identifier]).bind _
      refine hlooks.tracks fun state token rest hstate => ?_
      have hopens : token.kind = .comma →
          advance (.namesTail :: .token .semicolon :: parts) token.kind =
            some (.token .identifier :: .namesTail :: .token .semicolon :: parts) := by
        intro hcomma
        rw [hcomma]
        rfl
      rcases detectNamesTail_cases hstate with ⟨hcomma, mid, hmid, hsame⟩ |
        ⟨hcomma, report, later, rfl, left, hleft⟩ | ⟨second, later, hcomma, rfl, mid, hmid, hsame⟩
      · rw [namesTailWithin, bind_of_ok hmid]
        intro n failure hfails
        rw [hsame] at hfails
        exact hfails.missing_before .namesTail rfl hstate (namesTail_opens_of_ne hcomma)
      · rw [namesTailWithin, bind_of_error hleft]
        refine Fails.step hstate (hopens hcomma) (by simp [hcomma]) (fun _ next _ hnext => ?_)
          (.lexical rfl)
        cases (Stream'.cons_injective2 hnext).1
      · rw [namesTailWithin, bind_of_ok hmid]
        by_cases hname : second.kind = .identifier
        · rw [decide_eq_true hname, if_pos rfl]
          obtain ⟨third, hthird, hrest⟩ := expect_of_upcoming .comma (hsame.trans hstate) hcomma
          obtain ⟨fourth, hfourth, rfl⟩ := expect_of_upcoming .identifierAfterComma hrest hname
          have hpair : Follows (fuel + 1) (.token .identifier :: .namesTail :: .token .semicolon :: parts)
              (Stream'.cons (.ok second) fourth.upcoming) (fun _ => .token .semicolon :: parts)
              ((namesTailWithin fuel >>= fun names => pure (second.text.toList ++ names)) fourth) := by
            refine Follows.take rfl (by rw [hname]; exact advance_token _ _) (by simp [hname]) ?_
            exact (ih fourth).bind fun names last _ => tracks_pure _ _ _ last
          rw [bind_of_ok hthird, bind_of_ok hfourth]
          refine (Follows.step hstate (hopens hcomma) (by simp [hcomma]) (fun _ next _ hnext => ?_)
            hpair).mono (Nat.le_succ _)
          obtain ⟨rfl, -⟩ := cons_ok_inj hnext
          rw [hname, advance_token]
          exact Option.some_ne_none _
        · rw [decide_eq_false hname]
          intro n failure hfails
          rw [hsame] at hfails
          exact Fails.dangling_of_semicolon hstate hcomma hname hfails

theorem namesWithin_tracks (fuel : Nat) (parts : List Part) :
    Tracks (fuel + 1) (.token .identifier :: .namesTail :: .token .semicolon :: parts)
      (fun _ => .token .semicolon :: parts) (namesWithin fuel) :=
  .expect .identifier (by decide) fun first =>
    (namesTailWithin_tracks fuel parts).bind fun rest => tracks_pure _ _ _

/-! ### Statements -/

theorem loopWith_tracks {fuel : Nat} {block : Parse (List Stmt)}
    (hblock : ∀ parts, Tracks fuel (.block :: parts) (fun _ => parts) block) (parts : List Part) :
    Tracks (fuel + 1)
      (.token .loopWord :: .token .identifier :: .token .colon :: .block :: .token .repeatWord :: parts)
      (fun _ => parts) (loopWith block) := by
  refine Tracks.expect .loopWord (by decide) fun keyword => ?_
  refine Tracks.expect_within .loopName (by decide) fun label => ?_
  refine Tracks.expect_within .loopColon (by decide) fun _ => ?_
  refine (hblock _).bind fun body => ?_
  refine Tracks.expect_within .repeatWord (by decide) fun _ => ?_
  exact (tracks_record fuel parts _).bind fun _ => tracks_pure fuel parts _

theorem target_tracks (fuel : Nat) (parts : List Part) :
    Tracks fuel (.target :: parts) (fun _ => parts) target := by
  have hlooks : Looks target := significant_looks.bind _
  refine hlooks.tracks fun state token rest hstate => ?_
  by_cases hname : token.kind = .identifier
  · obtain ⟨left, hleft, rfl⟩ := target_of_identifier hname hstate
    rw [hleft]
    have hopens : advance (.target :: parts) token.kind = some parts := by
      rw [hname]
      rfl
    have hdone : Follows fuel parts left.upcoming (fun _ => parts) (.ok token.text left) :=
      fun _ _ hfails => hfails
    exact (hdone.take hstate hopens (by simp [hname])).mono (Nat.le_succ fuel)
  · obtain ⟨left, hleft, hsame⟩ := target_of_other hname hstate
    rw [hleft]
    intro n failure hfails
    rw [hsame] at hfails
    exact hfails.missing_before .target rfl hstate (target_opens_of_ne hname)

theorem breakStmt_tracks (fuel : Nat) (parts : List Part) :
    Tracks (fuel + 1) (.token .breakWord :: .target :: parts) (fun _ => parts) breakStmt :=
  .expect .breakWord (by decide) fun _ => (target_tracks fuel parts).bind fun _ => tracks_pure _ _ _

/-- READ and PRINT: a keyword and a list of names. -/
theorem listing_tracks {kind : Token.Kind} (wanted : Diagnostic.Wanted)
    (hkind : kind ≠ .endOfText ∧ kind ≠ .comma) (make : List String → Location → Stmt) (fuel : Nat)
    (parts : List Part) :
    Tracks (fuel + 1)
      (.token kind :: .token .identifier :: .namesTail :: .token .semicolon :: parts)
      (fun _ => .token .semicolon :: parts) (do
        let _ ← expect kind wanted
        let (names, location) ← namesWithin fuel
        return make names location) :=
  .expect wanted hkind fun _ =>
    ((namesWithin_tracks fuel parts).mono (Nat.le_succ fuel)).bind fun _ => tracks_pure _ _ _

theorem elseWith_tracks {fuel : Nat} {block : Parse (List Stmt)}
    (hblock : ∀ parts, Tracks fuel (.block :: parts) (fun _ => parts) block) (parts : List Part) :
    Tracks fuel (.elsePart :: parts) (fun _ => parts) (elseWith block) := by
  have hlooks : Looks (elseWith block) := (detect_looks .elseWord []).bind _
  refine hlooks.tracks fun state token rest hstate => ?_
  obtain ⟨mid, hmid, hsame⟩ := detect_one .elseWord hstate
  rw [elseWith, bind_of_ok hmid]
  by_cases helse : token.kind = .elseWord
  · rw [decide_eq_true helse, if_pos rfl]
    have hbranch : Tracks fuel (.token .elseWord :: .block :: parts) (fun _ => parts) (do
        let _ ← expect .elseWord .elseWord
        let branch ← block
        return some branch) :=
      Tracks.expect_within .elseWord (by decide) fun _ =>
        (hblock parts).bind fun branch => tracks_pure fuel parts (some branch)
    rw [← hsame]
    refine (hbranch mid).congr (hsame.trans hstate) ?_
    rw [helse]
    rfl
  · rw [decide_eq_false helse]
    intro n failure hfails
    rw [hsame] at hfails
    exact hfails.missing_before .elsePart rfl hstate (elsePart_opens_of_ne helse)

theorem ifWith_tracks {fuel : Nat} {block : Parse (List Stmt)}
    (hblock : ∀ parts, Tracks fuel (.block :: parts) (fun _ => parts) block) (parts : List Part) :
    Tracks (fuel + 1)
      (.token .ifWord :: .operand :: .operators :: .token .thenWord :: .block :: .elsePart ::
        .token .endWord :: parts)
      (fun _ => parts) (ifWith fuel block) := by
  refine Tracks.expect .ifWord (by decide) fun _ => ?_
  refine (expressionWithin_tracks fuel _).bind fun condition => ?_
  refine Tracks.expect_within .thenWord (by decide) fun _ => ?_
  refine (hblock _).bind fun thenBranch => ?_
  refine (elseWith_tracks hblock _).bind fun elseBranch => ?_
  exact Tracks.expect_within .endWord (by decide) fun _ => tracks_pure fuel parts _

theorem assignWithin_tracks (fuel : Nat) (parts : List Part) :
    Tracks (fuel + 1) (.token .identifier :: .token .assign :: .operand :: .operators :: parts)
      (fun _ => parts) (assignWithin fuel) := by
  refine Tracks.expect .identifier (by decide) fun _ => ?_
  refine Tracks.expect_within .assignSign (by decide) fun _ => ?_
  exact (expressionWithin_tracks fuel parts).bind fun value => tracks_pure fuel parts _

/-- The parts of the statement that starts with a kind of token, the token included. -/
def statementParts : Token.Kind → List Part
  | .loopWord =>
      [.token .loopWord, .token .identifier, .token .colon, .block, .token .repeatWord]
  | .breakWord => [.token .breakWord, .target]
  | .readWord => [.token .readWord, .token .identifier, .namesTail]
  | .printWord => [.token .printWord, .token .identifier, .namesTail]
  | .ifWord =>
      [.token .ifWord, .operand, .operators, .token .thenWord, .block, .elsePart, .token .endWord]
  | _ => [.token .identifier, .token .assign, .operand, .operators]

/-- What is to come behind a statement that may be missing, inside a list of statements. -/
def behindStatement (parts : List Part) : Option Stmt → List Part
  | some _ => .token .semicolon :: .block :: parts
  | none => parts

theorem advance_block_of_starts {kind : Token.Kind} (h : StartsStatement kind) (parts : List Part) :
    advance (.block :: parts) kind =
      advance (statementParts kind ++ .token .semicolon :: .block :: parts) kind := by
  simp only [StartsStatement, List.mem_cons, List.not_mem_nil, or_false] at h
  rcases h with rfl | rfl | rfl | rfl | rfl | rfl <;> rfl

theorem opens_block_of_not_starts {kind : Token.Kind} (h : ¬ StartsStatement kind) :
    Part.block.opens kind = none := by
  cases kind <;> first | rfl | exact absurd (by simp [StartsStatement]) h

theorem Tracks.map_some {fuel : Nat} {before parts : List Part} {step : Parse Stmt}
    (h : Tracks fuel before (fun _ => .token .semicolon :: .block :: parts) step) :
    Tracks fuel before (behindStatement parts) (some <$> step) := by
  intro state
  have hfollows := h state
  have hmap : (some <$> step) state = EStateM.map some step state := rfl
  rw [hmap, EStateM.map]
  cases hstep : step state with
  | ok stmt left =>
      rw [hstep] at hfollows
      exact hfollows
  | error failure left =>
      rw [hstep] at hfollows
      exact hfollows

theorem statementAt_tracks {fuel : Nat} {block : Parse (List Stmt)}
    (hblock : ∀ parts, Tracks fuel (.block :: parts) (fun _ => parts) block) {kind : Token.Kind}
    (hstarts : StartsStatement kind) (parts : List Part) :
    Tracks (fuel + 1) (statementParts kind ++ .token .semicolon :: .block :: parts)
      (behindStatement parts) (statementAt fuel block kind) := by
  simp only [StartsStatement, List.mem_cons, List.not_mem_nil, or_false] at hstarts
  rcases hstarts with rfl | rfl | rfl | rfl | rfl | rfl
  · exact (loopWith_tracks hblock _).map_some
  · exact (breakStmt_tracks fuel _).map_some
  · exact (listing_tracks .readWord (by decide) .read fuel _).map_some
  · exact (listing_tracks .printWord (by decide) .print fuel _).map_some
  · exact (ifWith_tracks hblock _).map_some
  · exact (assignWithin_tracks fuel _).map_some

theorem statementWith_tracks {fuel : Nat} {block : Parse (List Stmt)}
    (hblock : ∀ parts, Tracks fuel (.block :: parts) (fun _ => parts) block) (parts : List Part) :
    Tracks (fuel + 1) (.block :: parts) (behindStatement parts) (statementWith fuel block) := by
  have hlooks : Looks (statementWith fuel block) := (detect_looks .loopWord []).bind _
  refine hlooks.tracks fun state token rest hstate => ?_
  obtain ⟨mid, hmid, heq⟩ := statementWith_chooses fuel block hstate List.not_mem_nil
  rw [heq]
  by_cases hstarts : StartsStatement token.kind
  · have hfollows := statementAt_tracks hblock hstarts parts mid
    rw [hmid, ← hstate] at hfollows
    exact hfollows.congr hstate (advance_block_of_starts hstarts parts)
  · rw [statementAt_of_not_starts fuel block hstarts]
    intro n failure hfails
    have hsame : mid.upcoming = state.upcoming := hmid.trans hstate.symm
    have hfails' : Fails n parts mid.upcoming failure := hfails
    rw [hsame] at hfails'
    exact hfails'.missing_before .block rfl hstate (opens_block_of_not_starts hstarts)

/-- A budget is used up only behind as many tokens. -/
theorem blockWithin_tracks (fuel : Nat) (parts : List Part) :
    Tracks fuel (.block :: parts) (fun _ => parts) (blockWithin fuel) := by
  induction fuel generalizing parts with
  | zero => exact fun _ => Fails.exhausted
  | succ fuel ih =>
      refine (statementWith_tracks ih parts).bind fun stmt? => ?_
      cases stmt? with
      | none => exact tracks_pure (fuel + 1) parts []
      | some stmt =>
          refine Tracks.expect .semicolon (by decide) fun _ => ?_
          exact (ih parts).bind fun rest => tracks_pure fuel parts (stmt :: rest)

/-- Behind the last statement the end token has to come. -/
theorem fails_of_closing {body : List Stmt} {state left : State} {failure : Failure} (n : Nat)
    (h : (do
      let token ← significant
      if token.kind = .endOfText then return { body := body }
      fail (.missing .statement token.kind) token.location : Parse Program) state = .error failure left) :
    Fails n [.token .endOfText] state.upcoming failure := by
  rcases head_cases state.upcoming with ⟨report, rest, hstate⟩ | ⟨token, rest, hstate⟩
  · obtain ⟨last, hlast⟩ := significant_looks hstate
    rw [bind_of_error hlast] at h
    obtain ⟨rfl, -⟩ := EStateM.Result.error.inj h
    exact .lexical hstate
  · obtain ⟨mid, hmid, -⟩ := significant_of_upcoming hstate
    rw [bind_of_ok hmid] at h
    split at h
    · cases h
    · next hkind =>
        obtain ⟨rfl, -⟩ := EStateM.Result.error.inj h
        exact .rejected hstate (advance_token_of_ne hkind []) ⟨.statement, rfl⟩

/-- A text that is no program fails where its tokens no longer fit. -/
theorem fails_of_program {state left : State} {failure : Failure}
    (h : program state = .error failure left) :
    Fails (state.reader.size + 1) wholeText state.upcoming failure := by
  have hblock : Follows (state.reader.size + 1) wholeText state.upcoming
      (fun _ => [.token .endOfText]) (block state) :=
    blockWithin_tracks (state.reader.size + 1) [.token .endOfText] state
  cases hbody : block state with
  | error failed last =>
      rw [hbody] at hblock
      rw [program, bind_of_error hbody] at h
      obtain ⟨rfl, -⟩ := EStateM.Result.error.inj h
      exact hblock
  | ok body mid =>
      rw [hbody] at hblock
      rw [program, bind_of_ok hbody] at h
      exact hblock _ _ (fails_of_closing _ h)

end LoopScript.Parser
