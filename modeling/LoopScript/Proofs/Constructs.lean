import Mathlib
import LoopScript.Nesting
import LoopScript.Proofs.LineCuts
import LoopScript.Proofs.TokenOrder

/-! The constructs of a program, from LOOP to REPEAT and from IF to END. The grammar nests them, so that in
front of any token at least as many have been opened as closed, and as many of both only if none is open
there. For this the two kinds need not be told apart. A text that is cut at the end of a line is therefore
found complete exactly if no construct of its program goes over the cut. -/

namespace LoopScript

namespace Grammar

def opened (ts : List Token) : Nat := ts.countP (·.kind.opens)

def closed (ts : List Token) : Nat := ts.countP (·.kind.closes)

@[simp]
theorem opened_nil : opened [] = 0 := rfl

@[simp]
theorem closed_nil : closed [] = 0 := rfl

@[simp]
theorem opened_append (ts us : List Token) : opened (ts ++ us) = opened ts + opened us :=
  List.countP_append

@[simp]
theorem closed_append (ts us : List Token) : closed (ts ++ us) = closed ts + closed us :=
  List.countP_append

@[simp]
theorem opened_cons (token : Token) (ts : List Token) :
    opened (token :: ts) = token.kind.opens.toNat + opened ts := by
  rw [opened, List.countP_cons, Nat.add_comm]
  cases token.kind.opens <;> rfl

@[simp]
theorem closed_cons (token : Token) (ts : List Token) :
    closed (token :: ts) = token.kind.closes.toNat + closed ts := by
  rw [closed, List.countP_cons, Nat.add_comm]
  cases token.kind.closes <;> rfl

/-! ### The constructs of a derivation -/

mutual

/-- In the derivation of a statement, one token opens a construct and another one closes it. -/
inductive StatementConstruct (opening closing : Token) : List Token → Stmt → Prop
  | whole {ts : List Token} {stmt : Stmt}
      (hopening : opening.kind = .loopWord ∨ opening.kind = .ifWord)
      (hstmt : Statement (opening :: (ts ++ [closing])) stmt) :
      StatementConstruct opening closing (opening :: (ts ++ [closing])) stmt
  | inLoop {keyword label colon final : Token} {name : String} {ts : List Token} {body : List Stmt}
      (hkeyword : keyword.kind = .loopWord) (hlabel : label.IsIdentifier name)
      (hcolon : colon.kind = .colon) (hbody : BlockConstruct opening closing ts body)
      (hfinal : final.kind = .repeatWord) :
      StatementConstruct opening closing (keyword :: label :: colon :: (ts ++ [final]))
        (.loop (some name) body keyword.location)
  | inThen {keyword thenWord final : Token} {ts us : List Token} {condition : Expr}
      {branch : List Stmt} (hkeyword : keyword.kind = .ifWord)
      (hcondition : Expression (.binary .comparison) ts condition) (hthen : thenWord.kind = .thenWord)
      (hbranch : BlockConstruct opening closing us branch) (hfinal : final.kind = .endWord) :
      StatementConstruct opening closing (keyword :: (ts ++ thenWord :: (us ++ [final])))
        (.cond condition branch none)
  | inThenOfTwo {keyword thenWord elseWord final : Token} {ts us vs : List Token}
      {condition : Expr} {branch other : List Stmt} (hkeyword : keyword.kind = .ifWord)
      (hcondition : Expression (.binary .comparison) ts condition) (hthen : thenWord.kind = .thenWord)
      (hbranch : BlockConstruct opening closing us branch) (helse : elseWord.kind = .elseWord)
      (hother : Block vs other) (hfinal : final.kind = .endWord) :
      StatementConstruct opening closing
        (keyword :: (ts ++ thenWord :: (us ++ elseWord :: (vs ++ [final]))))
        (.cond condition branch (some other))
  | inElse {keyword thenWord elseWord final : Token} {ts us vs : List Token}
      {condition : Expr} {branch other : List Stmt} (hkeyword : keyword.kind = .ifWord)
      (hcondition : Expression (.binary .comparison) ts condition) (hthen : thenWord.kind = .thenWord)
      (hbranch : Block us branch) (helse : elseWord.kind = .elseWord)
      (hother : BlockConstruct opening closing vs other) (hfinal : final.kind = .endWord) :
      StatementConstruct opening closing
        (keyword :: (ts ++ thenWord :: (us ++ elseWord :: (vs ++ [final]))))
        (.cond condition branch (some other))

/-- In the derivation of some statements, one token opens a construct and another one closes it. -/
inductive BlockConstruct (opening closing : Token) : List Token → List Stmt → Prop
  | head {semicolon : Token} {ts us : List Token} {stmt : Stmt} {stmts : List Stmt}
      (hhead : StatementConstruct opening closing ts stmt) (hsemicolon : semicolon.kind = .semicolon)
      (tail : Block us stmts) : BlockConstruct opening closing (ts ++ semicolon :: us) (stmt :: stmts)
  | tail {semicolon : Token} {ts us : List Token} {stmt : Stmt} {stmts : List Stmt}
      (head : Statement ts stmt) (hsemicolon : semicolon.kind = .semicolon)
      (htail : BlockConstruct opening closing us stmts) :
      BlockConstruct opening closing (ts ++ semicolon :: us) (stmt :: stmts)

end

/-! ### Tokens outside of constructs -/

/-- Tokens that open and close no construct and end no statement. -/
def Plain (ts : List Token) : Prop :=
  ∀ token ∈ ts, token.kind.opens = false ∧ token.kind.closes = false ∧ token.kind ≠ .semicolon

@[simp]
theorem plain_nil : Plain [] := by simp [Plain]

@[simp]
theorem plain_cons {token : Token} {ts : List Token} :
    Plain (token :: ts) ↔
      (token.kind.opens = false ∧ token.kind.closes = false ∧ token.kind ≠ .semicolon) ∧ Plain ts :=
  List.forall_mem_cons

@[simp]
theorem plain_append {ts us : List Token} : Plain (ts ++ us) ↔ Plain ts ∧ Plain us :=
  List.forall_mem_append

theorem Operator.plain {tier : Tier} {sign : Token} {op : BinaryOp} (h : Operator tier sign.kind op) :
    Plain [sign] := by
  generalize hkind : sign.kind = kind at h
  cases h <;> simp [hkind, Token.Kind.opens, Token.Kind.closes]

theorem Expression.plain {rank : Rank} {ts : List Token} {e : Expr} (h : Expression rank ts e) :
    Plain ts := by
  induction h with
  | number hkind => simp [hkind, Token.Kind.opens, Token.Kind.closes]
  | name hkind => simp [hkind, Token.Kind.opens, Token.Kind.closes]
  | group hopening _ hclosing ih => simpa [hopening, hclosing, Token.Kind.opens, Token.Kind.closes] using ih
  | unsigned _ ih => exact ih
  | negated hsign _ ih => simpa [hsign, Token.Kind.opens, Token.Kind.closes] using ih
  | operand _ ih => exact ih
  | operation _ hsign _ ihleft ihright =>
      rw [← List.singleton_append]
      exact plain_append.mpr ⟨ihleft, plain_append.mpr ⟨hsign.plain, ihright⟩⟩

theorem NamesTail.plain {ts : List Token} {names : List String} (h : NamesTail ts names) : Plain ts := by
  induction h with
  | nil => exact plain_nil
  | cons hcomma hname _ ih => simpa [hcomma, hname.1, Token.Kind.opens, Token.Kind.closes] using ih

theorem Names.plain {ts : List Token} {names : List String × Location} (h : Names ts names) :
    Plain ts := by
  cases h with
  | mk hname rest => simpa [hname.1, Token.Kind.opens, Token.Kind.closes] using rest.plain

theorem Plain.opened_eq_zero {ts : List Token} (h : Plain ts) : opened ts = 0 :=
  List.countP_eq_zero.mpr fun token hmem => by simp [(h token hmem).1]

theorem Plain.closed_eq_zero {ts : List Token} (h : Plain ts) : closed ts = 0 :=
  List.countP_eq_zero.mpr fun token hmem => by simp [(h token hmem).2.1]

theorem Plain.take {ts : List Token} (h : Plain ts) (i : Nat) : Plain (ts.take i) :=
  fun token hmem => h token (List.mem_of_mem_take hmem)

/-! ### Nesting -/

/-- As many constructs are closed as are opened, and nowhere more. -/
structure WellNested (ts : List Token) : Prop where
  closed_take_le : ∀ i, closed (ts.take i) ≤ opened (ts.take i)
  balanced : opened ts = closed ts

/-- A construct around well-nested tokens. -/
inductive Enclosed : List Token → Prop
  | mk {opening closing : Token} {ts : List Token}
      (hopening : opening.kind = .loopWord ∨ opening.kind = .ifWord)
      (hclosing : closing.kind = .repeatWord ∨ closing.kind = .endWord) (inner : WellNested ts) :
      Enclosed (opening :: (ts ++ [closing]))

theorem Plain.wellNested {ts : List Token} (h : Plain ts) : WellNested ts where
  closed_take_le i := by rw [(h.take i).closed_eq_zero]; exact Nat.zero_le _
  balanced := by rw [h.opened_eq_zero, h.closed_eq_zero]

theorem WellNested.append {ts us : List Token} (h : WellNested ts) (h' : WellNested us) :
    WellNested (ts ++ us) where
  closed_take_le i := by
    have hleft := h.closed_take_le i
    have hright := h'.closed_take_le (i - ts.length)
    rw [List.take_append, opened_append, closed_append]
    omega
  balanced := by
    have hleft := h.balanced
    have hright := h'.balanced
    rw [opened_append, closed_append]
    omega

theorem counts_of_opening {token : Token} (h : token.kind = .loopWord ∨ token.kind = .ifWord) :
    token.kind.opens = true ∧ token.kind.closes = false := by
  rcases h with h | h <;> simp [h, Token.Kind.opens, Token.Kind.closes]

theorem counts_of_closing {token : Token} (h : token.kind = .repeatWord ∨ token.kind = .endWord) :
    token.kind.opens = false ∧ token.kind.closes = true := by
  rcases h with h | h <;> simp [h, Token.Kind.opens, Token.Kind.closes]

theorem Enclosed.wellNested {ts : List Token} (h : Enclosed ts) : WellNested ts := by
  cases h with
  | @mk opening closing ts hopening hclosing inner =>
      obtain ⟨hopens, hcloses⟩ := counts_of_opening hopening
      obtain ⟨hopens', hcloses'⟩ := counts_of_closing hclosing
      have hbalanced := inner.balanced
      constructor
      · intro i
        cases i with
        | zero => simp
        | succ i =>
            have hinner := inner.closed_take_le i
            have hlast : closed ([closing].take (i - ts.length)) ≤ 1 := by
              cases i - ts.length <;> simp [hcloses']
            simp only [List.take_succ_cons, List.take_append, opened_cons, closed_cons, opened_append,
              closed_append, hopens, hcloses, Bool.toNat_true, Bool.toNat_false]
            omega
      · simp only [opened_cons, closed_cons, opened_append, closed_append, opened_nil, closed_nil, hopens,
          hcloses, hopens', hcloses', Bool.toNat_true, Bool.toNat_false]
        omega

theorem wellNested_of_shape {ts : List Token} (h : Plain ts ∨ Enclosed ts) : WellNested ts := by
  rcases h with h | h
  · exact h.wellNested
  · exact h.wellNested

mutual

/-- A statement is a construct as a whole, or it has none. -/
theorem Statement.shape {ts : List Token} {stmt : Stmt} (h : Statement ts stmt) :
    Plain ts ∨ Enclosed ts := by
  cases h with
  | @loop keyword label colon closing name ts body hkeyword hlabel hcolon hbody hclosing =>
      have hfront : Plain [label, colon] := by
        simp [hlabel.1, hcolon, Token.Kind.opens, Token.Kind.closes]
      exact .inr (.mk (.inl hkeyword) (.inl hclosing) (hfront.wellNested.append hbody.wellNested))
  | leave hkeyword => exact .inl (by simp [hkeyword, Token.Kind.opens, Token.Kind.closes])
  | leaveNamed hkeyword htarget =>
      exact .inl (by simp [hkeyword, htarget.1, Token.Kind.opens, Token.Kind.closes])
  | read hkeyword hnames =>
      exact .inl (by simpa [hkeyword, Token.Kind.opens, Token.Kind.closes] using hnames.plain)
  | print hkeyword hnames =>
      exact .inl (by simpa [hkeyword, Token.Kind.opens, Token.Kind.closes] using hnames.plain)
  | @cond keyword thenWord closing ts us condition branch hkeyword hcondition hthen hbranch hclosing =>
      have hfront : Plain (ts ++ [thenWord]) := by
        simpa [hthen, Token.Kind.opens, Token.Kind.closes] using hcondition.plain
      have hinner := hfront.wellNested.append hbranch.wellNested
      refine .inr ?_
      have hsplit : ts ++ thenWord :: (us ++ [closing]) = (ts ++ [thenWord] ++ us) ++ [closing] := by simp
      rw [hsplit]
      exact .mk (.inr hkeyword) (.inr hclosing) hinner
  | @condElse keyword thenWord elseWord closing ts us vs condition branch other hkeyword hcondition hthen
      hbranch helse hother hclosing =>
      have hfront : Plain (ts ++ [thenWord]) := by
        simpa [hthen, Token.Kind.opens, Token.Kind.closes] using hcondition.plain
      have hmiddle : Plain [elseWord] := by simp [helse, Token.Kind.opens, Token.Kind.closes]
      have hinner := (hfront.wellNested.append hbranch.wellNested).append
        (hmiddle.wellNested.append hother.wellNested)
      refine .inr ?_
      have hsplit : ts ++ thenWord :: (us ++ elseWord :: (vs ++ [closing])) =
          (ts ++ [thenWord] ++ us ++ ([elseWord] ++ vs)) ++ [closing] := by simp
      rw [hsplit]
      exact .mk (.inr hkeyword) (.inr hclosing) hinner
  | assign hname hsign hvalue =>
      exact .inl (by simpa [hname.1, hsign, Token.Kind.opens, Token.Kind.closes] using hvalue.plain)

theorem Block.wellNested {ts : List Token} {stmts : List Stmt} (h : Block ts stmts) :
    WellNested ts := by
  cases h with
  | nil => exact plain_nil.wellNested
  | @cons semicolon ts us stmt stmts head hsemicolon tail =>
      have hend : WellNested [semicolon] := by
        constructor
        · intro i
          cases i <;> simp [hsemicolon, Token.Kind.closes]
        · simp [hsemicolon, Token.Kind.opens, Token.Kind.closes]
      exact (wellNested_of_shape head.shape).append (hend.append tail.wellNested)

end

/-! ### Constructs over a cut -/

mutual

/-- A construct of a statement is somewhere among its tokens, around well-nested ones. -/
theorem StatementConstruct.exists_inner {ts : List Token} {stmt : Stmt} {opening closing : Token}
    (h : StatementConstruct opening closing ts stmt) :
    ∃ before inner after, ts = before ++ opening :: (inner ++ closing :: after) ∧
      (opening.kind = .loopWord ∨ opening.kind = .ifWord) ∧ WellNested inner := by
  cases h with
  | @whole ts _ hopening hstmt =>
      rcases hstmt.shape with hplain | henclosed
      · have hopens := (plain_cons.mp hplain).1.1
        rw [(counts_of_opening hopening).1] at hopens
        cases hopens
      · generalize hts : opening :: (ts ++ [closing]) = whole at henclosed
        cases henclosed with
        | @mk first last inner hfirst hlast hinner =>
            obtain ⟨rfl, hrest⟩ := List.cons.inj hts
            obtain ⟨rfl, hclosing⟩ := List.append_inj' hrest rfl
            obtain ⟨rfl, -⟩ := List.cons.inj hclosing
            exact ⟨[], ts, [], rfl, hfirst, hinner⟩
  | @inLoop keyword label colon final name ts body _ _ _ hbody _ =>
      obtain ⟨before, inner, after, rfl, hopening, hinner⟩ := hbody.exists_inner
      exact ⟨[keyword, label, colon] ++ before, inner, after ++ [final], by simp, hopening, hinner⟩
  | @inThen keyword thenWord final ts us condition branch _ _ _ hbranch _ =>
      obtain ⟨before, inner, after, rfl, hopening, hinner⟩ := hbranch.exists_inner
      exact ⟨keyword :: (ts ++ thenWord :: before), inner, after ++ [final], by simp, hopening, hinner⟩
  | @inThenOfTwo keyword thenWord elseWord final ts us vs condition branch other _ _ _ hbranch =>
      obtain ⟨before, inner, after, rfl, hopening, hinner⟩ := hbranch.exists_inner
      exact ⟨keyword :: (ts ++ thenWord :: before), inner, after ++ elseWord :: (vs ++ [final]), by simp,
        hopening, hinner⟩
  | @inElse keyword thenWord elseWord final ts us vs condition branch other _ _ _ _ _ hother _ =>
      obtain ⟨before, inner, after, rfl, hopening, hinner⟩ := hother.exists_inner
      exact ⟨keyword :: (ts ++ thenWord :: (us ++ elseWord :: before)), inner, after ++ [final], by simp,
        hopening, hinner⟩

theorem BlockConstruct.exists_inner {ts : List Token} {stmts : List Stmt} {opening closing : Token}
    (h : BlockConstruct opening closing ts stmts) :
    ∃ before inner after, ts = before ++ opening :: (inner ++ closing :: after) ∧
      (opening.kind = .loopWord ∨ opening.kind = .ifWord) ∧ WellNested inner := by
  cases h with
  | @head semicolon ts us stmt stmts hhead _ _ =>
      obtain ⟨before, inner, after, rfl, hopening, hinner⟩ := hhead.exists_inner
      exact ⟨before, inner, after ++ semicolon :: us, by simp, hopening, hinner⟩
  | @tail semicolon ts us stmt stmts _ _ htail =>
      obtain ⟨before, inner, after, rfl, hopening, hinner⟩ := htail.exists_inner
      exact ⟨ts ++ semicolon :: before, inner, after, by simp, hopening, hinner⟩

end

/-- In front of a cut through a construct, more constructs have been opened than closed. -/
theorem closed_lt_opened_of_construct {ts : List Token} {stmts : List Stmt} {opening closing : Token}
    {i : Nat} (h : Block ts stmts) (hnodup : ts.Nodup) (hconstruct : BlockConstruct opening closing ts stmts)
    (hopening : opening ∈ ts.take i) (hclosing : closing ∉ ts.take i) :
    closed (ts.take i) < opened (ts.take i) := by
  obtain ⟨before, inner, after, rfl, hkind, hinner⟩ := hconstruct.exists_inner
  obtain ⟨hopens, hcloses⟩ := counts_of_opening hkind
  have hbefore := h.wellNested.closed_take_le before.length
  rw [List.take_left'] at hbefore
  · obtain ⟨k, rfl⟩ : ∃ k, i = before.length + (k + 1) := by
      by_contra hfront
      have hle : i ≤ before.length := by
        by_contra hlt
        exact hfront ⟨i - before.length - 1, by omega⟩
      rw [List.take_append_of_le_length hle] at hopening
      exact (List.nodup_append.mp hnodup).2.2 _ (List.mem_of_mem_take hopening) _ List.mem_cons_self rfl
    have hk : k ≤ inner.length := by
      by_contra hlt
      obtain ⟨j, rfl⟩ : ∃ j, k = inner.length + (j + 1) := ⟨k - inner.length - 1, by omega⟩
      apply hclosing
      simp [List.take_append, List.take_of_length_le]
    have hwithin := hinner.closed_take_le k
    rw [List.take_length_add_append, List.take_succ_cons, List.take_append_of_le_length hk]
    simp only [opened_append, closed_append, opened_cons, closed_cons, hopens, hcloses, Bool.toNat_true,
      Bool.toNat_false]
    omega
  · rfl

theorem Enclosed.exists_ends {ts : List Token} (h : Enclosed ts) {i : Nat}
    (hopen : closed (ts.take i) < opened (ts.take i)) :
    ∃ opening closing inner, ts = opening :: (inner ++ [closing]) ∧
      (opening.kind = .loopWord ∨ opening.kind = .ifWord) ∧ opening ∈ ts.take i ∧ closing ∈ ts.drop i := by
  have hwhole := h.wellNested.balanced
  cases h with
  | @mk opening closing inner hopening _ _ =>
      refine ⟨opening, closing, inner, rfl, hopening, ?_, ?_⟩
      · cases i with
        | zero => simp at hopen
        | succ i => exact List.mem_cons_self
      · have hi : i ≤ (opening :: inner).length := by
          by_contra hlt
          rw [List.take_of_length_le (by simp at hlt ⊢; omega), hwhole] at hopen
          exact Nat.lt_irrefl _ hopen
        rw [← List.cons_append, List.drop_append_of_le_length hi]
        exact List.mem_append_right _ (List.mem_singleton_self closing)

/-- Where more constructs have been opened than closed, one of them goes over the cut. -/
theorem exists_construct_of_closed_lt {ts : List Token} {stmts : List Stmt} {i : Nat} (h : Block ts stmts)
    (hopen : closed (ts.take i) < opened (ts.take i)) :
    ∃ opening closing, BlockConstruct opening closing ts stmts ∧ opening ∈ ts.take i ∧
      closing ∈ ts.drop i := by
  match h with
  | .nil => simp at hopen
  | @Block.cons semicolon ts us stmt stmts head hsemicolon tail =>
      by_cases hi : i ≤ ts.length
      · rw [List.take_append_of_le_length hi] at hopen ⊢
        rw [List.drop_append_of_le_length hi]
        rcases head.shape with hplain | henclosed
        · rw [(hplain.take i).opened_eq_zero] at hopen
          exact absurd hopen (Nat.not_lt_zero _)
        · obtain ⟨opening, closing, inner, rfl, hopening, hfront, hback⟩ := henclosed.exists_ends hopen
          exact ⟨opening, closing, .head (.whole hopening head) hsemicolon tail, hfront,
            List.mem_append_left _ hback⟩
      · obtain ⟨j, rfl⟩ : ∃ j, i = ts.length + (j + 1) := ⟨i - ts.length - 1, by omega⟩
        have hbalanced := (wellNested_of_shape head.shape).balanced
        rw [List.take_length_add_append, List.take_succ_cons] at hopen ⊢
        rw [List.drop_length_add_append, List.drop_succ_cons]
        have hrest : closed (us.take j) < opened (us.take j) := by
          simp only [opened_append, closed_append, opened_cons, closed_cons, hsemicolon, Token.Kind.opens,
            Token.Kind.closes, Bool.toNat_false] at hopen
          omega
        obtain ⟨opening, closing, hconstruct, hfront, hback⟩ := exists_construct_of_closed_lt tail hrest
        exact ⟨opening, closing, .tail head hsemicolon hconstruct,
          List.mem_append_right _ (List.mem_cons_of_mem _ hfront), hback⟩

end Grammar

/-! ### Complete texts -/

open Grammar

/-- The tokens that do not count open and close nothing. -/
theorem isComplete_iff {source : String} (h : Lexed source) :
    isComplete source = true ↔ opened (bodyTokens source) ≤ closed (bodyTokens source) := by
  obtain ⟨ts, hts⟩ := Lexicon.lexed_iff.mp h
  have htokens : tokenize source = .ok (ts ++ [Lexicon.endToken source.toList]) := Lexicon.tokens_at_end hts
  have hopened : opened (ts.filter Token.isSignificant) = opened ts := by
    rw [opened, List.countP_filter]
    refine List.countP_congr fun token _ => ?_
    cases hkind : token.kind <;> simp [Token.isSignificant, hkind, Token.Kind.opens]
  have hclosed : closed (ts.filter Token.isSignificant) = closed ts := by
    rw [closed, List.countP_filter]
    refine List.countP_congr fun token _ => ?_
    cases hkind : token.kind <;> simp [Token.isSignificant, hkind, Token.Kind.closes]
  rw [isComplete, htokens, Lexicon.bodyTokens_of_segments hts, hopened, hclosed]
  simp only [decide_eq_true_eq]
  change opened (ts ++ _) ≤ closed (ts ++ _) ↔ _
  simp [Lexicon.endToken, Token.Kind.opens, Token.Kind.closes]

theorem nodup_bodyTokens {source : String} (h : Lexed source) : (bodyTokens source).Nodup := by
  obtain ⟨ts, hts⟩ := Lexicon.lexed_iff.mp h
  rw [Lexicon.bodyTokens_of_segments hts]
  exact hts.nodup.filter _

/-- The first lines of a text have the first of its tokens. -/
theorem exists_take_bodyTokens {source front back : String} (h : Lexed source)
    (hsplit : source = front ++ back) (hline : Text.EndsLine front.toList ∨ back = "") :
    Lexed front ∧ ∃ i, bodyTokens front = (bodyTokens source).take i := by
  subst hsplit
  rcases hline with hline | rfl
  · obtain ⟨hfront, -, htokens⟩ := Lexicon.bodyTokens_append hline h
    exact ⟨hfront, _, by rw [htokens, List.take_left]⟩
  · rw [String.append_empty] at h ⊢
    exact ⟨h, (bodyTokens front).length, by rw [List.take_length]⟩

/-- **Complete texts.** The first lines of a text with a program are complete exactly if every construct
of the program that is opened in them is closed in them; and the whole text is. No token comes twice, so
that a token is among those of the first lines only if it stands there. -/
theorem isComplete_iff_constructs_closed (source front back : String) (log : Log) (program : Program)
    (state : Parser.State) (hparse : Parser.parse source log = .ok program state)
    (hsplit : source = front ++ back) (hline : Text.EndsLine front.toList ∨ back = "") :
    bodyTokens front <+: bodyTokens source ∧ (bodyTokens source).Nodup ∧
    (isComplete front = true ↔
      ∀ opening closing, BlockConstruct opening closing (bodyTokens source) program.body →
        opening ∈ bodyTokens front → closing ∈ bodyTokens front) ∧
    isComplete source = true := by
  obtain ⟨hlexed, hbody⟩ := Parser.parse_eq_ok_iff_bodyTokens.mp ⟨state, hparse⟩
  obtain ⟨hfront, i, htokens⟩ := exists_take_bodyTokens hlexed hsplit hline
  have hnodup := nodup_bodyTokens hlexed
  refine ⟨htokens ▸ List.take_prefix i _, hnodup, ?_, ?_⟩
  · rw [isComplete_iff hfront, htokens]
    constructor
    · intro hle opening closing hconstruct hopening
      by_contra hclosing
      have hlt := closed_lt_opened_of_construct hbody hnodup hconstruct hopening hclosing
      omega
    · intro hclosed
      by_contra hle
      obtain ⟨opening, closing, hconstruct, hopening, hback⟩ :=
        exists_construct_of_closed_lt hbody (Nat.lt_of_not_le hle)
      have hfront := hclosed opening closing hconstruct hopening
      rw [← List.take_append_drop i (bodyTokens source)] at hnodup
      exact (List.nodup_append.mp hnodup).2.2 _ hfront _ hback rfl
  · rw [isComplete_iff hlexed]
    exact hbody.wellNested.balanced.le

/-- The first line of a loop over three lines: the loop is opened in it, and not closed. -/
theorem isComplete_iff_constructs_closed_first_line :
    isComplete "LOOP a:\n" = false ∧
      ∃ program opening closing,
        BlockConstruct opening closing (bodyTokens "LOOP a:\nBREAK;\nREPEAT;\n") program ∧
        opening ∈ bodyTokens "LOOP a:\n" ∧ closing ∉ bodyTokens "LOOP a:\n" := by
  have hparse : ∃ state, Parser.parse "LOOP a:\nBREAK;\nREPEAT;\n" {} =
      .ok { body := [.loop (some "a") [.leave none ⟨2, 1, none⟩] ⟨1, 1, none⟩] } state :=
    ⟨⟨⟨[], ⟨4, 1, none⟩, []⟩, {}⟩, by cbv⟩
  obtain ⟨state, hstate⟩ := hparse
  have hline : Text.EndsLine "LOOP a:\n".toList := .inr ⟨"LOOP a:".toList, by decide⟩
  have hcomplete := (isComplete_iff_constructs_closed _ "LOOP a:\n" "BREAK;\nREPEAT;\n" {} _ state hstate
    (by decide) (.inl hline)).2.2.1
  have hopen : isComplete "LOOP a:\n" = false := by cbv
  refine ⟨hopen, ?_⟩
  by_contra hnone
  have hclosed := hcomplete.mpr fun opening closing hconstruct hopening => by
    by_contra hclosing
    exact hnone ⟨_, opening, closing, hconstruct, hopening, hclosing⟩
  rw [hopen] at hclosed
  cases hclosed

end LoopScript
