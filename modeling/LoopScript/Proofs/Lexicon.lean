import LoopScript.Token.Lexeme
import Mathlib.Data.List.TakeWhile

/-! The lexical grammar, said without a reading order: which runs of characters are lexemes, and of
which kind. The longest lexeme at the front of a text is unique, and it is the one that
`Lexeme.starting` finds; where it finds none, no lexeme is at the front. The classes of lexemes are
told apart by their first characters, so that each class can be compared with its own run alone. -/

namespace LoopScript.Lexicon

open Token (Kind Lexeme blankRun numberRun isWordStart isWordPart)
open Text (isBlank)

def IsLetter (c : Char) : Prop := ('a' ≤ c ∧ c ≤ 'z') ∨ ('A' ≤ c ∧ c ≤ 'Z')

def IsDigit (c : Char) : Prop := '0' ≤ c ∧ c ≤ '9'

instance (c : Char) : Decidable (IsLetter c) := inferInstanceAs (Decidable (_ ∨ _))

instance (c : Char) : Decidable (IsDigit c) := inferInstanceAs (Decidable (_ ∧ _))

/-- One or more blank characters and comments. A comment runs from a number sign up to a newline,
which is a blank character of its own. -/
inductive Blanks : List Char → Prop
  | white {c : Char} (hblank : isBlank c = true) : Blanks [c]
  | comment {body : List Char} (hbody : '\n' ∉ body) : Blanks ('#' :: body)
  | append {first second : List Char} (hfirst : Blanks first) (hsecond : Blanks second) :
      Blanks (first ++ second)

/-- A letter or an underscore, and then letters, digits and underscores. -/
def Word : List Char → Prop
  | [] => False
  | c :: rest => (IsLetter c ∨ c = '_') ∧ ∀ d ∈ rest, IsLetter d ∨ IsDigit d ∨ d = '_'

def Digits (run : List Char) : Prop := run ≠ [] ∧ ∀ c ∈ run, IsDigit c

/-- The words that are no identifiers, in capital letters. -/
def keywords : List (String × Kind) :=
  [("LOOP", .loopWord), ("REPEAT", .repeatWord), ("BREAK", .breakWord), ("READ", .readWord),
   ("PRINT", .printWord), ("IF", .ifWord), ("THEN", .thenWord), ("ELSE", .elseWord),
   ("END", .endWord)]

/-- A word is this keyword, whatever the case of its letters. -/
def Spells (word : List Char) (keyword : String) : Prop :=
  word.map Char.toUpper = keyword.toList

def operators : List (List Char × Kind) :=
  [([','], .comma), ([':'], .colon), ([';'], .semicolon), (['('], .leftParen), ([')'], .rightParen),
   (['+'], .plus), (['-'], .minus), (['*'], .star), (['/'], .slash), (['='], .assign),
   (['=', '='], .equal), (['!', '='], .notEqual), (['<'], .less), (['<', '='], .lessEqual),
   (['>'], .greater), (['>', '='], .greaterEqual)]

/-- The runs of characters that are lexemes, and their kinds. -/
inductive Lexical : List Char → Kind → Prop
  | blanks {run : List Char} (hrun : Blanks run) : Lexical run .space
  | keyword {word : List Char} {spelling : String} {kind : Kind} (hword : Word word)
      (hmem : (spelling, kind) ∈ keywords) (hspells : Spells word spelling) : Lexical word kind
  | identifier {word : List Char} (hword : Word word)
      (hfree : ∀ entry ∈ keywords, ¬ Spells word entry.1) : Lexical word .identifier
  | whole {run : List Char} (hrun : Digits run) : Lexical run .number
  | fraction {run part : List Char} (hrun : Digits run) (hpart : Digits part) :
      Lexical (run ++ '.' :: part) .number
  | operator {signs : List Char} {kind : Kind} (hmem : (signs, kind) ∈ operators) :
      Lexical signs kind

/-- The longest lexeme at the front of a text. -/
structure Munch (text lexeme : List Char) (kind : Kind) : Prop where
  isFront : lexeme <+: text
  lexical : Lexical lexeme kind
  longest : ∀ other kind', other <+: text → Lexical other kind' → other.length ≤ lexeme.length

/-! ### Classes of characters -/

theorem isLetter_iff {c : Char} :
    IsLetter c ↔ (97 ≤ c.toNat ∧ c.toNat ≤ 122) ∨ (65 ≤ c.toNat ∧ c.toNat ≤ 90) := Iff.rfl

theorem isDigit_iff {c : Char} : IsDigit c ↔ 48 ≤ c.toNat ∧ c.toNat ≤ 57 := Iff.rfl

theorem isDigit_eq_true {c : Char} : c.isDigit = true ↔ IsDigit c := by
  simp only [Char.isDigit, Bool.and_eq_true, decide_eq_true_eq]
  exact Iff.rfl

theorem isAlpha_eq_true {c : Char} : c.isAlpha = true ↔ IsLetter c := by
  have hupper : c.isUpper = true ↔ 'A' ≤ c ∧ c ≤ 'Z' := decide_eq_true_iff
  have hlower : c.isLower = true ↔ 'a' ≤ c ∧ c ≤ 'z' := by
    change (decide ('a'.val ≤ c.val) && decide (c.val ≤ 'z'.val)) = true ↔ _
    rw [Bool.and_eq_true, decide_eq_true_iff, decide_eq_true_iff]
    exact Iff.rfl
  change (c.isUpper || c.isLower) = true ↔ _
  rw [Bool.or_eq_true, hupper, hlower]
  exact or_comm

theorem isWordStart_eq_true {c : Char} : isWordStart c = true ↔ IsLetter c ∨ c = '_' := by
  simp only [isWordStart, Bool.or_eq_true, decide_eq_true_eq, isAlpha_eq_true]

theorem isWordPart_eq_true {c : Char} :
    isWordPart c = true ↔ IsLetter c ∨ IsDigit c ∨ c = '_' := by
  simp only [isWordPart, Char.isAlphanum, Bool.or_eq_true, decide_eq_true_eq, isAlpha_eq_true,
    isDigit_eq_true, or_assoc]

theorem not_blank_of_wordStart {c : Char} (h : IsLetter c ∨ c = '_') :
    (isBlank c || c = '#') = false := by
  rcases h with h | rfl
  · have hne : c ≠ '#' := by
      rintro rfl
      revert h
      decide
    rw [isLetter_iff] at h
    simp [isBlank, Text.blankRanges, hne]
    omega
  · decide

theorem not_blank_of_digit {c : Char} (h : IsDigit c) :
    (isBlank c || c = '#') = false ∧ isWordStart c = false := by
  have hhash : c ≠ '#' := by
    rintro rfl
    revert h
    decide
  have hstart : ¬ (IsLetter c ∨ c = '_') := by
    rintro (hletter | rfl)
    · rw [isLetter_iff] at hletter
      rw [isDigit_iff] at h
      omega
    · revert h
      decide
  refine ⟨?_, Bool.eq_false_iff.mpr fun hword => hstart (isWordStart_eq_true.mp hword)⟩
  rw [isDigit_iff] at h
  simp [isBlank, Text.blankRanges, hhash]
  omega

/-! ### Blanks and comments -/

theorem Blanks.ne_nil {run : List Char} (h : Blanks run) : run ≠ [] := by
  induction h with
  | white | comment => exact List.cons_ne_nil _ _
  | append _ _ ihfirst _ => exact List.append_ne_nil_of_left_ne_nil ihfirst _

theorem Blanks.head {c : Char} {rest : List Char} (h : Blanks (c :: rest)) :
    (isBlank c || c = '#') = true := by
  generalize hrun : c :: rest = run at h
  induction h generalizing c rest with
  | white hblank =>
      obtain ⟨rfl, -⟩ := List.cons.inj hrun
      simp [hblank]
  | comment =>
      obtain ⟨rfl, -⟩ := List.cons.inj hrun
      simp
  | @append first second hfirst _ ihfirst _ =>
      cases first with
      | nil => exact absurd rfl hfirst.ne_nil
      | cons d first =>
          obtain ⟨rfl, -⟩ := List.cons.inj hrun
          exact ihfirst rfl

theorem blankRun_inComment {body : List Char} (hbody : '\n' ∉ body) (rest : List Char) :
    blankRun true (body ++ rest) =
      (body ++ (blankRun true rest).1, (blankRun true rest).2) := by
  induction body with
  | nil => rfl
  | cons c body ih =>
      simp only [List.mem_cons, not_or] at hbody
      have hline : (c != '\n') = true := by simpa using Ne.symm hbody.1
      rw [List.cons_append, blankRun, hline, ih hbody.2]
      rfl

/-- A run of blanks is passed over whole, inside a comment as well as outside of one. -/
theorem Blanks.covered {run : List Char} (h : Blanks run) (inComment : Bool) :
    ∃ inComment', ∀ rest, blankRun inComment (run ++ rest) =
      (run ++ (blankRun inComment' rest).1, (blankRun inComment' rest).2) := by
  induction h generalizing inComment with
  | @white c hblank =>
      cases inComment with
      | true => exact ⟨c != '\n', fun rest => rfl⟩
      | false =>
          have hhash : c ≠ '#' := by
            rintro rfl
            revert hblank
            decide
          refine ⟨false, fun rest => ?_⟩
          rw [List.singleton_append, blankRun, if_neg hhash, if_pos hblank]
          rfl
  | @comment body hbody =>
      refine ⟨true, fun rest => ?_⟩
      have hstart : blankRun inComment ('#' :: body ++ rest) =
          ('#' :: (blankRun true (body ++ rest)).1, (blankRun true (body ++ rest)).2) := by
        cases inComment <;> rfl
      rw [hstart, blankRun_inComment hbody]
      rfl
  | append _ _ ihfirst ihsecond =>
      obtain ⟨middle, hfirst⟩ := ihfirst inComment
      obtain ⟨last, hsecond⟩ := ihsecond middle
      refine ⟨last, fun rest => ?_⟩
      rw [List.append_assoc, hfirst, hsecond, List.append_assoc]

/-- A blank character in front of a run that is empty or blank. -/
theorem Blanks.cons_white {c : Char} {run : List Char} (hblank : isBlank c = true)
    (hrun : run = [] ∨ Blanks run) : Blanks (c :: run) := by
  rcases hrun with rfl | hrun
  · exact .white hblank
  · exact .append (.white hblank) hrun

/-- What is passed over is a run of blanks; inside a comment, together with the comment's front. -/
theorem blanks_blankRun (text : List Char) :
    ((blankRun false text).1 = [] ∨ Blanks (blankRun false text).1) ∧
      ∀ body, '\n' ∉ body → Blanks ('#' :: (body ++ (blankRun true text).1)) := by
  induction text with
  | nil =>
      refine ⟨.inl rfl, fun body hbody => ?_⟩
      simpa [blankRun] using Blanks.comment hbody
  | cons c rest ih =>
      constructor
      · by_cases hhash : c = '#'
        · rw [blankRun, if_pos hhash, hhash]
          exact .inr (ih.2 [] List.not_mem_nil)
        · by_cases hblank : isBlank c = true
          · rw [blankRun, if_neg hhash, if_pos hblank]
            exact .inr (.cons_white hblank ih.1)
          · rw [blankRun, if_neg hhash, if_neg hblank]
            exact .inl rfl
      · intro body hbody
        rw [blankRun]
        by_cases hline : c = '\n'
        · subst hline
          exact .append (.comment hbody) (.cons_white (by decide) ih.1)
        · have hstill : (c != '\n') = true := by simpa using hline
          have hlonger : '\n' ∉ body ++ [c] := by simp [hbody, Ne.symm hline]
          rw [hstill]
          simpa using ih.2 (body ++ [c]) hlonger

/-! ### Words and numbers -/

theorem Digits.isDigit {run : List Char} (h : Digits run) : ∀ c ∈ run, c.isDigit = true :=
  fun c hc => isDigit_eq_true.mpr (h.2 c hc)

theorem digits_takeWhile {text : List Char} (h : text.takeWhile Char.isDigit ≠ []) :
    Digits (text.takeWhile Char.isDigit) :=
  ⟨h, fun _ hc => isDigit_eq_true.mp (List.mem_takeWhile_imp hc)⟩

/-- A whole number at the front of a text is in front of the digits that are found. -/
theorem Digits.numberRun_whole {run : List Char} (h : Digits run) (rest : List Char) :
    ∃ more, (numberRun (run ++ rest)).1 = run ++ more := by
  rw [numberRun, List.takeWhile_append_of_pos h.isDigit, List.dropWhile_append_of_pos h.isDigit]
  split
  · split
    · exact ⟨_, List.append_assoc _ _ _⟩
    · exact ⟨_, rfl⟩
  · exact ⟨_, rfl⟩

theorem Digits.numberRun_fraction {run part : List Char} (hrun : Digits run)
    (hpart : Digits part) (rest : List Char) :
    ∃ more, (numberRun (run ++ '.' :: part ++ rest)).1 = run ++ '.' :: part ++ more := by
  obtain ⟨d, part, rfl⟩ := List.exists_cons_of_ne_nil hpart.1
  have hdigit := List.forall_mem_cons.mp hpart.isDigit
  have hpoint : ('.' :: d :: part ++ rest).takeWhile Char.isDigit = [] := rfl
  have hstop : ('.' :: d :: part ++ rest).dropWhile Char.isDigit = '.' :: d :: (part ++ rest) := rfl
  rw [numberRun, List.append_assoc, List.takeWhile_append_of_pos hrun.isDigit,
    List.dropWhile_append_of_pos hrun.isDigit, hpoint, hstop]
  simp only [hdigit.1, if_true, List.takeWhile_append_of_pos hdigit.2]
  exact ⟨rest.takeWhile Char.isDigit, by simp⟩

/-- The number that is found is a whole number or one with a fraction. -/
theorem lexical_numberRun {c : Char} (rest : List Char) (h : IsDigit c) :
    Lexical (numberRun (c :: rest)).1 .number := by
  have hwhole : Digits ((c :: rest).takeWhile Char.isDigit) := by
    refine digits_takeWhile ?_
    rw [List.takeWhile_cons_of_pos (isDigit_eq_true.mpr h)]
    exact List.cons_ne_nil _ _
  unfold numberRun
  split
  · next d tail _ =>
      split
      · next hd =>
          refine .fraction hwhole ⟨List.cons_ne_nil _ _, ?_⟩
          refine List.forall_mem_cons.mpr ⟨isDigit_eq_true.mp hd, fun e he => ?_⟩
          exact isDigit_eq_true.mp (List.mem_takeWhile_imp he)
      · exact .whole hwhole
  · exact .whole hwhole

theorem keyword?_eq_some_iff {word : List Char} {kind : Kind} :
    Kind.keyword? word = some kind ↔ ∃ spelling, (spelling, kind) ∈ keywords ∧ Spells word spelling := by
  have htext (spelling : String) (h : String.ofList (word.map Char.toUpper) = spelling) :
      Spells word spelling := by
    rw [Spells, ← h, String.toList_ofList]
  constructor
  · intro h
    unfold Kind.keyword? at h
    split at h
    case h_10 => cases h
    all_goals
      next hword =>
        obtain rfl := Option.some.inj h
        exact ⟨_, by simp [keywords], htext _ hword⟩
  · rintro ⟨spelling, hmem, hspells⟩
    rw [Kind.keyword?, hspells, String.ofList_toList]
    simp only [keywords, List.mem_cons, Prod.mk.injEq, List.not_mem_nil, or_false] at hmem
    rcases hmem with ⟨rfl, rfl⟩ | ⟨rfl, rfl⟩ | ⟨rfl, rfl⟩ | ⟨rfl, rfl⟩ | ⟨rfl, rfl⟩ | ⟨rfl, rfl⟩ |
      ⟨rfl, rfl⟩ | ⟨rfl, rfl⟩ | ⟨rfl, rfl⟩ <;> rfl

/-- A word has the kind of its keyword, or else it is an identifier. -/
theorem lexical_word {word : List Char} (h : Word word) :
    Lexical word ((Kind.keyword? word).getD .identifier) := by
  cases hkeyword : Kind.keyword? word with
  | some kind =>
      obtain ⟨spelling, hmem, hspells⟩ := keyword?_eq_some_iff.mp hkeyword
      exact .keyword h hmem hspells
  | none =>
      refine .identifier h fun entry hmem hspells => ?_
      rw [keyword?_eq_some_iff.mpr ⟨entry.1, hmem, hspells⟩] at hkeyword
      cases hkeyword

/-! ### The lexeme that is found -/

theorem word_takeWhile {c : Char} (rest : List Char) (h : IsLetter c ∨ c = '_') :
    Word (c :: rest.takeWhile isWordPart) :=
  ⟨h, fun _ hd => isWordPart_eq_true.mp (List.mem_takeWhile_imp hd)⟩

theorem lexical_of_starting {c : Char} {rest : List Char} {lexeme : Lexeme}
    (h : Lexeme.starting c rest = some lexeme) : Lexical lexeme.covered lexeme.kind := by
  unfold Lexeme.starting at h
  split at h
  · next hblank =>
      obtain rfl := Option.some.inj h
      have hne := Token.blankRun_ne_nil rest hblank
      exact .blanks ((blanks_blankRun (c :: rest)).1.resolve_left hne)
  · split at h
    · next hstart =>
        obtain rfl := Option.some.inj h
        exact lexical_word (word_takeWhile rest (isWordStart_eq_true.mp hstart))
    · split at h
      · next hdigit =>
          obtain rfl := Option.some.inj h
          exact lexical_numberRun rest (isDigit_eq_true.mp hdigit)
      · split at h
        case h_10 | h_11 | h_12 =>
          obtain rfl := Option.some.inj h
          unfold Token.operatorPair
          split
          · exact .operator (by simp [operators])
          · exact .operator (by simp [operators])
        case h_13 =>
          split at h
          · obtain rfl := Option.some.inj h
            exact .operator (by simp [operators])
          · cases h
        case h_14 => cases h
        all_goals
          obtain rfl := Option.some.inj h
          exact .operator (by simp [operators])

/-- A lexeme that is no longer than the one found at its place, and is of the same kind if it is as
long. -/
def Within (lexeme : List Char) (kind : Kind) (found : Lexeme) : Prop :=
  (∃ more, found.covered = lexeme ++ more ∧ more ≠ []) ∨ (found.covered = lexeme ∧ found.kind = kind)

theorem within_of_append {lexeme more : List Char} {kind : Kind} {found : Lexeme}
    (hcovered : found.covered = lexeme ++ more) (hkind : more = [] → found.kind = kind) :
    Within lexeme kind found := by
  by_cases hmore : more = []
  · exact .inr ⟨by rw [hcovered, hmore, List.append_nil], hkind hmore⟩
  · exact .inl ⟨more, hcovered, hmore⟩

/-! The three classes that are told by their first character. -/

theorem starting_of_blank {c : Char} (rest : List Char) (h : (isBlank c || c = '#') = true) :
    Lexeme.starting c rest =
      some ⟨.space, (blankRun false (c :: rest)).1, (blankRun false (c :: rest)).2⟩ := by
  unfold Lexeme.starting
  rw [if_pos h]

theorem starting_of_wordStart {c : Char} (rest : List Char) (h : IsLetter c ∨ c = '_') :
    Lexeme.starting c rest =
      some ⟨(Kind.keyword? (c :: rest.takeWhile isWordPart)).getD .identifier,
        c :: rest.takeWhile isWordPart, rest.dropWhile isWordPart⟩ := by
  unfold Lexeme.starting
  rw [if_neg (by simp [not_blank_of_wordStart h]), if_pos (isWordStart_eq_true.mpr h)]

theorem starting_of_isDigit {c : Char} (rest : List Char) (h : IsDigit c) :
    Lexeme.starting c rest =
      some ⟨.number, (numberRun (c :: rest)).1, (numberRun (c :: rest)).2⟩ := by
  obtain ⟨hblank, hword⟩ := not_blank_of_digit h
  unfold Lexeme.starting
  rw [if_neg (by simp [hblank]), if_neg (by simp [hword]), if_pos (isDigit_eq_true.mpr h)]

theorem Blanks.within {c : Char} {run rest : List Char} (h : Blanks (c :: run)) :
    ∃ found, Lexeme.starting c (run ++ rest) = some found ∧ Within (c :: run) .space found := by
  obtain ⟨inComment, hcovered⟩ := h.covered false
  refine ⟨_, starting_of_blank _ h.head, ?_⟩
  exact within_of_append (congrArg Prod.fst (hcovered rest)) fun _ => rfl

theorem Word.within {c : Char} {word rest : List Char} {kind : Kind} (h : Word (c :: word))
    (hkind : (Kind.keyword? (c :: word)).getD .identifier = kind) :
    ∃ found, Lexeme.starting c (word ++ rest) = some found ∧ Within (c :: word) kind found := by
  have hparts : ∀ d ∈ word, isWordPart d = true := fun d hd => isWordPart_eq_true.mpr (h.2 d hd)
  have htake : (word ++ rest).takeWhile isWordPart = word ++ rest.takeWhile isWordPart :=
    List.takeWhile_append_of_pos hparts
  refine ⟨_, starting_of_wordStart _ h.1, within_of_append (by rw [htake, List.cons_append]) ?_⟩
  intro hnil
  rw [htake, hnil, List.append_nil, hkind]

/-- An operator that an equals sign can follow is found alone, or with the equals sign. -/
theorem operatorPair_within (c : Char) (alone paired : Kind) (rest : List Char) :
    Within [c] alone (Token.operatorPair c alone paired rest) := by
  unfold Token.operatorPair
  split
  · exact .inl ⟨['='], rfl, List.cons_ne_nil _ _⟩
  · exact .inr ⟨rfl, rfl⟩

theorem operator_within {c : Char} {signs rest : List Char} {kind : Kind}
    (hmem : (c :: signs, kind) ∈ operators) :
    ∃ found, Lexeme.starting c (signs ++ rest) = some found ∧ Within (c :: signs) kind found := by
  simp only [operators, List.mem_cons, Prod.mk.injEq, List.cons.injEq, List.not_mem_nil,
    or_false] at hmem
  rcases hmem with ⟨⟨rfl, rfl⟩, rfl⟩ | ⟨⟨rfl, rfl⟩, rfl⟩ | ⟨⟨rfl, rfl⟩, rfl⟩ | ⟨⟨rfl, rfl⟩, rfl⟩ |
    ⟨⟨rfl, rfl⟩, rfl⟩ | ⟨⟨rfl, rfl⟩, rfl⟩ | ⟨⟨rfl, rfl⟩, rfl⟩ | ⟨⟨rfl, rfl⟩, rfl⟩ | ⟨⟨rfl, rfl⟩, rfl⟩ |
    ⟨⟨rfl, rfl⟩, rfl⟩ | ⟨⟨rfl, rfl⟩, rfl⟩ | ⟨⟨rfl, rfl⟩, rfl⟩ | ⟨⟨rfl, rfl⟩, rfl⟩ | ⟨⟨rfl, rfl⟩, rfl⟩ |
    ⟨⟨rfl, rfl⟩, rfl⟩ | ⟨⟨rfl, rfl⟩, rfl⟩
  any_goals exact ⟨_, rfl, .inr ⟨rfl, rfl⟩⟩
  -- What is left are the three operators that an equals sign can follow.
  all_goals exact ⟨_, rfl, operatorPair_within _ _ _ _⟩

/-- Every lexeme at the front of a text is within the one that is found there. -/
theorem Lexical.within {c : Char} {run rest : List Char} {kind : Kind} (h : Lexical (c :: run) kind) :
    ∃ found, Lexeme.starting c (run ++ rest) = some found ∧ Within (c :: run) kind found := by
  generalize hlexeme : c :: run = lexeme at h
  cases h with
  | blanks hrun =>
      subst hlexeme
      exact hrun.within
  | keyword hword hmem hspells =>
      subst hlexeme
      refine hword.within ?_
      rw [keyword?_eq_some_iff.mpr ⟨_, hmem, hspells⟩]
      rfl
  | identifier hword hfree =>
      subst hlexeme
      refine hword.within ?_
      cases hkeyword : Kind.keyword? (c :: run) with
      | none => rfl
      | some kind =>
          obtain ⟨spelling, hmem, hspells⟩ := keyword?_eq_some_iff.mp hkeyword
          exact absurd hspells (hfree _ hmem)
  | whole hrun =>
      subst hlexeme
      obtain ⟨more, hmore⟩ := hrun.numberRun_whole rest
      exact ⟨_, starting_of_isDigit _ (hrun.2 c List.mem_cons_self),
        within_of_append hmore fun _ => rfl⟩
  | @fraction whole part hrun hpart =>
      obtain ⟨d, whole, rfl⟩ := List.exists_cons_of_ne_nil hrun.1
      obtain ⟨rfl, rfl⟩ := List.cons.inj hlexeme
      obtain ⟨more, hmore⟩ := hrun.numberRun_fraction hpart rest
      exact ⟨_, starting_of_isDigit _ (hrun.2 c List.mem_cons_self),
        within_of_append hmore fun _ => rfl⟩
  | operator hmem =>
      subst hlexeme
      exact operator_within hmem

theorem Lexical.ne_nil {lexeme : List Char} {kind : Kind} (h : Lexical lexeme kind) :
    lexeme ≠ [] := by
  cases h with
  | blanks hrun => exact hrun.ne_nil
  | keyword hword | identifier hword =>
      rintro rfl
      exact hword
  | whole hrun => exact hrun.1
  | fraction => exact List.append_ne_nil_of_right_ne_nil _ (List.cons_ne_nil _ _)
  | operator hmem =>
      rintro rfl
      simp [operators] at hmem

theorem Lexical.within_of_isPrefix {c : Char} {lexeme rest : List Char} {kind : Kind}
    (h : Lexical lexeme kind) (hfront : lexeme <+: c :: rest) :
    ∃ found, Lexeme.starting c rest = some found ∧ Within lexeme kind found := by
  obtain ⟨d, run, rfl⟩ := List.exists_cons_of_ne_nil h.ne_nil
  obtain ⟨behind, hbehind⟩ := hfront
  obtain ⟨rfl, rfl⟩ := List.cons.inj hbehind
  exact h.within

theorem Within.length_le {lexeme : List Char} {kind : Kind} {found : Lexeme}
    (h : Within lexeme kind found) : lexeme.length ≤ found.covered.length := by
  rcases h with ⟨more, hcovered, -⟩ | ⟨hcovered, -⟩
  · rw [hcovered, List.length_append]
    omega
  · rw [hcovered]

/-- The lexeme that is found is the longest one. -/
theorem munch_of_starting {c : Char} {rest : List Char} {found : Lexeme}
    (h : Lexeme.starting c rest = some found) : Munch (c :: rest) found.covered found.kind where
  isFront := ⟨found.rest, (Lexeme.covered_append_rest h).1⟩
  lexical := lexical_of_starting h
  longest := by
    intro other kind hfront hlexical
    obtain ⟨found', hfound, hwithin⟩ := hlexical.within_of_isPrefix hfront
    obtain rfl := Option.some.inj (h.symm.trans hfound)
    exact hwithin.length_le

/-- The longest lexeme is the one that is found. -/
theorem starting_of_munch {c : Char} {rest lexeme behind : List Char} {kind : Kind}
    (h : Munch (c :: rest) lexeme kind) (hrest : c :: rest = lexeme ++ behind) :
    Lexeme.starting c rest = some ⟨kind, lexeme, behind⟩ := by
  obtain ⟨found, hfound, hwithin⟩ := h.lexical.within_of_isPrefix h.isFront
  have hmunch := munch_of_starting hfound
  have hle := h.longest _ _ hmunch.isFront hmunch.lexical
  rcases hwithin with ⟨more, hcovered, hmore⟩ | ⟨hcovered, hkind⟩
  · rw [hcovered, List.length_append] at hle
    exact absurd (List.length_eq_zero_iff.mp (by omega)) hmore
  · have hbehind := (Lexeme.covered_append_rest hfound).1
    rw [hcovered, hrest] at hbehind
    rw [hfound, ← hkind, ← hcovered, ← List.append_cancel_left hbehind]

/-- Nothing is found exactly where no lexeme is at the front. -/
theorem starting_eq_none_iff {c : Char} {rest : List Char} :
    Lexeme.starting c rest = none ↔ ∀ lexeme kind, Lexical lexeme kind → ¬ lexeme <+: c :: rest := by
  constructor
  · intro hnone lexeme kind hlexical hfront
    obtain ⟨found, hfound, -⟩ := hlexical.within_of_isPrefix hfront
    rw [hnone] at hfound
    cases hfound
  · intro hstuck
    cases hfound : Lexeme.starting c rest with
    | none => rfl
    | some found =>
        have hmunch := munch_of_starting hfound
        exact absurd hmunch.isFront (hstuck _ _ hmunch.lexical)

end LoopScript.Lexicon
