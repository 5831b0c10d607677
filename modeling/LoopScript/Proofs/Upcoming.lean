import Mathlib.Data.Stream.Init
import LoopScript.Parser

/-! The tokens that count, as a stream. A reader is seen from outside as the endless sequence of
results that taking one token after another would give, blanks left out: tokens, errors, and at last
the end token for ever. Taking a token drops the head of this stream, putting one back adds a head,
and a scan that is closed leaves the stream as it was, whatever the reader has done to its characters
and to the tokens it holds. -/

namespace LoopScript

/-- Whether a token counts: blanks do not. -/
def Token.isSignificant (token : Token) : Bool := token.kind ≠ .space

/-- Whether a token has the characters that its kind is read with. -/
def Token.Spelled (token : Token) : Prop := token.kind.hasText = true → token.text.isSome = true

namespace Reader

/-- The next token that counts, or the error in front of it, and the reader behind it. -/
def pull (reader : Reader) : Except Diagnostic Token × Reader :=
  match reader.skipSpaces with
  | .ok token after => (.ok token, after)
  | .error report after => (.error report, after)

/-- The results of taking tokens that count one after another. -/
def upcoming (reader : Reader) : Stream' (Except Diagnostic Token) := Stream'.corec' pull reader

theorem upcoming_eq (reader : Reader) :
    reader.upcoming = Stream'.cons reader.pull.1 reader.pull.2.upcoming :=
  Stream'.corec'_eq pull reader

theorem upcoming_of_ok {reader after : Reader} {token : Token}
    (h : reader.skipSpaces = .ok token after) :
    reader.upcoming = Stream'.cons (.ok token) after.upcoming := by
  have hpull : reader.pull = (.ok token, after) := by rw [pull, h]
  rw [upcoming_eq, hpull]

theorem upcoming_of_error {reader after : Reader} {report : Diagnostic}
    (h : reader.skipSpaces = .error report after) :
    reader.upcoming = Stream'.cons (.error report) after.upcoming := by
  have hpull : reader.pull = (.error report, after) := by rw [pull, h]
  rw [upcoming_eq, hpull]

/-- A token at the head of the stream is the one that is taken. -/
theorem skipSpaces_of_upcoming {reader : Reader} {token : Token}
    {rest : Stream' (Except Diagnostic Token)} (h : reader.upcoming = Stream'.cons (.ok token) rest) :
    ∃ after, reader.skipSpaces = .ok token after ∧ after.upcoming = rest := by
  cases hskip : reader.skipSpaces with
  | ok taken after =>
      rw [upcoming_of_ok hskip] at h
      obtain ⟨htoken, hrest⟩ := Stream'.cons_injective2 h
      obtain rfl := Except.ok.inj htoken
      exact ⟨after, rfl, hrest⟩
  | error report after =>
      rw [upcoming_of_error hskip] at h
      have hhead := (Stream'.cons_injective2 h).1
      cases hhead

theorem skipSpaces_eq (reader : Reader) :
    reader.skipSpaces =
      match next reader with
      | .ok token after => if token.kind = .space then after.skipSpaces else .ok token after
      | .error report after => .error report after := by
  rw [skipSpaces]
  split
  · next hnext => rw [hnext]
  · next hnext => rw [hnext]

theorem skipSpaces_of_next_space {reader after : Reader} {token : Token}
    (h : next reader = .ok token after) (hspace : token.kind = .space) :
    reader.skipSpaces = after.skipSpaces := by
  rw [skipSpaces_eq, h]
  exact if_pos hspace

theorem skipSpaces_of_next {reader after : Reader} {token : Token}
    (h : next reader = .ok token after) (hspace : token.kind ≠ .space) :
    reader.skipSpaces = .ok token after := by
  rw [skipSpaces_eq, h]
  exact if_neg hspace

theorem skipSpaces_of_next_error {reader after : Reader} {report : Diagnostic}
    (h : next reader = .error report after) : reader.skipSpaces = .error report after := by
  rw [skipSpaces_eq, h]

theorem isSignificant_of_skipSpaces {reader after : Reader} {token : Token}
    (h : reader.skipSpaces = .ok token after) : token.isSignificant = true := by
  fun_induction skipSpaces reader with
  | case1 reader taken left _ hspace ih => exact ih h
  | case2 reader taken left _ hspace =>
      obtain ⟨rfl, rfl⟩ := EStateM.Result.ok.inj h
      simpa [Token.isSignificant] using hspace
  | case3 => cases h

/-- Readers that skip blanks alike have one stream. -/
theorem upcoming_congr {left right : Reader} (h : left.skipSpaces = right.skipSpaces) :
    left.upcoming = right.upcoming := by
  rw [upcoming_eq left, upcoming_eq right, pull, pull, h]

theorem upcoming_unread {reader : Reader} {token : Token} (h : token.isSignificant = true) :
    (reader.unread token).upcoming = Stream'.cons (.ok token) reader.upcoming :=
  upcoming_of_ok (skipSpaces_of_next (next_unread reader token) (by simpa [Token.isSignificant] using h))

theorem upcoming_unread_space {reader : Reader} {token : Token} (h : token.isSignificant = false) :
    (reader.unread token).upcoming = reader.upcoming :=
  upcoming_congr
    (skipSpaces_of_next_space (next_unread reader token) (by simpa [Token.isSignificant] using h))

/-- Putting tokens back, the last one first, puts those that count in front of the stream. -/
theorem upcoming_foldl_unread (taken : List Token) (reader : Reader) :
    (taken.foldl unread reader).upcoming =
      ((taken.filter Token.isSignificant).reverse.map .ok) ++ₛ reader.upcoming := by
  induction taken generalizing reader with
  | nil => rfl
  | cons token taken ih =>
      rw [List.foldl_cons, ih]
      by_cases hspace : token.isSignificant = true
      · rw [upcoming_unread hspace, List.filter_cons_of_pos hspace, List.reverse_cons, List.map_append,
          Stream'.append_append_stream]
        rfl
      · rw [upcoming_unread_space (by simpa using hspace), List.filter_cons_of_neg hspace]

/-! All tokens of a reader. -/

private theorem exists_of_map_ok {ε α β : Type} {f : α → β} {result : Except ε α} {b : β}
    (h : result.map f = .ok b) : ∃ a, result = .ok a ∧ f a = b := by
  cases result with
  | ok a => exact ⟨a, rfl, Except.ok.inj h⟩
  | error e => cases h

/-- The list of all tokens is a front of the stream, once its blanks are left out. -/
theorem upcoming_of_tokens {reader : Reader} {ts : List Token} (h : reader.tokens = .ok ts) :
    ∃ rest, reader.upcoming = (ts.filter Token.isSignificant).map .ok ++ₛ rest := by
  fun_induction tokens reader generalizing ts with
  | case1 reader token after hnext hend =>
      obtain rfl := Except.ok.inj h
      have hspace : token.kind ≠ .space := by simp [hend]
      refine ⟨after.upcoming, ?_⟩
      rw [List.filter_cons_of_pos (by simp [Token.isSignificant, hspace])]
      exact upcoming_of_ok (skipSpaces_of_next hnext hspace)
  | case2 reader token after hnext hend ih =>
      obtain ⟨later, hlater, rfl⟩ := exists_of_map_ok h
      obtain ⟨rest, hrest⟩ := ih hlater
      refine ⟨rest, ?_⟩
      by_cases hspace : token.kind = .space
      · rw [List.filter_cons_of_neg (by simp [Token.isSignificant, hspace]), ← hrest]
        exact upcoming_congr (skipSpaces_of_next_space hnext hspace)
      · rw [List.filter_cons_of_pos (by simp [Token.isSignificant, hspace]), List.map_cons,
          Stream'.cons_append_stream, ← hrest]
        exact upcoming_of_ok (skipSpaces_of_next hnext hspace)
  | case3 => cases h

/-- Up to the first end token, the stream gives back the list of all tokens. -/
theorem tokens_of_upcoming {reader : Reader} {body : List Token} {closing : Token}
    {rest : Stream' (Except Diagnostic Token)}
    (h : reader.upcoming = (body ++ [closing]).map .ok ++ₛ rest) (hclosing : closing.kind = .endOfText)
    (hbody : ∀ token ∈ body, token.kind ≠ .endOfText) :
    ∃ ts, reader.tokens = .ok ts ∧ ts.filter Token.isSignificant = body ++ [closing] := by
  fun_induction tokens reader generalizing body with
  | case1 reader token after hnext hend =>
      have hspace : token.kind ≠ .space := by simp [hend]
      rw [upcoming_of_ok (skipSpaces_of_next hnext hspace)] at h
      have hsame : body ++ [closing] = [token] := by
        cases body with
        | nil =>
            have hfirst := (Stream'.cons_injective2 h).1
            rw [Except.ok.inj hfirst]
            rfl
        | cons first body =>
            have hfirst := Except.ok.inj (Stream'.cons_injective2 h).1
            exact absurd (hfirst ▸ hend) (hbody first List.mem_cons_self)
      refine ⟨[token], rfl, ?_⟩
      rw [hsame, List.filter_cons_of_pos (by simp [Token.isSignificant, hspace]), List.filter_nil]
  | case2 reader token after hnext hend ih =>
      by_cases hspace : token.kind = .space
      · rw [upcoming_congr (skipSpaces_of_next_space hnext hspace)] at h
        obtain ⟨ts, hts, hfilter⟩ := ih h hbody
        refine ⟨token :: ts, by rw [hts]; rfl, ?_⟩
        rw [List.filter_cons_of_neg (by simp [Token.isSignificant, hspace]), hfilter]
      · rw [upcoming_of_ok (skipSpaces_of_next hnext hspace)] at h
        cases body with
        | nil =>
            have hfirst := Except.ok.inj (Stream'.cons_injective2 h).1
            exact absurd (hfirst ▸ hclosing) hend
        | cons first body =>
            obtain ⟨hfirst, hlater⟩ := Stream'.cons_injective2 h
            obtain rfl := Except.ok.inj hfirst
            have hbody' := fun other hmem => hbody other (List.mem_cons_of_mem token hmem)
            obtain ⟨ts, hts, hfilter⟩ := ih hlater hbody'
            refine ⟨token :: ts, by rw [hts]; rfl, ?_⟩
            rw [List.filter_cons_of_pos (by simp [Token.isSignificant, hspace]), hfilter]
            rfl
  | case3 reader report after hnext =>
      -- A token is at the head of the stream, so it cannot be an error.
      rw [upcoming_of_error (skipSpaces_of_next_error hnext)] at h
      cases body with
      | nil => cases (Stream'.cons_injective2 h).1
      | cons first body => cases (Stream'.cons_injective2 h).1

/-- There are at most as many tokens as the size of the reader, apart from the end token. -/
theorem length_tokens_le {reader : Reader} {ts : List Token} (h : reader.tokens = .ok ts) :
    ts.length ≤ reader.size + 1 := by
  fun_induction tokens reader generalizing ts with
  | case1 reader token after hnext hend =>
      obtain rfl := Except.ok.inj h
      simp
  | case2 reader token after hnext hend ih =>
      obtain ⟨later, hlater, rfl⟩ := exists_of_map_ok h
      have hlength := ih hlater
      have hsize := size_lt_of_next hnext hend
      rw [List.length_cons]
      omega
  | case3 => cases h

theorem spelled_of_scan {reader after : Reader} {token : Token} (h : scan reader = .ok token after) :
    token.Spelled ∧ after.pushback = reader.pushback := by
  unfold scan at h
  split at h
  · obtain ⟨rfl, rfl⟩ := EStateM.Result.ok.inj h
    exact ⟨by simp [Token.Spelled, Token.Kind.hasText], rfl⟩
  · split at h
    · obtain ⟨rfl, rfl⟩ := EStateM.Result.ok.inj h
      refine ⟨fun htext => ?_, rfl⟩
      simp only at htext ⊢
      rw [if_pos htext]
      rfl
    · cases h

/-- The tokens that were put back have their characters. -/
def Spelled (reader : Reader) : Prop := ∀ token ∈ reader.pushback, token.Spelled

theorem spelled_of_next {reader after : Reader} {token : Token} (h : next reader = .ok token after)
    (hreader : reader.Spelled) : token.Spelled ∧ after.Spelled := by
  unfold next at h
  split at h
  · next first rest hpushback =>
      obtain ⟨rfl, rfl⟩ := EStateM.Result.ok.inj h
      rw [Spelled, hpushback] at hreader
      exact List.forall_mem_cons.mp hreader
  · obtain ⟨htoken, hpushback⟩ := spelled_of_scan h
    refine ⟨htoken, ?_⟩
    rw [Spelled, hpushback]
    exact hreader

theorem spelled_of_skipSpaces {reader after : Reader} {token : Token}
    (h : reader.skipSpaces = .ok token after) (hreader : reader.Spelled) :
    token.Spelled ∧ after.Spelled := by
  fun_induction skipSpaces reader with
  | case1 reader taken left hnext hspace ih => exact ih h (spelled_of_next hnext hreader).2
  | case2 reader taken left hnext hspace =>
      obtain ⟨rfl, rfl⟩ := EStateM.Result.ok.inj h
      exact spelled_of_next hnext hreader
  | case3 => cases h

/-- Every word and number in front of a reader comes with its characters. -/
theorem spelled_of_upcoming {reader : Reader} {ts : List Token}
    {rest : Stream' (Except Diagnostic Token)} (h : reader.upcoming = ts.map .ok ++ₛ rest)
    (hreader : reader.Spelled) : ∀ token ∈ ts, token.Spelled := by
  induction ts generalizing reader with
  | nil => simp
  | cons token ts ih =>
      obtain ⟨after, hskip, hafter⟩ := skipSpaces_of_upcoming h
      obtain ⟨htoken, hspelled⟩ := spelled_of_skipSpaces hskip hreader
      exact List.forall_mem_cons.mpr ⟨htoken, ih hafter hspelled⟩

end Reader

namespace Lookahead

/-- The stream behind a scan, once it is closed. -/
theorem upcoming_close (look : Lookahead) :
    look.close.upcoming =
      ((look.taken.filter Token.isSignificant).reverse.map .ok) ++ₛ look.reader.upcoming :=
  Reader.upcoming_foldl_unread look.taken look.reader

/-- A scan does what a reader does, and keeps the tokens it passes: blanks, and the one it meets. -/
theorem significant_eq (look : Lookahead) :
    ∃ blanks : List Token, blanks.filter Token.isSignificant = [] ∧
      significant look =
        match look.reader.skipSpaces with
        | .ok token reader => .ok token.kind ⟨reader, token :: (blanks ++ look.taken)⟩
        | .error report reader => .error report ⟨reader, blanks ++ look.taken⟩ := by
  fun_induction significant look with
  | case1 look token after hnext hspace ih =>
      unfold next at hnext
      split at hnext
      · next token reader hpull =>
          obtain ⟨rfl, rfl⟩ := EStateM.Result.ok.inj hnext
          obtain ⟨blanks, hblanks, hafter⟩ := ih
          refine ⟨blanks ++ [token], ?_, ?_⟩
          · rw [List.filter_append, hblanks,
              List.filter_cons_of_neg (by simp [Token.isSignificant, hspace])]
            rfl
          · rw [hafter, Reader.skipSpaces_of_next_space hpull hspace]
            simp only [List.append_assoc, List.singleton_append]
      · cases hnext
  | case2 look token after hnext hspace =>
      unfold next at hnext
      split at hnext
      · next reader hpull =>
          obtain ⟨rfl, rfl⟩ := EStateM.Result.ok.inj hnext
          exact ⟨[], rfl, by rw [Reader.skipSpaces_of_next hpull hspace]; rfl⟩
      · cases hnext
  | case3 look report after hnext =>
      unfold next at hnext
      split at hnext
      · cases hnext
      · next reader hpull =>
          obtain ⟨rfl, rfl⟩ := EStateM.Result.error.inj hnext
          exact ⟨[], rfl, by rw [Reader.skipSpaces_of_next_error hpull]; rfl⟩

/-- One step of a scan: the head of the stream is met, and closing gives it back. -/
theorem significant_of_upcoming {look : Lookahead} {token : Token}
    {rest : Stream' (Except Diagnostic Token)}
    (h : look.reader.upcoming = Stream'.cons (.ok token) rest) :
    ∃ after, significant look = .ok token.kind after ∧ after.reader.upcoming = rest ∧
      after.close.upcoming = look.close.upcoming := by
  obtain ⟨reader, hskip, hrest⟩ := Reader.skipSpaces_of_upcoming h
  obtain ⟨blanks, hblanks, hafter⟩ := significant_eq look
  rw [hskip] at hafter
  refine ⟨_, hafter, hrest, ?_⟩
  rw [upcoming_close, upcoming_close,
    List.filter_cons_of_pos (Reader.isSignificant_of_skipSpaces hskip), List.filter_append, hblanks,
    List.nil_append, List.reverse_cons, List.map_append, Stream'.append_append_stream,
    Reader.upcoming_of_ok hskip]
  rfl

/-- A scan that meets a token meets the head of the stream. -/
theorem upcoming_of_significant {look after : Lookahead} {kind : Token.Kind}
    (h : significant look = .ok kind after) :
    ∃ token, token.kind = kind ∧
      look.reader.upcoming = Stream'.cons (.ok token) after.reader.upcoming ∧
      after.close.upcoming = look.close.upcoming := by
  cases hskip : look.reader.skipSpaces with
  | ok token reader =>
      have hupcoming := Reader.upcoming_of_ok hskip
      obtain ⟨found, hfound, hrest, hclose⟩ := significant_of_upcoming hupcoming
      rw [h] at hfound
      obtain ⟨rfl, rfl⟩ := EStateM.Result.ok.inj hfound
      exact ⟨token, rfl, by rw [hrest, hupcoming], hclose⟩
  | error report reader =>
      obtain ⟨blanks, -, hfound⟩ := significant_eq look
      rw [h, hskip] at hfound
      cases hfound

/-- A scan that is closed leaves the stream as it was, whatever it found. -/
theorem upcoming_close_of_see {kinds : List Token.Kind} {look after : Lookahead} {verdict : Verdict}
    (h : see kinds look = .ok verdict after) : after.close.upcoming = look.close.upcoming := by
  induction kinds generalizing look with
  | nil =>
      obtain ⟨rfl, rfl⟩ := EStateM.Result.ok.inj h
      rfl
  | cons kind kinds ih =>
      simp only [see] at h
      split at h
      · next found left hfound =>
          obtain ⟨token, -, -, hclose⟩ := upcoming_of_significant hfound
          split at h
          · rw [ih h, hclose]
          · obtain ⟨rfl, rfl⟩ := EStateM.Result.ok.inj h
            exact hclose
      · cases h

/-- A scan goes on while the kinds are those it looks for. -/
theorem see_cons_of_eq {kind : Token.Kind} {look : Lookahead} {token : Token}
    {rest : Stream' (Except Diagnostic Token)} (kinds : List Token.Kind)
    (h : look.reader.upcoming = Stream'.cons (.ok token) rest) (hkind : token.kind = kind) :
    ∃ after, see (kind :: kinds) look = see kinds after ∧ after.reader.upcoming = rest := by
  obtain ⟨after, hafter, hrest, -⟩ := significant_of_upcoming h
  refine ⟨after, ?_, hrest⟩
  simp only [see, hafter, hkind, if_true]

/-- A scan stops at another kind. -/
theorem see_cons_of_ne {kind : Token.Kind} {look : Lookahead} {token : Token}
    {rest : Stream' (Except Diagnostic Token)} (kinds : List Token.Kind)
    (h : look.reader.upcoming = Stream'.cons (.ok token) rest) (hkind : token.kind ≠ kind) :
    ∃ after, see (kind :: kinds) look = .ok (.rejected token.kind after.depth) after := by
  obtain ⟨after, hafter, -, -⟩ := significant_of_upcoming h
  refine ⟨after, ?_⟩
  simp only [see, hafter, if_neg hkind]

end Lookahead
end LoopScript
