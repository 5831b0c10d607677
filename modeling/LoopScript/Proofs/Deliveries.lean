import LoopScript.Diagnostic
import LoopScript.NumberInput
import Mathlib.Data.List.Basic
import Mathlib.Logic.Function.Iterate

/-! What an input delivers, one result after the other. Its bytes alone decide: every word of a line is one
result, and so is a line that cannot be read (`deliveries`). An input that has been read in part still
delivers the words that are left of the current line and then what is in the lines behind it (`pending`).
Taking a number takes the first of these results, whatever it is, and reads no line behind the one that it
comes from. -/

namespace LoopScript.NumberInput

open Diagnostic (Cause)

/-! ### Lines -/

/-- The lines of some bytes with their line ends, which the last one may lack. -/
def linesOf : List UInt8 → List (List UInt8)
  | [] => []
  | byte :: rest =>
      if byte = newlineByte then [byte] :: linesOf rest
      else
        match linesOf rest with
        | [] => [[byte]]
        | line :: more => (byte :: line) :: more

/-- The line that is cut off is the first one. -/
theorem linesOf_cons (byte : UInt8) (rest : List UInt8) :
    linesOf (byte :: rest) = (cutLine (byte :: rest)).1 :: linesOf (cutLine (byte :: rest)).2 := by
  induction rest generalizing byte with
  | nil =>
      rw [linesOf, cutLine]
      split <;> rfl
  | cons next rest ih =>
      rw [linesOf, cutLine]
      split
      · rfl
      · rw [ih next]

theorem flatten_linesOf (bytes : List UInt8) : (linesOf bytes).flatten = bytes := by
  induction bytes with
  | nil => rfl
  | cons byte rest ih =>
      rw [linesOf]
      split
      · rw [List.flatten_cons, ih]
        rfl
      · split
        · next hnil =>
            rw [hnil] at ih
            rw [← ih]
            rfl
        · next line more hcons =>
            rw [hcons] at ih
            rw [← ih]
            rfl

/-! ### Results -/

/-- A result as a READ at a place reports it. -/
def reported (location : Location) (result : Except Cause Float) : Except Diagnostic Float :=
  result.mapError (·.reportAt location)

def endOfInput (location : Location) : Except Diagnostic Float :=
  .error { kind := .input, message := "Unexpected end of input while reading a number", location }

/-- What a word delivers that stands on the line with this number. -/
def wordResult (location : Location) (number : Nat) (word : String) : Except Diagnostic Float :=
  match Number.Literal.value? word with
  | some value => .ok value
  | none => .error
      { kind := .input, message := s!"Expected a number on input line {number}, found '{word}'", location }

/-- What a line delivers: a result for each of its words, or a single one if it is not UTF-8. -/
def lineResults (location : Location) (number : Nat) (line : List UInt8) :
    List (Except Diagnostic Float) :=
  match decode? line with
  | none => [.error
      { kind := .device, message := "Failed to read input: stream did not contain valid UTF-8", location }]
  | some text => (Text.words text).map (wordResult location number)

/-- Whether a line is UTF-8. Only such lines are counted. -/
def isReadable (line : List UInt8) : Bool := (decode? line).isSome

/-- What some bytes deliver, line by line, and with each result the bytes behind the line it comes from. -/
def deliveries (location : Location) (bytes : List UInt8) : List (Except Diagnostic Float × List UInt8) :=
  (linesOf bytes).zipIdx.flatMap fun (line, index) =>
    (lineResults location (((linesOf bytes).take (index + 1)).countP isReadable) line).map
      (·, ((linesOf bytes).drop (index + 1)).flatten)

/-- What some lines deliver when this many lines have been counted before them. -/
def lineDeliveries (location : Location) :
    (number : Nat) → List (List UInt8) → List (Except Diagnostic Float × List UInt8)
  | _, [] => []
  | number, line :: more =>
      let number := if isReadable line then number + 1 else number
      (lineResults location number line).map (·, more.flatten) ++ lineDeliveries location number more

def pending (location : Location) (input : NumberInput) : List (Except Diagnostic Float × List UInt8) :=
  input.words.map (wordResult location input.line ·, input.unread) ++
    lineDeliveries location input.line (linesOf input.unread)

theorem lineDeliveries_eq (location : Location) (before lines : List (List UInt8)) :
    ((lines.zipIdx before.length).flatMap fun (line, index) =>
      (lineResults location (((before ++ lines).take (index + 1)).countP isReadable) line).map
        (·, ((before ++ lines).drop (index + 1)).flatten)) =
      lineDeliveries location (before.countP isReadable) lines := by
  induction lines generalizing before with
  | nil => rfl
  | cons line more ih =>
      have hsplit : before ++ line :: more = (before ++ [line]) ++ more := by simp
      have htake : (before ++ line :: more).take (before.length + 1) = before ++ [line] := by
        rw [hsplit]
        exact List.take_left' List.length_append
      have hdrop : (before ++ line :: more).drop (before.length + 1) = more := by
        rw [hsplit]
        exact List.drop_left' List.length_append
      have hcount : (before ++ [line]).countP isReadable =
          if isReadable line then before.countP isReadable + 1 else before.countP isReadable := by
        rw [List.countP_append, List.countP_singleton]
        split <;> rfl
      have hrest := ih (before ++ [line])
      rw [List.length_append, List.length_singleton, ← hsplit, hcount] at hrest
      rw [List.zipIdx_cons, List.flatMap_cons, hrest]
      dsimp only
      rw [htake, hdrop, hcount, lineDeliveries]

/-- A fresh input delivers what its bytes do. -/
theorem pending_fresh (location : Location) (bytes : List UInt8) :
    pending location { unread := bytes } = deliveries location bytes :=
  (lineDeliveries_eq location [] (linesOf bytes)).symm

/-! ### Taking results -/

/-- Taking a number takes the first of the results that are left, and leaves unread what is behind its
line. -/
theorem pending_next (location : Location) (input : NumberInput) :
    (pending location input = [] ∧ reported location input.next.1 = endOfInput location ∧
      pending location input.next.2 = []) ∨
    pending location input =
      (reported location input.next.1, input.next.2.unread) :: pending location input.next.2 := by
  fun_induction next input with
  | case1 unread word words line result =>
      right
      have hresult : wordResult location line word = reported location result := by
        dsimp only [wordResult, result]
        cases Number.Literal.value? word <;> rfl
      simp only [pending, List.map_cons, List.cons_append, hresult]
  | case2 line => exact .inl ⟨rfl, rfl, rfl⟩
  | case3 byte rest line hdecode =>
      right
      have hreadable : isReadable (cutLine (byte :: rest)).1 = false := by
        rw [isReadable, hdecode]
        rfl
      have hresults : lineResults location line (cutLine (byte :: rest)).1 =
          [reported location (.error (.unreadable notUtf8))] := by
        rw [lineResults, hdecode]
        rfl
      simp only [pending, linesOf_cons, lineDeliveries, hreadable, Bool.false_eq_true, if_false, hresults,
        flatten_linesOf]
      rfl
  | case4 byte rest line text hdecode ih =>
      have hreadable : isReadable (cutLine (byte :: rest)).1 = true := by
        rw [isReadable, hdecode]
        rfl
      have hsame : pending location ⟨byte :: rest, [], line⟩ =
          pending location ⟨(cutLine (byte :: rest)).2, Text.words text, line + 1⟩ := by
        simp only [pending, linesOf_cons, lineDeliveries, hreadable, if_true, lineResults, hdecode,
          flatten_linesOf, List.map_map]
        rfl
      rw [hsame]
      exact ih

/-- The input that is left when so many numbers have been taken, or reported as missing. -/
def afterTaking (count : Nat) (input : NumberInput) : NumberInput := (fun input => input.next.2)^[count] input

theorem afterTaking_succ (count : Nat) (input : NumberInput) :
    afterTaking (count + 1) input = (afterTaking count input).next.2 :=
  Function.iterate_succ_apply' _ count input

/-- Taking numbers takes the results that are left one by one. -/
theorem pending_afterTaking (location : Location) (count : Nat) (input : NumberInput) :
    pending location (afterTaking count input) = (pending location input).drop count := by
  induction count with
  | zero => rfl
  | succ count ih =>
      rw [afterTaking_succ, ← List.drop_drop, ← ih]
      rcases pending_next location (afterTaking count input) with ⟨hnone, -, hafter⟩ | hcons
      · rw [hnone, hafter]
        rfl
      · rw [hcons]
        rfl

/-- **An input delivers the words of its bytes in order.** The number that is taken when n others have been
taken is the n-th of the results that the bytes deliver, however these are spread over lines, so that a bad
word or a bad line is passed by once it has been reported; and the bytes that are left unread are those
behind the line that the result comes from. When all results have been taken, the end of the input is
reported for ever. -/
theorem nth_number_is_nth_delivery (bytes : List UInt8) (location : Location) (n : Nat) :
    (∀ result rest, (deliveries location bytes)[n]? = some (result, rest) →
      reported location (afterTaking n { unread := bytes }).next.1 = result ∧
      (afterTaking (n + 1) { unread := bytes }).unread = rest) ∧
    ((deliveries location bytes).length ≤ n →
      reported location (afterTaking n { unread := bytes }).next.1 = endOfInput location) := by
  have hpending := pending_afterTaking location n { unread := bytes }
  rw [pending_fresh] at hpending
  rw [afterTaking_succ]
  rcases pending_next location (afterTaking n { unread := bytes }) with ⟨hnone, hend, -⟩ | hcons
  · rw [hnone] at hpending
    refine ⟨fun result rest hget => ?_, fun _ => hend⟩
    rw [← List.head?_drop, ← hpending] at hget
    cases hget
  · rw [hcons] at hpending
    refine ⟨fun result rest hget => ?_, fun hlength => ?_⟩
    · rw [← List.head?_drop, ← hpending, List.head?_cons] at hget
      exact Prod.mk.inj (Option.some.inj hget)
    · rw [List.drop_eq_nil_of_le hlength] at hpending
      cases hpending

/-- Three lines and a piece without a line end: `x`, a byte that is not UTF-8, nothing, and `y`. -/
def brokenLines : List UInt8 := [120, 10, 255, 10, 10, 121]

theorem deliveries_brokenLines : deliveries .unknown brokenLines =
    [(.error ⟨.input, "Expected a number on input line 1, found 'x'", .unknown, none, none, none⟩,
        [255, 10, 10, 121]),
      (.error ⟨.device, "Failed to read input: stream did not contain valid UTF-8", .unknown, none, none,
          none⟩,
        [10, 121]),
      (.error ⟨.input, "Expected a number on input line 3, found 'y'", .unknown, none, none, none⟩, [])] := by
  rfl

/-- The bad line does not count, the blank one does, and the line of `y` is read only when `y` is wanted. -/
theorem nth_number_is_nth_delivery_broken :
    (afterTaking 2 { unread := brokenLines }).unread = [10, 121] ∧
      reported .unknown (afterTaking 2 { unread := brokenLines }).next.1 =
        .error ⟨.input, "Expected a number on input line 3, found 'y'", .unknown, none, none, none⟩ ∧
      reported .unknown (afterTaking 3 { unread := brokenLines }).next.1 = endOfInput .unknown := by
  have hsecond : (deliveries .unknown brokenLines)[1]? =
      some (.error ⟨.device, "Failed to read input: stream did not contain valid UTF-8", .unknown, none,
        none, none⟩, [10, 121]) := by
    rw [deliveries_brokenLines]
    rfl
  have hthird : (deliveries .unknown brokenLines)[2]? =
      some (.error ⟨.input, "Expected a number on input line 3, found 'y'", .unknown, none, none, none⟩,
        []) := by
    rw [deliveries_brokenLines]
    rfl
  have hlength : (deliveries .unknown brokenLines).length ≤ 3 := by
    rw [deliveries_brokenLines]
    exact Nat.le_refl _
  exact ⟨((nth_number_is_nth_delivery brokenLines .unknown 1).1 _ _ hsecond).2,
    ((nth_number_is_nth_delivery brokenLines .unknown 2).1 _ _ hthird).1,
    (nth_number_is_nth_delivery brokenLines .unknown 3).2 hlength⟩

end LoopScript.NumberInput
