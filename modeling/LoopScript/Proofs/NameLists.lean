import LoopScript.Proofs.InputWords
import LoopScript.Proofs.LoopStack

/-! Lists of names that are read and printed. READ takes one word of the input for each name, in order, and
stops at the first that is not a number or is missing; a name that stands in the list more than once keeps
the last of its numbers (`SymbolTable.Binds.cons`). The names that come before the stop are bound whatever
happens then. PRINT has one line for each name, with the number that the name has in the end. -/

namespace LoopScript

open Diagnostic (Cause)
open NumberInput (Supplies delivered)

/-- The last position at which a name stands in a list. -/
structure IsLast (names : List String) (position : ℕ) (name : String) : Prop where
  here : names[position]? = some name
  last : ∀ later, position < later → names[later]? ≠ some name

namespace IsLast

variable {names : List String} {first name : String} {position : ℕ}

theorem not_mem_of_zero (h : IsLast (first :: names) 0 name) : name = first ∧ name ∉ names := by
  refine ⟨(Option.some.inj h.here).symm, fun hmem => ?_⟩
  obtain ⟨later, hlater⟩ := List.getElem?_of_mem hmem
  exact h.last (later + 1) (Nat.succ_pos later) hlater

theorem tail (h : IsLast (first :: names) (position + 1) name) : IsLast names position name where
  here := h.here
  last later hlt := h.last (later + 1) (Nat.succ_lt_succ hlt)

theorem cons (first : String) (h : IsLast names position name) :
    IsLast (first :: names) (position + 1) name where
  here := h.here
  last later hlt := by
    obtain ⟨later, rfl⟩ := Nat.exists_eq_add_one_of_ne_zero (Nat.ne_zero_of_lt hlt)
    exact h.last later (Nat.lt_of_succ_lt_succ hlt)

/-- Every name in a list has a last position. -/
theorem exists_of_mem (h : name ∈ names) : ∃ position, IsLast names position name := by
  induction names with
  | nil => cases h
  | cons first names ih =>
      by_cases hmem : name ∈ names
      · obtain ⟨position, hlast⟩ := ih hmem
        exact ⟨position + 1, hlast.cons first⟩
      · obtain rfl := (List.mem_cons.mp h).resolve_right hmem
        refine ⟨0, rfl, fun later hlt hlater => ?_⟩
        obtain ⟨later, rfl⟩ := Nat.exists_eq_add_one_of_ne_zero (Nat.ne_zero_of_lt hlt)
        exact hmem (List.mem_of_getElem? hlater)

end IsLast

namespace SymbolTable

/-- A table after names have been bound to numbers in order: each has the number of its last position, and
no other name has changed. -/
structure Binds (names : List String) (values : List Float) (before after : SymbolTable) : Prop where
  bound : ∀ position name, IsLast names position name → after.get? name = values[position]?
  kept : ∀ name, name ∉ names → after.get? name = before.get? name

theorem Binds.nil (values : List Float) (table : SymbolTable) : Binds [] values table table where
  bound _ _ hlast := by cases hlast.here
  kept _ _ := rfl

/-- The first name is bound before the others, so that its number counts only if it is not among them. -/
theorem Binds.cons {names : List String} {values : List Float} {before after : SymbolTable} {first : String}
    {value : Float} (h : Binds names values (before.set first value) after) :
    Binds (first :: names) (value :: values) before after where
  bound position name hlast := by
    cases position with
    | zero =>
        obtain ⟨rfl, hnot⟩ := hlast.not_mem_of_zero
        rw [h.kept name hnot, get?_set_self]
        rfl
    | succ position => exact h.bound position name hlast.tail
  kept name hnot := by
    obtain ⟨hne, hnot⟩ := not_or.mp (List.mem_cons.not.mp hnot)
    rw [h.kept name hnot, get?_set_of_ne before value hne]

end SymbolTable

open SymbolTable (Binds)

/-- The numbers that some words stand for, up to the first word that is not a number. -/
def leadingNumbers : List String → List Float
  | [] => []
  | word :: rest =>
      match Number.Literal.value? word with
      | some value => value :: leadingNumbers rest
      | none => []

theorem leadingNumbers_of_ok {line : ℕ} {words : List String} {value : Float}
    (h : delivered line words.head? = .ok value) :
    leadingNumbers words = value :: leadingNumbers words.tail := by
  cases words with
  | nil => cases h
  | cons word words =>
      cases hvalue : Number.Literal.value? word with
      | none => simp [delivered, hvalue] at h
      | some found =>
          simp only [delivered, List.head?_cons, hvalue, Except.ok.injEq] at h
          rw [leadingNumbers, hvalue, h]
          rfl

theorem leadingNumbers_of_error {line : ℕ} {words : List String} {cause : Cause}
    (h : delivered line words.head? = .error cause) : leadingNumbers words = [] := by
  cases words with
  | nil => rfl
  | cons word words =>
      cases hvalue : Number.Literal.value? word with
      | none => rw [leadingNumbers, hvalue]
      | some found => simp [delivered, hvalue] at h

namespace Exec

variable {machine : Machine} {names words : List String}

/-! ### READ -/

/-- A machine that has taken a word from its input and bound a name. -/
def taking (machine : Machine) (name : String) (value : Float) : Machine :=
  { machine with input := machine.input.next.2, symbols := machine.symbols.set name value }

/-- READ for one more name takes one more word. -/
theorem readNames_cons (location : Location) (name : String) (names : List String)
    (hwords : machine.input.Supplies words) :
    ∃ line, machine.input.next.2.Supplies words.tail ∧
      completing (readNames location (name :: names)) machine =
        match delivered line words.head? with
        | .ok value => completing (readNames location names) (taking machine name value)
        | .error cause =>
            .error (cause.reportAt location) { machine with input := machine.input.next.2 } := by
  obtain ⟨line, hnext, hrest⟩ := hwords.next
  refine ⟨line, hrest, ?_⟩
  rw [completing_readNames_cons, ← hnext]
  simp only [taking]
  rcases machine.input.next with ⟨value | cause, input⟩ <;> rfl

/-- Enough numbers: each name is bound to its own. -/
theorem readNames_of_le (location : Location) (hwords : machine.input.Supplies words)
    (hle : names.length ≤ (leadingNumbers words).length) :
    ∃ input symbols, completing (readNames location names) machine =
        .ok .completed { machine with input := input, symbols := symbols } ∧
      input.Supplies (words.drop names.length) ∧
      Binds names (leadingNumbers words) machine.symbols symbols := by
  induction names generalizing machine words with
  | nil => exact ⟨machine.input, machine.symbols, rfl, hwords, .nil _ _⟩
  | cons name names ih =>
      obtain ⟨line, hrest, hstep⟩ := readNames_cons location name names hwords
      cases hdelivered : delivered line words.head? with
      | error cause =>
          rw [leadingNumbers_of_error hdelivered] at hle
          exact absurd hle (Nat.not_succ_le_zero _)
      | ok value =>
          rw [leadingNumbers_of_ok hdelivered] at hle ⊢
          rw [hdelivered] at hstep
          have htail : (taking machine name value).input.Supplies words.tail := hrest
          obtain ⟨input, symbols, hread, hleft, hbinds⟩ := ih htail (Nat.le_of_succ_le_succ hle)
          refine ⟨input, symbols, hstep.trans hread, ?_, hbinds.cons⟩
          rwa [List.drop_tail] at hleft

/-- Too few numbers: the names before the first that has none are bound. -/
theorem readNames_of_lt (location : Location) (hwords : machine.input.Supplies words)
    (hlt : (leadingNumbers words).length < names.length) :
    ∃ line cause input symbols, delivered line words[(leadingNumbers words).length]? = .error cause ∧
      completing (readNames location names) machine =
        .error (cause.reportAt location) { machine with input := input, symbols := symbols } ∧
      input.Supplies (words.drop ((leadingNumbers words).length + 1)) ∧
      Binds (names.take (leadingNumbers words).length) (leadingNumbers words) machine.symbols symbols := by
  induction names generalizing machine words with
  | nil => exact absurd hlt (Nat.not_lt_zero _)
  | cons name names ih =>
      obtain ⟨line, hrest, hstep⟩ := readNames_cons location name names hwords
      cases hdelivered : delivered line words.head? with
      | error cause =>
          rw [leadingNumbers_of_error hdelivered]
          rw [hdelivered] at hstep
          refine ⟨line, cause, machine.input.next.2, machine.symbols, ?_, hstep, ?_, .nil _ _⟩
          · rw [← hdelivered, List.head?_eq_getElem?]
            rfl
          · simpa using hrest
      | ok value =>
          rw [leadingNumbers_of_ok hdelivered] at hlt ⊢
          rw [hdelivered] at hstep
          have htail : (taking machine name value).input.Supplies words.tail := hrest
          obtain ⟨last, cause, input, symbols, hcause, hread, hleft, hbinds⟩ :=
            ih htail (Nat.lt_of_succ_lt_succ hlt)
          refine ⟨last, cause, input, symbols, ?_, hstep.trans hread, ?_, hbinds.cons⟩
          · rwa [List.getElem?_tail] at hcause
          · rwa [List.drop_tail] at hleft

/-! ### PRINT -/

/-- Names that are bound are printed with their numbers, one line for each. -/
theorem printNames_of_bound (location : Location) (hopen : machine.output.blocked = none)
    (hbound : ∀ name ∈ names, machine.symbols.get? name ≠ none) :
    ∃ output lines, completing (printNames location names) machine =
        .ok .completed { machine with output := output } ∧
      output.lines = machine.output.lines ++ lines ∧
      lines.map some = names.map fun name => (machine.symbols.get? name).map Number.plain := by
  induction names generalizing machine with
  | nil => exact ⟨machine.output, [], rfl, (List.append_nil _).symm, rfl⟩
  | cons name names ih =>
      obtain ⟨hname, hnames⟩ := List.forall_mem_cons.mp hbound
      obtain ⟨value, hvalue⟩ := Option.ne_none_iff_exists'.mp hname
      have hlookup : machine.symbols.lookup name location = .ok value := by
        rw [SymbolTable.lookup, hvalue]
      have hwrite := Output.writeLine_of_open hopen (Number.plain value)
      have hopen' : ({ machine with output :=
          { machine.output with printed := Number.plain value :: machine.output.printed } } :
          Machine).output.blocked = none := hopen
      obtain ⟨output, lines, hprint, hlines, hnumbers⟩ := ih hopen' hnames
      refine ⟨output, Number.plain value :: lines, ?_, ?_, ?_⟩
      · rw [completing_printNames_cons, hlookup]
        simp only [hwrite]
        exact hprint
      · rw [hlines, Output.lines_writeLine hwrite, List.append_assoc]
        rfl
      · rw [List.map_cons, List.map_cons, hnumbers, hvalue]
        rfl

/-! ### READ and then PRINT -/

theorem block_single {fuel : ℕ} {statement : Stmt} {after : Machine}
    (h : stmt (fuel + 1) (block (fuel + 1)) statement machine = some (.ok .completed after)) :
    block (fuel + 2) [statement] machine = some (.ok .completed after) := by
  rw [block, h]
  rfl

/-- **READ and then PRINT of one list of names.** The input has some words left, and so many of them at its
front are numbers. If that is enough for the names, each word is taken for one of them, each name is bound
to the number at its last position, no other name changes, and every name in the list is printed with the
number that it has in the end, on a line of its own. If it is not enough, READ fails for want of input or at
the first word that is not a number, which it takes too, and nothing is printed; the names that come before
that are bound in the same way, and no other name changes. -/
theorem read_then_print (names : List String) (readAt printAt : Location) (machine : Machine)
    (words : List String) (hwords : machine.input.Supplies words) :
    (names.length ≤ (leadingNumbers words).length → machine.output.blocked = none →
      ∃ input symbols output lines,
        (∀ fuel, block (fuel + 3) [.read names readAt, .print names printAt] machine =
          some (.ok .completed
            { machine with input := input, symbols := symbols, output := output })) ∧
        input.Supplies (words.drop names.length) ∧
        Binds names (leadingNumbers words) machine.symbols symbols ∧
        output.lines = machine.output.lines ++ lines ∧ lines.length = names.length ∧
        ∀ (i j : ℕ) (name : String), names[i]? = some name → IsLast names j name →
          lines[i]? = (leadingNumbers words)[j]?.map Number.plain) ∧
    ((leadingNumbers words).length < names.length →
      ∃ line cause input symbols,
        (∀ fuel rest, block (fuel + 1) (.read names readAt :: rest) machine =
          some (.error (cause.reportAt readAt) { machine with input := input, symbols := symbols })) ∧
        delivered line words[(leadingNumbers words).length]? = .error cause ∧
        (cause.reportAt readAt).kind = .input ∧
        input.Supplies (words.drop ((leadingNumbers words).length + 1)) ∧
        Binds (names.take (leadingNumbers words).length) (leadingNumbers words) machine.symbols symbols) := by
  constructor
  · intro hle hopen
    obtain ⟨input, symbols, hread, hleft, hbinds⟩ := readNames_of_le readAt hwords hle
    have hbound : ∀ name ∈ names, symbols.get? name ≠ none := by
      intro name hname
      obtain ⟨position, hlast⟩ := IsLast.exists_of_mem hname
      have hlt : position < names.length := (List.getElem?_eq_some_iff.mp hlast.here).1
      rw [hbinds.bound position name hlast, List.getElem?_eq_getElem (hlt.trans_le hle)]
      nofun
    have hopen' : ({ machine with input := input, symbols := symbols } : Machine).output.blocked = none :=
      hopen
    obtain ⟨output, lines, hprint, hlines, hnumbers⟩ := printNames_of_bound printAt hopen' hbound
    refine ⟨input, symbols, output, lines, fun fuel => ?_, hleft, hbinds, hlines, ?_, ?_⟩
    · have hfirst : stmt (fuel + 2) (block (fuel + 2)) (.read names readAt) machine =
          some (.ok .completed { machine with input := input, symbols := symbols }) := congrArg some hread
      rw [block, hfirst]
      exact block_single (congrArg some hprint)
    · simpa using congrArg List.length hnumbers
    · intro i j name hi hlast
      have hline : (lines.map some)[i]? = some ((leadingNumbers words)[j]?.map Number.plain) := by
        rw [hnumbers, List.getElem?_map, hi, Option.map_some, hbinds.bound j name hlast]
      rw [List.getElem?_map] at hline
      obtain ⟨text, htext, hnumber⟩ := Option.map_eq_some_iff.mp hline
      rw [htext, hnumber]
  · intro hlt
    obtain ⟨line, cause, input, symbols, hcause, hread, hleft, hbinds⟩ := readNames_of_lt readAt hwords hlt
    refine ⟨line, cause, input, symbols, fun fuel rest => ?_, hcause, ?_, hleft, hbinds⟩
    · have hfirst : stmt fuel (block fuel) (.read names readAt) machine =
          some (.error (cause.reportAt readAt) { machine with input := input, symbols := symbols }) :=
        congrArg some hread
      rw [block, hfirst]
    · cases hword : words[(leadingNumbers words).length]? with
      | none =>
          rw [hword] at hcause
          obtain rfl := Except.error.inj hcause
          rfl
      | some word =>
          rw [hword, delivered] at hcause
          split at hcause
          · cases hcause
          · obtain rfl := Except.error.inj hcause
            rfl

/-- A machine with three numbers on two lines of its input, and a word that is not a number. -/
def threeNumbers : Machine :=
  ((Interpreter.ofSettings {}).setInput (NumberInput.encode "1 2\n\n 3 z")).machine

theorem isLast_second : IsLast ["x", "y", "x"] 1 "y" where
  here := rfl
  last later hlt hlater := by
    have hlength : later < 3 := (List.getElem?_eq_some_iff.mp hlater).1
    obtain rfl : later = 2 := by omega
    exact absurd hlater (by decide)

theorem isLast_third : IsLast ["x", "y", "x"] 2 "x" where
  here := rfl
  last later hlt hlater := by
    have hlength : later < 3 := (List.getElem?_eq_some_iff.mp hlater).1
    omega

/-- A list that names its first name again prints the last number for it twice. One name more, and READ fails
at the fourth word. -/
theorem read_then_print_repeated :
    ∃ (after failed : Machine) (cause : Cause),
      (∀ fuel, block (fuel + 3) [.read ["x", "y", "x"] .unknown, .print ["x", "y", "x"] .unknown]
        threeNumbers = some (.ok .completed after)) ∧
      after.output.lines = ["3", "2", "3"] ∧
      (∀ fuel rest, block (fuel + 1) (.read ["x", "y", "x", "z"] .unknown :: rest) threeNumbers =
        some (.error (cause.reportAt .unknown) failed)) ∧
      failed.input.Supplies [] := by
  have hwords : Text.words "1 2\n\n 3 z" = ["1", "2", "3", "z"] := by decide
  have hsupplies : threeNumbers.input.Supplies ["1", "2", "3", "z"] :=
    hwords ▸ NumberInput.supplies_words "1 2\n\n 3 z"
  have hlength : (leadingNumbers ["1", "2", "3", "z"]).length = 3 := by decide +kernel
  have hsecond : (leadingNumbers ["1", "2", "3", "z"])[1]?.map Number.plain = some "2" := by decide +kernel
  have hthird : (leadingNumbers ["1", "2", "3", "z"])[2]?.map Number.plain = some "3" := by decide +kernel
  obtain ⟨input, symbols, output, lines, hrun, -, -, hlines, hcount, hnumbers⟩ :=
    (read_then_print ["x", "y", "x"] .unknown .unknown threeNumbers _ hsupplies).1 hlength.ge rfl
  obtain ⟨line, cause, left, table, hfails, -, -, hleft, -⟩ :=
    (read_then_print ["x", "y", "x", "z"] .unknown .unknown threeNumbers _ hsupplies).2
      (hlength.trans_lt (by decide))
  rw [hlength] at hleft
  refine ⟨_, _, cause, hrun, ?_, hfails, hleft⟩
  refine hlines.trans (List.ext_getElem? fun i => ?_)
  match i with
  | 0 => exact (hnumbers 0 2 "x" rfl isLast_third).trans hthird
  | 1 => exact (hnumbers 1 1 "y" rfl isLast_second).trans hsecond
  | 2 => exact (hnumbers 2 2 "x" rfl isLast_third).trans hthird
  | i + 3 => exact List.getElem?_eq_none (hcount.le.trans (Nat.le_add_left 3 i))

end Exec

end LoopScript
