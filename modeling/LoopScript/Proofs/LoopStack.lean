import LoopScript.Proofs.Runs
import Mathlib.Data.List.TakeWhile

/-! The stack of running loops over a run.

A run that ends normally or fails leaves the loops that were running before it. A run that ends with
a BREAK has left the innermost loop with the label of the BREAK and every loop inside that one, and
no other. A loop compares labels only, and two running loops may have the same label; the BREAK
still stops at the right one, because its label does not occur among the loops it has left on its
way (`LeftFor`).

What a BREAK and what the statements without a flow of their own can do is said once, in
`leave_cases` and `DataOutcome`. -/

namespace LoopScript

open Diagnostic (Cause)

/-- Whether a failure comes from the values of a run, and not from the text of a program alone. -/
def Diagnostic.Kind.isDynamic : Diagnostic.Kind → Bool
  | .unboundIdentifier | .input | .divisionByZero | .iterationLimit | .device => true
  | .lexical | .grammatical | .breakOutsideLoop | .undefinedLabel => false

/-- The number of loops between a BREAK and the loop that it leaves: none if it has no target, and
otherwise those inside the innermost loop with the name of the target. -/
def LabelCheck.Scope.levels? : LabelCheck.Scope → Option String → Option Nat
  | [], none => none
  | _ :: _, none => some 0
  | scope, some name => scope.findIdx? (· = some name)

namespace Machine

/-- The labels of the running loops, outermost first. -/
def stack (machine : Machine) : List LoopLabel := machine.loops.reverse

/-- The names of the running loops, innermost first; anonymous loops have none. -/
def scope (machine : Machine) : LabelCheck.Scope := machine.loops.map LoopLabel.name?

/-- Cutting the loops back to a depth leaves those that were running at that depth. -/
theorem truncateLoops_loops {machine : Machine} (inner : List LoopLabel) {outer : List LoopLabel}
    (h : machine.loops = inner ++ outer) : (machine.truncateLoops outer.length).loops = outer := by
  simp [truncateLoops, h]

end Machine

theorem LoopLabel.name?_eq_some {label : LoopLabel} {name : String} :
    label.name? = some name ↔ label = .named name := by
  cases label <;> simp [name?]

/-! ### Values: statements without a flow of their own -/

theorem Expr.isDynamic_of_eval {symbols : SymbolTable} {expr : Expr} {report : Diagnostic}
    (h : expr.eval symbols = .error report) : report.kind.isDynamic = true := by
  induction expr with
  | number value => cases h
  | var name location =>
      simp only [eval, SymbolTable.lookup] at h
      split at h
      · cases h
      · obtain rfl := Except.error.inj h
        rfl
  | negate operand ih =>
      simp only [eval] at h
      cases hoperand : operand.eval symbols with
      | error other =>
          rw [hoperand] at h
          exact ih (hoperand.trans h)
      | ok value =>
          rw [hoperand] at h
          cases h
  | binary op left right location ihleft ihright =>
      simp only [eval] at h
      cases hleft : left.eval symbols with
      | error other =>
          rw [hleft] at h
          exact ihleft (hleft.trans h)
      | ok first =>
          cases hright : right.eval symbols with
          | error other =>
              rw [hleft, hright] at h
              exact ihright (hright.trans h)
          | ok second =>
              rw [hleft, hright] at h
              cases hresult : op.apply? first second with
              | some value =>
                  simp only [bind, Except.bind, hresult] at h
                  cases h
              | none =>
                  simp only [bind, Except.bind, hresult] at h
                  obtain rfl := Except.error.inj h
                  rfl

theorem NumberInput.isDynamic_of_next {input after : NumberInput} {cause : Cause}
    (h : input.next = (.error cause, after)) : cause.kind.isDynamic = true := by
  fun_induction NumberInput.next input with
  | case1 unread word words line result =>
      obtain ⟨hresult, -⟩ := Prod.mk.inj h
      simp only [result] at hresult
      split at hresult
      · cases hresult
      · obtain rfl := Except.error.inj hresult
        rfl
  | case2 line =>
      obtain ⟨hcause, -⟩ := Prod.mk.inj h
      obtain rfl := Except.error.inj hcause
      rfl
  | case3 byte rest line hdecode =>
      obtain ⟨hcause, -⟩ := Prod.mk.inj h
      obtain rfl := Except.error.inj hcause
      rfl
  | case4 byte rest line text hdecode ih => exact ih h

namespace Exec

/-- The outcome of a statement that works on values: the loops, the limit and the log stay as they
are, no BREAK is on its way, and a failure is one of a run. -/
def DataOutcome (machine : Machine) (outcome : Outcome) : Prop :=
  ∃ symbols input output,
    outcome = .ok .completed
      { machine with symbols := symbols, input := input, output := output } ∨
    ∃ report : Diagnostic, report.kind.isDynamic = true ∧
      outcome = .error report { machine with symbols := symbols, input := input, output := output }

theorem dataOutcome_assign (name : String) (value : Expr) (machine : Machine) :
    DataOutcome machine (completing (assign name value) machine) := by
  simp only [completing, assign]
  cases heval : value.eval machine.symbols with
  | ok number =>
      exact ⟨machine.symbols.set name number, machine.input, machine.output, Or.inl rfl⟩
  | error report =>
      refine ⟨machine.symbols, machine.input, machine.output, Or.inr ⟨report, ?_, rfl⟩⟩
      exact Expr.isDynamic_of_eval heval

/-- READ takes one number for the first name and goes on with the others. -/
theorem completing_readNames_cons (location : Location) (name : String) (rest : List String)
    (machine : Machine) :
    completing (readNames location (name :: rest)) machine =
      match machine.input.next with
      | (.ok value, input) =>
          completing (readNames location rest)
            { machine with input := input, symbols := machine.symbols.set name value }
      | (.error cause, input) =>
          .error (cause.reportAt location) { machine with input := input } := by
  cases hnext : machine.input.next with
  | mk result input =>
      cases result with
      | error cause =>
          simp only [completing, readNames, bind, EStateM.bind, Machine.readNumber, hnext]
      | ok value =>
          simp only [completing, readNames, bind, EStateM.bind, Machine.readNumber, hnext]
          rfl

/-- PRINT writes one line for the first name and goes on with the others. -/
theorem completing_printNames_cons (location : Location) (name : String) (rest : List String)
    (machine : Machine) :
    completing (printNames location (name :: rest)) machine =
      match machine.symbols.lookup name location with
      | .error report => .error report machine
      | .ok value =>
          match machine.output.writeLine (Number.plain value) with
          | .error reason => .error ((Cause.unwritable reason).reportAt location) machine
          | .ok output => completing (printNames location rest) { machine with output := output } := by
  have hget : (get : EStateM Diagnostic Machine Machine) machine = .ok machine machine := rfl
  simp only [completing, printNames, bind, EStateM.bind, hget]
  cases hlookup : machine.symbols.lookup name location with
  | error report => rfl
  | ok value =>
      cases hwrite : machine.output.writeLine (Number.plain value) <;>
        simp only [EStateM.bind, Machine.printNumber, hwrite]

theorem dataOutcome_readNames (location : Location) (names : List String) (machine : Machine) :
    DataOutcome machine (completing (readNames location names) machine) := by
  induction names generalizing machine with
  | nil => exact ⟨machine.symbols, machine.input, machine.output, Or.inl rfl⟩
  | cons name rest ih =>
      rw [completing_readNames_cons]
      cases hnext : machine.input.next with
      | mk result input =>
          cases result with
          | error cause =>
              refine ⟨machine.symbols, input, machine.output, Or.inr ⟨_, ?_, rfl⟩⟩
              exact NumberInput.isDynamic_of_next hnext
          | ok value => exact ih _

theorem dataOutcome_printNames (location : Location) (names : List String) (machine : Machine) :
    DataOutcome machine (completing (printNames location names) machine) := by
  induction names generalizing machine with
  | nil => exact ⟨machine.symbols, machine.input, machine.output, Or.inl rfl⟩
  | cons name rest ih =>
      rw [completing_printNames_cons]
      cases hlookup : machine.symbols.lookup name location with
      | error report =>
          refine ⟨machine.symbols, machine.input, machine.output, Or.inr ⟨report, ?_, rfl⟩⟩
          have heval : (Expr.var name location).eval machine.symbols = .error report := hlookup
          exact Expr.isDynamic_of_eval heval
      | ok value =>
          dsimp only
          cases hwrite : machine.output.writeLine (Number.plain value) with
          | error reason =>
              exact ⟨machine.symbols, machine.input, machine.output, Or.inr ⟨_, rfl, rfl⟩⟩
          | ok output => exact ih _

/-! ### Leaving loops -/

/-- A BREAK with this label leaves these loops, innermost first, for the outer ones: the innermost
loop with the label is the last one that it leaves. -/
def LeftFor (loops : List LoopLabel) (label : LoopLabel) (outer : List LoopLabel) : Prop :=
  ∃ inner, loops = inner ++ label :: outer ∧ label ∉ inner

theorem leftFor_cons_self {label : LoopLabel} {loops outer : List LoopLabel} :
    LeftFor (label :: loops) label outer ↔ outer = loops := by
  constructor
  · rintro ⟨inner, hloops, hinner⟩
    cases inner with
    | nil => exact (List.cons.inj hloops).2.symm
    | cons head inner =>
        have hhead : label = head := (List.cons.inj hloops).1
        exact absurd List.mem_cons_self (hhead ▸ hinner)
  · rintro rfl
    exact ⟨[], rfl, List.not_mem_nil⟩

theorem leftFor_cons_of_ne {target label : LoopLabel} {loops outer : List LoopLabel}
    (hne : target ≠ label) : LeftFor (label :: loops) target outer ↔ LeftFor loops target outer := by
  constructor
  · rintro ⟨inner, hloops, hinner⟩
    cases inner with
    | nil => exact absurd (List.cons.inj hloops).1.symm hne
    | cons head inner =>
        obtain ⟨-, hloops⟩ := List.cons.inj hloops
        exact ⟨inner, hloops, fun hmem => hinner (List.mem_cons_of_mem _ hmem)⟩
  · rintro ⟨inner, hloops, hinner⟩
    refine ⟨label :: inner, by rw [hloops, List.cons_append], ?_⟩
    intro hmem
    rcases List.mem_cons.mp hmem with hlabel | hmem
    · exact hne hlabel
    · exact hinner hmem

/-- The innermost running loop with a name is where the scope has that name first. -/
theorem levels?_named {machine : Machine} {name : String} {inner outer : List LoopLabel}
    (hloops : machine.loops = inner ++ .named name :: outer) (hinner : .named name ∉ inner) :
    machine.scope.levels? (some name) = some inner.length := by
  have hnone : ∀ other ∈ inner.map LoopLabel.name?, ¬ other = some name := by
    intro other hother
    obtain ⟨label, hlabel, rfl⟩ := List.mem_map.mp hother
    intro hname
    exact hinner (LoopLabel.name?_eq_some.mp hname ▸ hlabel)
  have hscope : machine.scope = inner.map LoopLabel.name? ++ some name :: outer.map LoopLabel.name? := by
    rw [Machine.scope, hloops, List.map_append, List.map_cons]
    rfl
  rw [hscope, LabelCheck.Scope.levels?, List.findIdx?_append, List.findIdx?_eq_none_iff.mpr,
    List.findIdx?_cons]
  · simp
  · intro other hother
    exact decide_eq_false (hnone other hother)

/-- The first loop with a name, where a search for the name stops. -/
theorem leftFor_of_dropWhile {loops outer : List LoopLabel} {label : LoopLabel} {name : String}
    (h : loops.dropWhile (· ≠ .named name) = label :: outer) :
    label = .named name ∧ LeftFor loops label outer := by
  induction loops with
  | nil => cases h
  | cons head rest ih =>
      by_cases hhead : head = .named name
      · rw [List.dropWhile_cons_of_neg (by simpa using hhead)] at h
        obtain ⟨rfl, rfl⟩ := List.cons.inj h
        exact ⟨hhead, leftFor_cons_self.mpr rfl⟩
      · rw [List.dropWhile_cons_of_pos (by simpa using hhead)] at h
        obtain ⟨rfl, hleft⟩ := ih h
        exact ⟨rfl, (leftFor_cons_of_ne (Ne.symm hhead)).mpr hleft⟩

/-- A name that no running loop has is not in the scope. -/
theorem breakCause?_undefined {machine : Machine} {name : String} (hloops : machine.loops ≠ [])
    (hnone : ∀ label ∈ machine.loops, label ≠ .named name) :
    LabelCheck.breakCause? machine.scope (some name) =
      some (.undefinedLabel name machine.activeNames) := by
  have hcontains : machine.scope.contains (some name) = false := by
    refine Bool.eq_false_iff.mpr fun hcontains => ?_
    have hmem := List.contains_iff_mem.mp hcontains
    obtain ⟨label, hlabel, hname⟩ := List.mem_map.mp hmem
    exact hnone label hlabel (LoopLabel.name?_eq_some.mp hname)
  have hnames : machine.scope.names = machine.activeNames := by
    simp only [LabelCheck.Scope.names, Machine.scope, Machine.activeNames, List.filterMap_map]
    rfl
  cases hscope : machine.scope with
  | nil => exact absurd (List.map_eq_nil_iff.mp hscope) hloops
  | cons innermost outer =>
      rw [hscope] at hcontains hnames
      rw [LabelCheck.breakCause?, hcontains, hnames]
      rfl

/-- What a BREAK can do: leave the loops up to the one that its scope gives, or fail as the scope
says and leave none. -/
theorem leave_cases (target : Option String) (location : Location) (machine : Machine) :
    (∃ inner label outer, machine.loops = inner ++ label :: outer ∧ label ∉ inner ∧
      machine.scope.levels? target = some inner.length ∧
      leave target location machine = .ok (.broke label) (machine.leaveTo outer)) ∨
    ∃ cause, LabelCheck.breakCause? machine.scope target = some cause ∧
      leave target location machine = .error (cause.reportAt location) machine := by
  cases hloops : machine.loops with
  | nil =>
      refine Or.inr ⟨.breakOutsideLoop, ?_, ?_⟩
      · rw [Machine.scope, hloops]
        rfl
      · simp only [leave, Machine.unwind, hloops]
  | cons innermost rest =>
      cases target with
      | none =>
          refine Or.inl ⟨[], innermost, rest, rfl, List.not_mem_nil, ?_, ?_⟩
          · rw [Machine.scope, hloops]
            rfl
          · simp only [leave, Machine.unwind, hloops]
      | some name =>
          rw [← hloops]
          cases hdrop : machine.loops.dropWhile (· ≠ .named name) with
          | nil =>
              have hnone : ∀ label ∈ machine.loops, label ≠ .named name :=
                fun label hlabel => of_decide_eq_true (List.dropWhile_eq_nil_iff.mp hdrop label hlabel)
              refine Or.inr ⟨.undefinedLabel name machine.activeNames, ?_, ?_⟩
              · exact breakCause?_undefined (by rw [hloops]; exact List.cons_ne_nil _ _) hnone
              · rw [hloops] at hdrop
                simp only [leave, Machine.unwind, hloops, hdrop]
          | cons label outer =>
              obtain ⟨rfl, inner, hsplit, hinner⟩ := leftFor_of_dropWhile hdrop
              refine Or.inl ⟨inner, _, outer, hsplit, hinner, levels?_named hsplit hinner, ?_⟩
              rw [hloops] at hdrop
              simp only [leave, Machine.unwind, hloops, hdrop]

/-! ### The loops after a run -/

/-- The loops that an outcome leaves, given those that were running before. -/
def Balanced (loops : List LoopLabel) : Outcome → Prop
  | .ok .completed after => after.loops = loops
  | .ok (.broke label) after => LeftFor loops label after.loops
  | .error _ after => after.loops = loops

/-- A loop that is being repeated stands on top of the loops around it, and is closed over those. -/
def Task.Balanced : Task → Machine → Outcome → Prop
  | .stmt _, machine, outcome => Exec.Balanced machine.loops outcome
  | .block _, machine, outcome => Exec.Balanced machine.loops outcome
  | .repeating label _ _ _, machine, outcome =>
      ∀ outer, machine.loops = label :: outer →
        Exec.Balanced outer (closeLoop label outer.length outcome)

theorem DataOutcome.balanced {machine : Machine} {outcome : Outcome}
    (h : DataOutcome machine outcome) : Balanced machine.loops outcome := by
  obtain ⟨_, _, _, rfl | ⟨_, _, rfl⟩⟩ := h
  · rfl
  · rfl

theorem balanced_leave (target : Option String) (location : Location) (machine : Machine) :
    Balanced machine.loops (leave target location machine) := by
  rcases leave_cases target location machine with
    ⟨inner, label, outer, hloops, hinner, -, hleave⟩ | ⟨cause, -, hleave⟩
  · rw [hleave]
    exact ⟨inner, hloops, hinner⟩
  · rw [hleave]
    rfl

/-- A failing loop is cut back to the loops around it. -/
theorem balanced_closeLoop_error {label : LoopLabel} {outer : List LoopLabel} {report : Diagnostic}
    {after : Machine} (hafter : after.loops = label :: outer) :
    Balanced outer (closeLoop label outer.length (.error report after)) :=
  Machine.truncateLoops_loops [label] hafter

/-- Every run is balanced. -/
theorem balanced_of_runs {task : Task} {machine : Machine} {outcome : Outcome}
    (h : Runs task machine outcome) : task.Balanced machine outcome := by
  induction h with
  | loop _ ih => exact ih _ (inside_loops _ _)
  | leave => exact balanced_leave _ _ _
  | read => exact (dataOutcome_readNames _ _ _).balanced
  | print => exact (dataOutcome_printNames _ _ _).balanced
  | assign => exact (dataOutcome_assign _ _ _).balanced
  | condFails _ => rfl
  | condThen _ _ _ ih => exact ih
  | condElse _ _ _ ih => exact ih
  | condSkip _ _ => rfl
  | nil => rfl
  | @next first rest machine middle outcome _ _ ihfirst ihrest =>
      have hmiddle : middle.loops = machine.loops := ihfirst
      have hrest : Balanced middle.loops outcome := ihrest
      rw [hmiddle] at hrest
      exact hrest
  | stop _ _ ih => exact ih
  | @again label location body iterations machine outcome middle _ _ _ ihbody ihrest =>
      intro outer hloops
      have hmiddle : middle.loops = machine.loops := ihbody
      exact ihrest outer (hmiddle.trans hloops)
  | @limit label location body iterations machine limit after _ _ ih =>
      intro outer hloops
      have hafter : after.loops = machine.loops := ih
      exact balanced_closeLoop_error (hafter.trans hloops)
  | @arrives label location body iterations machine after _ ih =>
      intro outer hloops
      have hleft : LeftFor machine.loops label after.loops := ih
      rw [hloops, leftFor_cons_self] at hleft
      exact hleft
  | @passes label target location body iterations machine after _ htarget ih =>
      intro outer hloops
      have hleft : LeftFor machine.loops target after.loops := ih
      rw [hloops, leftFor_cons_of_ne htarget] at hleft
      exact hleft
  | @fails label location body iterations machine report after _ ih =>
      intro outer hloops
      have hafter : after.loops = machine.loops := ih
      exact balanced_closeLoop_error (hafter.trans hloops)

/-- Entering a loop adds its name to the scope. -/
theorem inside_scope (label : Option String) (machine : Machine) :
    (inside label machine).scope = label :: machine.scope := by
  rw [Machine.scope, inside_loops, List.map_cons]
  cases label <;> rfl

theorem scope_eq_of_balanced {machine middle : Machine}
    (h : Balanced machine.loops (.ok .completed middle)) : middle.scope = machine.scope :=
  congrArg (List.map LoopLabel.name?) h

/-- The stack that an outcome leaves, given the stack before, outermost loop first: the same one
after a normal end or a failure, and after a BREAK the entries before the last one with its label. -/
def StackAfter (before : List LoopLabel) : Outcome → Prop
  | .ok .completed after => after.stack = before
  | .ok (.broke label) after =>
      ∃ index, before[index]? = some label ∧ (∀ later, index < later → before[later]? ≠ some label) ∧
        after.stack = before.take index
  | .error _ after => after.stack = before

theorem LeftFor.exists_last {loops outer : List LoopLabel} {label : LoopLabel}
    (h : LeftFor loops label outer) :
    ∃ index, loops.reverse[index]? = some label ∧
      (∀ later, index < later → loops.reverse[later]? ≠ some label) ∧
      outer.reverse = loops.reverse.take index := by
  obtain ⟨inner, rfl, hinner⟩ := h
  have hreverse : (inner ++ label :: outer).reverse = outer.reverse ++ label :: inner.reverse := by
    rw [List.reverse_append, List.reverse_cons, List.append_assoc, List.singleton_append]
  rw [hreverse]
  refine ⟨outer.reverse.length, ?_, ?_, ?_⟩
  · rw [List.getElem?_append_right (Nat.le_refl _), Nat.sub_self, List.getElem?_cons_zero]
  · intro later hlater hlabel
    obtain ⟨offset, rfl⟩ := Nat.exists_eq_add_of_lt hlater
    rw [List.getElem?_append_right (by omega),
      show outer.reverse.length + offset + 1 - outer.reverse.length = offset + 1 by omega,
      List.getElem?_cons_succ] at hlabel
    exact hinner (List.mem_reverse.mp (List.mem_of_getElem? hlabel))
  · rw [List.take_left]

theorem Balanced.stackAfter {machine : Machine} {outcome : Outcome}
    (h : Balanced machine.loops outcome) : StackAfter machine.stack outcome := by
  match outcome, h with
  | .ok .completed after, h => exact congrArg List.reverse h
  | .ok (.broke label) after, h => exact LeftFor.exists_last h
  | .error _ after, h => exact congrArg List.reverse h

theorem Balanced.length_le {loops : List LoopLabel} {flow : Flow} {after : Machine}
    (h : Balanced loops (.ok flow after)) : after.loops.length ≤ loops.length := by
  cases flow with
  | completed =>
      have hloops : after.loops = loops := h
      rw [hloops]
  | broke label =>
      obtain ⟨inner, hloops, -⟩ := h
      rw [hloops, List.length_append, List.length_cons]
      omega

theorem balanced_of_loop {fuel inner : Nat} {body : List Stmt} {label : Option String}
    {location : Location} {machine : Machine} {outcome : Outcome}
    (h : loop fuel (block inner body) label location machine = some outcome) :
    Balanced machine.loops outcome := by
  rw [loop_eq] at h
  obtain ⟨ending, hending, rfl⟩ := Option.map_eq_some_iff.mp h
  have hruns := runs_of_repeatBody (fun _ _ => runs_of_block) hending
  exact balanced_of_runs hruns machine.loops (inside_loops label machine)

/-- Without running loops no BREAK is on its way at the end of a run. -/
theorem not_broke_of_balanced_nil {label : LoopLabel} {after : Machine} :
    ¬ Balanced [] (.ok (.broke label) after) := by
  rintro ⟨inner, hloops, -⟩
  cases inner <;> cases hloops

/-- No loop is running after a program. -/
theorem finish_loops (outcome : Outcome) : (Interpreter.finish outcome).2.loops = [] := by
  have hcut (machine : Machine) : (machine.truncateLoops 0).loops = [] :=
    Machine.truncateLoops_loops machine.loops (List.append_nil _).symm
  match outcome with
  | .error report machine => exact hcut machine
  | .ok .completed machine => exact hcut machine
  | .ok (.broke label) machine => exact hcut machine

/-- **The discipline of the loop stack.** Lists of statements and loops, run on any stack, end with
the stack that `StackAfter` says, and a loop that does not fail is never deeper than before. A
program that is started without running loops never ends with a BREAK that found no loop, and
leaves no running loop. -/
theorem loop_stack_discipline :
    (∀ fuel stmts machine outcome, block fuel stmts machine = some outcome →
      StackAfter machine.stack outcome) ∧
    (∀ fuel inner body label location machine outcome,
      loop fuel (block inner body) label location machine = some outcome →
      StackAfter machine.stack outcome ∧
        ∀ flow after, outcome = .ok flow after → after.depth ≤ machine.depth) ∧
    (∀ fuel program (interpreter : Interpreter), interpreter.machine.stack = [] →
      (∀ label after,
        block fuel program.body (interpreter.machine.record (.executing program.body.length)) ≠
          some (.ok (.broke label) after)) ∧
      ∀ result after, interpreter.execute fuel program = some (result, after) →
        after.machine.stack = []) := by
  refine ⟨?_, ?_, ?_⟩
  · intro fuel stmts machine outcome h
    have hbalanced : Balanced machine.loops outcome := balanced_of_runs (runs_of_block h)
    exact hbalanced.stackAfter
  · intro fuel inner body label location machine outcome h
    have hbalanced := balanced_of_loop h
    refine ⟨hbalanced.stackAfter, ?_⟩
    rintro flow after rfl
    exact hbalanced.length_le
  · intro fuel program interpreter hstack
    have hloops : interpreter.machine.loops = [] := List.reverse_eq_nil_iff.mp hstack
    refine ⟨?_, ?_⟩
    · intro label after h
      have hbalanced : Balanced interpreter.machine.loops (.ok (.broke label) after) :=
        balanced_of_runs (runs_of_block h)
      rw [hloops] at hbalanced
      exact not_broke_of_balanced_nil hbalanced
    · intro result after h
      obtain ⟨outcome, -, -, rfl⟩ := Interpreter.execute_iff.mp ⟨fuel, h⟩
      exact List.reverse_eq_nil_iff.mpr (finish_loops outcome)

/-- A loop `a` around an anonymous loop that leaves both, and then a BREAK for a loop `b`. -/
def shadowingStmts : List Stmt :=
  [.loop (some "a") [.loop none [.leave (some "a") .unknown] .unknown] .unknown,
    .leave (some "b") .unknown]

/-- On a stack that already has two loops `a`, the BREAK for `a` ends the new one only, and the
BREAK for `b` then takes the entries from `b` on. -/
theorem loop_stack_discipline_shadowed :
    ∃ after, block 9 shadowingStmts { loops := [.named "a", .named "b", .named "a"] } =
        some (.ok (.broke (.named "b")) after) ∧
      after.stack = [.named "a"] ∧
      StackAfter (Machine.stack { loops := [.named "a", .named "b", .named "a"] })
        (.ok (.broke (.named "b")) after) :=
  ⟨_, rfl, rfl, loop_stack_discipline.1 9 shadowingStmts _ _ rfl⟩
end Exec
end LoopScript
