import LoopScript.Proofs.Frame

/-! Names that a program does not mention. Two machines that differ in their bindings only, and not in those
of the names that occur in some statements, run these statements alike: the runs end together or not at
all, with the same flow or the same failure, and the machines that they leave again differ in the bindings
of other names only. What is bound besides shows in one place, in the name that is suggested for an unbound
one. By the frame of a run the other names have kept their numbers on either machine. -/

namespace LoopScript

open Diagnostic (Cause)

def Expr.mentions : Expr → List String
  | number _ => []
  | var name _ => [name]
  | negate operand => operand.mentions
  | binary _ left right _ => left.mentions ++ right.mentions

namespace Stmt

mutual

/-- The names that occur in a statement: in its expressions, as targets, and in READ and PRINT. The labels of
loops are not names. -/
def mentions : Stmt → List String
  | .loop _ body _ => blockMentions body
  | .cond condition thenBranch elseBranch =>
      condition.mentions ++ (blockMentions thenBranch ++ branchMentions elseBranch)
  | .read names _ => names
  | .print names _ => names
  | .assign name value _ => name :: value.mentions
  | .leave _ _ => []

def blockMentions : List Stmt → List String
  | [] => []
  | first :: rest => mentions first ++ blockMentions rest

def branchMentions : Option (List Stmt) → List String
  | none => []
  | some stmts => blockMentions stmts

end

mutual

/-- A statement binds names that occur in it, and no other. -/
theorem mem_mentions_of_mem_targets {name : String} :
    (stmt : Stmt) → name ∈ stmt.targets → name ∈ stmt.mentions
  | .loop _ body _, h => mem_blockMentions_of_mem_blockTargets body h
  | .cond _ thenBranch elseBranch, h => by
      refine List.mem_append_right _ ?_
      rcases List.mem_append.mp h with hthen | helse
      · exact List.mem_append_left _ (mem_blockMentions_of_mem_blockTargets thenBranch hthen)
      · cases elseBranch with
        | none => cases helse
        | some branch => exact List.mem_append_right _ (mem_blockMentions_of_mem_blockTargets branch helse)
  | .read _ _, h => h
  | .assign _ _ _, h => List.mem_singleton.mp h ▸ List.mem_cons_self

theorem mem_blockMentions_of_mem_blockTargets {name : String} :
    (stmts : List Stmt) → name ∈ blockTargets stmts → name ∈ blockMentions stmts
  | first :: rest, h => by
      rcases List.mem_append.mp h with hfirst | hrest
      · exact List.mem_append_left _ (mem_mentions_of_mem_targets first hfirst)
      · exact List.mem_append_right _ (mem_blockMentions_of_mem_blockTargets rest hrest)

end

end Stmt

/-- Bindings that agree on some names. -/
def SymbolTable.AgreeOn (mentioned : String → Prop) (table other : SymbolTable) : Prop :=
  ∀ name, mentioned name → other.get? name = table.get? name

theorem SymbolTable.AgreeOn.symm {mentioned : String → Prop} {table other : SymbolTable}
    (h : table.AgreeOn mentioned other) : other.AgreeOn mentioned table :=
  fun name hname => (h name hname).symm

/-- A name that is bound to one number in both tables. -/
theorem SymbolTable.AgreeOn.set {mentioned : String → Prop} {table other : SymbolTable}
    (h : table.AgreeOn mentioned other) (name : String) (value : Float) :
    (table.set name value).AgreeOn mentioned (other.set name value) := by
  intro asked hasked
  by_cases hname : asked = name
  · rw [hname, get?_set_self, get?_set_self]
  · rw [get?_set_of_ne _ _ hname, get?_set_of_ne _ _ hname, h asked hasked]

/-- Reports of one failure. If it is about an unbound name they may differ in the name that they suggest and
in their hint, and in nothing else. -/
def Diagnostic.SameFailure (report report' : Diagnostic) : Prop :=
  report' = report ∨ report.kind = .unboundIdentifier ∧
    report' = { report with suggestion := report'.suggestion, help := report'.help }

/-- Results of two evaluations: the same number, or one failure. -/
def SameResult (result result' : Except Diagnostic Float) : Prop :=
  (∃ value, result = .ok value ∧ result' = .ok value) ∨
    ∃ report report', result = .error report ∧ result' = .error report' ∧ report.SameFailure report'

variable {mentioned : String → Prop}

theorem SymbolTable.AgreeOn.lookup {table other : SymbolTable} (h : table.AgreeOn mentioned other)
    {name : String} (hname : mentioned name) (location : Location) :
    SameResult (table.lookup name location) (other.lookup name location) := by
  rw [SymbolTable.lookup, SymbolTable.lookup, h name hname]
  cases table.get? name with
  | some value => exact .inl ⟨value, rfl, rfl⟩
  | none => exact .inr ⟨_, _, rfl, rfl, .inr ⟨rfl, rfl⟩⟩

/-- The value of an expression depends on the names that occur in it. -/
theorem SymbolTable.AgreeOn.eval {table other : SymbolTable} (h : table.AgreeOn mentioned other) (e : Expr)
    (hnames : ∀ name ∈ e.mentions, mentioned name) : SameResult (e.eval table) (e.eval other) := by
  induction e with
  | number value => exact .inl ⟨value, rfl, rfl⟩
  | var name location => exact h.lookup (hnames name List.mem_cons_self) location
  | negate operand ih =>
      rw [Expr.eval, Expr.eval]
      rcases ih hnames with ⟨value, hvalue, hvalue'⟩ | ⟨report, report', hfails, hfails', hsame⟩
      · rw [hvalue, hvalue']
        exact .inl ⟨-value, rfl, rfl⟩
      · rw [hfails, hfails']
        exact .inr ⟨report, report', rfl, rfl, hsame⟩
  | binary op left right location ihleft ihright =>
      rw [Expr.eval, Expr.eval]
      rcases ihleft fun name hname => hnames name (List.mem_append_left _ hname) with
        ⟨first, hleft, hleft'⟩ | ⟨report, report', hfails, hfails', hsame⟩
      · rw [hleft, hleft']
        rcases ihright fun name hname => hnames name (List.mem_append_right _ hname) with
          ⟨second, hright, hright'⟩ | ⟨report, report', hfails, hfails', hsame⟩
        · rw [hright, hright']
          simp only [bind, Except.bind]
          cases op.apply? first second with
          | some value => exact .inl ⟨value, rfl, rfl⟩
          | none => exact .inr ⟨_, _, rfl, rfl, .inl rfl⟩
        · rw [hfails, hfails']
          exact .inr ⟨report, report', rfl, rfl, hsame⟩
      · rw [hfails, hfails']
        exact .inr ⟨report, report', rfl, rfl, hsame⟩

theorem SymbolTable.AgreeOn.eval_ok {table other : SymbolTable} (h : table.AgreeOn mentioned other) {e : Expr}
    {value : Float} (heval : e.eval table = .ok value) (hnames : ∀ name ∈ e.mentions, mentioned name) :
    e.eval other = .ok value := by
  rcases h.eval e hnames with ⟨found, hfound, hfound'⟩ | ⟨report, report', hfails, -⟩
  · rw [hfound', ← hfound, heval]
  · cases hfails.symm.trans heval

def Machine.rebind (symbols : SymbolTable) (machine : Machine) : Machine :=
  { machine with symbols := symbols }

namespace Exec

/-- Two ways to end that differ in the bindings of names that are not mentioned, and in what is suggested
for an unbound name. -/
inductive SameEnd (mentioned : String → Prop) : Outcome → Outcome → Prop
  | ok (flow : Flow) {after : Machine} {symbols : SymbolTable} (h : after.symbols.AgreeOn mentioned symbols) :
      SameEnd mentioned (.ok flow after) (.ok flow (after.rebind symbols))
  | error {report report' : Diagnostic} {after : Machine} {symbols : SymbolTable}
      (hreport : report.SameFailure report') (h : after.symbols.AgreeOn mentioned symbols) :
      SameEnd mentioned (.error report after) (.error report' (after.rebind symbols))

/-! ### Statements without statements inside -/

theorem sameEnd_readNames (location : Location) (names : List String) {machine : Machine}
    {symbols : SymbolTable} (h : machine.symbols.AgreeOn mentioned symbols) :
    SameEnd mentioned (completing (readNames location names) machine)
      (completing (readNames location names) (machine.rebind symbols)) := by
  induction names generalizing machine symbols with
  | nil => exact .ok .completed h
  | cons name rest ih =>
      have hinput : (machine.rebind symbols).input = machine.input := rfl
      rw [completing_readNames_cons, completing_readNames_cons, hinput]
      cases machine.input.next with
      | mk result input =>
          cases result with
          | error cause =>
              have hafter : ({ machine with input := input } : Machine).symbols.AgreeOn mentioned symbols := h
              exact .error (.inl rfl) hafter
          | ok value =>
              have hafter : ({ machine with input := input, symbols := machine.symbols.set name value } :
                  Machine).symbols.AgreeOn mentioned (symbols.set name value) := h.set name value
              exact ih hafter

theorem sameEnd_printNames (location : Location) {names : List String}
    (hnames : ∀ name ∈ names, mentioned name) {machine : Machine} {symbols : SymbolTable}
    (h : machine.symbols.AgreeOn mentioned symbols) :
    SameEnd mentioned (completing (printNames location names) machine)
      (completing (printNames location names) (machine.rebind symbols)) := by
  induction names generalizing machine with
  | nil => exact .ok .completed h
  | cons name rest ih =>
      obtain ⟨hname, hrest⟩ := List.forall_mem_cons.mp hnames
      have hsymbols : (machine.rebind symbols).symbols = symbols := rfl
      have houtput : (machine.rebind symbols).output = machine.output := rfl
      rw [completing_printNames_cons, completing_printNames_cons, hsymbols, houtput]
      rcases h.lookup hname location with ⟨value, hvalue, hvalue'⟩ | ⟨report, report', hfails, hfails', hsame⟩
      · rw [hvalue, hvalue']
        dsimp only
        cases machine.output.writeLine (Number.plain value) with
        | error reason => exact .error (.inl rfl) h
        | ok output =>
            have hafter : ({ machine with output := output } : Machine).symbols.AgreeOn mentioned symbols := h
            exact ih hrest hafter
      · rw [hfails, hfails']
        exact .error hsame h

theorem sameEnd_assign (name : String) {value : Expr} (hnames : ∀ name ∈ value.mentions, mentioned name)
    {machine : Machine} {symbols : SymbolTable} (h : machine.symbols.AgreeOn mentioned symbols) :
    SameEnd mentioned (completing (assign name value) machine)
      (completing (assign name value) (machine.rebind symbols)) := by
  have hsymbols : (machine.rebind symbols).symbols = symbols := rfl
  simp only [completing, assign, hsymbols]
  rcases h.eval value hnames with ⟨number, hvalue, hvalue'⟩ | ⟨report, report', hfails, hfails', hsame⟩
  · have hafter : (machine.assign name number).symbols.AgreeOn mentioned (symbols.set name number) :=
      h.set name number
    rw [hvalue, hvalue']
    exact .ok .completed hafter
  · rw [hfails, hfails']
    exact .error hsame h

theorem sameEnd_leave (target : Option String) (location : Location) {machine : Machine}
    {symbols : SymbolTable} (h : machine.symbols.AgreeOn mentioned symbols) :
    SameEnd mentioned (leave target location machine) (leave target location (machine.rebind symbols)) := by
  have hloops : (machine.rebind symbols).loops = machine.loops := rfl
  have hleft (outer : List LoopLabel) (label : LoopLabel) :
      SameEnd mentioned (.ok (.broke label) (machine.leaveTo outer))
        (.ok (.broke label) ((machine.rebind symbols).leaveTo outer)) := by
    have hafter : (machine.leaveTo outer).symbols.AgreeOn mentioned symbols := h
    exact .ok (.broke label) hafter
  simp only [leave, Machine.unwind, hloops]
  cases machine.loops with
  | nil => exact .error (.inl rfl) h
  | cons innermost outer =>
      cases target with
      | none => exact hleft outer innermost
      | some name =>
          dsimp only
          cases (innermost :: outer).dropWhile (· ≠ .named name) with
          | nil => exact .error (.inl rfl) h
          | cons label outer => exact hleft outer label

/-! ### Runs -/

def Task.mentions : Task → List String
  | .stmt first => first.mentions
  | .block stmts => Stmt.blockMentions stmts
  | .repeating _ _ body _ => Stmt.blockMentions body

theorem entryLabel_rebind (label : Option String) (machine : Machine) (symbols : SymbolTable) :
    entryLabel label (machine.rebind symbols) = entryLabel label machine := by
  cases label <;> rfl

theorem inside_rebind (label : Option String) (machine : Machine) (symbols : SymbolTable) :
    inside label (machine.rebind symbols) = (inside label machine).rebind symbols := by
  cases label <;> rfl

theorem inside_symbols (label : Option String) (machine : Machine) :
    (inside label machine).symbols = machine.symbols := by
  cases label <;> rfl

theorem SameEnd.closeLoop {outcome outcome' : Outcome} (h : SameEnd mentioned outcome outcome')
    (label : LoopLabel) (depth : Nat) :
    SameEnd mentioned (closeLoop label depth outcome) (closeLoop label depth outcome') := by
  cases h with
  | @ok flow after symbols hagree =>
      have hafter : (after.record (.leaving label.text)).symbols.AgreeOn mentioned symbols := hagree
      exact .ok flow hafter
  | @error report report' after symbols hreport hagree =>
      have hafter : (after.truncateLoops depth).symbols.AgreeOn mentioned symbols := hagree
      exact .error hreport hafter

theorem sameEnd_of_runs {task : Task} {machine : Machine} {outcome : Outcome} (h : Runs task machine outcome)
    (hnames : ∀ name ∈ task.mentions, mentioned name) {symbols : SymbolTable}
    (hagree : machine.symbols.AgreeOn mentioned symbols) :
    ∃ outcome', Runs task (machine.rebind symbols) outcome' ∧ SameEnd mentioned outcome outcome' := by
  induction h generalizing symbols with
  | @loop label body location machine outcome _ ih =>
      rw [← inside_symbols label machine] at hagree
      obtain ⟨outcome', hruns, hsame⟩ := ih hnames hagree
      rw [← inside_rebind, ← entryLabel_rebind label machine symbols] at hruns
      refine ⟨_, .loop hruns, ?_⟩
      rw [entryLabel_rebind]
      exact hsame.closeLoop _ _
  | leave => exact ⟨_, .leave, sameEnd_leave _ _ hagree⟩
  | read => exact ⟨_, .read, sameEnd_readNames _ _ hagree⟩
  | print => exact ⟨_, .print, sameEnd_printNames _ hnames hagree⟩
  | assign => exact ⟨_, .assign, sameEnd_assign _ (List.forall_mem_cons.mp hnames).2 hagree⟩
  | @condFails condition thenBranch elseBranch report machine heval =>
      have hcondition := hagree.eval condition fun name hname => hnames name (List.mem_append_left _ hname)
      rcases hcondition with ⟨value, hvalue, -⟩ | ⟨report, report', hfails, hfails', hsame⟩
      · cases hvalue.symm.trans heval
      · obtain rfl := Except.error.inj (hfails.symm.trans heval)
        exact ⟨_, .condFails hfails', .error hsame hagree⟩
  | @condThen condition thenBranch elseBranch value outcome machine heval hvalue _ ih =>
      have heval' := hagree.eval_ok heval fun name hname => hnames name (List.mem_append_left _ hname)
      obtain ⟨outcome', hruns, hsame⟩ := ih
        (fun name hname => hnames name (List.mem_append_right _ (List.mem_append_left _ hname))) hagree
      exact ⟨outcome', .condThen heval' hvalue hruns, hsame⟩
  | @condElse condition thenBranch branch value outcome machine heval hvalue _ ih =>
      have heval' := hagree.eval_ok heval fun name hname => hnames name (List.mem_append_left _ hname)
      obtain ⟨outcome', hruns, hsame⟩ := ih
        (fun name hname => hnames name (List.mem_append_right _ (List.mem_append_right _ hname))) hagree
      exact ⟨outcome', .condElse heval' hvalue hruns, hsame⟩
  | condSkip heval hvalue =>
      have heval' := hagree.eval_ok heval fun name hname => hnames name (List.mem_append_left _ hname)
      exact ⟨_, .condSkip heval' hvalue, .ok .completed hagree⟩
  | nil => exact ⟨_, .nil, .ok .completed hagree⟩
  | next _ _ ihfirst ihrest =>
      obtain ⟨outcome', hfirst, hsame⟩ := ihfirst
        (fun name hname => hnames name (List.mem_append_left _ hname)) hagree
      cases hsame with
      | ok flow hmiddle =>
          obtain ⟨outcome', hrest, hsame⟩ := ihrest
            (fun name hname => hnames name (List.mem_append_right _ hname)) hmiddle
          exact ⟨outcome', .next hfirst hrest, hsame⟩
  | stop _ hother ih =>
      obtain ⟨outcome', hfirst, hsame⟩ := ih
        (fun name hname => hnames name (List.mem_append_left _ hname)) hagree
      refine ⟨outcome', .stop hfirst ?_, hsame⟩
      rintro after rfl
      cases hsame with
      | @ok flow last symbols _ => exact hother last rfl
  | again _ hlimit _ ihbody ihrest =>
      obtain ⟨outcome', hbody, hsame⟩ := ihbody hnames hagree
      cases hsame with
      | ok flow hmiddle =>
          obtain ⟨outcome', hrest, hsame⟩ := ihrest hnames hmiddle
          exact ⟨outcome', .again hbody hlimit hrest, hsame⟩
  | limit _ hlimit ih =>
      obtain ⟨outcome', hbody, hsame⟩ := ih hnames hagree
      cases hsame with
      | ok flow hafter => exact ⟨_, .limit hbody hlimit, .error (.inl rfl) hafter⟩
  | arrives _ ih =>
      obtain ⟨outcome', hbody, hsame⟩ := ih hnames hagree
      cases hsame with
      | ok flow hafter => exact ⟨_, .arrives hbody, .ok .completed hafter⟩
  | passes _ htarget ih =>
      obtain ⟨outcome', hbody, hsame⟩ := ih hnames hagree
      cases hsame with
      | ok _ hafter => exact ⟨_, .passes hbody htarget, .ok _ hafter⟩
  | fails _ ih =>
      obtain ⟨outcome', hbody, hsame⟩ := ih hnames hagree
      cases hsame with
      | error hreport hafter => exact ⟨_, .fails hbody, .error hreport hafter⟩

/-- Results that two runs may have side by side: the same flow, or one failure. -/
def SameOutcome : Outcome → Outcome → Prop
  | .ok flow _, .ok flow' _ => flow' = flow
  | .error report _, .error report' _ => report.SameFailure report'
  | _, _ => False

/-- How two runs end that were started on two tables: with the same flow or one failure, and on machines
that differ in their bindings alone. These agree on the names that are mentioned, and each machine has kept
its own for the other names. -/
structure EndAlike (mentioned : List String) (before before' : SymbolTable) (outcome outcome' : Outcome) :
    Prop where
  result : SameOutcome outcome outcome'
  others_eq : endMachine outcome' = (endMachine outcome).rebind (endMachine outcome').symbols
  agree : ∀ name ∈ mentioned,
    (endMachine outcome').symbols.get? name = (endMachine outcome).symbols.get? name
  kept : ∀ name ∉ mentioned, (endMachine outcome).symbols.get? name = before.get? name
  kept' : ∀ name ∉ mentioned, (endMachine outcome').symbols.get? name = before'.get? name

theorem kept_of_runs {stmts : List Stmt} {machine : Machine} {outcome : Outcome}
    (h : Runs (.block stmts) machine outcome) :
    ∀ name ∉ Stmt.blockMentions stmts,
      (endMachine outcome).symbols.get? name = machine.symbols.get? name := by
  intro name hname
  have hadvances := advances_of_runs h fun _ htarget => htarget
  exact hadvances.kept name fun htarget => hname (Stmt.mem_blockMentions_of_mem_blockTargets stmts htarget)

theorem endAlike_of_runs {stmts : List Stmt} {machine : Machine} {outcome : Outcome}
    (h : Runs (.block stmts) machine outcome) {symbols : SymbolTable}
    (hagree : machine.symbols.AgreeOn (· ∈ Stmt.blockMentions stmts) symbols) :
    ∃ outcome', Runs (.block stmts) (machine.rebind symbols) outcome' ∧
      EndAlike (Stmt.blockMentions stmts) machine.symbols symbols outcome outcome' := by
  obtain ⟨outcome', hruns, hsame⟩ := sameEnd_of_runs h (fun _ hname => hname) hagree
  have hkept := kept_of_runs h
  have hkept' := kept_of_runs hruns
  refine ⟨outcome', hruns, ?_⟩
  cases hsame with
  | ok flow hafter => exact ⟨rfl, rfl, hafter, hkept, hkept'⟩
  | error hreport hafter => exact ⟨hreport, rfl, hafter, hkept, hkept'⟩

/-- **A program sees the names that it mentions.** Let two machines differ in their bindings alone, and there
only in names that do not occur in some statements. Either these statements run for ever on both machines,
or they end on both: with the same flow or with one failure, whose reports differ at most in what they
suggest for an unbound name; with the same loops, input, output, limit, numbering and log; with bindings
that agree on the names that occur in the statements, while either machine has kept its own for all other
names. -/
theorem unmentioned_names_are_unseen {stmts : List Stmt} {machine machine' : Machine}
    (hothers : machine' = { machine with symbols := machine'.symbols })
    (hagree : ∀ name ∈ Stmt.blockMentions stmts,
      machine'.symbols.get? name = machine.symbols.get? name) :
    (∀ fuel, block fuel stmts machine = none ∧ block fuel stmts machine' = none) ∨
    ∃ fuel outcome outcome', block fuel stmts machine = some outcome ∧
      block fuel stmts machine' = some outcome' ∧
      EndAlike (Stmt.blockMentions stmts) machine.symbols machine'.symbols outcome outcome' := by
  have hmachine' : machine.rebind machine'.symbols = machine' := hothers.symm
  have hmachine : machine'.rebind machine.symbols = machine := by
    rw [hothers]
    rfl
  by_cases hends : ∃ outcome, Runs (.block stmts) machine outcome
  · obtain ⟨outcome, hruns⟩ := hends
    obtain ⟨outcome', hruns', halike⟩ := endAlike_of_runs hruns hagree
    rw [hmachine'] at hruns'
    obtain ⟨fuel, hfirst, hsecond⟩ :=
      exists_within_both (exists_within_of_runs hruns) (exists_within_of_runs hruns')
    exact .inr ⟨fuel, outcome, outcome', hfirst, hsecond, halike⟩
  · refine .inl fun fuel => ⟨?_, ?_⟩
    · refine Option.eq_none_iff_forall_ne_some.mpr fun outcome hblock => ?_
      exact hends ⟨outcome, runs_of_block hblock⟩
    · refine Option.eq_none_iff_forall_ne_some.mpr fun outcome' hblock => ?_
      have hback : machine'.symbols.AgreeOn (· ∈ Stmt.blockMentions stmts) machine.symbols :=
        SymbolTable.AgreeOn.symm hagree
      obtain ⟨outcome, hruns, -⟩ := endAlike_of_runs (runs_of_block hblock) hback
      rw [hmachine] at hruns
      exact hends ⟨outcome, hruns⟩

/-- A PRINT of an unbound name, in a loop that has read another one. -/
def misspelledLoop : List Stmt :=
  [.loop (some "a") [.read ["n"] .unknown, .print ["n", "count"] .unknown] .unknown]

/-- A machine with one number to read, on which these names are bound. -/
def readyMachine (history : List (String × Float)) : Machine where
  symbols := SymbolTable.bindAll history
  input := { words := ["7"] }

/-- Each machine knows a name that the other does not: one is near enough to be suggested. -/
theorem unmentioned_names_are_unseen_misspelled :
    ∃ fuel outcome outcome',
      block fuel misspelledLoop (readyMachine [("n", 1.0), ("court", 2.0)]) = some outcome ∧
      block fuel misspelledLoop (readyMachine [("k", 3.0), ("n", 1.0)]) = some outcome' ∧
      EndAlike ["n", "n", "count"] (SymbolTable.bindAll [("n", 1.0), ("court", 2.0)])
        (SymbolTable.bindAll [("k", 3.0), ("n", 1.0)]) outcome outcome' := by
  have hagree : ∀ name ∈ Stmt.blockMentions misspelledLoop,
      (readyMachine [("k", 3.0), ("n", 1.0)]).symbols.get? name =
        (readyMachine [("n", 1.0), ("court", 2.0)]).symbols.get? name := by
    decide +kernel
  rcases unmentioned_names_are_unseen rfl hagree with hforever | hends
  · have hfails : failure? (block 4 misspelledLoop (readyMachine [("n", 1.0), ("court", 2.0)])) =
        some .unboundIdentifier := by
      decide +kernel
    rw [(hforever 4).1] at hfails
    cases hfails
  · exact hends

end Exec
end LoopScript
