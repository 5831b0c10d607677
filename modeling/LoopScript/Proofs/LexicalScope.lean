import LoopScript.Proofs.Scoped

/-! A BREAK is lexically scoped.

A run keeps a stack of labels, and a BREAK on its way compares labels; a scoped run has neither, and
counts the loops that are left to leave. For a program that the label check accepts the two end in
the same way. The link between them is the height of the stack: a BREAK that has left the stack so
high has as many further loops to leave as the stack was higher (`Agrees`). That a loop stops
exactly the BREAKs whose count is down to nothing follows from the discipline of the stack. -/

namespace LoopScript

/-- A machine without its loops and its log. -/
def Machine.store (machine : Machine) : Scoped.Store where
  anonymousEntries := machine.anonymousEntries
  symbols := machine.symbols
  input := machine.input
  output := machine.output
  iterationLimit := machine.iterationLimit

namespace Scoped

open Exec (LeftFor Balanced closeLoop completing entryLabel inside isOverLimit)

/-! ### Resolved statements -/

/-- A statement and what it is resolved to. -/
inductive Resolved (scope : LabelCheck.Scope) : LoopScript.Stmt → Stmt → Prop
  | loop {label body resolved location} : resolveBlock? (label :: scope) body = some resolved →
      Resolved scope (.loop label body location) (.loop label resolved location)
  | leave {target location levels} : scope.levels? target = some levels →
      Resolved scope (.leave target location) (.leave levels)
  | read {names location} : Resolved scope (.read names location) (.read names location)
  | print {names location} : Resolved scope (.print names location) (.print names location)
  | cond {condition thenBranch thenResolved elseBranch elseResolved} :
      resolveBlock? scope thenBranch = some thenResolved →
      resolveBranch? scope elseBranch = some elseResolved →
      Resolved scope (.cond condition thenBranch elseBranch)
        (.cond condition thenResolved elseResolved)
  | assign {name value location} : Resolved scope (.assign name value location) (.assign name value)

theorem resolved_of_resolveStmt? {scope : LabelCheck.Scope} {stmt : LoopScript.Stmt}
    {resolved : Stmt} (h : resolveStmt? scope stmt = some resolved) :
    Resolved scope stmt resolved := by
  cases stmt with
  | loop label body location =>
      rw [resolveStmt?] at h
      obtain ⟨body', hbody, h⟩ := Option.bind_eq_some_iff.mp h
      obtain rfl := Option.some.inj h
      exact .loop hbody
  | leave target location =>
      rw [resolveStmt?] at h
      obtain ⟨levels, hlevels, rfl⟩ := Option.map_eq_some_iff.mp h
      exact .leave hlevels
  | read names location =>
      rw [resolveStmt?] at h
      obtain rfl := Option.some.inj h
      exact .read
  | print names location =>
      rw [resolveStmt?] at h
      obtain rfl := Option.some.inj h
      exact .print
  | cond condition thenBranch elseBranch =>
      rw [resolveStmt?] at h
      obtain ⟨thenResolved, hthen, h⟩ := Option.bind_eq_some_iff.mp h
      obtain ⟨elseResolved, helse, h⟩ := Option.bind_eq_some_iff.mp h
      obtain rfl := Option.some.inj h
      exact .cond hthen helse
  | assign name value location =>
      rw [resolveStmt?] at h
      obtain rfl := Option.some.inj h
      exact .assign

theorem resolveBlock?_eq_nil {scope : LabelCheck.Scope} {stmts : List LoopScript.Stmt}
    (h : resolveBlock? scope stmts = some []) : stmts = [] := by
  cases stmts with
  | nil => rfl
  | cons first rest =>
      rw [resolveBlock?] at h
      obtain ⟨first', -, h⟩ := Option.bind_eq_some_iff.mp h
      obtain ⟨rest', -, h⟩ := Option.bind_eq_some_iff.mp h
      cases h

theorem resolveBlock?_cons {scope : LabelCheck.Scope} {first : LoopScript.Stmt}
    {rest : List LoopScript.Stmt} {resolved : List Stmt}
    (h : resolveBlock? scope (first :: rest) = some resolved) :
    ∃ first' rest', resolved = first' :: rest' ∧ resolveStmt? scope first = some first' ∧
      resolveBlock? scope rest = some rest' := by
  rw [resolveBlock?] at h
  obtain ⟨first', hfirst, h⟩ := Option.bind_eq_some_iff.mp h
  obtain ⟨rest', hrest, h⟩ := Option.bind_eq_some_iff.mp h
  exact ⟨first', rest', (Option.some.inj h).symm, hfirst, hrest⟩

theorem resolveBlock?_eq_cons {scope : LabelCheck.Scope} {stmts : List LoopScript.Stmt}
    {first' : Stmt} {rest' : List Stmt} (h : resolveBlock? scope stmts = some (first' :: rest')) :
    ∃ first rest, stmts = first :: rest ∧ resolveStmt? scope first = some first' ∧
      resolveBlock? scope rest = some rest' := by
  cases stmts with
  | nil =>
      rw [resolveBlock?] at h
      cases h
  | cons first rest =>
      obtain ⟨_, _, heq, hfirst, hrest⟩ := resolveBlock?_cons h
      obtain ⟨rfl, rfl⟩ := List.cons.inj heq
      exact ⟨first, rest, rfl, hfirst, hrest⟩

theorem resolveBranch?_some {scope : LabelCheck.Scope} {branch : List LoopScript.Stmt}
    {resolved : Option (List Stmt)} (h : resolveBranch? scope (some branch) = some resolved) :
    ∃ branch', resolved = some branch' ∧ resolveBlock? scope branch = some branch' := by
  rw [resolveBranch?] at h
  obtain ⟨branch', hbranch, h⟩ := Option.bind_eq_some_iff.mp h
  exact ⟨branch', (Option.some.inj h).symm, hbranch⟩

theorem resolveBranch?_none {scope : LabelCheck.Scope} {resolved : Option (List Stmt)}
    (h : resolveBranch? scope none = some resolved) : resolved = none := by
  rw [resolveBranch?] at h
  exact (Option.some.inj h).symm

/-- The check passes a BREAK exactly if it has a loop to leave. -/
theorem breakCause?_eq_none_iff {scope : LabelCheck.Scope} {target : Option String} :
    LabelCheck.breakCause? scope target = none ↔ ∃ levels, scope.levels? target = some levels := by
  cases scope with
  | nil => cases target <;> simp [LabelCheck.breakCause?, LabelCheck.Scope.levels?]
  | cons innermost outer =>
      cases target with
      | none => exact ⟨fun _ => ⟨0, rfl⟩, fun _ => rfl⟩
      | some name =>
          rw [← Option.isSome_iff_exists, LabelCheck.Scope.levels?, List.findIdx?_isSome,
            LabelCheck.breakCause?]
          simp only [ite_eq_left_iff, reduceCtorEq, imp_false, Decidable.not_not, List.any_eq_true,
            List.contains_iff_mem, decide_eq_true_eq, exists_eq_right]

mutual

theorem exists_resolveStmt? {scope : LabelCheck.Scope} :
    (stmt : LoopScript.Stmt) → LabelCheck.stmtErrors scope stmt = [] →
      ∃ resolved, resolveStmt? scope stmt = some resolved
  | .loop label body location, h => by
      rw [LabelCheck.stmtErrors] at h
      obtain ⟨resolved, hbody⟩ := exists_resolveBlock? body h
      exact ⟨.loop label resolved location, by rw [resolveStmt?, hbody]; rfl⟩
  | .leave target location, h => by
      rw [LabelCheck.stmtErrors] at h
      have hcause : LabelCheck.breakCause? scope target = none := by
        cases hcause : LabelCheck.breakCause? scope target with
        | none => rfl
        | some cause =>
            rw [hcause] at h
            cases h
      obtain ⟨levels, hlevels⟩ := breakCause?_eq_none_iff.mp hcause
      exact ⟨.leave levels, by rw [resolveStmt?, hlevels]; rfl⟩
  | .read names location, _ => ⟨.read names location, by rw [resolveStmt?]⟩
  | .print names location, _ => ⟨.print names location, by rw [resolveStmt?]⟩
  | .cond condition thenBranch elseBranch, h => by
      rw [LabelCheck.stmtErrors] at h
      obtain ⟨hthen, helse⟩ := List.append_eq_nil_iff.mp h
      obtain ⟨thenResolved, hthen⟩ := exists_resolveBlock? thenBranch hthen
      obtain ⟨elseResolved, helse⟩ := exists_resolveBranch? elseBranch helse
      exact ⟨.cond condition thenResolved elseResolved, by rw [resolveStmt?, hthen, helse]; rfl⟩
  | .assign name value location, _ => ⟨.assign name value, by rw [resolveStmt?]⟩

theorem exists_resolveBlock? {scope : LabelCheck.Scope} :
    (stmts : List LoopScript.Stmt) → LabelCheck.blockErrors scope stmts = [] →
      ∃ resolved, resolveBlock? scope stmts = some resolved
  | [], _ => ⟨[], by rw [resolveBlock?]⟩
  | first :: rest, h => by
      rw [LabelCheck.blockErrors] at h
      obtain ⟨hfirst, hrest⟩ := List.append_eq_nil_iff.mp h
      obtain ⟨first', hfirst⟩ := exists_resolveStmt? first hfirst
      obtain ⟨rest', hrest⟩ := exists_resolveBlock? rest hrest
      exact ⟨first' :: rest', by rw [resolveBlock?, hfirst, hrest]; rfl⟩

theorem exists_resolveBranch? {scope : LabelCheck.Scope} :
    (branch : Option (List LoopScript.Stmt)) → LabelCheck.branchErrors scope branch = [] →
      ∃ resolved, resolveBranch? scope branch = some resolved
  | none, _ => ⟨none, by rw [resolveBranch?]⟩
  | some branch, h => by
      rw [LabelCheck.branchErrors] at h
      obtain ⟨branch', hbranch⟩ := exists_resolveBlock? branch h
      exact ⟨some branch', by rw [resolveBranch?, hbranch]; rfl⟩

end

/-! ### Ends that agree -/

/-- An outcome and an ending that agree, for a run that started this many loops deep: the reports
and the stores are the same, and a BREAK has as many further loops to leave as the stack is lower
than before, the loop it is leaving apart. -/
def Agrees (depth : Nat) : Outcome → Ending → Prop
  | .ok .completed after, .ok .completed store => after.store = store
  | .ok (.broke _) after, .ok (.leaving levels) store =>
      after.store = store ∧ after.loops.length + levels + 1 = depth
  | .error report after, .error report' store => report = report' ∧ after.store = store
  | _, _ => False

theorem agrees_readNames (depth : Nat) (location : Location) (names : List String)
    (machine : Machine) :
    Agrees depth (completing (Exec.readNames location names) machine)
      (readNames location names machine.store) := by
  induction names generalizing machine with
  | nil => rfl
  | cons name rest ih =>
      rw [Exec.completing_readNames_cons, readNames]
      have hinput : machine.store.input.next = machine.input.next := rfl
      rw [hinput]
      cases hnext : machine.input.next with
      | mk result input =>
          cases result with
          | error cause => exact ⟨rfl, rfl⟩
          | ok value =>
              exact ih { machine with input := input, symbols := machine.symbols.set name value }

theorem agrees_printNames (depth : Nat) (location : Location) (names : List String)
    (machine : Machine) :
    Agrees depth (completing (Exec.printNames location names) machine)
      (printNames location names machine.store) := by
  induction names generalizing machine with
  | nil => rfl
  | cons name rest ih =>
      rw [Exec.completing_printNames_cons, printNames]
      have hsymbols : machine.store.symbols = machine.symbols := rfl
      have houtput : machine.store.output = machine.output := rfl
      rw [hsymbols, houtput]
      cases hlookup : machine.symbols.lookup name location with
      | error report => exact ⟨rfl, rfl⟩
      | ok value =>
          dsimp only
          cases hwrite : machine.output.writeLine (Number.plain value) with
          | error reason => exact ⟨rfl, rfl⟩
          | ok output => exact ih { machine with output := output }

theorem agrees_assign (depth : Nat) (name : String) (value : Expr) (machine : Machine) :
    Agrees depth (completing (Exec.assign name value) machine) (assign name value machine.store) := by
  have hsymbols : machine.store.symbols = machine.symbols := rfl
  simp only [completing, Exec.assign, assign, hsymbols]
  cases heval : value.eval machine.symbols with
  | ok number => rfl
  | error report => exact ⟨rfl, rfl⟩

/-- A resolved BREAK leaves as many loops as its number says. -/
theorem agrees_leave {target : Option String} {location : Location} {machine : Machine}
    {levels : Nat} (h : machine.scope.levels? target = some levels) :
    Agrees machine.depth (Exec.leave target location machine)
      (.ok (.leaving levels) machine.store) := by
  rcases Exec.leave_cases target location machine with
    ⟨inner, label, outer, hloops, -, hlevels, hleave⟩ | ⟨cause, hcause, -⟩
  · have hlength : inner.length = levels := Option.some.inj (hlevels.symm.trans h)
    rw [hleave]
    refine ⟨rfl, ?_⟩
    rw [Machine.depth, hloops, List.length_append, List.length_cons, hlength]
    show outer.length + levels + 1 = levels + (outer.length + 1)
    omega
  · rw [breakCause?_eq_none_iff.mpr ⟨levels, h⟩] at hcause
    cases hcause

section

variable {depth levels : Nat} {outcome : Outcome} {ending : Ending} {after : Machine}
  {store : Store} {label : LoopLabel} {report : Diagnostic}

theorem Agrees.of_completed (h : Agrees depth (.ok .completed after) ending) :
    ending = .ok .completed after.store := by
  rcases ending with ⟨_ | levels, store⟩ | ⟨report, store⟩
  · have hstore : after.store = store := h
    rw [hstore]
  · exact False.elim h
  · exact False.elim h

theorem Agrees.of_broke (h : Agrees depth (.ok (.broke label) after) ending) :
    ∃ levels, ending = .ok (.leaving levels) after.store ∧
      after.loops.length + levels + 1 = depth := by
  rcases ending with ⟨_ | levels, store⟩ | ⟨report, store⟩
  · exact False.elim h
  · obtain ⟨hstore, hlevels⟩ : after.store = store ∧ after.loops.length + levels + 1 = depth := h
    exact ⟨levels, by rw [hstore], hlevels⟩
  · exact False.elim h

theorem Agrees.of_error (h : Agrees depth (.error report after) ending) :
    ending = .error report after.store := by
  rcases ending with ⟨_ | levels, store⟩ | ⟨report', store⟩
  · exact False.elim h
  · exact False.elim h
  · obtain ⟨hreport, hstore⟩ : report = report' ∧ after.store = store := h
    rw [hreport, hstore]

theorem Agrees.to_completed (h : Agrees depth outcome (.ok .completed store)) :
    ∃ after, outcome = .ok .completed after ∧ after.store = store := by
  rcases outcome with ⟨_ | label, after⟩ | ⟨report, after⟩
  · exact ⟨after, rfl, h⟩
  · exact False.elim h
  · exact False.elim h

theorem Agrees.to_leaving (h : Agrees depth outcome (.ok (.leaving levels) store)) :
    ∃ label after, outcome = .ok (.broke label) after ∧ after.store = store ∧
      after.loops.length + levels + 1 = depth := by
  rcases outcome with ⟨_ | label, after⟩ | ⟨report, after⟩
  · exact False.elim h
  · exact ⟨label, after, rfl, h⟩
  · exact False.elim h

theorem Agrees.to_error (h : Agrees depth outcome (.error report store)) :
    ∃ after, outcome = .error report after ∧ after.store = store := by
  rcases outcome with ⟨_ | label, after⟩ | ⟨report', after⟩
  · exact False.elim h
  · exact False.elim h
  · obtain ⟨hreport, hstore⟩ : report' = report ∧ after.store = store := h
    exact ⟨after, by rw [hreport], hstore⟩

end

theorem entryLabel_text (label : Option String) (machine : Machine) :
    (entryLabel label machine).text = machine.store.loopText label := by
  cases label <;> rfl

theorem inside_store (label : Option String) (machine : Machine) :
    (inside label machine).store = machine.store.enter label := by
  cases label <;> rfl

/-- Closing a loop changes neither the store nor what a BREAK has left to do. -/
theorem agrees_closeLoop {label : LoopLabel} {depth depth' : Nat} {outcome : Outcome}
    {ending : Ending} (h : Agrees depth outcome ending) :
    Agrees depth (closeLoop label depth' outcome) ending := by
  rcases outcome with ⟨_ | _, _⟩ | _ <;> rcases ending with ⟨_ | _, _⟩ | _
  all_goals exact h

/-- A BREAK out of the body of a loop arrives there exactly if it has no further loop to leave. -/
theorem broke_cases {label target : LoopLabel} {outer : List LoopLabel} (levels : Nat)
    {body : List LoopScript.Stmt} {machine after : Machine}
    (hbody : Exec.Runs (.block body) machine (.ok (.broke target) after))
    (hloops : machine.loops = label :: outer)
    (hlevels : after.loops.length + levels + 1 = machine.depth) :
    (target = label ∧ levels = 0) ∨
      target ≠ label ∧ ∃ fewer, levels = fewer + 1 ∧ after.loops.length + fewer + 1 = outer.length := by
  have hleft : LeftFor machine.loops target after.loops := Exec.balanced_of_runs hbody
  rw [hloops] at hleft
  rw [Machine.depth, hloops, List.length_cons] at hlevels
  by_cases htarget : target = label
  · subst htarget
    rw [Exec.leftFor_cons_self] at hleft
    rw [hleft] at hlevels
    exact Or.inl ⟨rfl, by omega⟩
  · rw [Exec.leftFor_cons_of_ne htarget] at hleft
    obtain ⟨inner, hsplit, -⟩ := hleft
    have hlength := congrArg List.length hsplit
    rw [List.length_append, List.length_cons] at hlength
    exact Or.inr ⟨htarget, levels - 1, by omega, by omega⟩

theorem isOverLimit_eq_none {limit : Option Nat} {iterations : Nat} :
    isOverLimit limit iterations = none ↔ ∀ most, limit = some most → iterations ≤ most := by
  cases limit with
  | none => simp [isOverLimit]
  | some most => simp [isOverLimit]

theorem isOverLimit_eq_some {limit : Option Nat} {iterations most : Nat} :
    isOverLimit limit iterations = some most ↔ limit = some most ∧ most < iterations := by
  cases limit with
  | none => simp [isOverLimit]
  | some least =>
      simp only [isOverLimit, Option.ite_none_right_eq_some, Option.some.injEq]
      constructor
      · rintro ⟨hlt, rfl⟩
        exact ⟨rfl, hlt⟩
      · rintro ⟨rfl, hlt⟩
        exact ⟨hlt, rfl⟩

/-! ### From stack runs to scoped runs -/

/-- A run of a task has a scoped run of the resolved task that ends in the same way. -/
def HasScopedRun : Exec.Task → Machine → Outcome → Prop
  | .stmt first, machine, outcome =>
      ∀ resolved, resolveStmt? machine.scope first = some resolved →
        ∃ ending, Runs (.stmt resolved) machine.store ending ∧ Agrees machine.depth outcome ending
  | .block stmts, machine, outcome =>
      ∀ resolved, resolveBlock? machine.scope stmts = some resolved →
        ∃ ending, Runs (.block resolved) machine.store ending ∧ Agrees machine.depth outcome ending
  | .repeating label location body iterations, machine, outcome =>
      ∀ outer resolved, machine.loops = label :: outer →
        resolveBlock? machine.scope body = some resolved →
        ∃ ending, Runs (.repeating label.text location resolved iterations) machine.store ending ∧
          Agrees outer.length outcome ending

theorem hasScopedRun_of_runs {task : Exec.Task} {machine : Machine} {outcome : Outcome}
    (h : Exec.Runs task machine outcome) : HasScopedRun task machine outcome := by
  induction h with
  | @loop label body location machine outcome _ ih =>
      intro resolved hresolved
      cases resolved_of_resolveStmt? hresolved with
      | loop hbody =>
          rw [← Exec.inside_scope] at hbody
          obtain ⟨ending, hrun, hagrees⟩ := ih machine.loops _ (Exec.inside_loops label machine) hbody
          rw [entryLabel_text, inside_store] at hrun
          exact ⟨ending, .loop hrun, agrees_closeLoop hagrees⟩
  | leave =>
      intro resolved hresolved
      cases resolved_of_resolveStmt? hresolved with
      | leave hlevels => exact ⟨_, .leave, agrees_leave hlevels⟩
  | read =>
      intro resolved hresolved
      cases resolved_of_resolveStmt? hresolved with
      | read => exact ⟨_, .read, agrees_readNames _ _ _ _⟩
  | print =>
      intro resolved hresolved
      cases resolved_of_resolveStmt? hresolved with
      | print => exact ⟨_, .print, agrees_printNames _ _ _ _⟩
  | assign =>
      intro resolved hresolved
      cases resolved_of_resolveStmt? hresolved with
      | assign => exact ⟨_, .assign, agrees_assign _ _ _ _⟩
  | condFails heval =>
      intro resolved hresolved
      cases resolved_of_resolveStmt? hresolved with
      | cond hthen helse => exact ⟨_, .condFails heval, rfl, rfl⟩
  | condThen heval hvalue _ ih =>
      intro resolved hresolved
      cases resolved_of_resolveStmt? hresolved with
      | cond hthen helse =>
          obtain ⟨ending, hrun, hagrees⟩ := ih _ hthen
          exact ⟨ending, .condThen heval hvalue hrun, hagrees⟩
  | condElse heval hvalue _ ih =>
      intro resolved hresolved
      cases resolved_of_resolveStmt? hresolved with
      | cond hthen helse =>
          obtain ⟨branch, rfl, hbranch⟩ := resolveBranch?_some helse
          obtain ⟨ending, hrun, hagrees⟩ := ih _ hbranch
          exact ⟨ending, .condElse heval hvalue hrun, hagrees⟩
  | condSkip heval hvalue =>
      intro resolved hresolved
      cases resolved_of_resolveStmt? hresolved with
      | cond hthen helse =>
          obtain rfl := resolveBranch?_none helse
          exact ⟨_, .condSkip heval hvalue, rfl⟩
  | nil =>
      intro resolved hresolved
      rw [resolveBlock?] at hresolved
      obtain rfl := Option.some.inj hresolved
      exact ⟨_, .nil, rfl⟩
  | @next first rest machine middle outcome hfirst _ ihfirst ihrest =>
      intro resolved hresolved
      obtain ⟨first', rest', rfl, hfirst', hrest'⟩ := resolveBlock?_cons hresolved
      have hmiddle : middle.loops = machine.loops := Exec.balanced_of_runs hfirst
      have hscope := Exec.scope_eq_of_balanced hmiddle
      have hdepth : middle.depth = machine.depth := congrArg List.length hmiddle
      obtain ⟨ending, hrunfirst, hagrees⟩ := ihfirst _ hfirst'
      obtain rfl := hagrees.of_completed
      rw [← hscope] at hrest'
      obtain ⟨ending, hrunrest, hagrees⟩ := ihrest _ hrest'
      rw [hdepth] at hagrees
      exact ⟨ending, .next hrunfirst hrunrest, hagrees⟩
  | @stop first rest machine outcome _ hother ih =>
      intro resolved hresolved
      obtain ⟨first', rest', rfl, hfirst', -⟩ := resolveBlock?_cons hresolved
      obtain ⟨ending, hrun, hagrees⟩ := ih _ hfirst'
      match outcome, hagrees with
      | .ok .completed after, _ => exact absurd rfl (hother after)
      | .ok (.broke label) after, hagrees =>
          obtain ⟨levels, rfl, -⟩ := hagrees.of_broke
          exact ⟨_, .stopLeaving hrun, hagrees⟩
      | .error report after, hagrees =>
          obtain rfl := hagrees.of_error
          exact ⟨_, .stopFailing hrun, hagrees⟩
  | @again label location body iterations machine outcome middle hbody hlimit _ ihbody ihrest =>
      intro outer resolved hloops hresolved
      have hmiddle : middle.loops = machine.loops := Exec.balanced_of_runs hbody
      have hscope := Exec.scope_eq_of_balanced hmiddle
      obtain ⟨ending, hrunbody, hagrees⟩ := ihbody _ hresolved
      obtain rfl := hagrees.of_completed
      rw [← hscope] at hresolved
      obtain ⟨ending, hrunrest, hagrees⟩ := ihrest outer _ (hmiddle.trans hloops) hresolved
      exact ⟨ending, .again hrunbody (isOverLimit_eq_none.mp hlimit) hrunrest, hagrees⟩
  | limit hbody hlimit ih =>
      intro outer resolved hloops hresolved
      obtain ⟨ending, hrun, hagrees⟩ := ih _ hresolved
      obtain rfl := hagrees.of_completed
      obtain ⟨hlimit, hover⟩ := isOverLimit_eq_some.mp hlimit
      exact ⟨_, .limit hrun hlimit hover, rfl, rfl⟩
  | arrives hbody ih =>
      intro outer resolved hloops hresolved
      obtain ⟨ending, hrun, hagrees⟩ := ih _ hresolved
      obtain ⟨levels, rfl, hlevels⟩ := hagrees.of_broke
      rcases broke_cases levels hbody hloops hlevels with ⟨-, rfl⟩ | ⟨hne, -⟩
      · exact ⟨_, .arrives hrun, rfl⟩
      · exact absurd rfl hne
  | passes hbody htarget ih =>
      intro outer resolved hloops hresolved
      obtain ⟨ending, hrun, hagrees⟩ := ih _ hresolved
      obtain ⟨levels, rfl, hlevels⟩ := hagrees.of_broke
      rcases broke_cases levels hbody hloops hlevels with ⟨heq, -⟩ | ⟨-, fewer, rfl, hfewer⟩
      · exact absurd heq htarget
      · exact ⟨_, .passes hrun, rfl, hfewer⟩
  | fails hbody ih =>
      intro outer resolved hloops hresolved
      obtain ⟨ending, hrun, hagrees⟩ := ih _ hresolved
      obtain rfl := hagrees.of_error
      exact ⟨_, .fails hrun, rfl, rfl⟩

/-! ### From scoped runs to stack runs -/

/-- A scoped run of a task has a run of every task that resolves to it, on a machine with the same
store, that ends in the same way. -/
def HasStackRun : Task → Store → Ending → Prop
  | .stmt resolved, store, ending =>
      ∀ first machine, machine.store = store → resolveStmt? machine.scope first = some resolved →
        ∃ outcome, Exec.Runs (.stmt first) machine outcome ∧ Agrees machine.depth outcome ending
  | .block resolved, store, ending =>
      ∀ stmts machine, machine.store = store → resolveBlock? machine.scope stmts = some resolved →
        ∃ outcome, Exec.Runs (.block stmts) machine outcome ∧ Agrees machine.depth outcome ending
  | .repeating text location resolved iterations, store, ending =>
      ∀ label outer body machine, label.text = text → machine.loops = label :: outer →
        machine.store = store → resolveBlock? machine.scope body = some resolved →
        ∃ outcome, Exec.Runs (.repeating label location body iterations) machine outcome ∧
          Agrees outer.length outcome ending

theorem hasStackRun_of_runs {task : Task} {store : Store} {ending : Ending}
    (h : Runs task store ending) : HasStackRun task store ending := by
  induction h with
  | @loop label body location store ending _ ih =>
      rintro first machine rfl hresolved
      cases resolved_of_resolveStmt? hresolved with
      | loop hbody =>
          rw [← Exec.inside_scope] at hbody
          obtain ⟨outcome, hrun, hagrees⟩ := ih _ machine.loops _ (inside label machine)
            (entryLabel_text label machine) (Exec.inside_loops label machine)
            (inside_store label machine) hbody
          exact ⟨_, .loop hrun, agrees_closeLoop hagrees⟩
  | leave =>
      rintro first machine rfl hresolved
      cases resolved_of_resolveStmt? hresolved with
      | leave hlevels => exact ⟨_, .leave, agrees_leave hlevels⟩
  | read =>
      rintro first machine rfl hresolved
      cases resolved_of_resolveStmt? hresolved with
      | read => exact ⟨_, .read, agrees_readNames _ _ _ _⟩
  | print =>
      rintro first machine rfl hresolved
      cases resolved_of_resolveStmt? hresolved with
      | print => exact ⟨_, .print, agrees_printNames _ _ _ _⟩
  | assign =>
      rintro first machine rfl hresolved
      cases resolved_of_resolveStmt? hresolved with
      | assign => exact ⟨_, .assign, agrees_assign _ _ _ _⟩
  | condFails heval =>
      rintro first machine rfl hresolved
      cases resolved_of_resolveStmt? hresolved with
      | cond hthen helse => exact ⟨_, .condFails heval, rfl, rfl⟩
  | condThen heval hvalue _ ih =>
      rintro first machine rfl hresolved
      cases resolved_of_resolveStmt? hresolved with
      | cond hthen helse =>
          obtain ⟨outcome, hrun, hagrees⟩ := ih _ machine rfl hthen
          exact ⟨outcome, .condThen heval hvalue hrun, hagrees⟩
  | condElse heval hvalue _ ih =>
      rintro first machine rfl hresolved
      cases resolved_of_resolveStmt? hresolved with
      | @cond _ _ _ elseBranch _ hthen helse =>
          cases elseBranch with
          | none => cases resolveBranch?_none helse
          | some branch =>
              obtain ⟨branch', heq, hbranch⟩ := resolveBranch?_some helse
              obtain rfl := Option.some.inj heq
              obtain ⟨outcome, hrun, hagrees⟩ := ih _ machine rfl hbranch
              exact ⟨outcome, .condElse heval hvalue hrun, hagrees⟩
  | condSkip heval hvalue =>
      rintro first machine rfl hresolved
      cases resolved_of_resolveStmt? hresolved with
      | @cond _ _ _ elseBranch _ hthen helse =>
          cases elseBranch with
          | none => exact ⟨_, .condSkip heval hvalue, rfl⟩
          | some branch =>
              obtain ⟨branch', heq, -⟩ := resolveBranch?_some helse
              cases heq
  | nil =>
      rintro stmts machine rfl hresolved
      obtain rfl := resolveBlock?_eq_nil hresolved
      exact ⟨_, .nil, rfl⟩
  | next _ _ ihfirst ihrest =>
      rintro stmts machine rfl hresolved
      obtain ⟨first, rest, rfl, hfirst, hrest⟩ := resolveBlock?_eq_cons hresolved
      obtain ⟨outcome, hrunfirst, hagrees⟩ := ihfirst _ machine rfl hfirst
      obtain ⟨middle, rfl, rfl⟩ := hagrees.to_completed
      have hmiddle : middle.loops = machine.loops := Exec.balanced_of_runs hrunfirst
      have hdepth : middle.depth = machine.depth := congrArg List.length hmiddle
      rw [← Exec.scope_eq_of_balanced hmiddle] at hrest
      obtain ⟨outcome, hrunrest, hagrees⟩ := ihrest _ middle rfl hrest
      rw [hdepth] at hagrees
      exact ⟨outcome, .next hrunfirst hrunrest, hagrees⟩
  | stopLeaving _ ih =>
      rintro stmts machine rfl hresolved
      obtain ⟨first, rest, rfl, hfirst, -⟩ := resolveBlock?_eq_cons hresolved
      obtain ⟨outcome, hrun, hagrees⟩ := ih _ machine rfl hfirst
      obtain ⟨label, after, rfl, -⟩ := hagrees.to_leaving
      exact ⟨_, .stop hrun (fun _ => nofun), hagrees⟩
  | stopFailing _ ih =>
      rintro stmts machine rfl hresolved
      obtain ⟨first, rest, rfl, hfirst, -⟩ := resolveBlock?_eq_cons hresolved
      obtain ⟨outcome, hrun, hagrees⟩ := ih _ machine rfl hfirst
      obtain ⟨after, rfl, -⟩ := hagrees.to_error
      exact ⟨_, .stop hrun (fun _ => nofun), hagrees⟩
  | again _ hlimit _ ihbody ihrest =>
      rintro label outer body machine rfl hloops rfl hresolved
      obtain ⟨outcome, hrunbody, hagrees⟩ := ihbody _ machine rfl hresolved
      obtain ⟨middle, rfl, rfl⟩ := hagrees.to_completed
      have hmiddle : middle.loops = machine.loops := Exec.balanced_of_runs hrunbody
      rw [← Exec.scope_eq_of_balanced hmiddle] at hresolved
      obtain ⟨outcome, hrunrest, hagrees⟩ :=
        ihrest label outer _ middle rfl (hmiddle.trans hloops) rfl hresolved
      exact ⟨outcome, .again hrunbody (isOverLimit_eq_none.mpr hlimit) hrunrest, hagrees⟩
  | limit _ hlimit hover ih =>
      rintro label outer body machine rfl hloops rfl hresolved
      obtain ⟨outcome, hrun, hagrees⟩ := ih _ machine rfl hresolved
      obtain ⟨after, rfl, rfl⟩ := hagrees.to_completed
      exact ⟨_, .limit hrun (isOverLimit_eq_some.mpr ⟨hlimit, hover⟩), rfl, rfl⟩
  | arrives _ ih =>
      rintro label outer body machine rfl hloops rfl hresolved
      obtain ⟨outcome, hrun, hagrees⟩ := ih _ machine rfl hresolved
      obtain ⟨target, after, rfl, hstore, hlevels⟩ := hagrees.to_leaving
      rcases broke_cases 0 hrun hloops hlevels with ⟨rfl, -⟩ | ⟨-, fewer, hzero, -⟩
      · exact ⟨_, .arrives hrun, hstore⟩
      · cases hzero
  | @passes text location resolved iterations store levels after _ ih =>
      rintro label outer body machine rfl hloops rfl hresolved
      obtain ⟨outcome, hrun, hagrees⟩ := ih _ machine rfl hresolved
      obtain ⟨target, after, rfl, hstore, hlevels⟩ := hagrees.to_leaving
      rcases broke_cases (levels + 1) hrun hloops hlevels with ⟨-, hzero⟩ | ⟨htarget, fewer, heq, hfewer⟩
      · cases hzero
      · obtain rfl := Nat.succ.inj heq
        exact ⟨_, .passes hrun htarget, hstore, hfewer⟩
  | fails _ ih =>
      rintro label outer body machine rfl hloops rfl hresolved
      obtain ⟨outcome, hrun, hagrees⟩ := ih _ machine rfl hresolved
      obtain ⟨after, rfl, rfl⟩ := hagrees.to_error
      exact ⟨_, .fails hrun, rfl, rfl⟩

/-- **A BREAK is lexically scoped.** A program that the label check accepts resolves, and run by an
interpreter without running loops it ends, with a result and a store, exactly if the resolved
program ends with that result and that store. -/
theorem execute_iff_programRuns {program : Program} {interpreter : Interpreter}
    (haccepted : LabelCheck.errors program = []) (hloops : interpreter.machine.loops = []) :
    ∃ resolved, resolveProgram? program = some resolved ∧
      ∀ result store,
        (∃ fuel after, interpreter.execute fuel program = some (result, after) ∧
          after.machine.store = store) ↔
        ProgramRuns resolved interpreter.machine.store result store := by
  obtain ⟨resolved, hresolved⟩ := exists_resolveBlock? program.body haccepted
  refine ⟨resolved, hresolved, ?_⟩
  intro result store
  have hstart : (interpreter.machine.record (.executing program.body.length)).scope = [] := by
    show interpreter.machine.loops.map LoopLabel.name? = []
    rw [hloops, List.map_nil]
  have hdepth : (interpreter.machine.record (.executing program.body.length)).depth = 0 := by
    show interpreter.machine.loops.length = 0
    rw [hloops, List.length_nil]
  constructor
  · rintro ⟨fuel, after, hexecute, rfl⟩
    obtain ⟨outcome, hrun, rfl, rfl⟩ := Interpreter.execute_iff.mp ⟨fuel, hexecute⟩
    obtain ⟨ending, hscoped, hagrees⟩ := hasScopedRun_of_runs hrun resolved (hstart ▸ hresolved)
    rw [hdepth] at hagrees
    match outcome, hagrees with
    | .ok .completed after, hagrees =>
        obtain rfl := hagrees.of_completed
        exact .completes hscoped
    | .ok (.broke label) after, hagrees =>
        obtain ⟨levels, -, hlevels⟩ := hagrees.of_broke
        cases hlevels
    | .error report after, hagrees =>
        obtain rfl := hagrees.of_error
        exact .fails hscoped
  · intro hprogram
    cases hprogram with
    | completes hscoped =>
        obtain ⟨outcome, hrun, hagrees⟩ := hasStackRun_of_runs hscoped program.body
          (interpreter.machine.record (.executing program.body.length)) rfl (hstart ▸ hresolved)
        obtain ⟨after, rfl, rfl⟩ := hagrees.to_completed
        obtain ⟨fuel, hexecute⟩ := Interpreter.execute_iff.mpr ⟨_, hrun, rfl, rfl⟩
        exact ⟨fuel, _, hexecute, rfl⟩
    | fails hscoped =>
        obtain ⟨outcome, hrun, hagrees⟩ := hasStackRun_of_runs hscoped program.body
          (interpreter.machine.record (.executing program.body.length)) rfl (hstart ▸ hresolved)
        obtain ⟨after, rfl, rfl⟩ := hagrees.to_error
        obtain ⟨fuel, hexecute⟩ := Interpreter.execute_iff.mpr ⟨_, hrun, rfl, rfl⟩
        exact ⟨fuel, _, hexecute, rfl⟩

/-- A loop `a` in a loop `a`: the inner one is left out of an anonymous loop, the outer one by a
BREAK of its own. -/
def reusedLabels : Program :=
  ⟨[.loop (some "a")
    [.loop (some "a") [.loop none [.leave (some "a") .unknown] .unknown] .unknown,
      .leave (some "a") .unknown] .unknown]⟩

/-- The check accepts the program, and its BREAKs leave two loops and one loop. -/
theorem execute_iff_programRuns_reused :
    LabelCheck.errors reusedLabels = [] ∧
    resolveProgram? reusedLabels = some [.loop (some "a")
      [.loop (some "a") [.loop none [.leave 1] .unknown] .unknown, .leave 0] .unknown] ∧
    ∃ resolved, resolveProgram? reusedLabels = some resolved ∧
      ∃ store, ProgramRuns resolved (Machine.store {}) (.ok ()) store := by
  refine ⟨rfl, rfl, ?_⟩
  obtain ⟨resolved, hresolved, hiff⟩ := @execute_iff_programRuns reusedLabels {} rfl rfl
  exact ⟨resolved, hresolved, _, (hiff _ _).mp ⟨9, _, rfl, rfl⟩⟩

end Scoped
end LoopScript
