import LoopScript.Interpreter

/-! Terminating runs as a relation.

A budget only cuts a run short. The relation `Runs` says how a run ends without one: it has a rule
for each way in which a statement, a list of statements or a loop that is being repeated can end.
A run ends by these rules exactly as it ends within some budget (`runs_iff`), and a larger budget
never changes an outcome (`within_mono`). What holds of all runs is proved by induction over the
rules. -/

namespace LoopScript.Exec

open Diagnostic (Cause)

/-- What is run: a statement, a list of statements, or the body of a loop that has been repeated so
many times. -/
inductive Task where
  | stmt (stmt : Stmt)
  | block (stmts : List Stmt)
  | repeating (label : LoopLabel) (location : Location) (body : List Stmt) (iterations : Nat)

/-- The label under which a machine enters a loop. -/
def entryLabel (label : Option String) (machine : Machine) : LoopLabel :=
  (machine.makeLabel label).1

/-- A machine that has just entered a loop. -/
def inside (label : Option String) (machine : Machine) : Machine :=
  ((machine.makeLabel label).2.pushLoop (entryLabel label machine)).record
    (.entering (entryLabel label machine).text machine.depth)

@[simp]
theorem inside_loops (label : Option String) (machine : Machine) :
    (inside label machine).loops = entryLabel label machine :: machine.loops := by
  cases label <;> rfl

/-- A loop is its entry, the repetition of its body, and its end. -/
theorem loop_eq (fuel : Nat) (body : Machine → Option Outcome) (label : Option String)
    (location : Location) (machine : Machine) :
    loop fuel body label location machine =
      (repeatBody body (entryLabel label machine) location fuel 0 (inside label machine)).map
        (closeLoop (entryLabel label machine) machine.depth) := by
  cases label <;> rfl

/-- How a run ends. -/
inductive Runs : Task → Machine → Outcome → Prop
  | loop {label body location machine outcome} :
      Runs (.repeating (entryLabel label machine) location body 0) (inside label machine) outcome →
      Runs (.stmt (.loop label body location)) machine
        (closeLoop (entryLabel label machine) machine.depth outcome)
  | leave {target location machine} :
      Runs (.stmt (.leave target location)) machine (leave target location machine)
  | read {names location machine} :
      Runs (.stmt (.read names location)) machine (completing (readNames location names) machine)
  | print {names location machine} :
      Runs (.stmt (.print names location)) machine (completing (printNames location names) machine)
  | assign {name value location machine} :
      Runs (.stmt (.assign name value location)) machine (completing (assign name value) machine)
  | condFails {condition thenBranch elseBranch report} {machine : Machine} :
      condition.eval machine.symbols = .error report →
      Runs (.stmt (.cond condition thenBranch elseBranch)) machine (.error report machine)
  | condThen {condition thenBranch elseBranch value outcome} {machine : Machine} :
      condition.eval machine.symbols = .ok value → (value != 0.0) = true →
      Runs (.block thenBranch) machine outcome →
      Runs (.stmt (.cond condition thenBranch elseBranch)) machine outcome
  | condElse {condition thenBranch branch value outcome} {machine : Machine} :
      condition.eval machine.symbols = .ok value → (value != 0.0) = false →
      Runs (.block branch) machine outcome →
      Runs (.stmt (.cond condition thenBranch (some branch))) machine outcome
  | condSkip {condition thenBranch value} {machine : Machine} :
      condition.eval machine.symbols = .ok value → (value != 0.0) = false →
      Runs (.stmt (.cond condition thenBranch none)) machine (.ok .completed machine)
  | nil {machine} : Runs (.block []) machine (.ok .completed machine)
  | next {first rest machine middle outcome} :
      Runs (.stmt first) machine (.ok .completed middle) → Runs (.block rest) middle outcome →
      Runs (.block (first :: rest)) machine outcome
  | stop {first rest machine outcome} :
      Runs (.stmt first) machine outcome → (∀ after, outcome ≠ .ok .completed after) →
      Runs (.block (first :: rest)) machine outcome
  | again {label location body iterations machine outcome} {middle : Machine} :
      Runs (.block body) machine (.ok .completed middle) →
      isOverLimit middle.iterationLimit (iterations + 1) = none →
      Runs (.repeating label location body (iterations + 1)) middle outcome →
      Runs (.repeating label location body iterations) machine outcome
  | limit {label location body iterations machine limit} {after : Machine} :
      Runs (.block body) machine (.ok .completed after) →
      isOverLimit after.iterationLimit (iterations + 1) = some limit →
      Runs (.repeating label location body iterations) machine
        (.error ((Cause.iterationLimit label.text limit).reportAt location) after)
  | arrives {label location body iterations machine after} :
      Runs (.block body) machine (.ok (.broke label) after) →
      Runs (.repeating label location body iterations) machine (.ok .completed after)
  | passes {label target location body iterations machine after} :
      Runs (.block body) machine (.ok (.broke target) after) → target ≠ label →
      Runs (.repeating label location body iterations) machine (.ok (.broke target) after)
  | fails {label location body iterations machine report after} :
      Runs (.block body) machine (.error report after) →
      Runs (.repeating label location body iterations) machine (.error report after)

def within (fuel : Nat) : Task → Machine → Option Outcome
  | .stmt first, machine => stmt fuel (block fuel) first machine
  | .block stmts, machine => block fuel stmts machine
  | .repeating label location body iterations, machine =>
      repeatBody (block fuel body) label location fuel iterations machine

/-! ### Larger budgets -/

theorem repeatBody_mono {body body' : Machine → Option Outcome}
    (hbody : ∀ machine outcome, body machine = some outcome → body' machine = some outcome)
    {label : LoopLabel} {location : Location} {fuel fuel' iterations : Nat} {machine : Machine}
    {outcome : Outcome} (hfuel : fuel ≤ fuel')
    (h : repeatBody body label location fuel iterations machine = some outcome) :
    repeatBody body' label location fuel' iterations machine = some outcome := by
  induction fuel generalizing fuel' iterations machine with
  | zero => cases h
  | succ fuel ih =>
      obtain ⟨fuel', rfl⟩ : ∃ more, fuel' = more + 1 := ⟨fuel' - 1, by omega⟩
      have hfuel : fuel ≤ fuel' := by omega
      rw [repeatBody] at h ⊢
      split at h
      · cases h
      · next hend => rw [hbody _ _ hend]; exact h
      · next hend => rw [hbody _ _ hend]; exact h
      · next hend =>
          rw [hbody _ _ hend]
          dsimp only
          split at h
          · exact h
          · exact ih hfuel h

theorem stmt_mono {run run' : List Stmt → Machine → Option Outcome}
    (hrun : ∀ stmts machine outcome,
      run stmts machine = some outcome → run' stmts machine = some outcome)
    {fuel fuel' : Nat} {first : Stmt} {machine : Machine} {outcome : Outcome}
    (hfuel : fuel ≤ fuel') (h : stmt fuel run first machine = some outcome) :
    stmt fuel' run' first machine = some outcome := by
  cases first with
  | loop label body location =>
      simp only [stmt, loop_eq, Option.map_eq_some_iff] at h ⊢
      obtain ⟨ending, hending, rfl⟩ := h
      exact ⟨ending, repeatBody_mono (hrun body) hfuel hending, rfl⟩
  | leave | read | print | assign => exact h
  | cond condition thenBranch elseBranch =>
      simp only [stmt] at h ⊢
      split at h
      · exact h
      · split at h
        · next htrue =>
            rw [if_pos htrue]
            exact hrun _ _ _ h
        · next hfalse =>
            rw [if_neg hfalse]
            split at h
            · exact hrun _ _ _ h
            · exact h

theorem block_mono {fuel fuel' : Nat} {stmts : List Stmt} {machine : Machine} {outcome : Outcome}
    (hfuel : fuel ≤ fuel') (h : block fuel stmts machine = some outcome) :
    block fuel' stmts machine = some outcome := by
  induction fuel generalizing fuel' stmts machine outcome with
  | zero => cases h
  | succ fuel ih =>
      obtain ⟨fuel', rfl⟩ : ∃ more, fuel' = more + 1 := ⟨fuel' - 1, by omega⟩
      have hfuel : fuel ≤ fuel' := by omega
      have hblock : ∀ stmts machine outcome,
          block fuel stmts machine = some outcome → block fuel' stmts machine = some outcome :=
        fun _ _ _ => ih hfuel
      cases stmts with
      | nil => exact h
      | cons first rest =>
          rw [block] at h ⊢
          split at h
          · next hfirst => rw [stmt_mono hblock hfuel hfirst]; exact ih hfuel h
          · next hother =>
              rw [stmt_mono hblock hfuel h]
              split
              · next hcompleted => exact absurd (h.trans hcompleted) (hother _)
              · rfl

/-- A larger budget never changes an outcome. -/
theorem within_mono {fuel fuel' : Nat} {task : Task} {machine : Machine} {outcome : Outcome}
    (hfuel : fuel ≤ fuel') (h : within fuel task machine = some outcome) :
    within fuel' task machine = some outcome := by
  cases task with
  | stmt first => exact stmt_mono (fun _ _ _ => block_mono hfuel) hfuel h
  | block stmts => exact block_mono hfuel h
  | repeating label location body iterations =>
      exact repeatBody_mono (fun _ _ => block_mono hfuel) hfuel h

/-! ### From a budget to the rules -/

theorem runs_of_repeatBody {fuel fuel' iterations : Nat} {body : List Stmt} {label : LoopLabel}
    {location : Location} {machine : Machine} {outcome : Outcome}
    (hbody : ∀ machine outcome,
      block fuel' body machine = some outcome → Runs (.block body) machine outcome)
    (h : repeatBody (block fuel' body) label location fuel iterations machine = some outcome) :
    Runs (.repeating label location body iterations) machine outcome := by
  induction fuel generalizing iterations machine with
  | zero => cases h
  | succ fuel ih =>
      rw [repeatBody] at h
      split at h
      · cases h
      · next hend =>
          obtain rfl := Option.some.inj h
          exact .fails (hbody _ _ hend)
      · next hend =>
          split at h
          · next htarget =>
              obtain rfl := Option.some.inj h
              exact .arrives (htarget ▸ hbody _ _ hend)
          · next htarget =>
              obtain rfl := Option.some.inj h
              exact .passes (hbody _ _ hend) htarget
      · next hend =>
          split at h
          · next hlimit =>
              obtain rfl := Option.some.inj h
              exact .limit (hbody _ _ hend) hlimit
          · next hlimit => exact .again (hbody _ _ hend) hlimit (ih h)

theorem runs_of_stmt {fuel : Nat} {first : Stmt} {machine : Machine} {outcome : Outcome}
    (hblock : ∀ stmts machine outcome,
      block fuel stmts machine = some outcome → Runs (.block stmts) machine outcome)
    (h : stmt fuel (block fuel) first machine = some outcome) :
    Runs (.stmt first) machine outcome := by
  cases first with
  | loop label body location =>
      simp only [stmt, loop_eq, Option.map_eq_some_iff] at h
      obtain ⟨ending, hending, rfl⟩ := h
      exact .loop (runs_of_repeatBody (hblock body) hending)
  | leave target location =>
      obtain rfl := Option.some.inj h
      exact .leave
  | read names location =>
      obtain rfl := Option.some.inj h
      exact .read
  | print names location =>
      obtain rfl := Option.some.inj h
      exact .print
  | assign name value location =>
      obtain rfl := Option.some.inj h
      exact .assign
  | cond condition thenBranch elseBranch =>
      simp only [stmt] at h
      split at h
      · next heval =>
          obtain rfl := Option.some.inj h
          exact .condFails heval
      · next heval =>
          split at h
          · next hvalue => exact .condThen heval hvalue (hblock _ _ _ h)
          · next hvalue =>
              have hvalue := Bool.eq_false_iff.mpr hvalue
              split at h
              · exact .condElse heval hvalue (hblock _ _ _ h)
              · obtain rfl := Option.some.inj h
                exact .condSkip heval hvalue

theorem runs_of_block {fuel : Nat} {stmts : List Stmt} {machine : Machine} {outcome : Outcome}
    (h : block fuel stmts machine = some outcome) : Runs (.block stmts) machine outcome := by
  induction fuel generalizing stmts machine outcome with
  | zero => cases h
  | succ fuel ih =>
      cases stmts with
      | nil =>
          obtain rfl := Option.some.inj h
          exact .nil
      | cons first rest =>
          rw [block] at h
          split at h
          · next hfirst => exact .next (runs_of_stmt (fun _ _ _ => ih) hfirst) (ih h)
          · next hother =>
              refine .stop (runs_of_stmt (fun _ _ _ => ih) h) ?_
              intro after hafter
              exact hother after (hafter ▸ h)

/-! ### From the rules to a budget -/

/-- Two runs within a budget each are both within the greater budget. -/
theorem exists_within_both {first second : Task} {machine machine' : Machine}
    {outcome outcome' : Outcome} (hfirst : ∃ fuel, within fuel first machine = some outcome)
    (hsecond : ∃ fuel, within fuel second machine' = some outcome') :
    ∃ fuel, within fuel first machine = some outcome ∧
      within fuel second machine' = some outcome' := by
  obtain ⟨fuel, hfirst⟩ := hfirst
  obtain ⟨fuel', hsecond⟩ := hsecond
  exact ⟨max fuel fuel', within_mono (Nat.le_max_left _ _) hfirst,
    within_mono (Nat.le_max_right _ _) hsecond⟩

/-- The body of a loop that ends within a budget, one step into the repetition. -/
theorem repeating_succ {fuel iterations : Nat} {label : LoopLabel} {location : Location}
    {body : List Stmt} {machine : Machine} {ending : Outcome}
    (h : within fuel (.block body) machine = some ending) :
    within (fuel + 1) (.repeating label location body iterations) machine =
      match ending with
      | .error report after => some (.error report after)
      | .ok (.broke target) after =>
          if target = label then some (.ok .completed after) else some (.ok (.broke target) after)
      | .ok .completed after =>
          match isOverLimit after.iterationLimit (iterations + 1) with
          | some limit =>
              some (.error ((Cause.iterationLimit label.text limit).reportAt location) after)
          | none =>
              repeatBody (block (fuel + 1) body) label location fuel (iterations + 1) after := by
  have hbody : block (fuel + 1) body machine = some ending := block_mono (Nat.le_succ fuel) h
  rw [within, repeatBody, hbody]
  rcases ending with ⟨_ | _, _⟩ | _ <;> rfl

theorem exists_within_of_runs {task : Task} {machine : Machine} {outcome : Outcome}
    (h : Runs task machine outcome) : ∃ fuel, within fuel task machine = some outcome := by
  induction h with
  | loop _ ih =>
      obtain ⟨fuel, hrepeat⟩ := ih
      exact ⟨fuel, by rw [within, stmt, loop_eq]; exact congrArg _ hrepeat⟩
  | leave => exact ⟨0, rfl⟩
  | read => exact ⟨0, rfl⟩
  | print => exact ⟨0, rfl⟩
  | assign => exact ⟨0, rfl⟩
  | condFails heval => exact ⟨0, by simp only [within, stmt, heval]⟩
  | condThen heval hvalue _ ih =>
      obtain ⟨fuel, hbranch⟩ := ih
      exact ⟨fuel, by simpa only [within, stmt, heval, hvalue, if_true] using hbranch⟩
  | condElse heval hvalue _ ih =>
      obtain ⟨fuel, hbranch⟩ := ih
      refine ⟨fuel, ?_⟩
      simpa only [within, stmt, heval, hvalue, Bool.false_eq_true, if_false] using hbranch
  | condSkip heval hvalue =>
      exact ⟨0, by simp only [within, stmt, heval, hvalue, Bool.false_eq_true, if_false]⟩
  | nil => exact ⟨1, rfl⟩
  | next _ _ ihfirst ihrest =>
      obtain ⟨fuel, hfirst, hrest⟩ := exists_within_both ihfirst ihrest
      refine ⟨fuel + 1, ?_⟩
      rw [within] at hfirst
      rw [within, block, hfirst]
      exact hrest
  | stop _ hother ih =>
      obtain ⟨fuel, hfirst⟩ := ih
      refine ⟨fuel + 1, ?_⟩
      rw [within] at hfirst
      rw [within, block, hfirst]
      split
      · next hcompleted => exact absurd (Option.some.inj hcompleted) (hother _)
      · rfl
  | again _ hlimit _ ihbody ihrest =>
      obtain ⟨fuel, hbody, hrest⟩ := exists_within_both ihbody ihrest
      refine ⟨fuel + 1, ?_⟩
      rw [repeating_succ hbody]
      simp only [hlimit]
      exact repeatBody_mono (fun _ _ => block_mono (Nat.le_succ fuel)) (Nat.le_refl fuel) hrest
  | limit _ hlimit ih =>
      obtain ⟨fuel, hbody⟩ := ih
      exact ⟨fuel + 1, by rw [repeating_succ hbody]; simp only [hlimit]⟩
  | arrives _ ih =>
      obtain ⟨fuel, hbody⟩ := ih
      exact ⟨fuel + 1, by rw [repeating_succ hbody]; exact if_pos rfl⟩
  | passes _ htarget ih =>
      obtain ⟨fuel, hbody⟩ := ih
      exact ⟨fuel + 1, by rw [repeating_succ hbody]; exact if_neg htarget⟩
  | fails _ ih =>
      obtain ⟨fuel, hbody⟩ := ih
      exact ⟨fuel + 1, by rw [repeating_succ hbody]⟩

/-- A run ends by the rules exactly as it ends within some budget. -/
theorem runs_iff {task : Task} {machine : Machine} {outcome : Outcome} :
    Runs task machine outcome ↔ ∃ fuel, within fuel task machine = some outcome := by
  refine ⟨exists_within_of_runs, ?_⟩
  rintro ⟨fuel, h⟩
  cases task with
  | stmt first => exact runs_of_stmt (fun _ _ _ => runs_of_block) h
  | block stmts => exact runs_of_block h
  | repeating label location body iterations =>
      exact runs_of_repeatBody (fun _ _ => runs_of_block) h

/-- A run ends in one way. -/
theorem runs_unique {task : Task} {machine : Machine} {outcome other : Outcome}
    (h : Runs task machine outcome) (hother : Runs task machine other) : outcome = other := by
  obtain ⟨fuel, hfirst, hsecond⟩ :=
    exists_within_both (exists_within_of_runs h) (exists_within_of_runs hother)
  exact Option.some.inj (hfirst.symm.trans hsecond)

end LoopScript.Exec

namespace LoopScript.Interpreter

open Exec (Runs)

/-- A program is run as its list of statements, and the interpreter keeps what is left. -/
theorem execute_iff {program : Program} {interpreter after : Interpreter}
    {result : Except Diagnostic Unit} :
    (∃ fuel, execute fuel program interpreter = some (result, after)) ↔
      ∃ outcome,
        Runs (.block program.body) (interpreter.machine.record (.executing program.body.length))
          outcome ∧
        (finish outcome).1 = result ∧ interpreter.withMachine (finish outcome).2 = after := by
  constructor
  · rintro ⟨fuel, h⟩
    obtain ⟨outcome, hrun, hfinish⟩ := Option.map_eq_some_iff.mp h
    obtain ⟨hresult, hafter⟩ := Prod.mk.inj hfinish
    exact ⟨outcome, Exec.runs_of_block hrun, hresult, hafter⟩
  · rintro ⟨outcome, hrun, hresult, hafter⟩
    obtain ⟨fuel, hblock⟩ := Exec.runs_iff.mp hrun
    refine ⟨fuel, Option.map_eq_some_iff.mpr ⟨outcome, hblock, ?_⟩⟩
    exact Prod.ext hresult hafter

end LoopScript.Interpreter
