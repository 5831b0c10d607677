import LoopScript.Proofs.IncrementalRuns
import LoopScript.Proofs.IterationLimit

/-! Programs without READ. They leave their input alone and only add to their output, so that they run in
the same way whatever is in the input and whatever has been printed before. -/

namespace LoopScript

namespace Stmt

mutual

def ReadFree : Stmt → Prop
  | .loop _ body _ => ReadFreeBlock body
  | .cond _ thenBranch elseBranch => ReadFreeBlock thenBranch ∧ ReadFreeBranch elseBranch
  | .read _ _ => False
  | .leave _ _ => True
  | .print _ _ => True
  | .assign _ _ _ => True

def ReadFreeBlock : List Stmt → Prop
  | [] => True
  | first :: rest => ReadFree first ∧ ReadFreeBlock rest

def ReadFreeBranch : Option (List Stmt) → Prop
  | none => True
  | some stmts => ReadFreeBlock stmts

end

end Stmt

namespace Grammar

mutual

/-- A statement of tokens other than READ is without READ. -/
theorem Statement.readFree {ts : List Token} {stmt : Stmt} (h : Statement ts stmt)
    (hkinds : ∀ token ∈ ts, token.kind ≠ .readWord) : stmt.ReadFree := by
  cases h with
  | loop _ _ _ hbody _ =>
      rw [Stmt.ReadFree]
      refine hbody.readFree fun token hmem => hkinds token ?_
      simp [hmem]
  | cond _ _ _ hbranch _ =>
      rw [Stmt.ReadFree]
      refine ⟨hbranch.readFree fun token hmem => hkinds token ?_, trivial⟩
      simp [hmem]
  | condElse _ _ _ hbranch _ hother _ =>
      rw [Stmt.ReadFree]
      refine ⟨hbranch.readFree fun token hmem => hkinds token ?_,
        hother.readFree fun token hmem => hkinds token ?_⟩
      · simp [hmem]
      · simp [hmem]
  | read hkeyword _ => exact absurd hkeyword (hkinds _ List.mem_cons_self)
  | leave | leaveNamed | print | assign => trivial

theorem Block.readFree {ts : List Token} {stmts : List Stmt} (h : Block ts stmts)
    (hkinds : ∀ token ∈ ts, token.kind ≠ .readWord) : Stmt.ReadFreeBlock stmts := by
  cases h with
  | nil => trivial
  | cons head _ tail =>
      rw [Stmt.ReadFreeBlock]
      constructor
      · exact head.readFree fun token hmem => hkinds token (List.mem_append_left _ hmem)
      · refine tail.readFree fun token hmem => hkinds token ?_
        exact List.mem_append_right _ (List.mem_cons_of_mem _ hmem)

end

end Grammar

/-- A machine with another input, whose output has earlier lines, last one first. -/
def Machine.recast (input : NumberInput) (shown : List String) (machine : Machine) : Machine :=
  { machine with
    input := input, output := { machine.output with printed := machine.output.printed ++ shown } }

namespace Exec

/-- An outcome whose machine has another input and earlier lines in its output. -/
def recastOutcome (input : NumberInput) (shown : List String) : Outcome → Outcome
  | .ok flow after => .ok flow (after.recast input shown)
  | .error report after => .error report (after.recast input shown)

def Task.ReadFree : Task → Prop
  | .stmt first => first.ReadFree
  | .block stmts => Stmt.ReadFreeBlock stmts
  | .repeating _ _ body _ => Stmt.ReadFreeBlock body

variable (input : NumberInput) (shown : List String)

/-! ### Statements without statements inside -/

theorem completing_printNames_recast (location : Location) (names : List String) (machine : Machine) :
    completing (printNames location names) (machine.recast input shown) =
      recastOutcome input shown (completing (printNames location names) machine) := by
  induction names generalizing machine with
  | nil => rfl
  | cons name rest ih =>
      have hsymbols : (machine.recast input shown).symbols = machine.symbols := rfl
      rw [completing_printNames_cons, completing_printNames_cons, hsymbols]
      cases machine.symbols.lookup name location with
      | error report => rfl
      | ok value =>
          have hblocked : (machine.recast input shown).output.blocked = machine.output.blocked := rfl
          simp only [Output.writeLine, hblocked]
          cases machine.output.blocked with
          | some reason => rfl
          | none => exact ih { machine with output := ⟨Number.plain value :: machine.output.printed, none⟩ }

theorem completing_assign_recast (name : String) (value : Expr) (machine : Machine) :
    completing (assign name value) (machine.recast input shown) =
      recastOutcome input shown (completing (assign name value) machine) := by
  have hsymbols : (machine.recast input shown).symbols = machine.symbols := rfl
  simp only [completing, assign, hsymbols]
  cases value.eval machine.symbols <;> rfl

theorem leave_recast (target : Option String) (location : Location) (machine : Machine) :
    leave target location (machine.recast input shown) =
      recastOutcome input shown (leave target location machine) := by
  have hloops : (machine.recast input shown).loops = machine.loops := rfl
  simp only [leave, Machine.unwind, hloops]
  cases machine.loops with
  | nil => rfl
  | cons innermost outer =>
      cases target with
      | none => rfl
      | some name =>
          dsimp only
          cases (innermost :: outer).dropWhile (· ≠ .named name) <;> rfl

/-! ### Runs -/

theorem entryLabel_recast (label : Option String) (machine : Machine) :
    entryLabel label (machine.recast input shown) = entryLabel label machine := by
  cases label <;> rfl

theorem inside_recast (label : Option String) (machine : Machine) :
    inside label (machine.recast input shown) = (inside label machine).recast input shown := by
  cases label <;> rfl

theorem closeLoop_recast (label : LoopLabel) (depth : Nat) (outcome : Outcome) :
    closeLoop label depth (recastOutcome input shown outcome) =
      recastOutcome input shown (closeLoop label depth outcome) := by
  cases outcome <;> rfl

theorem completed_of_recastOutcome {outcome : Outcome} {after : Machine}
    (h : recastOutcome input shown outcome = .ok .completed after) :
    ∃ before, outcome = .ok .completed before := by
  cases outcome with
  | error report last => cases h
  | ok flow last =>
      obtain ⟨rfl, -⟩ := EStateM.Result.ok.inj h
      exact ⟨last, rfl⟩

/-- Without READ, a run takes no notice of its input and of what has been printed before. -/
theorem runs_recast {task : Task} {machine : Machine} {outcome : Outcome} (h : Runs task machine outcome)
    (hfree : task.ReadFree) :
    Runs task (machine.recast input shown) (recastOutcome input shown outcome) := by
  induction h with
  | @loop label body location machine outcome _ ih =>
      have hbody := ih hfree
      rw [← inside_recast, ← entryLabel_recast input shown] at hbody
      rw [← closeLoop_recast, ← entryLabel_recast input shown]
      exact .loop hbody
  | leave =>
      rw [← leave_recast]
      exact .leave
  | read => exact hfree.elim
  | print =>
      rw [← completing_printNames_recast]
      exact .print
  | assign =>
      rw [← completing_assign_recast]
      exact .assign
  | condFails heval => exact .condFails heval
  | condThen heval hvalue _ ih => exact .condThen heval hvalue (ih hfree.1)
  | condElse heval hvalue _ ih => exact .condElse heval hvalue (ih hfree.2)
  | condSkip heval hvalue => exact .condSkip heval hvalue
  | nil => exact .nil
  | next _ _ ihfirst ihrest => exact .next (ihfirst hfree.1) (ihrest hfree.2)
  | stop _ hother ih =>
      refine .stop (ih hfree.1) fun after hafter => ?_
      obtain ⟨before, hbefore⟩ := completed_of_recastOutcome input shown hafter
      exact hother before hbefore
  | again _ hover _ ihbody ihrest => exact .again (ihbody hfree) hover (ihrest hfree)
  | limit _ hover ih => exact .limit (ih hfree) hover
  | arrives _ ih => exact .arrives (ih hfree)
  | passes _ htarget ih => exact .passes (ih hfree) htarget
  | fails _ ih => exact .fails (ih hfree)

variable {input shown}

/-- Without READ, a run leaves its input alone. -/
theorem input_of_runs {task : Task} {machine : Machine} {outcome : Outcome} (h : Runs task machine outcome)
    (hfree : task.ReadFree) : (endMachine outcome).input = machine.input := by
  have hmachine : machine.recast machine.input [] = machine := by
    rw [Machine.recast, List.append_nil]
  have hrecast := runs_recast machine.input [] h hfree
  rw [hmachine] at hrecast
  rw [runs_unique h hrecast]
  cases outcome <;> rfl

/-- No run blocks or frees the output. -/
theorem blocked_of_runs {task : Task} {machine : Machine} {outcome : Outcome}
    (h : Runs task machine outcome) :
    (endMachine outcome).output.blocked = machine.output.blocked :=
  (advances_of_runs h fun _ hname => hname).blocked_eq

end Exec
end LoopScript
