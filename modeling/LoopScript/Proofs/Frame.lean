import LoopScript.Proofs.Bindings
import LoopScript.Proofs.Deliveries
import LoopScript.Proofs.LoopStack

/-! What a run leaves alone and in which direction it goes. Names stay bound, only the targets of a program
get new numbers, lines are added to the output, words are taken from the front of the input, and anonymous
loops are numbered upwards. All of this is one relation between a machine and a later one (`Advances`).
Entering and leaving loops keeps to it, since that changes the running loops, the number of anonymous
entries and the log only; so do READ, PRINT and assignments, wherever they fail. Hence every run keeps to
it, whether it ends normally, with a BREAK or with a report. -/

namespace LoopScript

namespace Stmt

mutual

/-- The names that a statement may bind: those that are assigned or read anywhere in it. -/
def targets : Stmt → List String
  | .loop _ body _ => blockTargets body
  | .cond _ thenBranch elseBranch => blockTargets thenBranch ++ branchTargets elseBranch
  | .read names _ => names
  | .assign name _ _ => [name]
  | .print _ _ => []
  | .leave _ _ => []

def blockTargets : List Stmt → List String
  | [] => []
  | first :: rest => targets first ++ blockTargets rest

def branchTargets : Option (List Stmt) → List String
  | none => []
  | some stmts => blockTargets stmts

end

end Stmt

namespace Exec

def endMachine : Outcome → Machine
  | .ok _ after => after
  | .error _ after => after

/-- What kind of failure a run ended in, if it ended in one. -/
def failure? : Option Outcome → Option Diagnostic.Kind
  | some (.error report _) => some report.kind
  | _ => none

theorem failure?_eq_some {run : Option Outcome} {kind : Diagnostic.Kind} (h : failure? run = some kind) :
    ∃ report after, run = some (.error report after) ∧ report.kind = kind := by
  unfold failure? at h
  split at h
  · next report after => exact ⟨report, after, rfl, Option.some.inj h⟩
  · cases h

def Task.targets : Task → List String
  | .stmt first => first.targets
  | .block stmts => Stmt.blockTargets stmts
  | .repeating _ _ body _ => Stmt.blockTargets body

end Exec

namespace NumberInput

/-! ### Words that are left -/

/-- The words of a line; a line that is not UTF-8 has none. -/
def lineWords (line : List UInt8) : List String :=
  match decode? line with
  | none => []
  | some text => Text.words text

/-- The words that are left of the current line, and then those of the lines that have not been read. -/
def remainingWords (input : NumberInput) : List String :=
  input.words ++ (linesOf input.unread).flatMap lineWords

theorem remainingWords_cons (byte : UInt8) (rest : List UInt8) (number : Nat) :
    remainingWords ⟨byte :: rest, [], number⟩ =
      lineWords (cutLine (byte :: rest)).1 ++
        (linesOf (cutLine (byte :: rest)).2).flatMap lineWords := by
  rw [remainingWords, linesOf_cons, List.flatMap_cons]
  rfl

/-- Taking a number takes words from the front, if any. -/
theorem remainingWords_next (input : NumberInput) :
    input.next.2.remainingWords <:+ input.remainingWords := by
  fun_induction next input with
  | case1 unread word words line result => exact List.suffix_cons word _
  | case2 line => exact List.suffix_rfl
  | case3 byte rest line hdecode =>
      rw [remainingWords_cons, lineWords, hdecode]
      exact List.suffix_rfl
  | case4 byte rest line text hdecode ih =>
      rw [remainingWords_cons, lineWords, hdecode]
      exact ih

end NumberInput

namespace Output

/-- A line does not free or block the output. -/
theorem blocked_writeLine {output after : Output} {line : String} (h : output.writeLine line = .ok after) :
    after.blocked = output.blocked := by
  unfold writeLine at h
  split at h
  · cases h
  · obtain rfl := Except.ok.inj h
    rfl

theorem text_append {output after : Output} {lines : List String}
    (h : after.lines = output.lines ++ lines) :
    after.text = output.text ++ String.join (lines.map (· ++ "\n")) := by
  rw [text, h, List.map_append, String.join_append]
  rfl

end Output

/-- A machine that has got from one state to another, and may have bound some names on its way. -/
structure Advances (bindable : String → Prop) (before after : Machine) : Prop where
  bound : ∀ name ∈ before.symbols.names, name ∈ after.symbols.names
  kept : ∀ name, ¬ bindable name → after.symbols.get? name = before.symbols.get? name
  printed : ∃ values : List Float, after.output.lines = before.output.lines ++ values.map Number.plain
  blocked_eq : after.output.blocked = before.output.blocked
  taken : after.input.remainingWords <:+ before.input.remainingWords
  limit_eq : after.iterationLimit = before.iterationLimit
  entries_le : before.anonymousEntries ≤ after.anonymousEntries

namespace Advances

variable {bindable : String → Prop}

/-- The running loops, the numbering of anonymous ones and the log may change. -/
theorem frame (machine : Machine) (loops : List LoopLabel) {entries : Nat} (log : Log)
    (h : machine.anonymousEntries ≤ entries) :
    Advances bindable machine
      { machine with loops := loops, anonymousEntries := entries, log := log } where
  bound _ hname := hname
  kept _ _ := rfl
  printed := ⟨[], (List.append_nil _).symm⟩
  blocked_eq := rfl
  taken := List.suffix_rfl
  limit_eq := rfl
  entries_le := h

theorem refl (machine : Machine) : Advances bindable machine machine :=
  frame machine machine.loops machine.log le_rfl

theorem trans {first middle last : Machine} (h : Advances bindable first middle)
    (h' : Advances bindable middle last) : Advances bindable first last where
  bound name hname := h'.bound name (h.bound name hname)
  kept name hname := (h'.kept name hname).trans (h.kept name hname)
  printed := by
    obtain ⟨values, hvalues⟩ := h.printed
    obtain ⟨more, hmore⟩ := h'.printed
    exact ⟨values ++ more, by rw [hmore, hvalues, List.map_append, List.append_assoc]⟩
  blocked_eq := h'.blocked_eq.trans h.blocked_eq
  taken := h'.taken.trans h.taken
  limit_eq := h'.limit_eq.trans h.limit_eq
  entries_le := h.entries_le.trans h'.entries_le

/-! ### Steps -/

theorem assign {name : String} (h : bindable name) (value : Float) (machine : Machine) :
    Advances bindable machine (machine.assign name value) :=
  { (refl machine : Advances bindable machine machine) with
    bound := fun _ hname => SymbolTable.mem_names_set.mpr (.inr hname)
    kept := by
      intro other hother
      refine SymbolTable.get?_set_of_ne _ _ ?_
      rintro rfl
      exact hother h }

theorem take (machine : Machine) :
    Advances bindable machine { machine with input := machine.input.next.2 } :=
  { refl machine with taken := machine.input.remainingWords_next }

theorem print {machine : Machine} {value : Float} {output : Output}
    (h : machine.output.writeLine (Number.plain value) = .ok output) :
    Advances bindable machine { machine with output := output } :=
  { refl machine with
    printed := ⟨[value], Output.lines_writeLine h⟩
    blocked_eq := Output.blocked_writeLine h }

end Advances

namespace Exec

variable {bindable : String → Prop}

theorem advances_readNames (location : Location) {names : List String}
    (h : ∀ name ∈ names, bindable name) (machine : Machine) :
    Advances bindable machine (endMachine (completing (readNames location names) machine)) := by
  induction names generalizing machine with
  | nil => exact .refl machine
  | cons name rest ih =>
      obtain ⟨hname, hrest⟩ := List.forall_mem_cons.mp h
      have htake : Advances bindable machine { machine with input := machine.input.next.2 } :=
        .take machine
      rw [completing_readNames_cons]
      cases hnext : machine.input.next with
      | mk result input =>
          rw [hnext] at htake
          cases result with
          | error cause => exact htake
          | ok value => exact (htake.trans (.assign hname value _)).trans (ih hrest _)

theorem advances_printNames (location : Location) (names : List String) (machine : Machine) :
    Advances bindable machine (endMachine (completing (printNames location names) machine)) := by
  induction names generalizing machine with
  | nil => exact .refl machine
  | cons name rest ih =>
      rw [completing_printNames_cons]
      cases machine.symbols.lookup name location with
      | error report => exact .refl machine
      | ok value =>
          dsimp only
          cases hwrite : machine.output.writeLine (Number.plain value) with
          | error reason => exact .refl machine
          | ok output => exact (Advances.print hwrite).trans (ih _)

theorem advances_assign {name : String} (h : bindable name) (value : Expr) (machine : Machine) :
    Advances bindable machine (endMachine (completing (assign name value) machine)) := by
  simp only [completing, assign]
  cases value.eval machine.symbols with
  | error report => exact .refl machine
  | ok number => exact .assign h number machine

theorem advances_inside (label : Option String) (machine : Machine) :
    Advances bindable machine (inside label machine) := by
  cases label with
  | none => exact .frame machine _ _ (Nat.le_succ _)
  | some name => exact .frame machine _ _ le_rfl

theorem advances_closeLoop (label : LoopLabel) (depth : Nat) (outcome : Outcome) :
    Advances bindable (endMachine outcome) (endMachine (closeLoop label depth outcome)) := by
  cases outcome with
  | ok flow after => exact .frame after _ _ le_rfl
  | error report after => exact .frame after _ _ le_rfl

theorem advances_leave (target : Option String) (location : Location) (machine : Machine) :
    Advances bindable machine (endMachine (leave target location machine)) := by
  rcases leave_cases target location machine with
    ⟨inner, label, outer, -, -, -, hleave⟩ | ⟨cause, -, hleave⟩
  · rw [hleave]
    exact .frame machine _ _ le_rfl
  · rw [hleave]
    exact .refl machine

/-! ### Runs -/

/-- Every run goes forward, and the names that it binds are targets of its task. -/
theorem advances_of_runs {task : Task} {machine : Machine} {outcome : Outcome}
    (h : Runs task machine outcome) (hbindable : ∀ name ∈ task.targets, bindable name) :
    Advances bindable machine (endMachine outcome) := by
  induction h with
  | loop _ ih =>
      exact ((advances_inside _ _).trans (ih hbindable)).trans (advances_closeLoop _ _ _)
  | leave => exact advances_leave _ _ _
  | read => exact advances_readNames _ hbindable _
  | print => exact advances_printNames _ _ _
  | assign => exact advances_assign (hbindable _ List.mem_cons_self) _ _
  | condFails _ => exact .refl _
  | condThen _ _ _ ih => exact ih fun name hmem => hbindable name (List.mem_append_left _ hmem)
  | condElse _ _ _ ih => exact ih fun name hmem => hbindable name (List.mem_append_right _ hmem)
  | condSkip _ _ => exact .refl _
  | nil => exact .refl _
  | next _ _ ihfirst ihrest =>
      have hfirst := ihfirst fun name hmem => hbindable name (List.mem_append_left _ hmem)
      have hrest := ihrest fun name hmem => hbindable name (List.mem_append_right _ hmem)
      exact hfirst.trans hrest
  | stop _ _ ih => exact ih fun name hmem => hbindable name (List.mem_append_left _ hmem)
  | again _ _ _ ihbody ihrest => exact (ihbody hbindable).trans (ihrest hbindable)
  | limit _ _ ih => exact ih hbindable
  | arrives _ ih => exact ih hbindable
  | passes _ _ ih => exact ih hbindable
  | fails _ ih => exact ih hbindable

/-- **Runs go forward.** However a run of some statements ends, the names that were bound before it are
bound after it, and a name that is neither assigned nor read in them keeps its number or stays unbound. The
run has added complete lines to the output, each with a number, and has taken words from the front of the
input. The limit is the same, and the anonymous loops have been numbered upwards. -/
theorem runs_go_forward {fuel : Nat} {stmts : List Stmt} {machine : Machine} {outcome : Outcome}
    (h : block fuel stmts machine = some outcome) :
    (∀ name ∈ machine.symbols.names, name ∈ (endMachine outcome).symbols.names) ∧
    (∀ name ∉ Stmt.blockTargets stmts,
      (endMachine outcome).symbols.get? name = machine.symbols.get? name) ∧
    (∃ values : List Float, (endMachine outcome).output.text =
      machine.output.text ++ String.join (values.map (Number.plain · ++ "\n"))) ∧
    (endMachine outcome).input.remainingWords <:+ machine.input.remainingWords ∧
    (endMachine outcome).iterationLimit = machine.iterationLimit ∧
    machine.anonymousEntries ≤ (endMachine outcome).anonymousEntries := by
  have hadvances := advances_of_runs (runs_of_block h) fun _ hname => hname
  obtain ⟨values, hvalues⟩ := hadvances.printed
  refine ⟨hadvances.bound, hadvances.kept, ⟨values, ?_⟩, hadvances.taken, hadvances.limit_eq,
    hadvances.entries_le⟩
  rw [Output.text_append hvalues, List.map_map]
  rfl

/-- A loop that fails in the second round, on a list of names to be read. -/
def failingLoop : List Stmt :=
  [.loop none [.print ["x"] .unknown, .read ["x", "y"] .unknown] .unknown]

/-- A machine with two names and a line printed, that has three numbers to read and a word that is none. -/
def loadedMachine : Machine where
  anonymousEntries := 3
  symbols := SymbolTable.bindAll [("k", 7.0), ("x", 1.0)]
  input := { words := ["2", "3", "4", "five"] }
  output := { printed := ["9"] }
  iterationLimit := some 5

/-- What the loop has not touched is as it was, also when it fails in the middle of a READ. -/
theorem runs_go_forward_failing : ∃ report after,
    block 4 failingLoop loadedMachine = some (.error report after) ∧
    "x" ∈ after.symbols.names ∧ after.symbols.get? "k" = some 7.0 ∧
    (∃ values : List Float, after.output.text =
      "9\n" ++ String.join (values.map (Number.plain · ++ "\n"))) ∧
    after.input.remainingWords <:+ ["2", "3", "4", "five"] ∧
    after.iterationLimit = some 5 ∧ 3 ≤ after.anonymousEntries := by
  have hfails : failure? (block 4 failingLoop loadedMachine) = some .input := by decide +kernel
  obtain ⟨report, after, hruns, -⟩ := failure?_eq_some hfails
  obtain ⟨hbound, hkept, hprinted, htaken, hlimit, hentries⟩ := runs_go_forward hruns
  exact ⟨report, after, hruns, hbound "x" (by decide), hkept "k" (by decide), hprinted, htaken, hlimit,
    hentries⟩

end Exec
end LoopScript
