import LoopScript.Proofs.IterationLimit
import LoopScript.Proofs.LexicalScope
import LoopScript.Proofs.Refit

/-! An iteration limit that is not reached cannot be seen. Every run that does not fail for its limit
needs its loops to be repeated up to some number of times and no further, and this number is all that
it asks of a limit: under any limit that allows as many, and without one, it is the same run. So a run
below its limit goes on in the same way when the limit is raised or lifted, and a run without a limit
is the run under every limit that is high enough. -/

namespace LoopScript

def Machine.withLimit (limit : Option Nat) (machine : Machine) : Machine :=
  { machine with iterationLimit := limit }

namespace Exec

/-- An outcome whose machine is under another iteration limit. -/
def underLimit (limit : Option Nat) : Outcome → Outcome
  | .ok flow after => .ok flow (after.withLimit limit)
  | .error report after => .error report (after.withLimit limit)

/-- A loop may be repeated so many times; without a limit it may be repeated for ever. -/
def Allows (limit : Option Nat) (count : Nat) : Prop := ∀ most, limit = some most → count ≤ most

/-- A run fails because a loop went on for longer than its limit. -/
def FailsForLimit : Outcome → Prop
  | .ok _ _ => False
  | .error report _ => report.kind = .iterationLimit

theorem allows_zero (limit : Option Nat) : Allows limit 0 := fun _ _ => Nat.zero_le _

theorem allows_max {limit : Option Nat} {count other : Nat} :
    Allows limit (max count other) ↔ Allows limit count ∧ Allows limit other := by
  constructor
  · intro h
    exact ⟨fun most hmost => (le_max_left _ _).trans (h most hmost),
      fun most hmost => (le_max_right _ _).trans (h most hmost)⟩
  · rintro ⟨hcount, hother⟩ most hmost
    exact max_le (hcount most hmost) (hother most hmost)

theorem not_failsForLimit_of_closeLoop {label : LoopLabel} {depth : Nat} {outcome : Outcome}
    (h : ¬ FailsForLimit (closeLoop label depth outcome)) : ¬ FailsForLimit outcome := by
  cases outcome <;> exact h

/-- What a task needs of a limit: under every limit that allows as many repetitions it runs alike. -/
def Needs (count : Nat) (task : Task) (machine : Machine) (outcome : Outcome) : Prop :=
  ∀ limit, Allows limit count → Runs task (machine.withLimit limit) (underLimit limit outcome)

theorem underLimit_eq_refitOutcome (limit : Option Nat) (outcome : Outcome) :
    underLimit limit outcome = refitOutcome id (fun _ => limit) outcome := by
  cases outcome <;> rfl

/-- Statements without loops in them need nothing of a limit. -/
theorem needs_of_refit {task : Task} {step : Machine → Outcome}
    (hruns : ∀ machine, Runs task machine (step machine))
    (hstep : ∀ limit machine, step (machine.refit id limit) = refitOutcome id limit (step machine))
    (machine : Machine) : Needs 0 task machine (step machine) := by
  intro limit _
  rw [underLimit_eq_refitOutcome, ← hstep]
  exact hruns (machine.withLimit limit)

theorem needs_loop {count : Nat} {label : Option String} {body : List Stmt} {location : Location}
    {machine : Machine} {outcome : Outcome}
    (h : Needs count (.repeating (entryLabel label machine) location body 0) (inside label machine)
      outcome) :
    Needs count (.stmt (.loop label body location)) machine
      (closeLoop (entryLabel label machine) machine.depth outcome) := by
  intro limit hlimit
  have hentry : entryLabel label (machine.withLimit limit) = entryLabel label machine :=
    entryLabel_refit id (fun _ => limit) label machine
  have hinside : inside label (machine.withLimit limit) = (inside label machine).withLimit limit :=
    inside_refit (fun _ => limit) Log.steady_id label machine
  have hrepeat := h limit hlimit
  rw [← hentry, ← hinside] at hrepeat
  rw [underLimit_eq_refitOutcome, ← closeLoop_refit (fun _ => limit) Log.steady_id,
    ← underLimit_eq_refitOutcome, ← hentry]
  exact .loop hrepeat

theorem Needs.next {count other : Nat} {first : Stmt} {rest : List Stmt} {machine middle : Machine}
    {outcome : Outcome} (hfirst : Needs count (.stmt first) machine (.ok .completed middle))
    (hrest : Needs other (.block rest) middle outcome) :
    Needs (max count other) (.block (first :: rest)) machine outcome := by
  intro limit hlimit
  obtain ⟨hcount, hother⟩ := allows_max.mp hlimit
  exact .next (hfirst limit hcount) (hrest limit hother)

/-- One more repetition has to be allowed for a loop to go on. -/
theorem Needs.again {count other iterations : Nat} {label : LoopLabel} {location : Location}
    {body : List Stmt} {machine middle : Machine} {outcome : Outcome}
    (hbody : Needs count (.block body) machine (.ok .completed middle))
    (hrest : Needs other (.repeating label location body (iterations + 1)) middle outcome) :
    Needs (max (iterations + 1) (max count other)) (.repeating label location body iterations) machine
      outcome := by
  intro limit hlimit
  obtain ⟨hiterations, hlimit⟩ := allows_max.mp hlimit
  obtain ⟨hcount, hother⟩ := allows_max.mp hlimit
  have hover : isOverLimit (middle.withLimit limit).iterationLimit (iterations + 1) = none :=
    Scoped.isOverLimit_eq_none.mpr hiterations
  exact .again (hbody limit hcount) hover (hrest limit hother)

/-- A run that has no limit, or that does not fail for it, needs some number of repetitions, and its
own limit allows as many. -/
theorem exists_needs {task : Task} {machine : Machine} {outcome : Outcome}
    (h : Runs task machine outcome)
    (hlimit : machine.iterationLimit = none ∨ ¬ FailsForLimit outcome) :
    ∃ count, Allows machine.iterationLimit count ∧ Needs count task machine outcome := by
  induction h with
  | @loop label body location machine outcome _ ih =>
      have hinside : (inside label machine).iterationLimit = machine.iterationLimit :=
        inside_iterationLimit label machine
      obtain ⟨count, hcount, hneeds⟩ := ih (hlimit.imp hinside.trans not_failsForLimit_of_closeLoop)
      rw [hinside] at hcount
      exact ⟨count, hcount, needs_loop hneeds⟩
  | leave =>
      refine ⟨0, allows_zero _, needs_of_refit (fun _ => .leave) (fun limit => ?_) _⟩
      exact leave_refit limit Log.steady_id _ _
  | read =>
      refine ⟨0, allows_zero _, needs_of_refit (fun _ => .read) (fun limit => ?_) _⟩
      exact completing_readNames_refit id limit _ _
  | print =>
      refine ⟨0, allows_zero _, needs_of_refit (fun _ => .print) (fun limit => ?_) _⟩
      exact completing_printNames_refit id limit _ _
  | assign =>
      refine ⟨0, allows_zero _, needs_of_refit (fun _ => .assign) (fun limit => ?_) _⟩
      exact completing_assign_refit id limit _ _
  | condFails heval => exact ⟨0, allows_zero _, fun _ _ => .condFails heval⟩
  | condThen heval hvalue _ ih =>
      obtain ⟨count, hcount, hneeds⟩ := ih hlimit
      exact ⟨count, hcount, fun limit hallows => .condThen heval hvalue (hneeds limit hallows)⟩
  | condElse heval hvalue _ ih =>
      obtain ⟨count, hcount, hneeds⟩ := ih hlimit
      exact ⟨count, hcount, fun limit hallows => .condElse heval hvalue (hneeds limit hallows)⟩
  | condSkip heval hvalue => exact ⟨0, allows_zero _, fun _ _ => .condSkip heval hvalue⟩
  | nil => exact ⟨0, allows_zero _, fun _ _ => .nil⟩
  | @next first rest machine middle outcome hfirst _ ihfirst ihrest =>
      have hmiddle : middle.iterationLimit = machine.iterationLimit := iterationLimit_of_runs hfirst
      obtain ⟨count, hcount, hneeds⟩ := ihfirst (.inr not_false)
      obtain ⟨other, hother, hneeds'⟩ := ihrest (hlimit.imp_left hmiddle.trans)
      rw [hmiddle] at hother
      exact ⟨max count other, allows_max.mpr ⟨hcount, hother⟩, hneeds.next hneeds'⟩
  | @stop first rest machine outcome _ hother ih =>
      obtain ⟨count, hcount, hneeds⟩ := ih hlimit
      refine ⟨count, hcount, fun limit hallows => .stop (hneeds limit hallows) ?_⟩
      intro after hafter
      cases outcome with
      | error report last => cases hafter
      | ok flow last =>
          obtain ⟨rfl, -⟩ := EStateM.Result.ok.inj hafter
          exact hother last rfl
  | @again label location body iterations machine outcome middle hbody hover _ ihbody ihrest =>
      have hmiddle : middle.iterationLimit = machine.iterationLimit := iterationLimit_of_runs hbody
      obtain ⟨count, hcount, hneeds⟩ := ihbody (.inr not_false)
      obtain ⟨other, hother, hneeds'⟩ := ihrest (hlimit.imp_left hmiddle.trans)
      have hiterations : Allows middle.iterationLimit (iterations + 1) :=
        Scoped.isOverLimit_eq_none.mp hover
      rw [hmiddle] at hother hiterations
      refine ⟨max (iterations + 1) (max count other), ?_, hneeds.again hneeds'⟩
      exact allows_max.mpr ⟨hiterations, allows_max.mpr ⟨hcount, hother⟩⟩
  | @limit label location body iterations machine most after hbody hover =>
      rcases hlimit with hnone | hfails
      · have hafter : after.iterationLimit = none := (iterationLimit_of_runs hbody).trans hnone
        rw [hafter] at hover
        cases hover
      · exact absurd rfl hfails
  | arrives _ ih =>
      obtain ⟨count, hcount, hneeds⟩ := ih (.inr not_false)
      exact ⟨count, hcount, fun limit hallows => .arrives (hneeds limit hallows)⟩
  | passes _ htarget ih =>
      obtain ⟨count, hcount, hneeds⟩ := ih (.inr not_false)
      exact ⟨count, hcount, fun limit hallows => .passes (hneeds limit hallows) htarget⟩
  | fails _ ih =>
      obtain ⟨count, hcount, hneeds⟩ := ih hlimit
      exact ⟨count, hcount, fun limit hallows => .fails (hneeds limit hallows)⟩

/-- **A limit that is not reached cannot be seen.** Statements that are run under a limit and do not
fail for it end in the same way under every higher limit and without one: with the same flow or the
same report, and on the same machine but for the limit. And statements whose run ends without a limit
end in the same way under every limit from some number on. -/
theorem unreached_limit_is_invisible (stmts : List Stmt) (machine : Machine) :
    (∀ limit other, other = none ∨ (∃ more, limit ≤ more ∧ other = some more) →
      ∀ fuel outcome, block fuel stmts (machine.withLimit (some limit)) = some outcome →
        ¬ FailsForLimit outcome →
        ∃ enough, block enough stmts (machine.withLimit other) = some (underLimit other outcome)) ∧
    ∀ fuel outcome, block fuel stmts (machine.withLimit none) = some outcome →
      ∃ least, ∀ limit, least ≤ limit → ∃ enough,
        block enough stmts (machine.withLimit (some limit)) =
          some (underLimit (some limit) outcome) := by
  constructor
  · intro limit other hother fuel outcome hrun hfails
    obtain ⟨count, hcount, hneeds⟩ := exists_needs (runs_of_block hrun) (.inr hfails)
    have hle : count ≤ limit := hcount limit rfl
    have hallows : Allows other count := by
      rcases hother with rfl | ⟨more, hmore, rfl⟩
      · exact nofun
      · intro most hmost
        obtain rfl := Option.some.inj hmost
        exact hle.trans hmore
    exact runs_iff.mp (hneeds other hallows)
  · intro fuel outcome hrun
    obtain ⟨count, -, hneeds⟩ := exists_needs (runs_of_block hrun) (.inl rfl)
    refine ⟨count, fun limit hle => ?_⟩
    have hallows : Allows (some limit) count := by
      intro most hmost
      obtain rfl := Option.some.inj hmost
      exact hle
    exact runs_iff.mp (hneeds (some limit) hallows)

/-- A loop that reads for as long as there is input. -/
def readingLoop : List Stmt := [.loop (some "a") [.read ["x"] .unknown] .unknown]

/-- A limit of two is not reached there, so that the run fails in the same way without a limit. -/
theorem unreached_limit_is_invisible_reading :
    ∃ report after, block 9 readingLoop
        (Machine.withLimit (some 2) { input := { words := ["1", "2"] } }) = some (.error report after) ∧
      report.kind = .input ∧
      ∃ enough, block enough readingLoop
        (Machine.withLimit none { input := { words := ["1", "2"] } }) =
          some (.error report (after.withLimit none)) := by
  -- Two words let the loop be repeated twice, and then there is no input left.
  have hwants : failure? (block 9 readingLoop
      (Machine.withLimit (some 2) { input := { words := ["1", "2"] } })) = some .input := by
    decide +kernel
  obtain ⟨report, after, hrun, hinput⟩ := failure?_eq_some hwants
  have hfails : ¬ FailsForLimit (.error report after) := by
    intro hlimit
    rw [FailsForLimit, hinput] at hlimit
    cases hlimit
  have hresults := unreached_limit_is_invisible readingLoop { input := { words := ["1", "2"] } }
  exact ⟨report, after, hrun, hinput, hresults.1 2 none (.inl rfl) 9 _ hrun hfails⟩

end Exec
end LoopScript
