import Mathlib
import LoopScript.Proofs.Frame

/-! Runs under an iteration limit end. A loop counts the repetitions that end normally and fails when
there are more than the limit, so that one entry into it runs its body at most once more than the
limit says. By induction over the text of a program every run ends, however deep its loops are nested
and however often an inner loop is entered again.

Which tasks are reached in the course of a run, also in one that is not yet over, is the relation
`Visits`. It follows the executor: a run within a budget runs all the tasks that it visits within this
budget (`exists_within_of_visits`), and it runs no others, so that it ends in the same way whatever is
run in their place (`block_of_visits`). -/

namespace LoopScript.Exec

/-- What a task does next on its way: the parts of a statement that it runs, and the machines on
which it runs them. -/
inductive Calls : Task → Machine → Task → Machine → Prop
  | enter {label body location machine} :
      Calls (.stmt (.loop label body location)) machine
        (.repeating (entryLabel label machine) location body 0) (inside label machine)
  | thenBranch {condition thenBranch elseBranch value} {machine : Machine} :
      condition.eval machine.symbols = .ok value → (value != 0.0) = true →
      Calls (.stmt (.cond condition thenBranch elseBranch)) machine (.block thenBranch) machine
  | elseBranch {condition thenBranch branch value} {machine : Machine} :
      condition.eval machine.symbols = .ok value → (value != 0.0) = false →
      Calls (.stmt (.cond condition thenBranch (some branch))) machine (.block branch) machine
  | head {first rest machine} : Calls (.block (first :: rest)) machine (.stmt first) machine
  | tail {first rest machine middle} : Runs (.stmt first) machine (.ok .completed middle) →
      Calls (.block (first :: rest)) machine (.block rest) middle
  | body {label location body count machine} :
      Calls (.repeating label location body count) machine (.block body) machine
  | again {label location body count machine} {middle : Machine} :
      Runs (.block body) machine (.ok .completed middle) →
      isOverLimit middle.iterationLimit (count + 1) = none →
      Calls (.repeating label location body count) machine
        (.repeating label location body (count + 1)) middle

/-- The tasks that are reached in the course of a run, and their machines. -/
inductive Visits (task : Task) (machine : Machine) : Task → Machine → Prop
  | here : Visits task machine task machine
  | step {part part' : Task} {machine' machine'' : Machine} (earlier : Visits task machine part machine')
      (call : Calls part machine' part' machine'') : Visits task machine part' machine''

/-- What the next task visits is visited. -/
theorem Visits.after {task part part' : Task} {machine machine' machine'' : Machine}
    (h : Visits part machine' part' machine'') (call : Calls task machine part machine') :
    Visits task machine part' machine'' := by
  induction h with
  | here => exact .step .here call
  | step _ later ih => exact .step ih later

/-! ### What is visited is run -/

/-- Statements that end have run the first of them, and the others if it completes. -/
theorem exists_of_block {fuel : Nat} {first : Stmt} {rest : List Stmt} {machine : Machine}
    {outcome : Outcome} (h : block fuel (first :: rest) machine = some outcome) :
    ∃ less ending, less + 1 = fuel ∧ stmt less (block less) first machine = some ending ∧
      ∀ middle, ending = .ok .completed middle → block less rest middle = some outcome := by
  cases fuel with
  | zero => cases h
  | succ less =>
      rw [block] at h
      cases hfirst : stmt less (block less) first machine with
      | none =>
          rw [hfirst] at h
          cases h
      | some ending =>
          refine ⟨less, ending, rfl, hfirst, fun middle hmiddle => ?_⟩
          rw [hfirst, hmiddle] at h
          exact h

/-- Repetitions that end have run the body, and go on if it completes and the limit allows it. -/
theorem exists_of_repeatBody {run : Machine → Option Outcome} {label : LoopLabel}
    {location : Location} {fuel count : Nat} {machine : Machine} {outcome : Outcome}
    (h : repeatBody run label location fuel count machine = some outcome) :
    ∃ less ending, less + 1 = fuel ∧ run machine = some ending ∧
      ∀ middle, ending = .ok .completed middle →
        isOverLimit middle.iterationLimit (count + 1) = none →
        repeatBody run label location less (count + 1) middle = some outcome := by
  cases fuel with
  | zero => cases h
  | succ less =>
      rw [repeatBody] at h
      cases hbody : run machine with
      | none =>
          rw [hbody] at h
          cases h
      | some ending =>
          refine ⟨less, ending, rfl, rfl, fun middle hmiddle hgo => ?_⟩
          rw [hbody, hmiddle] at h
          simp only [hgo] at h
          exact h

/-- A run within a budget runs what it comes to next within the same budget. -/
theorem exists_within_of_calls {fuel : Nat} {task part : Task} {machine machine' : Machine}
    {outcome : Outcome} (h : Calls task machine part machine')
    (hrun : within fuel task machine = some outcome) :
    ∃ ending, within fuel part machine' = some ending := by
  cases h with
  | enter =>
      rw [within, stmt, loop_eq, Option.map_eq_some_iff] at hrun
      obtain ⟨ending, hending, -⟩ := hrun
      exact ⟨ending, hending⟩
  | thenBranch heval hvalue =>
      simp only [within, stmt, heval, hvalue, if_true] at hrun
      exact ⟨outcome, hrun⟩
  | elseBranch heval hvalue =>
      simp only [within, stmt, heval, hvalue, Bool.false_eq_true, if_false] at hrun
      exact ⟨outcome, hrun⟩
  | head =>
      obtain ⟨less, ending, rfl, hfirst, -⟩ := exists_of_block hrun
      exact ⟨ending, within_mono (Nat.le_succ less) hfirst⟩
  | @tail first _ _ _ hfirst =>
      obtain ⟨less, ending, rfl, hending, hrest⟩ := exists_of_block hrun
      have hruns : Runs (.stmt first) machine ending := runs_iff.mpr ⟨less, hending⟩
      exact ⟨outcome, block_mono (Nat.le_succ less) (hrest _ (runs_unique hruns hfirst))⟩
  | body =>
      obtain ⟨-, ending, -, hbody, -⟩ := exists_of_repeatBody hrun
      exact ⟨ending, hbody⟩
  | again hbody hover =>
      obtain ⟨less, ending, rfl, hending, hagain⟩ := exists_of_repeatBody hrun
      have hsame := runs_unique (runs_of_block hending) hbody
      exact ⟨outcome, repeatBody_mono (fun _ _ => id) (Nat.le_succ less) (hagain _ hsame hover)⟩

/-- A run within a budget runs what it visits within the same budget. -/
theorem exists_within_of_visits {fuel : Nat} {task part : Task} {machine machine' : Machine}
    {outcome : Outcome} (h : Visits task machine part machine')
    (hrun : within fuel task machine = some outcome) :
    ∃ ending, within fuel part machine' = some ending := by
  induction h with
  | here => exact ⟨outcome, hrun⟩
  | step _ call ih =>
      obtain ⟨_, hpart⟩ := ih
      exact exists_within_of_calls call hpart

/-! ### What is run is visited -/

section

variable {fuel : Nat} {run : List Stmt → Machine → Option Outcome}

theorem repeatBody_of_visits {body : List Stmt} {label : LoopLabel} {location : Location}
    {left count : Nat} {machine : Machine}
    (h : ∀ stmts after, Visits (.repeating label location body count) machine (.block stmts) after →
      run stmts after = block fuel stmts after) :
    repeatBody (run body) label location left count machine =
      repeatBody (block fuel body) label location left count machine := by
  induction left generalizing count machine with
  | zero => rfl
  | succ left ih =>
      rw [repeatBody, repeatBody, h body machine (.step .here .body)]
      split
      · rfl
      · rfl
      · rfl
      · next after hbody =>
          split
          · rfl
          · next hover =>
              exact ih fun stmts later hvisits =>
                h stmts later (hvisits.after (.again (runs_of_block hbody) hover))

theorem stmt_of_visits {left : Nat} {first : Stmt} {machine : Machine}
    (h : ∀ stmts after, Visits (.stmt first) machine (.block stmts) after →
      run stmts after = block fuel stmts after) :
    stmt left run first machine = stmt left (block fuel) first machine := by
  cases first with
  | loop label body location =>
      rw [stmt, stmt, loop_eq, loop_eq,
        repeatBody_of_visits fun stmts after hvisits => h stmts after (hvisits.after .enter)]
  | leave | read | print | assign => rfl
  | cond condition thenBranch elseBranch =>
      simp only [stmt]
      split
      · rfl
      · next value heval =>
          split
          · next hvalue => exact h thenBranch machine (.step .here (.thenBranch heval hvalue))
          · next hvalue =>
              split
              · next branch =>
                  have hvalue : (value != 0.0) = false := eq_false_of_ne_true hvalue
                  exact h branch machine (.step .here (.elseBranch heval hvalue))
              · rfl

/-- Statements are run alike by all that run alike the lists of statements visited next. -/
theorem block_of_visits {first : Stmt} {rest : List Stmt} {machine : Machine}
    (h : ∀ part middle stmts after, Calls (.block (first :: rest)) machine part middle →
      Visits part middle (.block stmts) after → run stmts after = block fuel stmts after) :
    (match stmt fuel run first machine with
      | some (.ok .completed after) => run rest after
      | other => other) = block (fuel + 1) (first :: rest) machine := by
  rw [block, stmt_of_visits fun stmts after => h _ machine stmts after .head]
  rcases hfirst : stmt fuel (block fuel) first machine with _ | ⟨⟨⟩ | label, middle⟩ | ⟨report, after⟩
  · rfl
  · have hruns : Runs (.stmt first) machine (.ok .completed middle) := runs_iff.mpr ⟨fuel, hfirst⟩
    exact h _ middle rest middle (.tail hruns) .here
  · rfl
  · rfl

end

/-! ### What stays as it is -/

@[simp]
theorem inside_iterationLimit (label : Option String) (machine : Machine) :
    (inside label machine).iterationLimit = machine.iterationLimit := by
  cases label <;> rfl

theorem iterationLimit_of_runs {task : Task} {machine : Machine} {outcome : Outcome}
    (h : Runs task machine outcome) :
    (endMachine outcome).iterationLimit = machine.iterationLimit :=
  (advances_of_runs h fun _ hname => hname).limit_eq

/-! ### The counter -/

/-- A task under a limit: a loop that is about to be repeated has counted no further than the limit. -/
def Limited (limit : Nat) (task : Task) (machine : Machine) : Prop :=
  machine.iterationLimit = some limit ∧
    match task with
    | .repeating _ _ _ count => count ≤ limit
    | .stmt _ => True
    | .block _ => True

theorem le_of_isOverLimit {limit count : Nat} (h : isOverLimit (some limit) count = none) :
    count ≤ limit := by
  by_contra hover
  rw [isOverLimit, if_pos (by omega)] at h
  cases h

theorem Calls.limited {limit : Nat} {task part : Task} {machine machine' : Machine}
    (h : Calls task machine part machine') (hlimited : Limited limit task machine) :
    Limited limit part machine' := by
  obtain ⟨hlimit, hcount⟩ := hlimited
  cases h with
  | enter => exact ⟨by rw [inside_iterationLimit, hlimit], Nat.zero_le limit⟩
  | thenBranch | elseBranch | head | body => exact ⟨hlimit, trivial⟩
  | tail hfirst => exact ⟨(iterationLimit_of_runs hfirst).trans hlimit, trivial⟩
  | again hbody hover =>
      have hmiddle := (iterationLimit_of_runs hbody).trans hlimit
      refine ⟨hmiddle, le_of_isOverLimit ?_⟩
      rw [← hover]
      exact congrArg (isOverLimit · _) hmiddle.symm

theorem Visits.limited {limit : Nat} {task part : Task} {machine machine' : Machine}
    (h : Visits task machine part machine') (hlimited : Limited limit task machine) :
    Limited limit part machine' := by
  induction h with
  | here => exact hlimited
  | step _ call ih => exact call.limited ih

/-! ### Every run ends -/

/-- Every run of some statements under a limit ends. -/
def Ends (limit : Nat) (task : Task) : Prop :=
  ∀ machine : Machine, machine.iterationLimit = some limit → ∃ outcome, Runs task machine outcome

/-- A loop whose body ends is over after at most as many repetitions as the limit still allows, and
one more. -/
theorem repeatBody_ends {limit : Nat} {body : List Stmt} (hbody : Ends limit (.block body))
    (label : LoopLabel) (location : Location) (left : Nat) {count : Nat} {machine : Machine}
    (hcount : count + left = limit + 1) (hle : count ≤ limit)
    (hmachine : machine.iterationLimit = some limit) :
    ∃ inner outcome, repeatBody (block inner body) label location left count machine =
      some outcome := by
  induction left generalizing count machine with
  | zero => omega
  | succ left ih =>
      obtain ⟨ending, hending⟩ := hbody machine hmachine
      have hlimit := (iterationLimit_of_runs hending).trans hmachine
      obtain ⟨inner, hinner⟩ := runs_iff.mp hending
      have hinner : block inner body machine = some ending := hinner
      match ending with
      | .error report after => exact ⟨inner, _, by rw [repeatBody, hinner]⟩
      | .ok (.broke target) after =>
          by_cases htarget : target = label
          · exact ⟨inner, _, by simp only [repeatBody, hinner, if_pos htarget]; rfl⟩
          · exact ⟨inner, _, by simp only [repeatBody, hinner, if_neg htarget]; rfl⟩
      | .ok .completed after =>
          have hafter : after.iterationLimit = some limit := hlimit
          by_cases hover : limit < count + 1
          · have hstop : isOverLimit after.iterationLimit (count + 1) = some limit := by
              rw [hafter, isOverLimit, if_pos hover]
            exact ⟨inner, _, by simp only [repeatBody, hinner, hstop]; rfl⟩
          · have hgo : isOverLimit after.iterationLimit (count + 1) = none := by
              rw [hafter, isOverLimit, if_neg hover]
            have hleft : count + 1 + left = limit + 1 := by omega
            obtain ⟨inner', outcome, houtcome⟩ := ih hleft (by omega) hafter
            refine ⟨max inner inner', outcome, ?_⟩
            rw [repeatBody, block_mono (Nat.le_max_left _ _) hinner]
            simp only [hgo]
            exact repeatBody_mono (fun _ _ => block_mono (Nat.le_max_right _ _)) le_rfl houtcome

/-- The repetitions that the limit still allows, and one more, are enough for a loop that ends at all. -/
theorem repeatBody_of_limit {limit inner : Nat} {body : List Stmt} {label : LoopLabel}
    {location : Location} {fuel left count : Nat} {machine : Machine} {outcome : Outcome}
    (hcount : count + left = limit + 1) (hle : count ≤ limit)
    (hmachine : machine.iterationLimit = some limit)
    (h : repeatBody (block inner body) label location fuel count machine = some outcome) :
    repeatBody (block inner body) label location left count machine = some outcome := by
  induction fuel generalizing left count machine with
  | zero => cases h
  | succ fuel ih =>
      obtain ⟨left, rfl⟩ : ∃ less, left = less + 1 := ⟨left - 1, by omega⟩
      rw [repeatBody] at h ⊢
      split at h
      · cases h
      · exact h
      · exact h
      · next after hbody =>
          have hafter : after.iterationLimit = some limit :=
            (iterationLimit_of_runs (runs_of_block hbody)).trans hmachine
          split at h
          · exact h
          · next hgo =>
              have hcount' : count + 1 ≤ limit := le_of_isOverLimit (hafter ▸ hgo)
              exact ih (by omega) hcount' hafter h

theorem ends_loop {limit : Nat} {body : List Stmt} (hbody : Ends limit (.block body))
    (label : Option String) (location : Location) :
    Ends limit (.stmt (.loop label body location)) := by
  intro machine hmachine
  have hinside : (inside label machine).iterationLimit = some limit := by
    rw [inside_iterationLimit, hmachine]
  obtain ⟨inner, outcome, houtcome⟩ :=
    repeatBody_ends hbody (entryLabel label machine) location (limit + 1) (Nat.zero_add _)
      (Nat.zero_le _) hinside
  exact ⟨_, .loop (runs_of_repeatBody (fun _ _ => runs_of_block) houtcome)⟩

mutual

theorem ends_stmt (limit : Nat) : (first : Stmt) → Ends limit (.stmt first)
  | .loop label body location => ends_loop (ends_block limit body) label location
  | .leave _ _ => fun _ _ => ⟨_, .leave⟩
  | .read _ _ => fun _ _ => ⟨_, .read⟩
  | .print _ _ => fun _ _ => ⟨_, .print⟩
  | .assign _ _ _ => fun _ _ => ⟨_, .assign⟩
  | .cond condition thenBranch elseBranch => by
      intro machine hmachine
      cases heval : condition.eval machine.symbols with
      | error report => exact ⟨_, .condFails heval⟩
      | ok value =>
          cases hvalue : value != 0.0 with
          | true =>
              obtain ⟨outcome, houtcome⟩ := ends_block limit thenBranch machine hmachine
              exact ⟨outcome, .condThen heval hvalue houtcome⟩
          | false =>
              match elseBranch with
              | none => exact ⟨_, .condSkip heval hvalue⟩
              | some branch =>
                  obtain ⟨outcome, houtcome⟩ := ends_block limit branch machine hmachine
                  exact ⟨outcome, .condElse heval hvalue houtcome⟩

theorem ends_block (limit : Nat) : (stmts : List Stmt) → Ends limit (.block stmts)
  | [] => fun _ _ => ⟨_, .nil⟩
  | first :: rest => by
      intro machine hmachine
      obtain ⟨ending, hending⟩ := ends_stmt limit first machine hmachine
      have hlimit := (iterationLimit_of_runs hending).trans hmachine
      match ending with
      | .ok .completed middle =>
          obtain ⟨outcome, houtcome⟩ := ends_block limit rest middle hlimit
          exact ⟨outcome, .next hending houtcome⟩
      | .ok (.broke label) after =>
          exact ⟨_, .stop hending fun _ hcompleted => by cases hcompleted⟩
      | .error report after => exact ⟨_, .stop hending fun _ hcompleted => by cases hcompleted⟩

end

/-- **A limit ends every run.** Statements that are run under an iteration limit come to an end.
Every entry into a loop on their way is over within one repetition more than the limit, which is the
first argument of `repeatBody` behind the place. So is the loop as a whole, in the run in which it is
entered: with whatever budget the statements are run, the loop ends as it does when it may be repeated
only so often. Every loop that is about to be repeated on their way has counted up to the limit at most,
so that one more is within the limit plus one and within 64 bits. -/
theorem limited_runs_end (limit : Nat) (hlimit : limit ≤ 2 ^ 63 - 1) (stmts : List Stmt)
    (machine : Machine) (hmachine : machine.iterationLimit = some limit) :
    (∃ fuel outcome, block fuel stmts machine = some outcome) ∧
    (∀ label body location outer,
      Visits (.block stmts) machine (.stmt (.loop label body location)) outer →
      ∃ inner outcome, repeatBody (block inner body) (entryLabel label outer) location (limit + 1) 0
        (inside label outer) = some outcome) ∧
    (∀ fuel outcome, block fuel stmts machine = some outcome → ∀ label body location outer,
      Visits (.block stmts) machine (.stmt (.loop label body location)) outer →
      ∃ ending, loop fuel (block fuel body) label location outer = some ending ∧
        loop (limit + 1) (block fuel body) label location outer = some ending) ∧
    ∀ label location body count repeated,
      Visits (.block stmts) machine (.repeating label location body count) repeated →
      count + 1 ≤ limit + 1 ∧ (UInt64.ofNat count + 1).toNat = count + 1 := by
  have hlimited : Limited limit (.block stmts) machine := ⟨hmachine, trivial⟩
  have hinside : ∀ label body location outer,
      Visits (.block stmts) machine (.stmt (.loop label body location)) outer →
      (inside label outer).iterationLimit = some limit := by
    intro label body location outer hvisits
    rw [inside_iterationLimit, (hvisits.limited hlimited).1]
  refine ⟨?_, ?_, ?_, ?_⟩
  · obtain ⟨outcome, hruns⟩ := ends_block limit stmts machine hmachine
    obtain ⟨fuel, hfuel⟩ := runs_iff.mp hruns
    exact ⟨fuel, outcome, hfuel⟩
  · intro label body location outer hvisits
    exact repeatBody_ends (ends_block limit body) _ location (limit + 1) (Nat.zero_add _)
      (Nat.zero_le _) (hinside label body location outer hvisits)
  · intro fuel outcome hrun label body location outer hvisits
    obtain ⟨ending, hending⟩ := exists_within_of_visits hvisits hrun
    have hloop : loop fuel (block fuel body) label location outer = some ending := hending
    refine ⟨ending, hloop, ?_⟩
    rw [loop_eq, Option.map_eq_some_iff] at hloop ⊢
    obtain ⟨last, hrepeat, hclose⟩ := hloop
    exact ⟨last, repeatBody_of_limit (Nat.zero_add _) (Nat.zero_le _)
      (hinside label body location outer hvisits) hrepeat, hclose⟩
  · intro label location body count repeated hvisits
    have hcount : count ≤ limit := (hvisits.limited hlimited).2
    refine ⟨by omega, ?_⟩
    rw [UInt64.toNat_add, UInt64.toNat_ofNat', UInt64.toNat_one]
    omega

/-- A loop around an anonymous one, both without a BREAK. -/
def spinning : List Stmt := [.loop (some "a") [.loop none [] .unknown] .unknown]

/-- With a limit of one the inner loop is repeated once more, and then its counter is used up. -/
theorem limited_runs_end_spinning :
    (∃ fuel outcome, block fuel spinning { iterationLimit := some 1 } = some outcome) ∧
    ∃ repeated, Visits (.block spinning) { iterationLimit := some 1 }
        (.repeating (.anonymous 1) .unknown [] 1) repeated ∧
      1 + 1 ≤ 1 + 1 ∧ (UInt64.ofNat 1 + 1).toNat = 1 + 1 := by
  have hresults := limited_runs_end 1 (by decide) spinning { iterationLimit := some 1 } rfl
  have hvisits : Visits (.block spinning) { iterationLimit := some 1 }
      (.repeating (.anonymous 1) .unknown [] 1)
      (inside none (inside (some "a") { iterationLimit := some 1 })) :=
    .step (.step (.step (.step (.step (.step .here .head) .enter) .body) .head) .enter)
      (.again .nil rfl)
  exact ⟨hresults.1, _, hvisits, hresults.2.2.2 _ _ _ _ _ hvisits⟩

end LoopScript.Exec
