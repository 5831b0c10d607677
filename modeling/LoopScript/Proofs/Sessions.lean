import LoopScript.Proofs.Pauses
import LoopScript.Proofs.TypedLines

/-! Sessions agree with runs of whole texts. The lines of an accepted program without READ that pauses at
the ends of its lines are gathered and run in chunks, none of them is taken for a command, and if the
program runs without failure as one text, so do its chunks: with the same lines printed and the same
bindings at the end. -/

namespace LoopScript.Session

open Text (EndsLine ofLines)
open Interpreter (Accepts seen)
open Exec (Runs endMachine)

/-! ### What is done about the lines of a session -/

/-- A line is obeyed as a command, gathered, or it completes a text that is run. -/
inductive Deed where
  | obeys (text : String)
  | gathers
  | evaluates (source : String)

/-- What is done about a line. -/
def deed (session : Session) (line : String) : Deed :=
  let source := session.buffer ++ line ++ "\n"
  if session.buffer.isEmpty && ":".isPrefixOf (Text.trim line) then .obeys (Text.trim line)
  else if isComplete source then .evaluates source
  else .gathers

/-- Does it: a text that is completed is run in place of the lines that were gathered. -/
def carryOut (fuel : Nat) (line : String) (session : Session) : Deed → Option Reply
  | .obeys text => some (session.command text)
  | .gathers => some (.proceed { session with buffer := session.buffer ++ line ++ "\n" })
  | .evaluates source => ({ session with buffer := source }.evaluate fuel).map .proceed

/-- The texts that are run, in order. -/
def evaluated (deeds : List Deed) : List String :=
  deeds.filterMap fun
    | .evaluates source => some source
    | .gathers => none
    | .obeys _ => none

def withUnread (session : Session) (bytes : List UInt8) : Session :=
  let machine := session.interpreter.machine
  let machine := { machine with input := { machine.input with unread := bytes } }
  { session with interpreter := session.interpreter.withMachine machine }

/-- What comes of a line, given what comes of the lines behind it. -/
def resume (later : Session → List Deed × Option Ending) : Option Reply → List Deed × Option Ending
  | none => ([], none)
  | some (.quit session) => ([], some (.closed session))
  | some (.proceed session) => later session

/-- A session within a budget of lines: what is done about its lines, and how it ends. -/
def traced (fuel : Nat) : (lines : Nat) → Session → List Deed × Option Ending
  | 0, _ => ([], none)
  | lines + 1, session =>
      match session.interpreter.machine.input.unread with
      | [] => ([], some (.closed (session.say farewell)))
      | byte :: rest =>
          let session := session.withUnread (NumberInput.cutLine (byte :: rest)).2
          match NumberInput.decode? (NumberInput.cutLine (byte :: rest)).1 with
          | none => ([], some (.unreadable session))
          | some text =>
              let line := dropLineEnd text
              let later := resume (traced fuel lines) (session.feed fuel line)
              (session.deed line :: later.1, later.2)

/-- It ends as it does when nobody looks on. -/
theorem traced_snd (fuel lines : Nat) (session : Session) :
    (traced fuel lines session).2 = run fuel lines session := by
  induction lines generalizing session with
  | zero => rfl
  | succ lines ih =>
      have hresume : ∀ reply, (resume (traced fuel lines) reply).2 =
          match reply with
          | none => none
          | some (.quit session) => some (.closed session)
          | some (.proceed session) => run fuel lines session := by
        intro reply
        match reply with
        | none => rfl
        | some (.quit session) => rfl
        | some (.proceed session) => exact ih session
      rw [traced, run]
      cases session.interpreter.machine.input.unread with
      | nil => rfl
      | cons byte rest =>
          dsimp only
          cases NumberInput.decode? (NumberInput.cutLine (byte :: rest)).1 with
          | none => rfl
          | some text => exact hresume _

theorem feed_eq (fuel : Nat) (line : String) (session : Session) :
    session.feed fuel line = session.carryOut fuel line (session.deed line) := by
  rw [feed, deed]
  by_cases hcommand : (session.buffer.isEmpty && ":".isPrefixOf (Text.trim line)) = true
  · rw [if_pos hcommand, if_pos hcommand, carryOut]
  · rw [if_neg hcommand, if_neg hcommand]
    by_cases hcomplete : isComplete (session.buffer ++ line ++ "\n") = true
    · simp only [if_pos hcomplete, carryOut]
    · simp only [if_neg hcomplete, carryOut]

/-! ### Reading lines -/

theorem traced_of_no_line {session : Session}
    (h : typedLines session.interpreter.machine.input.unread = some []) (fuel lines : Nat) :
    traced fuel (lines + 1) session = ([], some (.closed (session.say farewell))) := by
  rw [traced]
  cases hunread : session.interpreter.machine.input.unread with
  | nil => rfl
  | cons byte rest =>
      rw [hunread, typedLines] at h
      cases hdecode : NumberInput.decode? (NumberInput.cutLine (byte :: rest)).1 with
      | none =>
          rw [hdecode] at h
          cases h
      | some text =>
          rw [hdecode] at h
          obtain ⟨lines, -, hlines⟩ := Option.map_eq_some_iff.mp h
          cases hlines

theorem traced_of_line {session : Session} {line : String} {more : List String}
    (h : typedLines session.interpreter.machine.input.unread = some (line :: more)) :
    ∃ bytes, typedLines bytes = some more ∧ ∀ fuel lines,
      traced fuel (lines + 1) session =
        ((session.withUnread bytes).deed line ::
            (resume (traced fuel lines) ((session.withUnread bytes).feed fuel line)).1,
          (resume (traced fuel lines) ((session.withUnread bytes).feed fuel line)).2) := by
  cases hunread : session.interpreter.machine.input.unread with
  | nil =>
      rw [hunread, typedLines] at h
      cases h
  | cons byte rest =>
      rw [hunread, typedLines] at h
      cases hdecode : NumberInput.decode? (NumberInput.cutLine (byte :: rest)).1 with
      | none =>
          rw [hdecode] at h
          cases h
      | some text =>
          rw [hdecode] at h
          obtain ⟨others, hothers, hlines⟩ := Option.map_eq_some_iff.mp h
          obtain ⟨rfl, rfl⟩ := List.cons.inj hlines
          refine ⟨_, hothers, fun fuel lines => ?_⟩
          rw [traced, hunread]
          simp only [hdecode]

/-! ### Running a chunk -/

theorem runSource_mono {source : String} {interpreter : Interpreter} {fuel fuel' : Nat}
    {ending : Except Diagnostic Unit × Interpreter} (hfuel : fuel ≤ fuel')
    (h : interpreter.runSource fuel source = some ending) :
    interpreter.runSource fuel' source = some ending := by
  rw [Interpreter.runSource] at h ⊢
  cases hparse : Parser.parse source interpreter.machine.log with
  | error failure state =>
      rw [hparse] at h
      cases failure <;> exact h
  | ok program state =>
      simp only [hparse] at h ⊢
      cases hcheck : Interpreter.checkProgram program
          (interpreter.withMachine { interpreter.machine with log := state.log }) with
      | mk report checked =>
          simp only [hcheck] at h ⊢
          cases report with
          | some report => exact h
          | none =>
              simp only [Interpreter.execute, Option.map_map, Option.map_eq_some_iff] at h ⊢
              obtain ⟨outcome, hrun, hending⟩ := h
              exact ⟨outcome, Exec.block_mono hfuel hrun, hending⟩

theorem evaluate_mono {session after : Session} {fuel fuel' : Nat} (hfuel : fuel ≤ fuel')
    (h : session.evaluate fuel = some after) : session.evaluate fuel' = some after := by
  by_cases hblank : (Text.trim session.buffer).isEmpty = true
  · rw [evaluate, if_pos hblank] at h ⊢
    exact h
  · rw [evaluate, if_neg hblank] at h ⊢
    obtain ⟨ending, hrun, hafter⟩ := Option.map_eq_some_iff.mp h
    exact Option.map_eq_some_iff.mpr ⟨ending, runSource_mono hfuel hrun, hafter⟩

theorem evaluate_unique {session after other : Session} {fuel fuel' : Nat}
    (h : session.evaluate fuel = some after) (hother : session.evaluate fuel' = some other) :
    after = other := by
  have hafter := evaluate_mono (le_max_left fuel fuel') h
  have hsame := evaluate_mono (le_max_right fuel fuel') hother
  exact Option.some.inj (hafter.symm.trans hsame)

theorem isBlank_of_trim {source : String} (h : (Text.trim source).isEmpty = true) :
    ∀ c ∈ source.toList, Text.isBlank c = true := by
  have hempty : (Text.trim source).toList = [] := by
    rw [String.isEmpty_iff.mp h]
    rfl
  rw [Text.trim, String.toList_ofList, List.reverse_eq_nil_iff, List.dropWhile_eq_nil_iff] at hempty
  intro c hc
  have hsplit : source.toList.takeWhile Text.isBlank ++ source.toList.dropWhile Text.isBlank =
      source.toList := List.takeWhile_append_dropWhile
  rw [← hsplit, List.mem_append] at hc
  rcases hc with hfront | hback
  · exact List.mem_takeWhile_imp hfront
  · exact hempty c (List.mem_reverse.mpr hback)

theorem bodyTokens_of_blank {source : String} (h : (Text.trim source).isEmpty = true)
    (hlexed : Lexed source) : bodyTokens source = [] := by
  have hrun := Lexicon.blankRun_of_isBlank (isBlank_of_trim h) []
  rw [List.append_nil] at hrun
  obtain ⟨ts, hts⟩ := Lexicon.lexed_iff.mp hlexed
  obtain ⟨us, hus, hsame⟩ := hts.skip_blanks hrun
  rw [Lexicon.bodyTokens_of_segments hts, ← hsame, hus.eq_nil rfl]
  rfl

theorem body_eq_nil_of_blank {source : String} {program : Program}
    (h : (Text.trim source).isEmpty = true) (haccepts : Accepts source program) : program.body = [] := by
  obtain ⟨hlexed, hbody⟩ := lexed_of_accepts haccepts
  rw [bodyTokens_of_blank h hlexed] at hbody
  exact hbody.eq_nil

/-- A run of an accepted text ends as a run of its statements does. -/
theorem outcome_of_runSource {source : String} {program : Program} (haccepts : Accepts source program)
    {interpreter after : Interpreter} {fuel : Nat} {result : Except Diagnostic Unit}
    (h : interpreter.runSource fuel source = some (result, after)) :
    ∃ outcome, Runs (.block program.body) interpreter.machine.quiet outcome ∧
      interpreter.ending source outcome = (result, after.machine.quiet, after.sourceFile) := by
  have hseen : seen (interpreter.runSource fuel source) =
      some (result, after.machine.quiet, after.sourceFile) := by
    rw [h]
    rfl
  rw [Interpreter.seen_runSource haccepts] at hseen
  obtain ⟨outcome, hrun, hlast⟩ := Option.map_eq_some_iff.mp hseen
  exact ⟨outcome, Exec.runs_of_block hrun, hlast⟩

theorem input_of_runSource {source : String} {program : Program} (haccepts : Accepts source program)
    (hfree : Stmt.ReadFreeBlock program.body) {interpreter after : Interpreter} {fuel : Nat}
    {result : Except Diagnostic Unit} (h : interpreter.runSource fuel source = some (result, after)) :
    after.machine.input = interpreter.machine.input := by
  obtain ⟨outcome, hruns, hlast⟩ := outcome_of_runSource haccepts h
  have hinput : (endMachine outcome).input = interpreter.machine.quiet.input :=
    Exec.input_of_runs hruns hfree
  have hfinish : (Interpreter.finish outcome).2.input = (endMachine outcome).input := by
    match outcome with
    | .error report last => rfl
    | .ok .completed last => rfl
    | .ok (.broke label) last => rfl
  obtain ⟨-, hstate⟩ := Prod.mk.inj hlast
  obtain ⟨hmachine, -⟩ := Prod.mk.inj hstate
  calc after.machine.input
      = after.machine.quiet.input := rfl
    _ = (Interpreter.finish outcome).2.input := congrArg Machine.input hmachine.symm
    _ = (endMachine outcome).input := hfinish
    _ = interpreter.machine.input := hinput

/-- A chunk without READ leaves what is typed behind it alone. -/
theorem input_of_evaluate {session after : Session} {source : String} {program : Program} {fuel : Nat}
    (haccepts : Accepts source program) (hfree : Stmt.ReadFreeBlock program.body)
    (h : { session with buffer := source }.evaluate fuel = some after) :
    after.buffer = "" ∧ after.interpreter.machine.input = session.interpreter.machine.input := by
  rw [evaluate] at h
  split at h
  · obtain rfl := Option.some.inj h
    exact ⟨rfl, rfl⟩
  · obtain ⟨⟨result, interpreter⟩, hrun, hafter⟩ := Option.map_eq_some_iff.mp h
    have hinput := input_of_runSource haccepts hfree hrun
    cases result with
    | ok =>
        obtain rfl := hafter
        exact ⟨rfl, hinput⟩
    | error report =>
        obtain rfl := hafter
        exact ⟨rfl, hinput⟩

/-! ### What a session does -/

/-- The session with one more line gathered, and these bytes to be read behind it. -/
def gathering (session : Session) (line : String) (bytes : List UInt8) : Session :=
  { session.withUnread bytes with buffer := session.buffer ++ line ++ "\n" }

/-- No line of an accepted program is obeyed: it is gathered, and run with the others if that completes
them. -/
theorem traced_of_typing {session : Session} {line : String} {more : List String} {program : Program}
    (htyped : typedLines session.interpreter.machine.input.unread = some (line :: more))
    (h : Typing session.buffer (line :: more) program) :
    ∃ bytes, typedLines bytes = some more ∧ ∀ fuel budget,
      traced fuel (budget + 1) session =
        if isComplete (session.buffer ++ line ++ "\n") then
          match (session.gathering line bytes).evaluate fuel with
          | none => ([.evaluates (session.buffer ++ line ++ "\n")], none)
          | some after =>
              (.evaluates (session.buffer ++ line ++ "\n") :: (traced fuel budget after).1,
                (traced fuel budget after).2)
        else
          (.gathers :: (traced fuel budget (session.gathering line bytes)).1,
            (traced fuel budget (session.gathering line bytes)).2) := by
  obtain ⟨bytes, hbytes, htraced⟩ := traced_of_line htyped
  refine ⟨bytes, hbytes, fun fuel budget => ?_⟩
  have hplain : (session.buffer.isEmpty && ":".isPrefixOf (Text.trim line)) = false := by
    cases hempty : session.buffer.isEmpty with
    | false => rfl
    | true =>
        rw [String.isEmpty_iff.mp hempty] at h
        exact h.not_command
  have hdeed : (session.withUnread bytes).deed line =
      if isComplete (session.buffer ++ line ++ "\n") then .evaluates (session.buffer ++ line ++ "\n")
      else .gathers := by
    change (if (session.buffer.isEmpty && ":".isPrefixOf (Text.trim line)) = true then _ else _) = _
    rw [hplain]
    rfl
  rw [htraced, feed_eq, hdeed]
  by_cases hcomplete : isComplete (session.buffer ++ line ++ "\n") = true
  · simp only [if_pos hcomplete]
    change (_ :: (resume _ (((session.gathering line bytes).evaluate fuel).map .proceed)).1,
      (resume _ (((session.gathering line bytes).evaluate fuel).map .proceed)).2) = _
    cases (session.gathering line bytes).evaluate fuel <;> rfl
  · simp only [if_neg hcomplete]
    rfl

theorem runSource_of_evaluate {session : Session} {fuel : Nat} (h : session.evaluate fuel = none) :
    session.interpreter.runSource fuel session.buffer = none := by
  rw [evaluate] at h
  split at h
  · cases h
  · exact Option.map_eq_none_iff.mp h

/-- In a session on the lines of an accepted program, no line is obeyed and the chunks are run one after
the other. All of them have been run when the session ends, and only the run of a chunk can keep it from
ending. -/
theorem traced_spec {session : Session} {lines : List String} {program : Program}
    (htyped : typedLines session.interpreter.machine.input.unread = some lines)
    (h : Typing session.buffer lines program) (fuel budget : Nat) :
    (∀ text, .obeys text ∉ (traced fuel budget session).1) ∧
      evaluated (traced fuel budget session).1 <+: chunks session.buffer lines ∧
      (∀ ending, (traced fuel budget session).2 = some ending →
        evaluated (traced fuel budget session).1 = chunks session.buffer lines ∧
          ∃ last, ending = .closed last) ∧
      ((traced fuel budget session).2 = none → lines.length < budget →
        ∃ chunk ∈ evaluated (traced fuel budget session).1, ∃ interpreter : Interpreter,
          interpreter.runSource fuel chunk = none) := by
  induction budget generalizing session lines program with
  | zero =>
      rw [traced]
      exact ⟨fun _ => List.not_mem_nil, List.nil_prefix,
        fun _ hending => absurd hending.symm (Option.some_ne_none _),
        fun _ hbudget => absurd hbudget (Nat.not_lt_zero _)⟩
  | succ budget ih =>
      cases lines with
      | nil =>
          rw [traced_of_no_line htyped]
          refine ⟨fun _ => List.not_mem_nil, List.nil_prefix, fun ending hending => ?_,
            fun hnone => absurd hnone (Option.some_ne_none _)⟩
          exact ⟨rfl, _, (Option.some.inj hending).symm⟩
      | cons line more =>
          obtain ⟨bytes, hbytes, htraced⟩ := traced_of_typing htyped h
          rw [htraced, chunks]
          by_cases hcomplete : isComplete (session.buffer ++ line ++ "\n") = true
          · obtain ⟨program₁, program₂, haccepts, hfree, hlater, -⟩ := h.evaluate hcomplete
            simp only [if_pos hcomplete]
            cases heval : (session.gathering line bytes).evaluate fuel with
            | none =>
                have hrun := runSource_of_evaluate heval
                refine ⟨by simp, List.prefix_append [_] _,
                  fun _ hending => absurd hending.symm (Option.some_ne_none _), fun _ _ => ?_⟩
                exact ⟨(session.gathering line bytes).buffer, List.mem_singleton_self _,
                  (session.gathering line bytes).interpreter, hrun⟩
            | some after =>
                obtain ⟨hbuffer, hinput⟩ := input_of_evaluate haccepts hfree heval
                have hunread : typedLines after.interpreter.machine.input.unread = some more := by
                  rw [hinput]
                  exact hbytes
                obtain ⟨hobeys, hfront, hend, hnone⟩ := ih hunread (hbuffer ▸ hlater)
                rw [hbuffer] at hfront hend
                refine ⟨by simpa using hobeys, (List.prefix_cons_inj _).mpr hfront,
                  fun ending hending => ?_, fun hending hbudget => ?_⟩
                · obtain ⟨hall, hclosed⟩ := hend ending hending
                  exact ⟨congrArg _ hall, hclosed⟩
                · obtain ⟨chunk, hchunk, hruns⟩ := hnone hending (by simpa using hbudget)
                  exact ⟨chunk, List.mem_cons_of_mem _ hchunk, hruns⟩
          · have hlater := h.gather (Bool.eq_false_iff.mpr hcomplete)
            have hunread : typedLines (session.gathering line bytes).interpreter.machine.input.unread =
                some more := hbytes
            obtain ⟨hobeys, hfront, hend, hnone⟩ := ih hunread hlater
            simp only [if_neg hcomplete]
            exact ⟨by simpa using hobeys, hfront, hend, fun hending hbudget =>
              hnone hending (by simpa using hbudget)⟩

/-! ### Sessions beside a run of the whole text -/

/-- The machine of a session is that of a run of the whole text, but for the input and for the lines that
the session has shown before. -/
structure InStep (session : Session) (machine : Machine) (shown : List String) : Prop where
  machine_eq : ∃ input, session.interpreter.machine.quiet = machine.recast input shown
  loops_eq : machine.loops = []
  blocked_eq : machine.output.blocked = none

theorem InStep.gathering {session : Session} {machine : Machine} {shown : List String}
    (h : InStep session machine shown) (line : String) (bytes : List UInt8) :
    InStep (session.gathering line bytes) machine shown where
  machine_eq := by
    obtain ⟨input, hmachine⟩ := h.machine_eq
    exact ⟨{ input with unread := bytes }, congrArg
      (fun machine : Machine => { machine with input := { machine.input with unread := bytes } }) hmachine⟩
  loops_eq := h.loops_eq
  blocked_eq := h.blocked_eq

/-- A chunk is run in step with its statements. -/
theorem InStep.evaluate {session : Session} {machine middle : Machine} {shown : List String}
    {program : Program} (h : InStep session machine shown) (haccepts : Accepts session.buffer program)
    (hfree : Stmt.ReadFreeBlock program.body)
    (hruns : Runs (.block program.body) machine (.ok .completed middle)) :
    ∃ least after, session.evaluate least = some after ∧ after.reports = session.reports ∧
      InStep after middle shown := by
  obtain ⟨input, hmachine⟩ := h.machine_eq
  have hloops : middle.loops = machine.loops := Exec.balanced_of_runs hruns
  have hblocked : middle.output.blocked = machine.output.blocked := Exec.blocked_of_runs hruns
  have hstep : ∀ after : Session, after.interpreter.machine.quiet = middle.recast input shown →
      InStep after middle shown := fun after hafter =>
    ⟨⟨input, hafter⟩, hloops.trans h.loops_eq, hblocked.trans h.blocked_eq⟩
  by_cases hblank : (Text.trim session.buffer).isEmpty = true
  · rw [body_eq_nil_of_blank hblank haccepts] at hruns
    cases hruns
    exact ⟨0, _, if_pos hblank, rfl, hstep _ hmachine⟩
  · have hsession : Runs (.block program.body) session.interpreter.machine.quiet
        (.ok .completed (middle.recast input shown)) := by
      rw [hmachine]
      exact Exec.runs_recast input shown hruns hfree
    have hidle : session.interpreter.machine.quiet.loops = [] := by
      rw [hmachine]
      exact h.loops_eq
    obtain ⟨least, hleast⟩ := Exec.runs_iff.mp hsession
    have hseen := Interpreter.seen_runSource haccepts least session.interpreter
    rw [Exec.within] at hleast
    rw [hleast] at hseen
    obtain ⟨⟨result, interpreter⟩, hrun, hlast⟩ := Option.map_eq_some_iff.mp hseen
    obtain ⟨hresult, hstate⟩ := Prod.mk.inj hlast
    obtain rfl : result = .ok () := hresult
    have hcompleted := Interpreter.completed_of_runs hidle hsession hlast.symm
    refine ⟨least, { session with buffer := "", interpreter := interpreter }, ?_, rfl,
      hstep _ (EStateM.Result.ok.inj hcompleted).2.symm⟩
    rw [Session.evaluate, if_neg hblank, hrun]
    rfl

theorem runs_cut {stmts others : List Stmt} {move : Location → Location} {machine final : Machine}
    (h : Runs (.block (stmts ++ Stmt.relocateBlock move others)) machine (.ok .completed final)) :
    ∃ middle, Runs (.block stmts) machine (.ok .completed middle) ∧
      Runs (.block others) middle (.ok .completed final) := by
  rcases Exec.runs_append.mp h with ⟨middle, hmiddle, hrest⟩ | ⟨-, hstops⟩
  · obtain ⟨outcome, houtcome, hlast⟩ := Exec.runs_relocate.mp hrest
    cases outcome with
    | error report after => cases hlast
    | ok flow after =>
        obtain ⟨rfl, rfl⟩ := EStateM.Result.ok.inj hlast
        exact ⟨middle, hmiddle, houtcome⟩
  · exact absurd rfl (hstops final)

/-- While the statements of the whole text run without failure, a session keeps in step with them over a
line: what it does afterwards is what it does from there, unless the fuel is too little for the line. -/
theorem inStep_of_line {session : Session} {line : String} {more : List String} {program : Program}
    {machine final : Machine} {shown : List String}
    (htyped : typedLines session.interpreter.machine.input.unread = some (line :: more))
    (h : Typing session.buffer (line :: more) program) (hstep : InStep session machine shown)
    (hruns : Runs (.block program.body) machine (.ok .completed final)) :
    ∃ least next program' machine', typedLines next.interpreter.machine.input.unread = some more ∧
      Typing next.buffer more program' ∧ InStep next machine' shown ∧
      Runs (.block program'.body) machine' (.ok .completed final) ∧ next.reports = session.reports ∧
      (∀ fuel budget, least ≤ fuel →
        (traced fuel (budget + 1) session).2 = (traced fuel budget next).2) ∧
      ∀ fuel budget ending, (traced fuel (budget + 1) session).2 = some ending →
        (traced fuel budget next).2 = some ending := by
  obtain ⟨bytes, hbytes, htraced⟩ := traced_of_typing htyped h
  have hgathering := hstep.gathering line bytes
  by_cases hcomplete : isComplete (session.buffer ++ line ++ "\n") = true
  · obtain ⟨program₁, program₂, haccepts, hfree, hlater, hbody⟩ := h.evaluate hcomplete
    rw [hbody] at hruns
    obtain ⟨middle, hmiddle, hrest⟩ := runs_cut hruns
    obtain ⟨least, after, hafter, hreports, hafterStep⟩ := hgathering.evaluate haccepts hfree hmiddle
    obtain ⟨hbuffer, hinput⟩ := input_of_evaluate haccepts hfree hafter
    have hunread : typedLines after.interpreter.machine.input.unread = some more := by
      rw [hinput]
      exact hbytes
    simp only [if_pos hcomplete] at htraced
    refine ⟨least, after, program₂, middle, hunread, hbuffer ▸ hlater, hafterStep, hrest, hreports,
      fun fuel budget hfuel => ?_, fun fuel budget ending hending => ?_⟩
    · rw [htraced, evaluate_mono hfuel hafter]
    · rw [htraced] at hending
      cases hevaluate : (session.gathering line bytes).evaluate fuel with
      | none =>
          rw [hevaluate] at hending
          cases hending
      | some other =>
          obtain rfl := evaluate_unique hafter hevaluate
          rw [hevaluate] at hending
          exact hending
  · have hlater := h.gather (Bool.eq_false_iff.mpr hcomplete)
    simp only [if_neg hcomplete] at htraced
    refine ⟨0, session.gathering line bytes, program, machine, hbytes, hlater, hgathering, hruns, rfl,
      fun fuel budget _ => ?_, fun fuel budget ending hending => ?_⟩
    · rw [htraced]
    · rw [htraced] at hending
      exact hending

/-- While the statements of the whole text run without failure, a session on its lines keeps in step with
them up to the end, and reports nothing. -/
theorem inStep_of_typing {session : Session} {lines : List String} {program : Program}
    {machine final : Machine} {shown : List String}
    (htyped : typedLines session.interpreter.machine.input.unread = some lines)
    (h : Typing session.buffer lines program) (hstep : InStep session machine shown)
    (hruns : Runs (.block program.body) machine (.ok .completed final)) :
    (∃ least, ∀ fuel budget, least ≤ fuel → lines.length < budget →
      ∃ ending, (traced fuel budget session).2 = some ending) ∧
    ∀ fuel budget last, (traced fuel budget session).2 = some (.closed last) →
      ∃ before, last = before.say farewell ∧ before.reports = session.reports ∧
        InStep before final shown := by
  induction lines generalizing session program machine with
  | nil =>
      have hbody : program.body = [] := by
        have haccepts := h.accepts
        rw [h.gathered_eq] at haccepts
        exact body_eq_nil_of_blank (by decide) haccepts
      rw [hbody] at hruns
      cases hruns
      constructor
      · refine ⟨0, fun fuel budget _ hbudget => ?_⟩
        obtain ⟨budget, rfl⟩ := Nat.exists_eq_succ_of_ne_zero (Nat.ne_of_gt hbudget)
        rw [traced_of_no_line htyped]
        exact ⟨_, rfl⟩
      · intro fuel budget last hlast
        cases budget with
        | zero => cases hlast
        | succ budget =>
            rw [traced_of_no_line htyped] at hlast
            exact ⟨session, (Ending.closed.inj (Option.some.inj hlast)).symm, rfl, hstep⟩
  | cons line more ih =>
      obtain ⟨least, next, program', machine', hunread, hlater, hnext, hrest, hreports, hends, hending⟩ :=
        inStep_of_line htyped h hstep hruns
      obtain ⟨⟨enough, hmore⟩, hlast⟩ := ih hunread hlater hnext hrest
      constructor
      · refine ⟨max least enough, fun fuel budget hfuel hbudget => ?_⟩
        obtain ⟨budget, rfl⟩ := Nat.exists_eq_succ_of_ne_zero (Nat.ne_zero_of_lt hbudget)
        rw [hends fuel budget (by omega)]
        exact hmore fuel budget (by omega) (by simpa using hbudget)
      · intro fuel budget last hclosed
        cases budget with
        | zero => cases hclosed
        | succ budget =>
            obtain ⟨before, hsay, hsilent, hbefore⟩ := hlast fuel budget last (hending _ _ _ hclosed)
            exact ⟨before, hsay, hsilent.trans hreports, hbefore⟩

/-! ### Whole sessions -/

theorem foldl_writeLine (printed lines : List String) :
    lines.foldl (fun (output : Output) line => (output.writeLine line).toOption.getD output)
      ⟨printed, none⟩ = ⟨lines.reverse ++ printed, none⟩ := by
  induction lines generalizing printed with
  | nil => rfl
  | cons line lines ih =>
      rw [List.foldl_cons, List.reverse_cons, List.append_assoc]
      exact ih (line :: printed)

/-- What is left of a session that has kept in step, once it has said goodbye. -/
theorem InStep.say_farewell {session : Session} {machine : Machine} {shown : List String}
    (h : InStep session machine shown) :
    (session.say farewell).interpreter.machine.symbols = machine.symbols ∧
      (session.say farewell).interpreter.machine.output.lines =
        shown.reverse ++ machine.output.lines ++ farewell := by
  obtain ⟨input, hmachine⟩ := h.machine_eq
  have hsymbols : session.interpreter.machine.quiet.symbols = machine.symbols := by
    rw [hmachine]
    rfl
  have houtput : session.interpreter.machine.quiet.output =
      ⟨machine.output.printed ++ shown, none⟩ := by
    rw [hmachine, ← h.blocked_eq]
    rfl
  refine ⟨hsymbols, ?_⟩
  change (farewell.foldl _ session.interpreter.machine.quiet.output).lines = _
  rw [houtput, foldl_writeLine]
  simp [Output.lines]

/-- A session at its start, with these bytes to be read. -/
def start (settings : RunSettings) (bytes : List UInt8) : Session :=
  ({ interpreter := (Interpreter.ofSettings settings).setInput bytes, settings := settings } : Session).say
    banner

theorem inStep_start (settings : RunSettings) (bytes other : List UInt8) :
    InStep (start settings bytes) ((Interpreter.ofSettings settings).setInput other).machine.quiet
      banner.reverse :=
  ⟨⟨{ unread := bytes }, rfl⟩, rfl, rfl⟩

/-- **Sessions and runs.** What is noted about a line that is fed to a session is what the session does.
The lines of an accepted program without READ are typed in, and wherever they leave no construct open, a
semicolon comes last. Then no line is obeyed as a command. The texts that are run are accepted and, one
behind the other, are the whole text; all of them have been run when the session ends, and it goes on for
ever only if one of them does. If the program runs without failure as one text,
the session ends without reports, its output is that of the program between its first and its last words,
and it leaves the same bindings. -/
theorem sessions_agree_with_runs (settings : RunSettings) (bytes : List UInt8) (lines : List String)
    (program : Program) (htyped : typedLines bytes = some lines) (haccepts : Accepts (ofLines lines) program)
    (hreadFree : ∀ token ∈ bodyTokens (ofLines lines), token.kind ≠ .readWord)
    (hpauses : ∀ i, Pauses (ofLines (lines.take i))) :
    (∀ fuel line (session : Session),
      session.feed fuel line = session.carryOut fuel line (session.deed line)) ∧
    ∃ parts : List String, String.join parts = ofLines lines ∧
      (∀ part ∈ parts, ∃ program, Accepts part program) ∧
      (∀ fuel budget deeds ending, traced fuel budget (start settings bytes) = (deeds, ending) →
        run fuel budget (start settings bytes) = ending ∧ (∀ text, .obeys text ∉ deeds) ∧
        evaluated deeds <+: parts ∧
        (∀ last, ending = some last → evaluated deeds = parts ∧ ∃ session, last = .closed session) ∧
        (ending = none → lines.length < budget →
          ∃ part ∈ evaluated deeds, ∃ interpreter : Interpreter, interpreter.runSource fuel part = none)) ∧
      ∀ other enough after,
        ((Interpreter.ofSettings settings).setInput other).runSource enough (ofLines lines) =
          some (.ok (), after) →
        (∃ least, ∀ fuel budget, least ≤ fuel → lines.length < budget →
          ∃ last, run fuel budget (start settings bytes) = some (.closed last)) ∧
        ∀ fuel budget last, run fuel budget (start settings bytes) = some (.closed last) →
          last.reports = [] ∧ last.interpreter.machine.symbols = after.machine.symbols ∧
          last.interpreter.machine.output.lines = banner ++ after.machine.output.lines ++ farewell := by
  have htyping : Typing "" lines program := by
    constructor
    · rwa [String.empty_append]
    · rwa [String.empty_append]
    · intro i
      rw [String.empty_append]
      exact hpauses i
    · exact .inl rfl
  have hunread : typedLines (start settings bytes).interpreter.machine.input.unread = some lines := htyped
  obtain ⟨hjoin, hparts⟩ := htyping.chunks_spec
  rw [String.empty_append] at hjoin
  refine ⟨feed_eq, chunks "" lines, hjoin, hparts, ?_, ?_⟩
  · intro fuel budget deeds ending htraced
    obtain ⟨hobeys, hfront, hend, hnone⟩ := traced_spec hunread htyping fuel budget
    rw [← traced_snd]
    rw [htraced] at hobeys hfront hend hnone ⊢
    exact ⟨rfl, hobeys, hfront, hend, hnone⟩
  · intro other enough after hrun
    obtain ⟨outcome, hruns, hlast⟩ := outcome_of_runSource haccepts hrun
    obtain rfl := Interpreter.completed_of_runs rfl hruns hlast
    obtain ⟨⟨least, hends⟩, hfinal⟩ :=
      inStep_of_typing hunread htyping (inStep_start settings bytes other) hruns
    constructor
    · refine ⟨least, fun fuel budget hfuel hbudget => ?_⟩
      obtain ⟨ending, hending⟩ := hends fuel budget hfuel hbudget
      obtain ⟨-, session, rfl⟩ := (traced_spec hunread htyping fuel budget).2.2.1 ending hending
      rw [traced_snd] at hending
      exact ⟨session, hending⟩
    · intro fuel budget last hending
      rw [← traced_snd] at hending
      obtain ⟨before, rfl, hreports, hbefore⟩ := hfinal fuel budget last hending
      obtain ⟨hsymbols, houtput⟩ := hbefore.say_farewell
      rw [List.reverse_reverse] at houtput
      exact ⟨hreports, hsymbols, houtput⟩

def loopLines : List String := ["LOOP a:", "BREAK; REPEAT;"]

theorem accepts_loopLines : Accepts (ofLines loopLines)
    { body := [.loop (some "a") [.leave none ⟨2, 1, none⟩] ⟨1, 1, none⟩] } :=
  ⟨⟨⟨⟨[], ⟨3, 1, none⟩, []⟩, {}⟩, by cbv⟩, rfl⟩

theorem bodyTokens_loopLines : bodyTokens (ofLines loopLines) =
    [⟨.loopWord, none, ⟨1, 1, none⟩⟩, ⟨.identifier, some "a", ⟨1, 6, none⟩⟩, ⟨.colon, none, ⟨1, 7, none⟩⟩,
      ⟨.breakWord, none, ⟨2, 1, none⟩⟩, ⟨.semicolon, none, ⟨2, 6, none⟩⟩,
      ⟨.repeatWord, none, ⟨2, 8, none⟩⟩, ⟨.semicolon, none, ⟨2, 14, none⟩⟩] := by
  cbv

theorem pauses_loopLines (i : Nat) : Pauses (ofLines (loopLines.take i)) := by
  match i with
  | 0 =>
      have htokens : bodyTokens (ofLines (loopLines.take 0)) = [] := by cbv
      rw [Pauses, htokens]
      decide
  | 1 =>
      have htokens : bodyTokens (ofLines (loopLines.take 1)) =
          [⟨.loopWord, none, ⟨1, 1, none⟩⟩, ⟨.identifier, some "a", ⟨1, 6, none⟩⟩,
            ⟨.colon, none, ⟨1, 7, none⟩⟩] := by cbv
      rw [Pauses, htokens]
      decide
  | i + 2 =>
      have hwhole : loopLines.take (i + 2) = loopLines := List.take_of_length_le (by simp [loopLines])
      rw [hwhole, Pauses, bodyTokens_loopLines]
      decide

/-- The loop is run when its second line is typed, and the session has nothing else to show. -/
theorem sessions_agree_with_runs_loop :
    ∃ fuel budget last, run fuel budget (start {} (typedBytes loopLines)) = some (.closed last) ∧
      last.reports = [] ∧ last.interpreter.machine.output.lines = banner ++ farewell := by
  have htyped : typedLines (typedBytes loopLines) = some loopLines := typedLines_typedBytes (by decide)
  have hreadFree : ∀ token ∈ bodyTokens (ofLines loopLines), token.kind ≠ .readWord := by
    rw [bodyTokens_loopLines]
    decide
  obtain ⟨-, -, -, -, -, hagree⟩ :=
    sessions_agree_with_runs {} _ loopLines _ htyped accepts_loopLines hreadFree pauses_loopLines
  have hseen : seen (((Interpreter.ofSettings {}).setInput []).runSource 9 (ofLines loopLines)) =
      some (.ok (), (Interpreter.ofSettings {}).machine, none) := by
    rw [Interpreter.seen_runSource accepts_loopLines]
    rfl
  obtain ⟨⟨result, after⟩, hrun, hpair⟩ := Option.map_eq_some_iff.mp hseen
  obtain ⟨rfl, hstate⟩ := Prod.mk.inj hpair
  obtain ⟨hmachine, -⟩ := Prod.mk.inj hstate
  have houtput : after.machine.output.lines = [] := congrArg (fun machine => machine.output.lines) hmachine
  obtain ⟨⟨least, hends⟩, hlast⟩ := hagree [] 9 after hrun
  obtain ⟨last, hclosed⟩ := hends least 3 (Nat.le_refl _) (by decide)
  obtain ⟨hreports, -, hlines⟩ := hlast least 3 last hclosed
  rw [houtput, List.append_nil] at hlines
  exact ⟨least, 3, last, hclosed, hreports, hlines⟩

end LoopScript.Session
