import SpreadAccount.Client.Shell
import SpreadAccount.Lib.Occurrence

set_option autoImplicit false

/-! # The main thread: reading the input

The two loops that feed `processCommand`: `run` reads the console and `runCommandFile` a file. Both
are given the outcomes of the calls of `readLine()` as a list, and end in a `Course`: what they
have read, what they have passed on, and how they ended.

`runCommandFile` passes on the lines it reads and nothing else. `run` keeps the last line in a
variable and passes on what is there also after a read that gave no line; `lines_once_iff` says on
which inputs this makes no difference.
-/

namespace SpreadAccount

open Occurrence (AtEach)

/-- What a call of `readLine()` does: it returns a line, throws an `IOException`, or returns `null`
at the end of the stream. -/
inductive ReadLine where
  | line (text : String)
  | failed
  | endOfStream
  deriving DecidableEq

def ReadLine.text : ReadLine → Option String
  | .line text => some text
  | _ => none

/-- How a loop over the input stands after the given reads. -/
inductive Ending where
  | waiting
  | returned
  | stopped (stop : Stop)
  deriving DecidableEq

/-- The course of a loop over the input: the reads it has made, what it has passed to
`processCommand` (`none` is `null`), how it ended, and the session at that moment. -/
structure Course (D τ : Type) where
  read : List ReadLine
  passed : List (Option String)
  ending : Ending
  session : Session D τ

section

variable {D τ : Type} [Mul D] [NatCast D] [DoubleText D] [DoubleLong D]

/-! ## The interactive loop -/

omit [Mul D] [NatCast D] [DoubleText D] [DoubleLong D] in
/-- The `try` block of the loop of `run`: the variable `command` and the session after it. -/
def readInto (outcome : ReadLine) (command : Option String) (s : Session D τ) :
    Option String × Session D τ :=
  let s := (notify .prompt).after s
  match outcome with
  | .line text => (some text, s)
  | .endOfStream => (none, s)
  | .failed => (command, (notify .readError).after s)

/-- The loop of `run`. The variable `command` keeps its value from one pass to the next. `origin n`
is the identity of the transaction that the `n`-th call of `processCommand` may create. -/
def runLoop (origin : ℕ → τ) (n : ℕ) (command : Option String) (s : Session D τ) :
    List ReadLine → Course D τ
  | [] => ⟨[], [], if s.active then .waiting else .returned, s⟩
  | outcome :: rest =>
      if s.active then
        let (command, s) := readInto outcome command s
        match processCommand command (origin n) s with
        | .ok _ s =>
            let course := runLoop origin (n + 1) command s rest
            { course with
              read := outcome :: course.read
              passed := command :: course.passed }
        | .error stop s => ⟨[outcome], [command], .stopped stop, s⟩
      else ⟨[], [], .returned, s⟩

/-- `run()`. `close` is what closing the console throws, if it throws. -/
def run (close : Option Fault) (origin : ℕ → τ) (s : Session D τ) (input : List ReadLine) :
    Course D τ :=
  runLoop origin 0 none { s with commandLineReader := some close } input

/-! ## The command file -/

omit [Mul D] [NatCast D] [DoubleText D] [DoubleLong D] in
/-- The `catch` block of `runCommandFile`. -/
def commandFileFailed (e : Fault) (s : Session D τ) : Ending × Session D τ :=
  (.stopped (.exited 1), (notify (.commandFileError e)).after s)

omit [Mul D] [NatCast D] [DoubleText D] [DoubleLong D] in
/-- The call of `exit()` after the loop of `runCommandFile`. -/
def commandFileEnd (s : Session D τ) : Ending × Session D τ :=
  match exit s with
  | .ok _ s => (.returned, s)
  | .error (.exited status) s => (.stopped (.exited status), s)
  | .error (.thrown e) s => commandFileFailed (.java e) s

/-- The loop of `runCommandFile`. A file that cannot be opened is one whose first read fails. -/
def fileLoop (origin : ℕ → τ) (n : ℕ) (s : Session D τ) : List ReadLine → Course D τ
  | [] => ⟨[], [], .waiting, s⟩
  | .failed :: _ =>
      let (ending, s) := commandFileFailed .inputOutput s
      ⟨[.failed], [], ending, s⟩
  | .endOfStream :: _ =>
      let (ending, s) := commandFileEnd s
      ⟨[.endOfStream], [], ending, s⟩
  | .line text :: rest =>
      if text = "exit" then
        let (ending, s) := commandFileEnd s
        ⟨[.line text], [], ending, s⟩
      else
        match processCommand (some text) (origin n) s with
        | .ok _ s =>
            let course := fileLoop origin (n + 1) s rest
            { course with
              read := .line text :: course.read
              passed := some text :: course.passed }
        | .error (.exited status) s => ⟨[.line text], [some text], .stopped (.exited status), s⟩
        | .error (.thrown e) s =>
            let (ending, s) := commandFileFailed (.java e) s
            ⟨[.line text], [some text], ending, s⟩

/-- `runCommandFile()`. -/
def runCommandFile (close : Option Fault) (origin : ℕ → τ) (s : Session D τ)
    (input : List ReadLine) : Course D τ :=
  fileLoop origin 0 { s with commandLineReader := some close } input

/-! ## Each line once -/

/-- The lines among the outcomes of the reads, as arguments of `processCommand`. -/
def linesOf (read : List ReadLine) : List (Option String) :=
  (read.filterMap ReadLine.text).map some

/-- Both modes pass on the lines they read, in order, each once and nothing else (a line `exit` of
a file is carried out by the loop itself), both end through `exit()` at the end of the stream, and
both leave the replica in the same state. -/
structure LinesOnce (close : Option Fault) (origin : ℕ → τ) (s : Session D τ)
    (input : List ReadLine) : Prop where
  passed : (run close origin s input).passed = linesOf (run close origin s input).read
  passedFile : (runCommandFile close origin s input).passed
    = (linesOf (runCommandFile close origin s input).read).filter (· ≠ some "exit")
  endOfStream : .endOfStream ∈ (run close origin s input).read →
    (run close origin s input).ending = .stopped (.exited 0)
  endOfStreamFile : .endOfStream ∈ (runCommandFile close origin s input).read →
    (runCommandFile close origin s input).ending = .stopped (.exited 0)
  sameReplica : (run close origin s input).session.toReplica
    = (runCommandFile close origin s input).session.toReplica

/-- The line ends the loop of `run`: it is an `exit`, or `processCommand` does not return from
it. -/
def Stops (D : Type) [Mul D] [NatCast D] [DoubleText D] [DoubleLong D] (text : String) : Prop :=
  (split text)[0]? = some "exit" ∨ ¬ Accepted D text

/-- The condition on the input: a read that gives no line comes only after a line that ends the
loop. -/
def LinesFirst (D : Type) [Mul D] [NatCast D] [DoubleText D] [DoubleLong D]
    (input : List ReadLine) : Prop :=
  AtEach input fun before outcome =>
    outcome.text = none → ∃ text, .line text ∈ before ∧ Stops D text

theorem stops_iff (text : String) (origin : τ) (s : Session D τ) :
    Stops D text ↔ ∃ stop s', processCommand (some text) origin s = .error stop s' := by
  have hreturns := processCommand_returns_iff text origin s
  have hstops : Stops D text ↔ ¬ (Accepted D text ∧ (split text)[0]? ≠ some "exit") := by
    unfold Stops
    tauto
  rw [hstops, ← hreturns]
  cases hp : processCommand (some text) origin s with
  | ok u s' => simp
  | error stop s' => simp

omit [Mul D] [NatCast D] [DoubleText D] [DoubleLong D] in
@[simp] theorem linesOf_line (text : String) (read : List ReadLine) :
    linesOf (.line text :: read) = some text :: linesOf read := rfl

omit [Mul D] [NatCast D] [DoubleText D] [DoubleLong D] in
theorem linesOf_length_le (read : List ReadLine) : (linesOf read).length ≤ read.length := by
  rw [linesOf, List.length_map]
  exact List.length_filterMap_le _ _

/-! ## What the condition says about the first read -/

theorem linesFirst_nil : LinesFirst D [] := Occurrence.atEach_nil

theorem not_linesFirst_of_no_line {outcome : ReadLine} {rest : List ReadLine}
    (h : outcome.text = none) : ¬ LinesFirst D (outcome :: rest) := by
  intro hfirst
  obtain ⟨text, hmem, -⟩ := hfirst [] outcome rest rfl h
  cases hmem

theorem linesFirst_of_stops {text : String} {rest : List ReadLine} (h : Stops D text) :
    LinesFirst D (.line text :: rest) := by
  refine Occurrence.atEach_cons.mpr ⟨fun hnone => ?_, fun before outcome after _ _ => ?_⟩
  · cases hnone
  · exact ⟨text, by simp, h⟩

theorem linesFirst_line_iff {text : String} {rest : List ReadLine} (h : ¬ Stops D text) :
    LinesFirst D (.line text :: rest) ↔ LinesFirst D rest := by
  have hsame : ∀ before : List ReadLine,
      (∃ text', .line text' ∈ .line text :: before ∧ Stops D text')
        ↔ ∃ text', .line text' ∈ before ∧ Stops D text' := by
    intro before
    constructor
    · rintro ⟨text', hmem, hstops⟩
      rcases List.mem_cons.mp hmem with heq | hmem
      · rw [ReadLine.line.inj heq] at hstops
        exact absurd hstops h
      · exact ⟨text', hmem, hstops⟩
    · rintro ⟨text', hmem, hstops⟩
      exact ⟨text', by simp [hmem], hstops⟩
  unfold LinesFirst
  rw [Occurrence.atEach_cons]
  simp only [hsame]
  exact and_iff_right fun hnone => by cases hnone

/-! ## The course of `run` -/

/-- What `processCommand` leaves alone where it returns. -/
theorem active_of_returns {command : Option String} {origin : τ} {s s' : Session D τ}
    (h : processCommand command origin s = .ok () s') : s'.active = s.active := by
  rcases processCommand_cases command origin s with
    ⟨c, s₁, -, hok, hr⟩ | ⟨s₁, -, hr, hok | ⟨e, herr⟩⟩ | ⟨status, active, s₁, herr, -⟩
  · obtain rfl : s₁ = s' := by simpa [hok] using h
    rw [hr, Command.run_after]
  · obtain rfl : s₁ = s' := by simpa [hok] using h
    rw [hr]
  · rw [herr] at h
    cases h
  · rw [herr] at h
    cases h

omit [Mul D] [NatCast D] [DoubleText D] [DoubleLong D] in
@[simp] theorem readInto_active (outcome : ReadLine) (command : Option String)
    (s : Session D τ) : (readInto outcome command s).2.active = s.active := by
  cases outcome <;> rfl

/-- Every read of `run` passes something on. -/
theorem runLoop_length (origin : ℕ → τ) (n : ℕ) (command : Option String) (s : Session D τ)
    (input : List ReadLine) : (runLoop origin n command s input).passed.length
      = (runLoop origin n command s input).read.length := by
  induction input generalizing n command s with
  | nil => rfl
  | cons outcome rest ih =>
      rw [runLoop]
      by_cases hactive : s.active = true
      · rw [if_pos hactive]
        dsimp only
        cases processCommand (readInto outcome command s).1 (origin n)
          (readInto outcome command s).2 with
        | ok u s' =>
            dsimp only
            rw [List.length_cons, List.length_cons, ih]
        | error stop s' => rfl
      · rw [if_neg hactive]
        rfl

/-- **The lines are passed on, and nothing else**, exactly under the condition on the input. -/
theorem runLoop_passed_iff (origin : ℕ → τ) (n : ℕ) (command : Option String) {s : Session D τ}
    (hactive : s.active = true) (input : List ReadLine) :
    (runLoop origin n command s input).passed = linesOf (runLoop origin n command s input).read
      ↔ LinesFirst D input := by
  induction input generalizing n command s with
  | nil => exact iff_of_true rfl linesFirst_nil
  | cons outcome rest ih =>
      cases hout : outcome.text with
      | none =>
          -- a read without a line: what is passed on is longer than what was read
          refine iff_of_false (fun heq => ?_) (not_linesFirst_of_no_line hout)
          have hlen := runLoop_length origin n command s (outcome :: rest)
          have hread : ∃ read, (runLoop origin n command s (outcome :: rest)).read
              = outcome :: read := by
            rw [runLoop, if_pos hactive]
            dsimp only
            cases processCommand (readInto outcome command s).1 (origin n)
              (readInto outcome command s).2 with
            | ok u s' => exact ⟨_, rfl⟩
            | error stop s' => exact ⟨_, rfl⟩
          obtain ⟨read, hread⟩ := hread
          have hnone : linesOf (outcome :: read) = linesOf read := by
            rw [linesOf, List.filterMap_cons_none hout]
            rfl
          have hle := linesOf_length_le read
          rw [hread] at hlen heq
          rw [heq, hnone, List.length_cons] at hlen
          omega
      | some text =>
          obtain rfl : outcome = .line text := by
            cases outcome with
            | line text' => exact congrArg ReadLine.line (Option.some.inj hout)
            | failed => cases hout
            | endOfStream => cases hout
          have hkeep : (readInto (.line text) command s).2.active = true := by
            rw [readInto_active, hactive]
          rw [runLoop, if_pos hactive]
          dsimp only
          have hfst : (readInto (.line text) command s).1 = some text := rfl
          rw [hfst]
          have hstops := stops_iff (D := D) text (origin n) (readInto (.line text) command s).2
          cases hp : processCommand (some text) (origin n) (readInto (.line text) command s).2 with
          | ok u s' =>
              have hgo : ¬ Stops D text := by
                rw [hstops, hp]
                simp
              have hactive' : s'.active = true := (active_of_returns hp).trans hkeep
              dsimp only
              rw [linesOf_line, List.cons.injEq, linesFirst_line_iff hgo,
                ih (n + 1) (some text) hactive']
              exact and_iff_right rfl
          | error stop s' =>
              refine iff_of_true rfl (linesFirst_of_stops ?_)
              rw [hstops, hp]
              exact ⟨stop, s', rfl⟩

/-! ## The course of `runCommandFile` -/

omit [Mul D] [NatCast D] [DoubleText D] [DoubleLong D] in
theorem commandFileEnd_fst (s : Session D τ) : (commandFileEnd s).1 = .stopped (.exited 0) := by
  obtain ⟨notices, hexit⟩ := exit_eq s
  rw [commandFileEnd, hexit]

/-- A command file is passed on line by line, and its end ends the replica through `exit()`. -/
theorem fileLoop_lines (origin : ℕ → τ) (n : ℕ) (s : Session D τ) (input : List ReadLine) :
    (fileLoop origin n s input).passed
        = (linesOf (fileLoop origin n s input).read).filter (· ≠ some "exit")
      ∧ (.endOfStream ∈ (fileLoop origin n s input).read →
          (fileLoop origin n s input).ending = .stopped (.exited 0)) := by
  induction input generalizing n s with
  | nil => exact ⟨rfl, fun h => by cases h⟩
  | cons outcome rest ih =>
      cases outcome with
      | failed => exact ⟨rfl, fun h => by simp [fileLoop] at h⟩
      | endOfStream => exact ⟨rfl, fun _ => commandFileEnd_fst s⟩
      | line text =>
          rw [fileLoop]
          by_cases hexit : text = "exit"
          · rw [if_pos hexit]
            exact ⟨by simp [hexit, linesOf, ReadLine.text], fun h => by simp at h⟩
          · rw [if_neg hexit]
            have hkeep : ∀ read, (linesOf (.line text :: read)).filter (· ≠ some "exit")
                = some text :: (linesOf read).filter (· ≠ some "exit") := by
              intro read
              simp [hexit]
            cases processCommand (some text) (origin n) s with
            | ok u s' =>
                obtain ⟨hpassed, hend⟩ := ih (n + 1) s'
                dsimp only
                refine ⟨?_, fun h => hend ?_⟩
                · rw [hkeep, ← hpassed]
                · simpa using h
            | error stop s' =>
                cases stop with
                | thrown e => exact ⟨(hkeep []).symm, fun h => by simp at h⟩
                | exited status => exact ⟨(hkeep []).symm, fun h => by simp at h⟩

/-! ## The two modes side by side -/

omit [Mul D] [NatCast D] [DoubleText D] [DoubleLong D] in
/-- The sessions differ in what the main thread has printed at most. -/
def Alike (s t : Session D τ) : Prop := ∃ notices, t = { s with notices := notices }

/-- What has been printed does not change what a command does. -/
theorem processCommand_alike {s t : Session D τ} (h : Alike s t) (command : Option String)
    (origin : τ) :
    (∃ s' t', processCommand command origin s = .ok () s'
        ∧ processCommand command origin t = .ok () t' ∧ Alike s' t')
      ∨ ∃ stop s' t', processCommand command origin s = .error stop s'
        ∧ processCommand command origin t = .error stop t' ∧ Alike s' t' := by
  obtain ⟨notices, rfl⟩ := h
  cases command with
  | none => exact Or.inr ⟨_, _, _, rfl, rfl, notices, rfl⟩
  | some line =>
      rw [processCommand_eq, processCommand_eq]
      cases (readOrder line : Except JavaException (Order D)) with
      | error e => exact Or.inr ⟨_, _, _, rfl, rfl, notices, rfl⟩
      | ok order =>
          cases order with
          | command c =>
              exact Or.inl ⟨_, _, call_command c origin _, call_command c origin _, notices, rfl⟩
          | sleep seconds =>
              obtain ⟨before, hbefore⟩ := sleep_eq seconds s
              obtain ⟨after, hafter⟩ := sleep_eq seconds { s with notices := notices }
              by_cases hneg : DoubleLong.toLong (seconds * (1000 : ℕ)) < 0
              · rw [if_pos hneg] at hbefore hafter
                exact Or.inr ⟨_, _, _, hbefore, hafter, after, rfl⟩
              · rw [if_neg hneg] at hbefore hafter
                exact Or.inl ⟨_, _, hbefore, hafter, after, rfl⟩
          | exit =>
              obtain ⟨before, hbefore⟩ := exit_eq s
              obtain ⟨after, hafter⟩ := exit_eq { s with notices := notices }
              exact Or.inr ⟨_, _, _, hbefore, hafter, after, rfl⟩
          | invalid word => exact Or.inl ⟨_, _, rfl, rfl, _, rfl⟩

/-- On the same lines the two modes do the same to the replica. -/
theorem runLoop_fileLoop_replica (origin : ℕ → τ) (n : ℕ) (command : Option String)
    {s t : Session D τ} (halike : Alike s t) (hactive : s.active = true) {input : List ReadLine}
    (hlines : LinesFirst D input) :
    (runLoop origin n command s input).session.toReplica
      = (fileLoop origin n t input).session.toReplica := by
  induction input generalizing n command s t with
  | nil =>
      obtain ⟨notices, rfl⟩ := halike
      rfl
  | cons outcome rest ih =>
      cases outcome with
      | failed => exact absurd hlines (not_linesFirst_of_no_line rfl)
      | endOfStream => exact absurd hlines (not_linesFirst_of_no_line rfl)
      | line text =>
          have hfst : (readInto (.line text) command s).1 = some text := rfl
          have halike' : Alike (readInto (.line text) command s).2 t := by
            obtain ⟨notices, rfl⟩ := halike
            exact ⟨notices, rfl⟩
          have hactive' : (readInto (.line text) command s).2.active = true := by
            rw [readInto_active, hactive]
          rw [runLoop, if_pos hactive, fileLoop]
          dsimp only
          rw [hfst]
          by_cases hexit : text = "exit"
          · -- `run` calls `exit()` through `processCommand`, the other loop directly
            subst hexit
            have hread : (readOrder "exit" : Except JavaException (Order D)) = .ok .exit := by
              have hsplit : split "exit" = ["exit"] := split_of_no_space (by decide)
              rw [readOrder, hsplit]
              simp
            obtain ⟨before, hbefore⟩ := exit_eq (readInto (.line "exit") command s).2
            obtain ⟨after, hafter⟩ := exit_eq t
            have hrun : processCommand (some "exit") (origin n)
                (readInto (.line "exit") command s).2
                  = exit (readInto (.line "exit") command s).2 := by
              rw [processCommand_eq, hread]
              rfl
            rw [if_pos rfl, hrun, hbefore, commandFileEnd, hafter]
            obtain ⟨notices, rfl⟩ := halike
            rfl
          · rw [if_neg hexit]
            rcases processCommand_alike halike' (some text) (origin n) with
              ⟨s', t', hs', ht', hboth⟩ | ⟨stop, s', t', hs', ht', hboth⟩
            · have hgo : ¬ Stops D text := by
                rw [stops_iff text (origin n) t, ht']
                simp
              rw [hs', ht']
              exact ih (n + 1) (some text) hboth ((active_of_returns hs').trans hactive')
                ((linesFirst_line_iff hgo).mp hlines)
            · rw [hs', ht']
              obtain ⟨notices, rfl⟩ := hboth
              cases stop with
              | thrown e => rfl
              | exited status => rfl

/-- **On which inputs every line is executed exactly once, in both modes.** -/
theorem lines_once_iff (close : Option Fault) (origin : ℕ → τ) {s : Session D τ}
    (hactive : s.active = true) (input : List ReadLine) :
    LinesOnce close origin s input ↔ LinesFirst D input := by
  have hpassed := runLoop_passed_iff origin 0 none
    (s := { s with commandLineReader := some close }) hactive input
  constructor
  · exact fun h => hpassed.mp h.passed
  · intro hlines
    obtain ⟨hfile, hend⟩ :=
      fileLoop_lines origin 0 { s with commandLineReader := some close } input
    refine ⟨hpassed.mpr hlines, hfile, fun h => ?_, hend, ?_⟩
    · -- as many lines as reads: there was no other read
      have hlen := runLoop_length origin 0 none { s with commandLineReader := some close } input
      rw [hpassed.mpr hlines, linesOf, List.length_map] at hlen
      have hall := List.filterMap_length_eq_length.mp hlen _ h
      cases hall
    · exact runLoop_fileLoop_replica origin 0 none
        (s := { s with commandLineReader := some close }) ⟨s.notices, rfl⟩ hactive hlines

end

/-- A deposit and an `exit`; the end of the stream is not read any more. -/
theorem lines_once_iff_deposit_exit :
    LinesOnce none id startedSession [.line "deposit 5", .line "exit", .endOfStream] := by
  refine (lines_once_iff none id rfl _).mpr ?_
  have hexit : LinesFirst ℚ [.line "exit", .endOfStream] :=
    linesFirst_of_stops (Or.inl (by decide))
  by_cases hstops : Stops ℚ "deposit 5"
  · exact linesFirst_of_stops hstops
  · exact (linesFirst_line_iff hstops).mpr hexit

/-- A read that fails after a deposit repeats the deposit; at the end of the stream the replica
does not exit. -/
theorem failed_read_repeats_deposit :
    let course := run none id startedSession [.line "deposit 5", .failed]
    course.passed = [some "deposit 5", some "deposit 5"]
      ∧ course.session.outstandingCollection.map (·.command) = ["deposit 5.0", "deposit 5.0"]
      ∧ (run none id startedSession [.endOfStream]).ending = .stopped (.thrown .nullPointer)
      ∧ ¬ LinesOnce none id startedSession [.line "deposit 5", .failed] := by
  refine ⟨by decide +kernel, by decide +kernel, by decide +kernel, fun h => ?_⟩
  exact absurd h.passed (by decide +kernel)

end SpreadAccount
