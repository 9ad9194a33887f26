import SpreadAccount.Client.Input
import SpreadAccount.Client.Startup
import SpreadAccount.Group.Invariant

set_option autoImplicit false

/-! # The processes behind a group

In `Group/Model.lean` any command, tick or timeout can come at any time. Here each replica is a
process with a clock and a main thread, which goes through the constructor: it waits for the
members, then for a balance, starts the timer, and reads its input until it exits. A step of such a
system is a step of the clock, a read in one of the two waits, one read of the input with what
`processCommand` does with it, a tick of the timer once it has been started, or a delivery to a
process that has not exited.

`Proceeds` lists what a step can do, and `System.step_proceeds` says that there is nothing else.
`System.Reachable.group` is the refinement: the group of a reachable system is a reachable group,
so everything proved about groups holds of the processes. In the other direction,
`System.awaitMembers_run` and `System.initializeBalance_run` say that a process waits as the loops
of `Client/Startup.lean` do, on the schedule that the run makes for it.
-/

namespace SpreadAccount

/-! ## Processes -/

/-- Where the main thread is. In `initializing` it waits for a balance and makes the read `look`
next. In `running` it reads its input; `command` is the variable of `run`.
In `dead` it has ended without `System.exit`, and the timer and the listener go on. In `exited` the
process has ended, and `final` is the session at that moment. -/
inductive Phase (ι D : Type) where
  | awaitingMembers
  | initializing (t0 : Int64) (look : Look)
  | running (command : Option String)
  | dead
  | exited (status : Int32) (final : Session D (Origin ι))

/-- The timer has been started and the process has not ended. -/
def Phase.timerRuns {ι D : Type} : Phase ι D → Bool
  | .running _ => true
  | .dead => true
  | _ => false

/-- The process has not ended. -/
def Phase.alive {ι D : Type} : Phase ι D → Bool
  | .exited _ _ => false
  | _ => true

/-- Where the main thread is about to read the clock in its wait for a balance: the reading it
started with. -/
def Phase.timingFrom {ι D : Type} : Phase ι D → Option Int64
  | .initializing t0 .clock => some t0
  | _ => none

/-- How far the constructor has come: it waits for the members, it waits for a balance, or it has
left both waits. -/
def Phase.stage {ι D : Type} : Phase ι D → ℕ
  | .awaitingMembers => 0
  | .initializing _ _ => 1
  | _ => 2

/-- The main thread has left both waits. -/
def Phase.started {ι D : Type} (phase : Phase ι D) : Bool := phase.stage == 2

/-- How the process has ended, if it has. -/
def Phase.ended {ι D : Type} : Phase ι D → Option (Int32 × Session D (Origin ι))
  | .exited status final => some (status, final)
  | _ => none

theorem Phase.eq_exited {ι D : Type} {phase : Phase ι D} {x : Int32 × Session D (Origin ι)}
    (h : phase.ended = some x) : phase = .exited x.1 x.2 := by
  cases phase with
  | exited status final =>
      obtain rfl := Option.some.inj h
      rfl
  | _ => cases h

/-- How a process is started: the arguments of the constructor, `commandFile` for a
`commandFilename` that is not `null`, the clock at that moment, and what `close()` and `leave()`
will throw. -/
structure Config where
  serverAddress : String
  accountName : String
  numReplicas : Int32
  commandFile : Bool
  now : Int64
  closeFault : Option Fault
  leaveFault : Option Fault

/-- The main thread of a process and its clock. -/
structure Main (ι D : Type) where
  config : Config
  now : Int64
  phase : Phase ι D
  notices : List (Notice D)

/-- The session while the main thread reads its input. -/
def Main.session {ι D : Type} (main : Main ι D) (r : Replica D (Origin ι)) :
    Session D (Origin ι) :=
  { r with
    accountName := main.config.accountName
    serverAddress := main.config.serverAddress
    commandLineReader := some main.config.closeFault
    leaveFault := main.config.leaveFault
    notices := main.notices }

/-- The processes of a group. -/
structure System (ι D : Type) where
  group : Group ι D
  main : ι → Main ι D

inductive ProcessEvent (ι : Type) where
  /-- The clock of `i` shows `now`. -/
  | clock (i : ι) (now : Int64)
  /-- The main thread of `i` makes the next read of the loop in which it waits. -/
  | read (i : ι)
  /-- A call of `readLine()` at `i` is over, and its outcome is processed. -/
  | input (i : ι) (outcome : ReadLine)
  | tick (i : ι)
  | deliver (i j : ι) (k : ℕ)
  | membership (i : ι) (v : ℕ) (info : MembershipInfo)
  deriving DecidableEq

section

variable {ι D : Type} [DecidableEq ι] [Zero D] [Add D] [Mul D] [Div D] [NatCast D] [DoubleText D]
  [DoubleLong D]

omit [DecidableEq ι] [Add D] [Mul D] [Div D] [NatCast D] [DoubleText D] [DoubleLong D] in
/-- Every process has connected and waits for the members. -/
def System.init (config : ι → Config) : System ι D where
  group := Group.init fun i => (config i).numReplicas
  main i := ⟨config i, (config i).now, .awaitingMembers, [.awaitingMembers]⟩

omit [Zero D] [Add D] [Mul D] [Div D] [NatCast D] [DoubleText D] [DoubleLong D] in
/-- The main thread of `i` and the group after a step. -/
def System.put (S : System ι D) (i : ι) (main : Main ι D) (g : Group ι D) : System ι D where
  group := g
  main := Function.update S.main i main

/-! ## One read -/

omit [DecidableEq ι] [Zero D] [Add D] [Div D] in
/-- One pass of the loop over the input, of the file or of the console. -/
def Main.course (main : Main ι D) (command : Option String) (outcome : ReadLine)
    (origin : Origin ι) (r : Replica D (Origin ι)) : Course D (Origin ι) :=
  if main.config.commandFile then fileLoop (fun _ => origin) 0 (main.session r) [outcome]
  else runLoop (fun _ => origin) 0 command (main.session r) [outcome]

omit [DecidableEq ι] [Zero D] [Add D] [Mul D] [Div D] [NatCast D] [DoubleText D] [DoubleLong D] in
/-- The phase after a pass. -/
def Course.phase (course : Course D (Origin ι)) : Phase ι D :=
  match course.ending with
  | .waiting => .running course.passed.head?.join
  | .returned => .dead
  | .stopped (.thrown _) => .dead
  | .stopped (.exited status) => .exited status course.session

omit [DecidableEq ι] [Zero D] [Add D] [Mul D] [Div D] [NatCast D] [DoubleLong D] in
/-- The command carried out in a pass. -/
def Course.command (course : Course D (Origin ι)) : Option (Command D) :=
  commandOf course.passed.head?.join

/-- One read at `i`. When the process exits, its replica stays in the group as it was before; what
`exit()` has made of it is in the phase. -/
def System.input (S : System ι D) (i : ι) (command : Option String) (outcome : ReadLine) :
    System ι D :=
  let r := S.group.replica i
  let origin := (i, (issuedIn (S.group.history i)).length)
  let course := (S.main i).course command outcome origin r
  let main := { S.main i with phase := course.phase, notices := course.session.notices }
  if course.phase.alive then
    let note := match course.command with
      | some c => commandNote c origin r
      | none => []
    S.put i main (S.group.move i course.session.toReplica note)
  else S.put i main S.group

/-! ## Steps -/

/-- The next read of the loop in which the main thread waits, and what it does upon it. The first
statement of `initializeBalance` reads the clock when `awaitMembers` returns. -/
def System.read (S : System ι D) (i : ι) : Option (System ι D) :=
  let main := S.main i
  let r := S.group.replica i
  match main.phase with
  | .awaitingMembers =>
      if r.membersMissing then some S
      else some (S.put i
        { main with phase := .initializing main.now .flag, notices := main.notices ++ [.allJoined] }
        S.group)
  | .initializing t0 .flag =>
      if r.hasUpdatedBalance then some (S.put i { main with phase := .running none } S.group)
      else some (S.put i { main with phase := .initializing t0 .clock } S.group)
  | .initializing t0 .clock =>
      if waitedTooLong t0 main.now then
        (S.group.step (.timeout i)).map fun g => S.put i { main with phase := .running none } g
      else some (S.put i { main with phase := .initializing t0 .flag } S.group)
  | _ => none

/-- One step of the system; `none` when the event is not possible. -/
def System.step (S : System ι D) : ProcessEvent ι → Option (System ι D)
  | .clock i now =>
      if (S.main i).now ≤ now then some (S.put i { S.main i with now := now } S.group) else none
  | .read i => S.read i
  | .input i outcome =>
      match (S.main i).phase with
      | .running command => some (S.input i command outcome)
      | _ => none
  | .tick i =>
      if (S.main i).phase.timerRuns then
        (S.group.step (.tick i)).map fun g => S.put i (S.main i) g
      else none
  | .deliver i j k =>
      if (S.main i).phase.alive then
        (S.group.step (.deliver i j k)).map fun g => S.put i (S.main i) g
      else none
  | .membership i v info =>
      if (S.main i).phase.alive then
        (S.group.step (.membership i v info)).map fun g => S.put i (S.main i) g
      else none

/-- The states a system of processes can reach. -/
def System.Reachable (S : System ι D) : Prop :=
  ∃ config, Machine.Reachable System.step (System.init config) S

/-! ## What a step can do -/

omit [DecidableEq ι] [Zero D] [Add D] [Mul D] [Div D] [NatCast D] [DoubleText D] [DoubleLong D] in
theorem Phase.alive_of_timerRuns {phase : Phase ι D} (h : phase.timerRuns = true) :
    phase.alive = true := by
  cases phase with
  | exited status final => cases h
  | _ => rfl

omit [DecidableEq ι] [Zero D] [Add D] [Mul D] [Div D] [NatCast D] [DoubleLong D] in
/-- What one read can do to the replica `r`: carry out a command, leave it alone, or end the
process, with `active` off perhaps. -/
inductive ReadEffect (origin : Origin ι) (r : Replica D (Origin ι))
    (course : Course D (Origin ι)) : Prop where
  | command (c : Command D) (hcommand : course.command = some c)
      (hphase : course.phase.timerRuns = true)
      (hreplica : course.session.toReplica = (c.run origin).after r)
  | nothing (hcommand : course.command = none) (hphase : course.phase.timerRuns = true)
      (hreplica : course.session.toReplica = r)
  | exits (status : Int32) (active : Bool) (hphase : course.phase = .exited status course.session)
      (hreplica : course.session.toReplica = { r with active := active })

omit [DecidableEq ι] [Zero D] [Add D] [Div D] in
theorem runLoop_readEffect (origin : Origin ι) (command : Option String)
    (s : Session D (Origin ι)) (outcome : ReadLine) :
    ReadEffect origin s.toReplica (runLoop (fun _ => origin) 0 command s [outcome]) := by
  have hsame : (readInto outcome command s).2.toReplica = s.toReplica := by
    cases outcome <;> rfl
  rw [runLoop]
  by_cases hactive : s.active = true
  · rw [if_pos hactive]
    dsimp only
    rcases processCommand_cases (readInto outcome command s).1 origin
        (readInto outcome command s).2 with
      ⟨c, s', hc, hok, hr⟩ | ⟨s', hc, hr, hok | ⟨e, herr⟩⟩ | ⟨status, active, s', herr, hr⟩
    · rw [hok]
      refine .command c hc ?_ (hr.trans (by rw [hsame]))
      cases hs' : s'.active <;> simp [runLoop, Course.phase, Phase.timerRuns, hs']
    · rw [hok]
      refine .nothing hc ?_ (hr.trans hsame)
      cases hs' : s'.active <;> simp [runLoop, Course.phase, Phase.timerRuns, hs']
    · rw [herr]
      exact .nothing hc rfl (hr.trans hsame)
    · rw [herr]
      exact .exits status active rfl (by rw [hr, hsame])
  · rw [if_neg hactive]
    exact .nothing rfl rfl rfl

omit [DecidableEq ι] [Zero D] [Add D] [Div D] in
theorem fileLoop_readEffect (origin : Origin ι) (s : Session D (Origin ι))
    (outcome : ReadLine) :
    ReadEffect origin s.toReplica (fileLoop (fun _ => origin) 0 s [outcome]) := by
  obtain ⟨notices, hexit⟩ := exit_eq s
  have hend : commandFileEnd s = (.stopped (.exited 0), { s with
      active := s.active && decide (s.commandLineReader ≠ some none)
      notices := notices }) := by
    rw [commandFileEnd, hexit]
  cases outcome with
  | failed => exact .exits 1 s.active rfl rfl
  | endOfStream =>
      rw [fileLoop, hend]
      exact .exits 0 _ rfl rfl
  | line text =>
      rw [fileLoop]
      by_cases htext : text = "exit"
      · rw [if_pos htext, hend]
        exact .exits 0 _ rfl rfl
      · rw [if_neg htext]
        rcases processCommand_cases (some text) origin s with
          ⟨c, s', hc, hok, hr⟩ | ⟨s', hc, hr, hok | ⟨e, herr⟩⟩ | ⟨status, active, s', herr, hr⟩
        · rw [hok]
          exact .command c hc rfl hr
        · rw [hok]
          exact .nothing hc rfl hr
        · rw [herr]
          exact .exits 1 s.active rfl hr
        · rw [herr]
          exact .exits status active rfl hr

omit [DecidableEq ι] [Zero D] [Add D] [Div D] in
theorem Main.course_readEffect (main : Main ι D) (command : Option String) (outcome : ReadLine)
    (origin : Origin ι) (r : Replica D (Origin ι)) :
    ReadEffect origin r (main.course command outcome origin r) := by
  unfold Main.course
  split
  · exact fileLoop_readEffect origin (main.session r) outcome
  · exact runLoop_readEffect origin command (main.session r) outcome

/-- What a step can do: the main thread of `i` and the group after it. -/
inductive Proceeds (S : System ι D) : ProcessEvent ι → ι → Main ι D → Group ι D → Prop where
  | clock (i : ι) (now : Int64) (hle : (S.main i).now ≤ now) :
      Proceeds S (.clock i now) i { S.main i with now := now } S.group
  | waits (i : ι) : Proceeds S (.read i) i (S.main i) S.group
  | joined (i : ι) (hphase : (S.main i).phase = .awaitingMembers) :
      Proceeds S (.read i) i
        { S.main i with
          phase := .initializing (S.main i).now .flag
          notices := (S.main i).notices ++ [.allJoined] } S.group
  | updated (i : ι) (t0 : Int64) (hphase : (S.main i).phase = .initializing t0 .flag)
      (hflag : (S.group.replica i).hasUpdatedBalance = true) :
      Proceeds S (.read i) i { S.main i with phase := .running none } S.group
  | looked (i : ι) (t0 : Int64) (hphase : (S.main i).phase = .initializing t0 .flag)
      (hflag : (S.group.replica i).hasUpdatedBalance = false) :
      Proceeds S (.read i) i { S.main i with phase := .initializing t0 .clock } S.group
  | timedOut (i : ι) (t0 : Int64) (g : Group ι D)
      (hphase : (S.main i).phase = .initializing t0 .clock)
      (hlong : waitedTooLong t0 (S.main i).now = true)
      (hstep : S.group.step (.timeout i) = some g) :
      Proceeds S (.read i) i { S.main i with phase := .running none } g
  | inTime (i : ι) (t0 : Int64) (hphase : (S.main i).phase = .initializing t0 .clock)
      (hshort : waitedTooLong t0 (S.main i).now = false) :
      Proceeds S (.read i) i { S.main i with phase := .initializing t0 .flag } S.group
  | command (i : ι) (outcome : ReadLine) (last : Option String) (c : Command D)
      (main : Main ι D) (g : Group ι D) (hphase : (S.main i).phase = .running last)
      (hphase' : main.phase.timerRuns = true) (hstep : S.group.step (.command i c) = some g) :
      Proceeds S (.input i outcome) i main g
  | line (i : ι) (outcome : ReadLine) (last : Option String) (main : Main ι D)
      (hphase : (S.main i).phase = .running last) (hphase' : main.phase.timerRuns = true) :
      Proceeds S (.input i outcome) i main S.group
  | exits (i : ι) (outcome : ReadLine) (last : Option String) (main : Main ι D)
      (status : Int32) (final : Session D (Origin ι)) (active : Bool)
      (hphase : (S.main i).phase = .running last)
      (hphase' : main.phase = .exited status final)
      (hfinal : final.toReplica = { S.group.replica i with active := active }) :
      Proceeds S (.input i outcome) i main S.group
  | tick (i : ι) (g : Group ι D) (hphase : (S.main i).phase.timerRuns = true)
      (hstep : S.group.step (.tick i) = some g) : Proceeds S (.tick i) i (S.main i) g
  | deliver (i j : ι) (k : ℕ) (g : Group ι D) (hphase : (S.main i).phase.alive = true)
      (hstep : S.group.step (.deliver i j k) = some g) :
      Proceeds S (.deliver i j k) i (S.main i) g
  | membership (i : ι) (v : ℕ) (info : MembershipInfo) (g : Group ι D)
      (hphase : (S.main i).phase.alive = true)
      (hstep : S.group.step (.membership i v info) = some g) :
      Proceeds S (.membership i v info) i (S.main i) g

omit [Zero D] [Add D] [Mul D] [Div D] [NatCast D] [DoubleText D] [DoubleLong D] in
theorem Group.move_self (g : Group ι D) (i : ι) : g.move i (g.replica i) [] = g := by
  unfold Group.move
  rw [List.append_nil, Function.update_eq_self, Function.update_eq_self]

omit [Zero D] [Add D] [Mul D] [Div D] [NatCast D] [DoubleText D] [DoubleLong D] in
@[simp] theorem System.put_main_self (S : System ι D) (i : ι) (main : Main ι D) (g : Group ι D) :
    (S.put i main g).main i = main := Function.update_self ..

omit [Zero D] [Add D] [Mul D] [Div D] [NatCast D] [DoubleText D] [DoubleLong D] in
theorem System.put_self (S : System ι D) (i : ι) : S.put i (S.main i) S.group = S := by
  unfold System.put
  rw [Function.update_eq_self]

/-- One read is a command of the group, or no step of it. -/
theorem System.input_proceeds (S : System ι D) {i : ι} {command : Option String}
    (hphase : (S.main i).phase = .running command) (outcome : ReadLine) :
    ∃ main g, Proceeds S (.input i outcome) i main g
      ∧ S.input i command outcome = S.put i main g := by
  have heffect := (S.main i).course_readEffect command outcome
    (i, (issuedIn (S.group.history i)).length) (S.group.replica i)
  unfold System.input
  dsimp only
  cases heffect with
  | command c hcommand hphase' hreplica =>
      rw [if_pos (Phase.alive_of_timerRuns hphase'), hcommand, hreplica]
      exact ⟨_, _, .command i outcome command c _ _ hphase hphase' rfl, rfl⟩
  | nothing hcommand hphase' hreplica =>
      rw [if_pos (Phase.alive_of_timerRuns hphase'), hcommand, hreplica, Group.move_self]
      exact ⟨_, _, .line i outcome command _ hphase hphase', rfl⟩
  | exits status active hphase' hreplica =>
      rw [hphase']
      exact ⟨_, _, .exits i outcome command _ status _ active hphase rfl hreplica, rfl⟩

omit [DoubleLong D] in
theorem System.read_awaitingMembers {S : System ι D} {i : ι}
    (hphase : (S.main i).phase = .awaitingMembers) :
    S.read i = if (S.group.replica i).membersMissing then some S
      else some (S.put i { S.main i with
        phase := .initializing (S.main i).now .flag
        notices := (S.main i).notices ++ [.allJoined] } S.group) := by
  unfold System.read
  dsimp only
  rw [hphase]

omit [DoubleLong D] in
theorem System.read_initializing {S : System ι D} {i : ι} {t0 : Int64} {look : Look}
    (hphase : (S.main i).phase = .initializing t0 look) :
    S.read i = match look with
      | .flag =>
          if (S.group.replica i).hasUpdatedBalance then
            some (S.put i { S.main i with phase := .running none } S.group)
          else some (S.put i { S.main i with phase := .initializing t0 .clock } S.group)
      | .clock =>
          if waitedTooLong t0 (S.main i).now then
            (S.group.step (.timeout i)).map fun g =>
              S.put i { S.main i with phase := .running none } g
          else some (S.put i { S.main i with phase := .initializing t0 .flag } S.group) := by
  unfold System.read
  cases look <;>
    · dsimp only
      rw [hphase]

omit [DoubleLong D] in
theorem System.read_proceeds {S S' : System ι D} {i : ι} (h : S.read i = some S') :
    ∃ main g, Proceeds S (.read i) i main g ∧ S' = S.put i main g := by
  cases hphase : (S.main i).phase with
  | awaitingMembers =>
      rw [System.read_awaitingMembers hphase] at h
      split at h
      · obtain rfl := Option.some.inj h
        exact ⟨_, _, .waits i, (S.put_self i).symm⟩
      · exact ⟨_, _, .joined i hphase, (Option.some.inj h).symm⟩
  | initializing t0 look =>
      rw [System.read_initializing hphase] at h
      cases look with
      | flag =>
          dsimp only at h
          by_cases hflag : (S.group.replica i).hasUpdatedBalance = true
          · rw [if_pos hflag] at h
            exact ⟨_, _, .updated i t0 hphase hflag, (Option.some.inj h).symm⟩
          · rw [if_neg hflag] at h
            exact ⟨_, _, .looked i t0 hphase (by simpa using hflag), (Option.some.inj h).symm⟩
      | clock =>
          dsimp only at h
          by_cases hlong : waitedTooLong t0 (S.main i).now = true
          · rw [if_pos hlong] at h
            obtain ⟨g, hg, rfl⟩ := Option.map_eq_some_iff.mp h
            exact ⟨_, _, .timedOut i t0 g hphase hlong hg, rfl⟩
          · rw [if_neg hlong] at h
            exact ⟨_, _, .inTime i t0 hphase (by simpa using hlong), (Option.some.inj h).symm⟩
  | running command =>
      rw [System.read, hphase] at h
      cases h
  | dead =>
      rw [System.read, hphase] at h
      cases h
  | exited status final =>
      rw [System.read, hphase] at h
      cases h

/-- **What a step can do.** -/
theorem System.step_proceeds {S S' : System ι D} {e : ProcessEvent ι} (h : S.step e = some S') :
    ∃ i main g, Proceeds S e i main g ∧ S' = S.put i main g := by
  unfold System.step at h
  cases e with
  | clock i now =>
      dsimp only at h
      split at h
      · exact ⟨i, _, _, .clock i now ‹_›, (Option.some.inj h).symm⟩
      · cases h
  | read i => exact ⟨i, System.read_proceeds h⟩
  | input i outcome =>
      dsimp only at h
      split at h
      · obtain ⟨main, g, hproceeds, heq⟩ := S.input_proceeds ‹_› outcome
        exact ⟨i, main, g, hproceeds, (Option.some.inj h).symm.trans heq⟩
      · cases h
  | tick i =>
      dsimp only at h
      split at h
      · obtain ⟨g, hg, rfl⟩ := Option.map_eq_some_iff.mp h
        exact ⟨i, _, g, .tick i g ‹_› hg, rfl⟩
      · cases h
  | deliver i j k =>
      dsimp only at h
      split at h
      · obtain ⟨g, hg, rfl⟩ := Option.map_eq_some_iff.mp h
        exact ⟨i, _, g, .deliver i j k g ‹_› hg, rfl⟩
      · cases h
  | membership i v info =>
      dsimp only at h
      split at h
      · obtain ⟨g, hg, rfl⟩ := Option.map_eq_some_iff.mp h
        exact ⟨i, _, g, .membership i v info g ‹_› hg, rfl⟩
      · cases h

/-! ## The group of a system -/

omit [DecidableEq ι] [Zero D] [Add D] [Mul D] [Div D] [NatCast D] [DoubleText D] [DoubleLong D] in
/-- The replica at which an event happens. -/
def Event.site : Event ι D → ι
  | .command i _ => i
  | .tick i => i
  | .deliver i _ _ => i
  | .membership i _ _ => i
  | .timeout i => i

omit [DoubleLong D] in
theorem Group.Reachable.step_at {g g' : Group ι D} {e : Event ι D} (hg : g.Reachable)
    (h : g.step e = some g') :
    ∃ r' note, Moves g e e.site r' note ∧ g' = g.move e.site r' note := by
  obtain ⟨i, r', note, hm, rfl⟩ := hg.step_moves h
  have hsite : e.site = i := by cases hm <;> rfl
  rw [hsite]
  exact ⟨r', note, hm, rfl⟩

omit [DoubleLong D] in
/-- A step of the system is a step of the group at the same place, or none. -/
theorem Proceeds.group_step {S : System ι D} {e : ProcessEvent ι} {i : ι} {main : Main ι D}
    {g : Group ι D} (h : Proceeds S e i main g) :
    g = S.group ∨ ∃ event, event.site = i ∧ S.group.step event = some g := by
  cases h with
  | timedOut i t0 g hphase hlong hstep => exact Or.inr ⟨_, rfl, hstep⟩
  | command i outcome last c main g hphase hphase' hstep => exact Or.inr ⟨_, rfl, hstep⟩
  | tick i g hphase hstep => exact Or.inr ⟨_, rfl, hstep⟩
  | deliver i j k g hphase hstep => exact Or.inr ⟨_, rfl, hstep⟩
  | membership i v info g hphase hstep => exact Or.inr ⟨_, rfl, hstep⟩
  | _ => exact Or.inl rfl

theorem System.Reachable.snoc {S S' : System ι D} {e : ProcessEvent ι} (hS : S.Reachable)
    (h : S.step e = some S') : S'.Reachable := by
  obtain ⟨config, hr⟩ := hS
  exact ⟨config, hr.snoc h⟩

/-- **The processes refine the group**: whatever a system of processes can reach, its group can
reach by itself. -/
theorem System.Reachable.group {S : System ι D} (h : S.Reachable) : S.group.Reachable := by
  obtain ⟨config, hr⟩ := h
  refine hr.induct (P := fun S => S.group.Reachable) ⟨_, Machine.Reachable.refl _⟩ ?_
  rintro S e S' - hS hstep
  obtain ⟨i, main, g, hp, rfl⟩ := System.step_proceeds hstep
  rcases hp.group_step with rfl | ⟨event, -, hevent⟩
  · exact hS
  · exact hS.snoc hevent

omit [DoubleLong D] in
/-- A step at `i` leaves the other replicas alone. -/
theorem Proceeds.frame {S : System ι D} {e : ProcessEvent ι} {i j : ι} {main : Main ι D}
    {g : Group ι D} (h : Proceeds S e i main g) (hS : S.group.Reachable) (hne : j ≠ i) :
    (S.put i main g).main j = S.main j ∧ g.replica j = S.group.replica j
      ∧ g.history j = S.group.history j := by
  refine ⟨Function.update_of_ne hne _ _, ?_⟩
  rcases h.group_step with rfl | ⟨event, rfl, hevent⟩
  · exact ⟨rfl, rfl⟩
  · obtain ⟨r', note, -, rfl⟩ := hS.step_at hevent
    exact ⟨Group.move_replica_ne _ _ _ hne, Group.move_history_ne _ _ _ hne⟩

/-- **Frame rule for one process.** What holds of the process `i` before a step, and after every
step that it takes itself, holds of it after the step. -/
theorem System.step_at {S S' : System ι D} {e : ProcessEvent ι} (hS : S.group.Reachable)
    (h : S.step e = some S') (i : ι)
    {P : Main ι D → List (Happening ι D) → Replica D (Origin ι) → Prop}
    (hold : P (S.main i) (S.group.history i) (S.group.replica i))
    (hmove : ∀ main g, Proceeds S e i main g → P main (g.history i) (g.replica i)) :
    P (S'.main i) (S'.group.history i) (S'.group.replica i) := by
  obtain ⟨j, main, g, hp, rfl⟩ := System.step_proceeds h
  by_cases hij : i = j
  · subst hij
    rw [System.put_main_self]
    exact hmove main g hp
  · obtain ⟨hmain, hreplica, hhistory⟩ := hp.frame hS hij
    show P _ (g.history i) (g.replica i)
    rw [hmain, hreplica, hhistory]
    exact hold

/-! ## The waits of a process -/

omit [Zero D] [Add D] [Mul D] [Div D] [NatCast D] [DoubleText D] [DoubleLong D] in
/-- What an event is for the main thread of `i` while it waits. -/
def System.moment (S : System ι D) (i : ι) : ProcessEvent ι → List (Moment D (Origin ι))
  | .read j => if j = i then [.read (S.main i).now] else []
  | .deliver j sender k =>
      if j = i then (S.group.replica sender).sent[k]?.toList.map .message else []
  | .membership j _ info => if j = i then [.view info] else []
  | _ => []

omit [Zero D] [Add D] [Mul D] [Div D] [NatCast D] [DoubleText D] [DoubleLong D] in
theorem System.moment_read (S : System ι D) (i : ι) :
    S.moment i (.read i) = [.read (S.main i).now] :=
  if_pos rfl

/-- The schedule of a wait of `i` in a run. -/
def System.moments (i : ι) : System ι D → List (ProcessEvent ι) → List (Moment D (Origin ι))
  | _, [] => []
  | S, e :: es =>
      match S.step e with
      | none => []
      | some S' => S.moment i e ++ System.moments i S' es

theorem System.moments_cons (i : ι) {S S' : System ι D} {e : ProcessEvent ι}
    {es : List (ProcessEvent ι)} (h : Machine.exec System.step S (e :: es) = some S') :
    ∃ S₁, S.step e = some S₁ ∧ Machine.exec System.step S₁ es = some S'
      ∧ S.moments i (e :: es) = S.moment i e ++ S₁.moments i es := by
  obtain ⟨S₁, hstep, hrest⟩ := Machine.exec_cons_eq_some.mp h
  refine ⟨S₁, hstep, hrest, ?_⟩
  rw [System.moments, hstep]

/-- Whatever is no read of `i` reaches its wait through the listener only. -/
theorem System.listen_step {S S' : System ι D} {e : ProcessEvent ι} {i : ι}
    (hS : S.group.Reachable) (h : S.step e = some S') (hwaits : (S.main i).phase.started = false)
    (he : e ≠ .read i) :
    (S'.main i).phase = (S.main i).phase ∧ readings (S.moment i e) = []
      ∧ S'.group.replica i = (S.group.replica i).run (listened (S.moment i e)) := by
  obtain ⟨j, main, g, hp, rfl⟩ := System.step_proceeds h
  by_cases hij : i = j
  · subst hij
    rw [System.put_main_self]
    show main.phase = _ ∧ _ ∧ g.replica i = _
    cases hp with
    | clock i now hle => exact ⟨rfl, rfl, rfl⟩
    | waits i => exact absurd rfl he
    | joined i hphase => exact absurd rfl he
    | updated i t0 hphase hflag => exact absurd rfl he
    | looked i t0 hphase hflag => exact absurd rfl he
    | timedOut i t0 g hphase hlong hstep => exact absurd rfl he
    | inTime i t0 hphase hshort => exact absurd rfl he
    | command i outcome last c main g hphase hphase' hstep =>
        rw [hphase] at hwaits
        cases hwaits
    | line i outcome last main hphase hphase' =>
        rw [hphase] at hwaits
        cases hwaits
    | exits i outcome last main status final active hphase hphase' hfinal =>
        rw [hphase] at hwaits
        cases hwaits
    | tick i g hphase hstep =>
        cases hph : (S.main i).phase with
        | awaitingMembers =>
            rw [hph] at hphase
            cases hphase
        | initializing t0 look =>
            rw [hph] at hphase
            cases hphase
        | _ =>
            rw [hph] at hwaits
            cases hwaits
    | deliver i j k g hphase hstep =>
        unfold Group.step at hstep
        dsimp only at hstep
        cases hm : (S.group.replica j).sent[k]? with
        | none =>
            rw [hm] at hstep
            cases hstep
        | some m =>
            rw [hm] at hstep
            dsimp only at hstep
            split at hstep
            · cases hstep
            · obtain rfl := Option.some.inj hstep
              have hmoment : S.moment i (.deliver i j k) = [.message m] := by
                rw [System.moment, if_pos rfl, hm]
                rfl
              rw [hmoment, Group.move_replica_self]
              exact ⟨rfl, rfl, rfl⟩
    | membership i v info g hphase hstep =>
        obtain rfl := Option.some.inj hstep
        have hmoment : S.moment i (.membership i v info) = [.view info] := if_pos rfl
        rw [hmoment, Group.move_replica_self]
        exact ⟨rfl, rfl, rfl⟩
  · obtain ⟨hmain, hreplica, -⟩ := hp.frame hS hij
    have hnone : S.moment i e = [] := by
      have hji : j ≠ i := fun hji => hij hji.symm
      cases hp <;> first | rfl | exact if_neg hji
    rw [hmain, hnone]
    exact ⟨rfl, rfl, hreplica⟩

omit [DecidableEq ι] [DoubleLong D] in
/-- What the listener does before the next read, in both loops. -/
theorem loops_listened (t0 : Int64) (look : Look) {ms : List (Moment D (Origin ι))}
    (h : readings ms = []) (s : Session D (Origin ι)) (rest : List (Moment D (Origin ι))) :
    initializeBalanceLoop t0 look s (ms ++ rest)
        = initializeBalanceLoop t0 look { s with toReplica := s.toReplica.run (listened ms) } rest
      ∧ awaitMembersLoop s (ms ++ rest)
        = awaitMembersLoop { s with toReplica := s.toReplica.run (listened ms) } rest := by
  induction ms generalizing s with
  | nil => exact ⟨rfl, rfl⟩
  | cons moment ms ih =>
      cases moment with
      | view info => exact ih h { s with toReplica := s.toReplica.step (.membership info) }
      | message m => exact ih h { s with toReplica := s.toReplica.step (.regular m) }
      | read now => cases h

omit [DecidableEq ι] [Zero D] [Add D] [Mul D] [Div D] [NatCast D] [DoubleText D] [DoubleLong D] in
theorem Phase.stage_le_two (phase : Phase ι D) : phase.stage ≤ 2 := by
  cases phase <;> simp [Phase.stage]

omit [DecidableEq ι] [Zero D] [Add D] [Mul D] [Div D] [NatCast D] [DoubleText D] [DoubleLong D] in
theorem Phase.stage_of_timerRuns {phase : Phase ι D} (h : phase.timerRuns = true) :
    phase.stage = 2 := by
  cases phase with
  | running command => rfl
  | dead => rfl
  | _ => cases h

/-- The constructor does not go back. -/
theorem System.stage_le {S S' : System ι D} {es : List (ProcessEvent ι)} {i : ι}
    (hS : S.Reachable) (hrun : Machine.exec System.step S es = some S') :
    (S.main i).phase.stage ≤ (S'.main i).phase.stage := by
  obtain ⟨config, hr⟩ := hS
  have hreach : Machine.Reachable System.step S S' := ⟨es, hrun⟩
  refine hreach.induct (P := fun S' => (S.main i).phase.stage ≤ (S'.main i).phase.stage) le_rfl ?_
  intro S₁ e S₂ hto hle hstep
  have hgroup : S₁.group.Reachable := System.Reachable.group ⟨config, hr.trans hto⟩
  refine System.step_at hgroup hstep i
    (P := fun main _ _ => (S.main i).phase.stage ≤ main.phase.stage) hle ?_
  intro main g hp
  refine hle.trans ?_
  cases hp with
  | joined i hphase =>
      rw [hphase]
      exact Nat.zero_le _
  | updated i t0 hphase hflag => exact Phase.stage_le_two _
  | looked i t0 hphase hflag =>
      rw [hphase]
      exact le_rfl
  | timedOut i t0 g hphase hlong hstep => exact Phase.stage_le_two _
  | inTime i t0 hphase hshort =>
      rw [hphase]
      exact le_rfl
  | command i outcome last c main g hphase hphase' hstep =>
      rw [Phase.stage_of_timerRuns hphase']
      exact Phase.stage_le_two _
  | line i outcome last main hphase hphase' =>
      rw [Phase.stage_of_timerRuns hphase']
      exact Phase.stage_le_two _
  | exits i outcome last main status final active hphase hphase' hfinal =>
      rw [hphase']
      exact Phase.stage_le_two _
  | _ => exact le_rfl

/-- **The wait for a balance is the loop.** Along a run, the process is still waiting as long as
`initializeBalance` has not returned on the moments of the run, and has left the wait once it
has. -/
theorem System.initializeBalance_run {S S' : System ι D} {es : List (ProcessEvent ι)} {i : ι}
    {t0 : Int64} {look : Look} (hS : S.Reachable)
    (hphase : (S.main i).phase = .initializing t0 look)
    (hrun : Machine.exec System.step S es = some S') {s : Session D (Origin ι)}
    (hs : s.toReplica = S.group.replica i) :
    (initializeBalanceLoop t0 look s (S.moments i es) = none
        ∧ ∃ look', (S'.main i).phase = .initializing t0 look')
      ∨ ((initializeBalanceLoop t0 look s (S.moments i es)).isSome = true
        ∧ (S'.main i).phase.stage = 2) := by
  induction es generalizing S s look with
  | nil =>
      obtain rfl : S = S' := by simpa using hrun
      exact Or.inl ⟨rfl, look, hphase⟩
  | cons e es ih =>
      obtain ⟨S₁, hstep, hrest, hmoments⟩ := System.moments_cons i hrun
      rw [hmoments]
      by_cases he : e = .read i
      · subst he
        have hread : S.read i = some S₁ := hstep
        -- once the wait is over it stays over
        have hover : (S₁.main i).phase.stage = 2 → (S'.main i).phase.stage = 2 := by
          intro htwo
          have hle := System.stage_le (i := i) (hS.snoc hstep) hrest
          have htop := (S'.main i).phase.stage_le_two
          omega
        rw [System.moment_read, List.singleton_append]
        rw [System.read_initializing hphase] at hread
        cases look with
        | flag =>
            dsimp only at hread
            rw [initializeBalanceLoop, hs]
            by_cases hflag : (S.group.replica i).hasUpdatedBalance = true
            · rw [if_pos hflag] at hread ⊢
              obtain rfl := Option.some.inj hread
              refine Or.inr ⟨rfl, hover ?_⟩
              rw [System.put_main_self]
              rfl
            · rw [if_neg hflag] at hread ⊢
              obtain rfl := Option.some.inj hread
              refine ih (hS.snoc hstep) ?_ hrest hs
              rw [System.put_main_self]
        | clock =>
            dsimp only at hread
            rw [initializeBalanceLoop]
            by_cases hlong : waitedTooLong t0 (S.main i).now = true
            · rw [if_pos hlong] at hread ⊢
              refine Or.inr ⟨rfl, hover ?_⟩
              obtain ⟨g, hg, rfl⟩ := Option.map_eq_some_iff.mp hread
              rw [System.put_main_self]
              rfl
            · rw [if_neg hlong] at hread ⊢
              obtain rfl := Option.some.inj hread
              refine ih (hS.snoc hstep) ?_ hrest hs
              rw [System.put_main_self]
      · obtain ⟨hphase', hreadings, hreplica⟩ :=
          System.listen_step hS.group hstep (by rw [hphase]; rfl) he
        rw [(loops_listened t0 look hreadings s _).1]
        refine ih (hS.snoc hstep) (hphase'.trans hphase) hrest ?_
        rw [hreplica, ← hs]

/-- **The wait for the members is the loop** `awaitMembersLoop`, in the same way. -/
theorem System.awaitMembers_run {S S' : System ι D} {es : List (ProcessEvent ι)} {i : ι}
    (hS : S.Reachable) (hphase : (S.main i).phase = .awaitingMembers)
    (hrun : Machine.exec System.step S es = some S') {s : Session D (Origin ι)}
    (hs : s.toReplica = S.group.replica i) :
    (awaitMembersLoop s (S.moments i es) = none ∧ (S'.main i).phase = .awaitingMembers)
      ∨ ((awaitMembersLoop s (S.moments i es)).isSome = true
        ∧ 1 ≤ (S'.main i).phase.stage) := by
  induction es generalizing S s with
  | nil =>
      obtain rfl : S = S' := by simpa using hrun
      exact Or.inl ⟨rfl, hphase⟩
  | cons e es ih =>
      obtain ⟨S₁, hstep, hrest, hmoments⟩ := System.moments_cons i hrun
      rw [hmoments]
      by_cases he : e = .read i
      · subst he
        have hread : S.read i = some S₁ := hstep
        rw [System.moment_read, List.singleton_append, awaitMembersLoop, hs]
        rw [System.read_awaitingMembers hphase] at hread
        by_cases hmissing : (S.group.replica i).membersMissing = true
        · rw [if_pos hmissing] at hread ⊢
          obtain rfl := Option.some.inj hread
          exact ih hS hphase hrest hs
        · rw [if_neg hmissing] at hread ⊢
          have hle := System.stage_le (i := i) (hS.snoc hstep) hrest
          obtain rfl := Option.some.inj hread
          rw [System.put_main_self] at hle
          exact Or.inr ⟨rfl, hle⟩
      · obtain ⟨hphase', hreadings, hreplica⟩ :=
          System.listen_step hS.group hstep (by rw [hphase]; rfl) he
        rw [(loops_listened 0 .flag hreadings s _).2]
        refine ih (hS.snoc hstep) (hphase'.trans hphase) hrest ?_
        rw [hreplica, ← hs]

end

end SpreadAccount
