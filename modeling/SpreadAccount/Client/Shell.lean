import SpreadAccount.Client.Local

set_option autoImplicit false

/-! # The main thread: one line of input

`processCommand` takes a line apart and calls the method it names; `sleep` and `exit` are methods
of the main thread only. Besides returning or throwing, such a method can end the whole process
(`System.exit`).

The order a line stands for is read by `readOrder`, and `processCommand_eq` says that
`processCommand` reads it and carries it out. The main result is `line_handled_iff`: on which lines
the main thread survives.
-/

namespace SpreadAccount

open DoubleText (text parseDouble)
open DoubleLong (toLong)

/-! ## What the main thread prints -/

/-- What can be caught on the main thread. -/
inductive Fault where
  | java (e : JavaException)
  | inputOutput
  deriving DecidableEq

/-- The lines the main thread prints itself. -/
inductive Notice (D : Type) where
  | awaitingMembers
  | allJoined
  | prompt
  | readError
  | commandFileError (e : Fault)
  | invalidCommand (word : String)
  | menu
  | sleeping (seconds : D)
  | sleepError
  | disconnecting
  | groupLeft
  | connectionClosed
  | disconnectError (e : Fault)
  deriving DecidableEq

/-- The class an exception has in Java; the message that follows it in `toString()` is left out. -/
def Fault.className : Fault → String
  | .java .nullPointer => "java.lang.NullPointerException"
  | .java .indexOutOfBounds => "java.lang.ArrayIndexOutOfBoundsException"
  | .java .numberFormat => "java.lang.NumberFormatException"
  | .java .classCast => "java.lang.ClassCastException"
  | .java .spread => "spread.SpreadException"
  | .inputOutput => "java.io.IOException"

/-- The text of `printMenu`. -/
def menuText : List String :=
  ["\x1b[97m--- Valid commands ---\x1b[0m",
    "\x1b[3mgetQuickBalance\x1b[0m                -> to get unsynced balance",
    "\x1b[3mgetSyncedBalance\x1b[0m               -> to get synced balance",
    "\x1b[3mdeposit <amount>\x1b[0m               -> to deposit a positive or negative amount",
    "\x1b[3maddInterest <percent>\x1b[0m          -> to add a positive or negative interest",
    "\x1b[3mgetHistory\x1b[0m                     -> to get the transaction history",
    "\x1b[3mcheckTxStatus <Transaction id>\x1b[0m -> to check the status of a transaction",
    "\x1b[3mcleanHistory\x1b[0m                   -> to clear the transaction history",
    "\x1b[3mmemberInfo\x1b[0m                     -> to get the group membership info",
    "\x1b[3msleep <duration>\x1b[0m               -> to make the client sleep for <duration> seconds",
    "\x1b[3mexit\x1b[0m                           -> to close down the client"]

/-- The printed text, for a replica called `name` in the group `accountName`. -/
def Notice.text {D : Type} [DoubleText D] (name accountName serverAddress : String) :
    Notice D → List String
  | .awaitingMembers =>
      [tag ++ "Awaiting correct number of replica members to join to group ..."]
  | .allJoined => [tag ++ "All replicas joined the group \x1b[92msuccessfully\x1b[0m"]
  | .prompt => ["\x1b[95m$>\x1b[0m "]
  | .readError => [error ++ "something went wrong when trying to read command line input"]
  | .commandFileError e =>
      [error ++ "something went wrong when trying to read and process command batch file",
        e.className]
  | .invalidCommand word => [error ++ "invalid command: '\x1b[1m" ++ word ++ "\x1b[0m'"]
  | .menu => menuText
  | .sleeping seconds => [tag ++ "Sleeping for " ++ DoubleText.text seconds ++ " seconds ..."]
  | .sleepError =>
      [error ++ "something went wrong when trying to sleep",
        "java.lang.IllegalArgumentException: timeout value is negative\n"]
  | .disconnecting => [tag ++ "Disconnecting ..."]
  | .groupLeft =>
      [tag ++ "Group '\x1b[1m" ++ accountName ++ "\x1b[0m' was \x1b[92msuccessfully\x1b[0m left"]
  | .connectionClosed =>
      [tag ++ "Connection to daemon on address '\x1b[1m" ++ serverAddress
        ++ "\x1b[0m' was \x1b[92msuccessfully\x1b[0m closed"]
  | .disconnectError e =>
      [error ++ "something went wrong when trying to disconnect from daemon", e.className]
where
  tag : String := "\x1b[1m[" ++ name ++ "]\x1b[0m "
  error : String := tag ++ "\x1b[91mError\x1b[0m: "

/-! ## The session -/

/-- A replica with what only its main thread uses. `commandLineReader` is `none` where the field is
`null`; else it holds what `close()` throws, if it throws. `leaveFault` is what `group.leave()`
throws. `notices` has the lines the main thread prints itself; those of the methods of the replica
are in `out`. -/
structure Session (D τ : Type) extends Replica D τ where
  accountName : String
  serverAddress : String
  commandLineReader : Option (Option Fault)
  leaveFault : Option Fault
  notices : List (Notice D)
  deriving DecidableEq

/-- How a method of the main thread ends where it does not return. -/
inductive Stop where
  | thrown (e : JavaException)
  | exited (status : Int32)
  deriving DecidableEq

/-- A method of the main thread. -/
abbrev Shell (D τ α : Type) : Type := EStateM Stop (Session D τ) α

section

variable {D τ α : Type}

/-- A call of a method of the replica. -/
def call (method : Java D τ α) : Shell D τ α := fun s =>
  match method s.toReplica with
  | .ok a r => .ok a { s with toReplica := r }
  | .error e r => .error (.thrown e) { s with toReplica := r }

def notify (notice : Notice D) : Shell D τ Unit :=
  modify fun s => { s with notices := s.notices ++ [notice] }

def printMenu : Shell D τ Unit := notify .menu

/-- `Thread.sleep` throws on a negative argument. That is caught, and the process ends. -/
def sleep [Mul D] [NatCast D] [DoubleLong D] (seconds : D) : Shell D τ Unit := do
  notify (.sleeping seconds)
  if toLong (seconds * (1000 : ℕ)) < 0 then
    notify .sleepError
    throw (.exited 1)

def exit : Shell D τ Unit := do
  notify .disconnecting
  let s ← get
  match s.commandLineReader with
  | none => notify (.disconnectError (.java .nullPointer))
  | some (some e) => notify (.disconnectError e)
  | some none =>
      modify fun s => { s with active := false }
      match s.leaveFault with
      | some e => notify (.disconnectError e)
      | none =>
          notify .groupLeft
          notify .connectionClosed
  throw (.exited 0)

variable [Mul D] [NatCast D] [DoubleText D] [DoubleLong D]

/-- `processCommand(command)`; `none` is `null`. `origin` is the identity of the transaction the
line may create. -/
def processCommand (command : Option String) (origin : τ) : Shell D τ Unit :=
  match command with
  | none => throw (.thrown .nullPointer)
  | some command => do
      let data := split command
      let word ← call (index data 0)
      if word = "getQuickBalance" then call getQuickBalance
      else if word = "getSyncedBalance" then call (getSyncedBalance origin)
      else if word = "deposit" then
        let amount ← call (do parse (← index data 1))
        call (deposit amount origin)
      else if word = "addInterest" then
        let percent ← call (do parse (← index data 1))
        call (addInterest percent origin)
      else if word = "getHistory" then call getHistory
      else if word = "checkTxStatus" then
        let transactionId ← call (index data 1)
        call (checkTxStatus transactionId)
      else if word = "cleanHistory" then call cleanHistory
      else if word = "memberInfo" then call memberInfo
      else if word = "sleep" then
        let seconds ← call (do parse (← index data 1))
        sleep seconds
      else if word = "exit" then exit
      else
        notify (.invalidCommand word)
        printMenu

end

/-! ## Running a method of the main thread -/

section

variable {D τ α β : Type}

@[simp] theorem Shell.pure_apply (a : α) (s : Session D τ) :
    (pure a : Shell D τ α) s = .ok a s := rfl

@[simp] theorem Shell.bind_apply (x : Shell D τ α) (f : α → Shell D τ β) (s : Session D τ) :
    (x >>= f) s = match x s with
      | .ok a s' => f a s'
      | .error e s' => .error e s' := by
  show EStateM.bind x f s = _
  unfold EStateM.bind
  cases x s <;> rfl

@[simp] theorem Shell.get_apply (s : Session D τ) :
    (get : Shell D τ (Session D τ)) s = .ok s s := rfl

@[simp] theorem Shell.modify_apply (f : Session D τ → Session D τ) (s : Session D τ) :
    (modify f : Shell D τ PUnit) s = .ok ⟨⟩ (f s) := rfl

@[simp] theorem Shell.throw_apply (e : Stop) (s : Session D τ) :
    (throw e : Shell D τ α) s = .error e s := rfl

@[simp] theorem notify_apply (notice : Notice D) (s : Session D τ) :
    notify notice s = .ok () { s with notices := s.notices ++ [notice] } := rfl

theorem call_index (data : List String) (i : ℕ) (s : Session D τ) :
    call (index data i) s = match data[i]? with
      | some piece => .ok piece s
      | none => .error (.thrown .indexOutOfBounds) s := by
  rw [call, index_apply]
  cases data[i]? <;> rfl

theorem call_number [DoubleText D] (data : List String) (s : Session D τ) :
    (call (index data 1 >>= fun piece => parse piece) : Shell D τ D) s
      = match (readNumber data : Except JavaException D) with
        | .ok x => .ok x s
        | .error e => .error (.thrown e) s := by
  have h := readNumber_bind (D := D) data (pure : D → Java D τ D) s.toReplica
  simp only [bind_pure] at h
  rw [call, h]
  cases (readNumber data : Except JavaException D) <;> rfl

end

section

variable {D τ : Type} [Mul D] [NatCast D] [DoubleText D] [DoubleLong D]

/-! ## The order in a line -/

/-- What a line can ask for. -/
inductive Order (D : Type) where
  | command (c : Command D)
  | sleep (seconds : D)
  | exit
  | invalid (word : String)
  deriving DecidableEq

/-- What the main thread does for an order. -/
def Order.run (origin : τ) : Order D → Shell D τ Unit
  | .command c => call (c.run origin)
  | .sleep seconds => SpreadAccount.sleep seconds
  | .exit => SpreadAccount.exit
  | .invalid word => do
      notify (.invalidCommand word)
      printMenu

omit [Mul D] [NatCast D] [DoubleLong D] in
/-- The order in a line, or the exception that its reading throws. -/
def readOrder (line : String) : Except JavaException (Order D) :=
  match (split line)[0]? with
  | none => .error .indexOutOfBounds
  | some word =>
      if word = "getQuickBalance" then .ok (.command .getQuickBalance)
      else if word = "getSyncedBalance" then .ok (.command .getSyncedBalance)
      else if word = "deposit" then
        (readNumber (split line)).map (fun amount => .command (.deposit amount))
      else if word = "addInterest" then
        (readNumber (split line)).map (fun percent => .command (.addInterest percent))
      else if word = "getHistory" then .ok (.command .getHistory)
      else if word = "checkTxStatus" then
        match (split line)[1]? with
        | none => .error .indexOutOfBounds
        | some transactionId => .ok (.command (.checkTxStatus transactionId))
      else if word = "cleanHistory" then .ok (.command .cleanHistory)
      else if word = "memberInfo" then .ok (.command .memberInfo)
      else if word = "sleep" then (readNumber (split line)).map .sleep
      else if word = "exit" then .ok .exit
      else .ok (.invalid word)

/-- **`processCommand`** reads the order in the line and carries it out. Nothing has happened when
the reading throws. -/
theorem processCommand_eq (line : String) (origin : τ) (s : Session D τ) :
    processCommand (some line) origin s =
      match (readOrder line : Except JavaException (Order D)) with
      | .error e => .error (.thrown e) s
      | .ok order => order.run origin s := by
  unfold processCommand readOrder
  dsimp only
  rw [Shell.bind_apply, call_index]
  cases (split line)[0]? with
  | none => rfl
  | some word =>
      dsimp only
      -- the branches of the `switch`, in the order of the source
      by_cases h : word = "getQuickBalance"
      · rw [if_pos h, if_pos h]
        rfl
      rw [if_neg h, if_neg h]
      clear h
      by_cases h : word = "getSyncedBalance"
      · rw [if_pos h, if_pos h]
        rfl
      rw [if_neg h, if_neg h]
      clear h
      by_cases h : word = "deposit"
      · rw [if_pos h, if_pos h, Shell.bind_apply, call_number]
        cases (readNumber (split line) : Except JavaException D) <;> rfl
      rw [if_neg h, if_neg h]
      clear h
      by_cases h : word = "addInterest"
      · rw [if_pos h, if_pos h, Shell.bind_apply, call_number]
        cases (readNumber (split line) : Except JavaException D) <;> rfl
      rw [if_neg h, if_neg h]
      clear h
      by_cases h : word = "getHistory"
      · rw [if_pos h, if_pos h]
        rfl
      rw [if_neg h, if_neg h]
      clear h
      by_cases h : word = "checkTxStatus"
      · rw [if_pos h, if_pos h, Shell.bind_apply, call_index]
        cases (split line)[1]? <;> rfl
      rw [if_neg h, if_neg h]
      clear h
      by_cases h : word = "cleanHistory"
      · rw [if_pos h, if_pos h]
        rfl
      rw [if_neg h, if_neg h]
      clear h
      by_cases h : word = "memberInfo"
      · rw [if_pos h, if_pos h]
        rfl
      rw [if_neg h, if_neg h]
      clear h
      by_cases h : word = "sleep"
      · rw [if_pos h, if_pos h, Shell.bind_apply, call_number]
        cases (readNumber (split line) : Except JavaException D) <;> rfl
      rw [if_neg h, if_neg h]
      clear h
      by_cases h : word = "exit"
      · rw [if_pos h, if_pos h]
        rfl
      rw [if_neg h, if_neg h]
      clear h
      rfl

/-! ## Lines the main thread survives -/

omit [Mul D] [NatCast D] [DoubleLong D] in
theorem readNumber_eq_ok_iff {data : List String} {x : D} :
    readNumber data = .ok x ↔ ∃ piece, data[1]? = some piece ∧ parseDouble piece = some x := by
  unfold readNumber
  cases data[1]? with
  | none => simp
  | some piece =>
      cases hp : parseDouble (D := D) piece with
      | none => simp [hp]
      | some y => simp [hp]

omit [Mul D] [NatCast D] [DoubleLong D] in
/-- Reading a line with a number fails where there is no argument or it is no number. -/
theorem exists_readNumber_map_iff {data : List String} {f : D → Order D} {P : Order D → Prop} :
    (∃ order, (readNumber data).map f = .ok order ∧ P order)
      ↔ ∃ piece, data[1]? = some piece ∧ ∃ x, parseDouble piece = some x ∧ P (f x) := by
  constructor
  · rintro ⟨order, hread, hP⟩
    cases hx : (readNumber data : Except JavaException D) with
    | error e => simp [hx, Except.map] at hread
    | ok x =>
        obtain ⟨piece, hpiece, hparse⟩ := readNumber_eq_ok_iff.mp hx
        obtain rfl : f x = order := by simpa [hx, Except.map] using hread
        exact ⟨piece, hpiece, x, hparse, hP⟩
  · rintro ⟨piece, hpiece, x, hparse, hP⟩
    refine ⟨f x, ?_, hP⟩
    rw [readNumber_eq_ok_iff.mpr ⟨piece, hpiece, hparse⟩]
    rfl

/-- The condition on a line: it has a first piece; `checkTxStatus` comes with an argument, and
`deposit`, `addInterest` and `sleep` with one that is a number; and the time to sleep, in whole
milliseconds, is not negative. -/
def Accepted (D : Type) [Mul D] [NatCast D] [DoubleText D] [DoubleLong D] (line : String) : Prop :=
  ∃ word, (split line)[0]? = some word
    ∧ (word = "checkTxStatus" → (split line)[1]?.isSome)
    ∧ (word = "deposit" ∨ word = "addInterest" →
        ∃ piece, (split line)[1]? = some piece ∧ ∃ x : D, parseDouble piece = some x)
    ∧ (word = "sleep" → ∃ piece, (split line)[1]? = some piece
        ∧ ∃ x : D, parseDouble piece = some x ∧ ¬ toLong (x * (1000 : ℕ)) < 0)

/-- The order lets the main thread go on. -/
def Order.Survives : Order D → Prop
  | .sleep seconds => ¬ toLong (seconds * (1000 : ℕ)) < 0
  | .exit => False
  | _ => True

/-- A line is accepted exactly when it can be read, and what it orders is to exit or lets the main
thread go on. -/
theorem accepted_iff (line : String) :
    Accepted D line ↔ ∃ order : Order D, readOrder line = .ok order
      ∧ ((split line)[0]? = some "exit" ∨ order.Survives) := by
  unfold Accepted readOrder
  cases (split line)[0]? with
  | none => simp
  | some word =>
      simp only [Option.some.injEq, exists_eq_left']
      by_cases h₁ : word = "getQuickBalance"
      · subst h₁
        simp [Order.Survives]
      rw [if_neg h₁]
      by_cases h₂ : word = "getSyncedBalance"
      · subst h₂
        simp [Order.Survives]
      rw [if_neg h₂]
      by_cases h₃ : word = "deposit"
      · subst h₃
        rw [if_pos rfl, exists_readNumber_map_iff]
        simp [Order.Survives]
      rw [if_neg h₃]
      by_cases h₄ : word = "addInterest"
      · subst h₄
        rw [if_pos rfl, exists_readNumber_map_iff]
        simp [Order.Survives]
      rw [if_neg h₄]
      by_cases h₅ : word = "getHistory"
      · subst h₅
        simp [Order.Survives]
      rw [if_neg h₅]
      by_cases h₆ : word = "checkTxStatus"
      · subst h₆
        rw [if_pos rfl]
        cases (split line)[1]? <;> simp [Order.Survives]
      rw [if_neg h₆]
      by_cases h₇ : word = "cleanHistory"
      · subst h₇
        simp [Order.Survives]
      rw [if_neg h₇]
      by_cases h₈ : word = "memberInfo"
      · subst h₈
        simp [Order.Survives]
      rw [if_neg h₈]
      by_cases h₉ : word = "sleep"
      · subst h₉
        rw [if_pos rfl, exists_readNumber_map_iff]
        simp [Order.Survives]
      rw [if_neg h₉]
      by_cases h₁₀ : word = "exit"
      · subst h₁₀
        simp [Order.Survives]
      rw [if_neg h₁₀]
      simp [h₃, h₄, h₆, h₉, Order.Survives]

/-! ## What the orders do -/

omit [Mul D] [NatCast D] [DoubleText D] [DoubleLong D] in
/-- The state a method leaves behind, however it ends. -/
def Shell.after {α : Type} (method : Shell D τ α) (s : Session D τ) : Session D τ :=
  match method s with
  | .ok _ s' => s'
  | .error _ s' => s'

omit [Mul D] [NatCast D] [DoubleLong D] in
theorem call_command (c : Command D) (origin : τ) (s : Session D τ) :
    call (c.run origin) s = .ok () { s with toReplica := (c.run origin).after s.toReplica } := by
  rw [call, c.run_ok origin s.toReplica]

omit [Mul D] [NatCast D] [DoubleText D] [DoubleLong D] in
/-- `exit` always ends the process. It prints, and turns `active` off if the reader can be closed;
it sends nothing. -/
theorem exit_eq (s : Session D τ) : ∃ notices,
    exit s = .error (.exited 0) { s with
      active := s.active && decide (s.commandLineReader ≠ some none)
      notices := notices } := by
  unfold exit
  simp only [Shell.bind_apply, notify_apply, Shell.get_apply]
  rcases hr : s.commandLineReader with _ | _ | e
  · exact ⟨_, by simp; rfl⟩
  · rcases hl : s.leaveFault with _ | e
    · exact ⟨_, by simp; rfl⟩
    · exact ⟨_, by simp; rfl⟩
  · exact ⟨_, by simp; rfl⟩

omit [DoubleText D] in
theorem sleep_eq (seconds : D) (s : Session D τ) : ∃ notices,
    sleep seconds s =
      if toLong (seconds * (1000 : ℕ)) < 0 then .error (.exited 1) { s with notices := notices }
      else .ok () { s with notices := notices } := by
  unfold sleep
  by_cases h : toLong (seconds * (1000 : ℕ)) < 0
  · simp only [Shell.bind_apply, notify_apply, if_pos h, Shell.throw_apply]
    exact ⟨_, rfl⟩
  · simp only [Shell.bind_apply, notify_apply, if_neg h, Shell.pure_apply]
    exact ⟨_, rfl⟩

/-- The main thread goes on after an order exactly when the order lets it. -/
theorem Order.run_returns_iff (order : Order D) (origin : τ) (s : Session D τ) :
    (∃ s', order.run origin s = .ok () s') ↔ order.Survives := by
  cases order with
  | command c => exact iff_of_true ⟨_, call_command c origin s⟩ trivial
  | sleep seconds =>
      obtain ⟨notices, hsleep⟩ := sleep_eq seconds s
      show (∃ s', SpreadAccount.sleep seconds s = .ok () s') ↔ ¬ toLong (seconds * (1000 : ℕ)) < 0
      rw [hsleep]
      by_cases h : toLong (seconds * (1000 : ℕ)) < 0
      · rw [if_pos h]
        refine iff_of_false ?_ (not_not.mpr h)
        rintro ⟨s', hs'⟩
        cases hs'
      · rw [if_neg h]
        exact iff_of_true ⟨_, rfl⟩ h
  | exit =>
      obtain ⟨notices, hexit⟩ := exit_eq s
      refine iff_of_false ?_ id
      rintro ⟨s', hs'⟩
      have hcontra := hexit.symm.trans hs'
      cases hcontra
  | invalid word => exact iff_of_true ⟨_, rfl⟩ trivial

omit [Mul D] [NatCast D] [DoubleLong D] in
/-- The command of the `Client` interface that a line calls, if it calls one. -/
def commandOf : Option String → Option (Command D)
  | none => none
  | some line =>
      match (readOrder line : Except JavaException (Order D)) with
      | .ok (.command c) => some c
      | _ => none

/-- **What `processCommand` can do to the replica**: carry out a command and return; leave it
alone, and return or throw; or end the process, with `active` off perhaps. -/
theorem processCommand_cases (command : Option String) (origin : τ) (s : Session D τ) :
    (∃ c s', commandOf command = some c ∧ processCommand command origin s = .ok () s'
        ∧ s'.toReplica = (c.run origin).after s.toReplica)
      ∨ (∃ s', commandOf (D := D) command = none ∧ s'.toReplica = s.toReplica
        ∧ (processCommand command origin s = .ok () s'
          ∨ ∃ e, processCommand command origin s = .error (.thrown e) s'))
      ∨ ∃ status active s', processCommand command origin s = .error (.exited status) s'
        ∧ s'.toReplica = { s.toReplica with active := active } := by
  cases command with
  | none => exact Or.inr (Or.inl ⟨s, rfl, rfl, Or.inr ⟨_, rfl⟩⟩)
  | some line =>
      rw [processCommand_eq, commandOf]
      cases (readOrder line : Except JavaException (Order D)) with
      | error e => exact Or.inr (Or.inl ⟨s, rfl, rfl, Or.inr ⟨e, rfl⟩⟩)
      | ok order =>
          cases order with
          | command c => exact Or.inl ⟨c, _, rfl, call_command c origin s, rfl⟩
          | sleep seconds =>
              obtain ⟨notices, hsleep⟩ := sleep_eq seconds s
              by_cases hneg : toLong (seconds * (1000 : ℕ)) < 0
              · rw [if_pos hneg] at hsleep
                exact Or.inr (Or.inr ⟨1, s.active, _, hsleep, rfl⟩)
              · rw [if_neg hneg] at hsleep
                exact Or.inr (Or.inl ⟨{ s with notices := notices }, rfl, rfl, Or.inl hsleep⟩)
          | exit =>
              obtain ⟨notices, hexit⟩ := exit_eq s
              exact Or.inr (Or.inr ⟨0, _, _, hexit, rfl⟩)
          | invalid word =>
              exact Or.inr (Or.inl
                ⟨{ s with notices := s.notices ++ [.invalidCommand word] ++ [.menu] }, rfl, rfl,
                  Or.inl rfl⟩)

omit [Mul D] [NatCast D] [DoubleText D] [DoubleLong D] in
/-- The account, what is queued, and the flags are the same. -/
structure SameAccount (r r' : Replica D τ) : Prop where
  balance : r'.balance = r.balance
  executedList : r'.executedList = r.executedList
  outstandingCollection : r'.outstandingCollection = r.outstandingCollection
  outstandingCounter : r'.outstandingCounter = r.outstandingCounter
  awaitingSyncedBalance : r'.awaitingSyncedBalance = r.awaitingSyncedBalance
  awaitingSyncedBalanceNaive : r'.awaitingSyncedBalanceNaive = r.awaitingSyncedBalanceNaive

omit [Mul D] [NatCast D] [DoubleText D] [DoubleLong D] in
/-- The order is one of those that change the account, what is queued or a flag. -/
def Order.Writes : Order D → Prop
  | .command .getSyncedBalance => True
  | .command .getSyncedBalanceNaive => True
  | .command .cleanHistory => True
  | .command (.deposit _) => True
  | .command (.addInterest _) => True
  | _ => False

theorem Order.sameAccount_of_not_writes {order : Order D} (h : ¬ order.Writes) (origin : τ)
    (s : Session D τ) : SameAccount s.toReplica ((order.run origin).after s).toReplica := by
  cases order with
  | command c =>
      have hafter : ((Order.command c).run origin).after s
          = { s with toReplica := (c.run origin).after s.toReplica } := by
        show Shell.after (call (c.run origin)) s = _
        rw [Shell.after, call_command]
      rw [hafter]
      dsimp only
      rw [Command.run_after]
      cases c with
      | getSyncedBalance => exact absurd trivial h
      | cleanHistory => exact absurd trivial h
      | deposit amount => exact absurd trivial h
      | addInterest percent => exact absurd trivial h
      | getSyncedBalanceNaive => exact absurd trivial h
      | _ => exact ⟨rfl, rfl, List.append_nil _, rfl, rfl, rfl⟩
  | sleep seconds =>
      obtain ⟨notices, hsleep⟩ := sleep_eq seconds s
      show SameAccount s.toReplica (Shell.after (SpreadAccount.sleep seconds) s).toReplica
      rw [Shell.after, hsleep]
      by_cases hneg : toLong (seconds * (1000 : ℕ)) < 0
      · rw [if_pos hneg]
        exact ⟨rfl, rfl, rfl, rfl, rfl, rfl⟩
      · rw [if_neg hneg]
        exact ⟨rfl, rfl, rfl, rfl, rfl, rfl⟩
  | exit =>
      obtain ⟨notices, hexit⟩ := exit_eq s
      show SameAccount s.toReplica (Shell.after SpreadAccount.exit s).toReplica
      rw [Shell.after, hexit]
      exact ⟨rfl, rfl, rfl, rfl, rfl, rfl⟩
  | invalid word => exact ⟨rfl, rfl, rfl, rfl, rfl, rfl⟩

omit [Mul D] [NatCast D] [DoubleLong D] in
/-- The line is `getSyncedBalance`, `cleanHistory`, or a `deposit` or `addInterest` with a number.
No line that is not a well-formed command is one of these. -/
def Writes (D : Type) [DoubleText D] (line : String) : Prop :=
  ∃ word, (split line)[0]? = some word
    ∧ (word = "getSyncedBalance" ∨ word = "cleanHistory"
      ∨ (word = "deposit" ∨ word = "addInterest") ∧ ∃ piece, (split line)[1]? = some piece
        ∧ ∃ x : D, parseDouble piece = some x)

omit [Mul D] [NatCast D] [DoubleLong D] in
theorem writes_of_readOrder {line : String} {order : Order D} (h : readOrder line = .ok order)
    (hw : order.Writes) : Writes D line := by
  unfold readOrder at h
  unfold Writes
  cases hword : (split line)[0]? with
  | none =>
      rw [hword] at h
      cases h
  | some word =>
      rw [hword] at h
      dsimp only at h
      refine ⟨word, rfl, ?_⟩
      by_contra hno
      push Not at hno
      obtain ⟨hsynced, hclean, hnumber⟩ := hno
      -- without a number there is no order to deposit or to add interest
      have hnone : word = "deposit" ∨ word = "addInterest" → ∀ f : D → Order D,
          (readNumber (split line)).map f ≠ .ok order := by
        intro hor f hread
        obtain ⟨piece, hpiece, x, hx, -⟩ :=
          (exists_readNumber_map_iff (P := fun _ => True)).mp ⟨order, hread, trivial⟩
        exact hnumber hor piece hpiece x hx
      rw [if_neg hsynced, if_neg hclean] at h
      -- the other branches, one by one: what they order writes nothing
      split at h
      · cases h
        exact hw
      split at h
      · exact hnone (Or.inl ‹_›) _ h
      split at h
      · exact hnone (Or.inr ‹_›) _ h
      split at h
      · cases h
        exact hw
      split at h
      · split at h
        · cases h
        · cases h
          exact hw
      split at h
      · cases h
        exact hw
      split at h
      · obtain ⟨-, -, x, -, rfl⟩ := exists_readNumber_map_iff.mp ⟨order, h, rfl⟩
        exact hw
      split at h
      · cases h
        exact hw
      · cases h
        exact hw

/-! ## One line -/

/-- The transaction that the line has added to the collection carries the operation `operation`,
and the counter has gone up by one. -/
def Queues (line : String) (origin : τ) (s : Session D τ) (operation : Call D) : Prop :=
  ∃ t, ((processCommand (some line) origin).after s).outstandingCollection
      = s.outstandingCollection ++ [t]
    ∧ readCall t = .ok (some operation)
    ∧ ((processCommand (some line) origin).after s).outstandingCounter = s.outstandingCounter + 1

/-- The line does no harm: the main thread survives it unless it asks to exit; the account is left
alone unless the line is well formed and asks for a change; and a deposit or an interest with a
number is queued with that number. -/
structure LineHandled (line : String) (origin : τ) (s : Session D τ) : Prop where
  returns : (split line)[0]? ≠ some "exit" → ∃ s', processCommand (some line) origin s = .ok () s'
  unchanged : ¬ Writes D line →
    SameAccount s.toReplica ((processCommand (some line) origin).after s).toReplica
  deposits : ∀ piece x, (split line)[0]? = some "deposit" → (split line)[1]? = some piece →
    parseDouble piece = some x → Queues line origin s (.deposit x)
  addsInterest : ∀ piece x, (split line)[0]? = some "addInterest" →
    (split line)[1]? = some piece → parseDouble piece = some x →
    Queues line origin s (.addInterest x)

theorem queues_of_readOrder {line : String} {c : Command D} {operation : Call D}
    (h : readOrder line = .ok (.command c)) (hc : c.call = some operation) (origin : τ)
    (s : Session D τ) : Queues line origin s operation := by
  have hafter : (processCommand (some line) origin).after s
      = { s with toReplica := (c.run origin).after s.toReplica } := by
    have hok : processCommand (some line) origin s
        = .ok () { s with toReplica := (c.run origin).after s.toReplica } := by
      rw [processCommand_eq, h]
      exact call_command c origin s
    rw [Shell.after, hok]
  unfold Queues
  rw [hafter]
  dsimp only
  rw [Command.run_after]
  dsimp only
  rw [Command.issued, hc]
  exact ⟨_, rfl, readCall_of_command rfl, rfl⟩

/-- The main thread goes on after a line exactly when the line is accepted and not an `exit`. -/
theorem processCommand_returns_iff (line : String) (origin : τ) (s : Session D τ) :
    (∃ s', processCommand (some line) origin s = .ok () s')
      ↔ Accepted D line ∧ (split line)[0]? ≠ some "exit" := by
  have hreturns : (∃ s', processCommand (some line) origin s = .ok () s')
      ↔ ∃ order : Order D, readOrder line = .ok order ∧ order.Survives := by
    rw [processCommand_eq]
    cases (readOrder line : Except JavaException (Order D)) with
    | error e => simp
    | ok order => simp [Order.run_returns_iff]
  have hexit : (split line)[0]? = some "exit" →
      (readOrder line : Except JavaException (Order D)) = .ok .exit := by
    intro h
    rw [readOrder, h]
    simp
  rw [hreturns, accepted_iff]
  constructor
  · rintro ⟨order, hread, hsurvives⟩
    refine ⟨⟨order, hread, Or.inr hsurvives⟩, fun h => ?_⟩
    obtain rfl : order = .exit := by
      rw [hexit h] at hread
      exact (Except.ok.inj hread).symm
    exact hsurvives
  · rintro ⟨⟨order, hread, hor⟩, hne⟩
    exact ⟨order, hread, hor.resolve_left hne⟩

theorem accepted_of_exit {line : String} (h : (split line)[0]? = some "exit") : Accepted D line :=
  ⟨"exit", h, by simp, by simp, by simp⟩

/-- **Which lines the main thread handles.** -/
theorem line_handled_iff (line : String) (origin : τ) (s : Session D τ) :
    LineHandled line origin s ↔ Accepted D line := by
  constructor
  · intro h
    by_cases hexit : (split line)[0]? = some "exit"
    · exact accepted_of_exit hexit
    · exact ((processCommand_returns_iff line origin s).mp (h.returns hexit)).1
  · intro haccepted
    refine ⟨fun hexit => ?_, fun hno => ?_, fun piece x hword hpiece hx => ?_,
      fun piece x hword hpiece hx => ?_⟩
    · exact (processCommand_returns_iff line origin s).mpr ⟨haccepted, hexit⟩
    · cases hread : (readOrder line : Except JavaException (Order D)) with
      | error e =>
          have hafter : (processCommand (some line) origin).after s = s := by
            rw [Shell.after, processCommand_eq, hread]
          rw [hafter]
          exact ⟨rfl, rfl, rfl, rfl, rfl, rfl⟩
      | ok order =>
          have hafter : (processCommand (some line) origin).after s
              = (order.run origin).after s := by
            rw [Shell.after, Shell.after, processCommand_eq, hread]
          rw [hafter]
          exact order.sameAccount_of_not_writes (fun hw => hno (writes_of_readOrder hread hw)) _ s
    · refine queues_of_readOrder (c := .deposit x) ?_ rfl origin s
      rw [readOrder, hword]
      simp [readNumber, hpiece, hx, Except.map]
    · refine queues_of_readOrder (c := .addInterest x) ?_ rfl origin s
      rw [readOrder, hword]
      simp [readNumber, hpiece, hx, Except.map]

end

/-- A replica that has just started to take commands. -/
def startedSession : Session ℚ ℕ :=
  { (Replica.new 2 : Replica ℚ ℕ) with
    accountName := "account"
    serverAddress := "localhost"
    commandLineReader := some none
    leaveFault := none
    notices := [] }

/-- A line of one space, a `deposit` without an amount, an amount that is no number: each throws
out of `processCommand`. A negative `sleep` ends the process. -/
theorem malformed_line_stops :
    processCommand (some " ") 0 startedSession = .error (.thrown .indexOutOfBounds) startedSession
      ∧ processCommand (some "deposit") 0 startedSession
        = .error (.thrown .indexOutOfBounds) startedSession
      ∧ processCommand (some "deposit ten") 0 startedSession
        = .error (.thrown .numberFormat) startedSession
      ∧ (∃ s', processCommand (some "sleep -1") 0 startedSession = .error (.exited 1) s')
      ∧ ¬ LineHandled "deposit" 0 startedSession := by
  have hspace : (readOrder " " : Except JavaException (Order ℚ)) = .error .indexOutOfBounds := by
    decide +kernel
  have hmissing : (readOrder "deposit" : Except JavaException (Order ℚ))
      = .error .indexOutOfBounds := by decide +kernel
  have hword : (readOrder "deposit ten" : Except JavaException (Order ℚ))
      = .error .numberFormat := by decide +kernel
  have hsleep : (readOrder "sleep -1" : Except JavaException (Order ℚ)) = .ok (.sleep (-1)) := by
    decide +kernel
  have hdeposit : processCommand (some "deposit") 0 startedSession
      = .error (.thrown .indexOutOfBounds) startedSession := by
    rw [processCommand_eq, hmissing]
  refine ⟨by rw [processCommand_eq, hspace], hdeposit, by rw [processCommand_eq, hword], ?_, ?_⟩
  · obtain ⟨notices, hnegative⟩ := sleep_eq (-1 : ℚ) startedSession
    rw [if_pos (by decide +kernel)] at hnegative
    rw [processCommand_eq, hsleep]
    exact ⟨_, hnegative⟩
  · intro h
    obtain ⟨s', hs'⟩ := h.returns (by decide)
    rw [hdeposit] at hs'
    cases hs'

end SpreadAccount
