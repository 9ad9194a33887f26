import SpreadAccount.Client.Transaction

set_option autoImplicit false

/-! # The replica

The fields of a `Replica` object and the methods that work on them: the three commands that
issue transactions, the other commands of the `Client` interface, the timer task, the two
message handlers and `broadcastBalance`.

A method runs in the monad `Java`, which keeps the state when an exception is thrown: what the
method has changed before the exception stays changed. Two more fields record what the replica
does to the outside: `sent`, everything its connection has multicast, and `out`, everything it
has printed. A multicast that fails ends the process (`System.exit(1)`) and is not modelled.
-/

namespace SpreadAccount

open DoubleText (text parseDouble)

/-! ## Messages -/

/-- An object in the digest of a message. -/
inductive DigestObject (D τ : Type) where
  | transactions (batch : List (Transaction τ))
  | double (x : D)
  | other
  deriving DecidableEq

/-- A regular message. `digest` is `none` where `getDigest()` throws. -/
structure SpreadMessage (D τ : Type) where
  type : Int16
  digest : Option (List (DigestObject D τ))
  deriving DecidableEq

/-- The two message types of the source. -/
def outstandingUpdate : Int16 := 0

def balanceUpdate : Int16 := 1

/-- The message `startBroadcaster` builds: `setType(outstandingUpdate)`, `digest(batch)`. -/
def outstandingMessage {D τ : Type} (batch : List (Transaction τ)) : SpreadMessage D τ :=
  ⟨outstandingUpdate, some [.transactions batch]⟩

/-- The message `broadcastBalance` builds: `setType(balanceUpdate)`, `digest(balance)`. -/
def balanceMessage {D τ : Type} (balance : D) : SpreadMessage D τ :=
  ⟨balanceUpdate, some [.double balance]⟩

/-- Why a membership message was sent. -/
inductive MembershipCause where
  | join
  | leave
  | disconnect
  | network
  | transition
  deriving DecidableEq

/-- A membership message: its cause and the member list of the new view. -/
structure MembershipInfo where
  cause : MembershipCause
  members : List String
  deriving DecidableEq

def MembershipInfo.isCausedByJoin (info : MembershipInfo) : Bool := info.cause == .join

def MembershipInfo.isCausedByLeave (info : MembershipInfo) : Bool := info.cause == .leave

/-! ## The console -/

/-- A line a replica prints. A line printed while the handler works on an entry of a batch
carries the entry as a ghost, which does not show in the text. -/
inductive Line (D τ : Type) where
  | decodeError
  | updatedBalance (entry : Transaction τ) (balance : D)
  | syncedBalance (entry : Transaction τ) (balance : D)
  | naiveSyncedBalance (balance : D)
  | groupSize (size : ℕ) (numReplicas : Int32)
  | quickBalance (balance : D)
  | addingDeposit (amount : D)
  | addingInterest (percent : D)
  | history
  | executedHeader (size : ℕ)
  | outstandingHeader (size : ℕ)
  | historyEntry (t : Transaction τ)
  | txCompleted (transactionId : String)
  | txOutstanding (transactionId : String)
  | txNotFound (transactionId : String)
  | clearingHistory
  | memberInfo (members : Finset String)
  deriving DecidableEq

/-- The printed text, for a replica called `name`. `memberInfo` prints one line for each member,
in the iteration order of a hash set, which Java leaves open; the text lists them sorted. -/
def Line.text {D τ : Type} [DoubleText D] (name : String) : Line D τ → List String
  | .decodeError =>
      [tag ++ "\x1b[91mError\x1b[0m: something went wrong when trying to decode message"]
  | .updatedBalance _ b => [tag ++ "updated balance to: " ++ DoubleText.text b]
  | .syncedBalance _ b => [tag ++ "Current (synced) balance: " ++ DoubleText.text b]
  | .naiveSyncedBalance b => [tag ++ "Current (naive synced) balance: " ++ DoubleText.text b]
  | .groupSize n k =>
      [tag ++ "Group size updated. Replicas in group: " ++ toString n ++ "/" ++ toString k]
  | .quickBalance b =>
      ["\x1b[3m" ++ tag ++ "Current (quick) balance: " ++ DoubleText.text b ++ "\x1b[0m"]
  | .addingDeposit a => [tag ++ "Adding a deposit transaction of " ++ DoubleText.text a]
  | .addingInterest p => [tag ++ "Adding an interest transaction of " ++ DoubleText.text p ++ "%"]
  | .history => [tag ++ "Transaction history:"]
  | .executedHeader n => [bright ("Executed transactions (" ++ toString n ++ ")")]
  | .outstandingHeader n => [bright ("Outstanding transactions (" ++ toString n ++ ")")]
  | .historyEntry t => [" -> " ++ t.toString]
  | .txCompleted id => [tag ++ transactionId id ++ "is completed"]
  | .txOutstanding id => [tag ++ transactionId id ++ "is outstanding"]
  | .txNotFound id => [tag ++ transactionId id ++ "was not found in the transaction history"]
  | .clearingHistory => [tag ++ "Clearing transaction history"]
  | .memberInfo ms => bright (tag ++ "Current group members:") :: ms.sort (· ≤ ·)
where
  tag : String := "\x1b[1m[" ++ name ++ "]\x1b[0m "
  bright (s : String) : String := "\x1b[97m" ++ s ++ "\x1b[0m"
  transactionId (id : String) : String := "Transaction ID '\x1b[1m" ++ id ++ "\x1b[0m' "

/-! ## The state -/

/-- The fields of a `Replica`. `orderCounter` is never read and left out; the connection is
`sent`, the console is `out`. -/
structure Replica (D τ : Type) where
  active : Bool
  awaitingSyncedBalance : Bool
  awaitingSyncedBalanceNaive : Bool
  name : String
  numReplicas : Int32
  members : Finset String
  balance : D
  hasUpdatedBalance : Bool
  executedList : List (Transaction τ)
  outstandingCollection : List (Transaction τ)
  outstandingCounter : Int32
  sent : List (SpreadMessage D τ)
  out : List (Line D τ)
  deriving DecidableEq

/-- A method of a replica. -/
abbrev Java (D τ α : Type) : Type := EStateM JavaException (Replica D τ) α

/-- The state a method leaves behind, whether it returns or throws. -/
def Java.after {D τ α : Type} (method : Java D τ α) (r : Replica D τ) : Replica D τ :=
  match method r with
  | .ok _ r' => r'
  | .error _ r' => r'

section

variable {D τ : Type}

/-- The fields after the constructor has set them, before the replica connects. -/
def Replica.new [Zero D] (numReplicas : Int32) : Replica D τ where
  active := true
  awaitingSyncedBalance := false
  awaitingSyncedBalanceNaive := false
  name := "replica"
  numReplicas := numReplicas
  members := ∅
  balance := 0
  hasUpdatedBalance := false
  executedList := []
  outstandingCollection := []
  outstandingCounter := 0
  sent := []
  out := []

/-- `Log.out` and its siblings. -/
def logOut (line : Line D τ) : Java D τ Unit :=
  modify fun r => { r with out := r.out ++ [line] }

/-- `connection.multicast(message)`. -/
def multicast (message : SpreadMessage D τ) : Java D τ Unit :=
  modify fun r => { r with sent := r.sent ++ [message] }

/-! ## Commands -/

/-- The three lines `getSyncedBalance`, `deposit` and `addInterest` share: a transaction with the
next id joins the outstanding collection. `origin` is the identity of the new object. -/
def issue (command : String) (origin : τ) : Java D τ Unit :=
  modify fun r =>
    { r with
      outstandingCollection :=
        r.outstandingCollection ++ [⟨command, r.name ++ toString r.outstandingCounter, origin⟩]
      outstandingCounter := r.outstandingCounter + 1 }

def getQuickBalance : Java D τ Unit := do
  logOut (.quickBalance (← get).balance)

def getSyncedBalanceNaive : Java D τ Unit :=
  modify fun r => { r with awaitingSyncedBalanceNaive := true }

def getSyncedBalance (origin : τ) : Java D τ Unit := do
  modify fun r => { r with awaitingSyncedBalance := true }
  issue "getSyncedBalance" origin

def deposit [DoubleText D] (amount : D) (origin : τ) : Java D τ Unit := do
  logOut (.addingDeposit amount)
  issue ("deposit " ++ text amount) origin

def addInterest [DoubleText D] (percent : D) (origin : τ) : Java D τ Unit := do
  logOut (.addingInterest percent)
  issue ("addInterest " ++ text percent) origin

def getHistory : Java D τ Unit := do
  let r ← get
  logOut .history
  logOut (.executedHeader r.executedList.length)
  r.executedList.forM fun t => logOut (.historyEntry t)
  logOut (.outstandingHeader r.outstandingCollection.length)
  r.outstandingCollection.forM fun t => logOut (.historyEntry t)

def checkTxStatus (transactionId : String) : Java D τ Unit := do
  let r ← get
  if r.executedList.any (·.uniqueId == transactionId) then
    logOut (.txCompleted transactionId)
  else if r.outstandingCollection.any (·.uniqueId == transactionId) then
    logOut (.txOutstanding transactionId)
  else
    logOut (.txNotFound transactionId)

def cleanHistory : Java D τ Unit := do
  logOut .clearingHistory
  modify fun r => { r with executedList := [] }

def memberInfo : Java D τ Unit := do
  logOut (.memberInfo (← get).members)

/-! ## The timer and the state transfer -/

/-- The `TimerTask` of `startBroadcaster`: multicast a snapshot of the outstanding collection. -/
def broadcastOutstanding : Java D τ Unit := do
  let r ← get
  multicast (outstandingMessage r.outstandingCollection)

def broadcastBalance : Java D τ Unit := do
  let r ← get
  multicast (balanceMessage r.balance)

/-- The branch of `initializeBalance` that stops waiting for a balance. -/
def initializeBalanceTimeout : Java D τ Unit :=
  modify fun r => { r with hasUpdatedBalance := true }

/-! ## The message handlers -/

/-- `data[i]`. -/
def index (data : List String) (i : ℕ) : Java D τ String :=
  match data[i]? with
  | some s => pure s
  | none => throw .indexOutOfBounds

/-- `Double.parseDouble(s)`. -/
def parse [DoubleText D] (s : String) : Java D τ D :=
  match parseDouble s with
  | some x => pure x
  | none => throw .numberFormat

/-- `spreadMessage.getDigest().get(0)`. -/
def SpreadMessage.digestHead (m : SpreadMessage D τ) : Except JavaException (DigestObject D τ) :=
  match m.digest with
  | none => .error .spread
  | some [] => .error .indexOutOfBounds
  | some (o :: _) => .ok o

/-- The `try` block of `regularMessageReceived`: the locals `outstanding` (`none` is `null`) and
`newBalance` after it has run to its end. -/
def SpreadMessage.decode [Zero D] (m : SpreadMessage D τ) :
    Except JavaException (Option (List (Transaction τ)) × D) :=
  if m.type = outstandingUpdate then
    match m.digestHead with
    | .ok (.transactions batch) => .ok (some batch, 0)
    | .ok _ => .error .classCast
    | .error e => .error e
  else if m.type = balanceUpdate then
    match m.digestHead with
    | .ok (.double x) => .ok (none, x)
    | .ok _ => .error .classCast
    | .error e => .error e
  else .ok (none, 0)

variable [Zero D] [Add D] [Mul D] [Div D] [NatCast D] [DoubleText D]

/-- The effect of one batch entry: the branches on `data[0]`. -/
def applyEntry (t : Transaction τ) : Java D τ Unit := do
  let data := split t.command
  let word ← index data 0
  if word = "deposit" then
    let amount ← parse (← index data 1)
    modify fun r => { r with balance := r.balance + amount }
    logOut (.updatedBalance t (← get).balance)
  else if word = "addInterest" then
    let percent ← parse (← index data 1)
    modify fun r => { r with balance := r.balance * ((1 : ℕ) + percent / (100 : ℕ)) }
    logOut (.updatedBalance t (← get).balance)
  else
    let r ← get
    if word = "getSyncedBalance" ∧ r.awaitingSyncedBalance then
      logOut (.syncedBalance t r.balance)

/-- The body of the loop over a batch: apply the entry, remove what has its id from the
outstanding collection, and record it unless it is a balance request. -/
def processEntry (t : Transaction τ) : Java D τ Unit := do
  applyEntry t
  modify fun r =>
    { r with outstandingCollection := r.outstandingCollection.filter (·.uniqueId != t.uniqueId) }
  if t.isUpdate then
    modify fun r => { r with executedList := r.executedList ++ [t] }

/-- The loop over a batch. -/
def processBatch : List (Transaction τ) → Java D τ Unit
  | [] => pure ()
  | t :: rest => do
      processEntry t
      processBatch rest

/-- The branch of `regularMessageReceived` for `outstandingUpdate`, on the local `outstanding`. -/
def receiveOutstanding (outstanding : Option (List (Transaction τ))) : Java D τ Unit :=
  match outstanding with
  | none => throw .nullPointer
  | some batch => do
      processBatch batch
      modify fun r => { r with awaitingSyncedBalance := false }
      let r ← get
      if r.awaitingSyncedBalanceNaive then
        logOut (.naiveSyncedBalance r.balance)
        modify fun r => { r with awaitingSyncedBalanceNaive := false }

def regularMessageReceived (m : SpreadMessage D τ) : Java D τ Unit := do
  let (outstanding, newBalance) ←
    match m.decode with
    | .ok locals => pure locals
    | .error _ => do
        logOut .decodeError
        pure (none, 0)
  if m.type = outstandingUpdate then
    receiveOutstanding outstanding
  else if m.type = balanceUpdate then
    modify fun r => { r with balance := newBalance, hasUpdatedBalance := true }

omit [Zero D] [Add D] [Mul D] [Div D] [NatCast D] [DoubleText D] in
def membershipMessageReceived (info : MembershipInfo) : Java D τ Unit := do
  let r ← get
  if r.active then
    if info.isCausedByJoin || info.isCausedByLeave then
      modify fun r => { r with members := info.members.foldl (fun ms m => insert m ms) ∅ }
    if info.isCausedByJoin && r.hasUpdatedBalance then
      broadcastBalance
    let r ← get
    logOut (.groupSize r.members.card r.numReplicas)

end

end SpreadAccount
