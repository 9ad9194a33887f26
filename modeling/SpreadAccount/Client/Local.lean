import SpreadAccount.Client.Handler

set_option autoImplicit false

/-! # Everything one replica can do

`Local` is the alphabet of a single replica: a command, a tick of the timer, the delivery of a
regular or a membership message, and the timeout of the start-up wait. `Replica.step` is what
the methods of `Client/Replica.lean` do to the state. For each kind of event one equation gives
the state after it (`Command.run_after`, `step_tick`, `step_membership`, `step_timeout`; the regular
messages are in `Client/Handler.lean`).

The last part is about two replicas that are left alone to do different things in between: the
balance and the history are written by deliveries only (`run_balance`, `appended_eq`), so two
replicas that deliver the same messages agree on both.
-/

namespace SpreadAccount

open DoubleText (text)

/-! ## Commands -/

/-- A command of the `Client` interface, `getSyncedBalanceNaive` included. -/
inductive Command (D : Type) where
  | getQuickBalance
  | getSyncedBalanceNaive
  | getSyncedBalance
  | deposit (amount : D)
  | addInterest (percent : D)
  | getHistory
  | checkTxStatus (transactionId : String)
  | cleanHistory
  | memberInfo
  deriving DecidableEq

section

variable {D τ : Type}

/-- The method behind a command. -/
def Command.run [DoubleText D] (origin : τ) : Command D → Java D τ Unit
  | .getQuickBalance => SpreadAccount.getQuickBalance
  | .getSyncedBalanceNaive => SpreadAccount.getSyncedBalanceNaive
  | .getSyncedBalance => SpreadAccount.getSyncedBalance origin
  | .deposit amount => SpreadAccount.deposit amount origin
  | .addInterest percent => SpreadAccount.addInterest percent origin
  | .getHistory => SpreadAccount.getHistory
  | .checkTxStatus transactionId => SpreadAccount.checkTxStatus transactionId
  | .cleanHistory => SpreadAccount.cleanHistory
  | .memberInfo => SpreadAccount.memberInfo

/-- The operation a command queues, if it is one of the three that issue a transaction. -/
def Command.call : Command D → Option (Call D)
  | .deposit amount => some (.deposit amount)
  | .addInterest percent => some (.addInterest percent)
  | .getSyncedBalance => some .getSyncedBalance
  | _ => none

/-- The transaction a command issues, in the state before it. -/
def Command.issued [DoubleText D] (c : Command D) (origin : τ) (r : Replica D τ) :
    List (Transaction τ) :=
  match c.call with
  | some call => [⟨call.command, r.name ++ toString r.outstandingCounter, origin⟩]
  | none => []

/-- What a command prints, in the state before it. -/
def Command.lines (c : Command D) (r : Replica D τ) : List (Line D τ) :=
  match c with
  | .getQuickBalance => [.quickBalance r.balance]
  | .getSyncedBalanceNaive => []
  | .getSyncedBalance => []
  | .deposit amount => [.addingDeposit amount]
  | .addInterest percent => [.addingInterest percent]
  | .getHistory =>
      .history :: .executedHeader r.executedList.length :: r.executedList.map .historyEntry
        ++ .outstandingHeader r.outstandingCollection.length
          :: r.outstandingCollection.map .historyEntry
  | .checkTxStatus id =>
      if r.executedList.any (·.uniqueId == id) then [.txCompleted id]
      else if r.outstandingCollection.any (·.uniqueId == id) then [.txOutstanding id]
      else [.txNotFound id]
  | .cleanHistory => [.clearingHistory]
  | .memberInfo => [.memberInfo r.members]

theorem forM_logOut (f : Transaction τ → Line D τ) (ts : List (Transaction τ)) (r : Replica D τ) :
    (forM ts fun t => logOut (f t) : Java D τ PUnit) r
      = .ok () { r with out := r.out ++ ts.map f } := by
  induction ts generalizing r with
  | nil => simp
  | cons t ts ih =>
      rw [List.forM_cons, Java.bind_apply, logOut_apply]
      simp only
      rw [ih]
      simp

/-- No command throws. -/
theorem Command.run_ok [DoubleText D] (c : Command D) (origin : τ) (r : Replica D τ) :
    c.run origin r = .ok () ((c.run origin).after r) := by
  cases c with
  | getHistory => simp [Command.run, SpreadAccount.getHistory, forM_logOut, Java.after]
  | checkTxStatus id =>
      simp only [Command.run, SpreadAccount.checkTxStatus, Java.after, Java.bind_apply,
        Java.get_apply]
      split
      · rfl
      · split <;> rfl
  | _ => rfl

/-- **The state after a command.** -/
theorem Command.run_after [DoubleText D] (c : Command D) (origin : τ) (r : Replica D τ) :
    (c.run origin).after r = { r with
      awaitingSyncedBalance := match c with
        | .getSyncedBalance => true
        | _ => r.awaitingSyncedBalance
      awaitingSyncedBalanceNaive := match c with
        | .getSyncedBalanceNaive => true
        | _ => r.awaitingSyncedBalanceNaive
      executedList := match c with
        | .cleanHistory => []
        | _ => r.executedList
      outstandingCollection := r.outstandingCollection ++ c.issued origin r
      outstandingCounter := match c.call with
        | some _ => r.outstandingCounter + 1
        | none => r.outstandingCounter
      out := r.out ++ c.lines r } := by
  cases c with
  | getHistory =>
      refine Java.after_of_ok (a := ()) ?_
      simp [Command.run, SpreadAccount.getHistory, forM_logOut, Command.issued, Command.call,
        Command.lines]
  | checkTxStatus id =>
      simp only [Command.run, SpreadAccount.checkTxStatus, Command.lines, Command.issued,
        Command.call, List.append_nil]
      by_cases he : (r.executedList.any (·.uniqueId == id)) = true
      · simp only [Java.after, Java.bind_apply, Java.get_apply, if_pos he, logOut_apply]
      · by_cases ho : (r.outstandingCollection.any (·.uniqueId == id)) = true
        · simp only [Java.after, Java.bind_apply, Java.get_apply, if_neg he, if_pos ho,
            logOut_apply]
        · simp only [Java.after, Java.bind_apply, Java.get_apply, if_neg he, if_neg ho,
            logOut_apply]
  | _ => simp [Command.run, SpreadAccount.getQuickBalance, SpreadAccount.getSyncedBalanceNaive,
      SpreadAccount.getSyncedBalance, SpreadAccount.deposit, SpreadAccount.addInterest,
      SpreadAccount.cleanHistory, SpreadAccount.memberInfo, issue, Java.after, Command.issued,
      Command.call, Call.command, Command.lines]

/-- No command prints a line of the message handler. -/
theorem Command.lines_not_fromBatch (c : Command D) (r : Replica D τ) :
    ∀ line ∈ c.lines r, line.fromBatch = false := by
  cases c with
  | getHistory =>
      intro line hline
      simp only [Command.lines, List.mem_append, List.mem_cons, List.mem_map] at hline
      rcases hline with (rfl | rfl | ⟨t, -, rfl⟩) | rfl | ⟨t, -, rfl⟩ <;> rfl
  | checkTxStatus id =>
      simp only [Command.lines]
      split
      · simp [Line.fromBatch]
      · split <;> simp [Line.fromBatch]
  | _ => simp [Command.lines, Line.fromBatch]

/-! ## Events -/

/-- What can happen at one replica. -/
inductive Local (D τ : Type) where
  | command (c : Command D) (origin : τ)
  | tick
  | regular (m : SpreadMessage D τ)
  | membership (info : MembershipInfo)
  | timeout

variable [Zero D] [Add D] [Mul D] [Div D] [NatCast D] [DoubleText D]

def Replica.step (r : Replica D τ) : Local D τ → Replica D τ
  | .command c origin => (c.run origin).after r
  | .tick => broadcastOutstanding.after r
  | .regular m => (regularMessageReceived m).after r
  | .membership info => (membershipMessageReceived info).after r
  | .timeout => initializeBalanceTimeout.after r

theorem step_tick (r : Replica D τ) :
    r.step .tick = { r with sent := r.sent ++ [outstandingMessage r.outstandingCollection] } := rfl

theorem step_timeout (r : Replica D τ) :
    r.step .timeout = { r with hasUpdatedBalance := true } := rfl

/-- The answer of a member to a membership message: its balance, if it has one to give. -/
def joinAnswer (info : MembershipInfo) (r : Replica D τ) : List (SpreadMessage D τ) :=
  if r.active && info.isCausedByJoin && r.hasUpdatedBalance then [balanceMessage r.balance] else []

/-- The member set after a membership message. -/
def membersAfter (info : MembershipInfo) (r : Replica D τ) : Finset String :=
  if r.active && (info.isCausedByJoin || info.isCausedByLeave) then
    info.members.foldl (fun ms m => insert m ms) ∅
  else r.members

theorem step_membership (info : MembershipInfo) (r : Replica D τ) :
    r.step (.membership info) = { r with
      members := membersAfter info r
      sent := r.sent ++ joinAnswer info r
      out := r.out ++
        if r.active then [.groupSize (membersAfter info r).card r.numReplicas] else [] } := by
  simp only [Replica.step, membershipMessageReceived, membersAfter, joinAnswer]
  cases ha : r.active with
  | false =>
      simp only [Java.after, Java.bind_apply, Java.get_apply, ha, Bool.false_and, Java.pure_apply,
        List.append_nil, Bool.false_eq_true, if_false]
      rw [← ha]
  | true =>
      cases hj : info.isCausedByJoin <;> cases hl : info.isCausedByLeave <;>
        cases hu : r.hasUpdatedBalance <;>
        simp [Java.after, ha, hu, broadcastBalance, multicast]

/-! ## Runs of one replica -/

def Replica.run (r : Replica D τ) (es : List (Local D τ)) : Replica D τ := es.foldl Replica.step r

/-- The regular messages among the events, in the order of their delivery. -/
def regulars (es : List (Local D τ)) : List (SpreadMessage D τ) :=
  es.filterMap fun
    | .regular m => some m
    | _ => none

/-- What a run appends to `executedList`, also when a `cleanHistory` clears it in between. -/
def appended (r : Replica D τ) : List (Local D τ) → List (Transaction τ)
  | [] => []
  | e :: es => (r.step e).executedList.drop r.executedList.length ++ appended (r.step e) es

/-- An event that is no delivery of a regular message leaves the balance alone and appends
nothing to the history. -/
theorem step_of_not_regular (r : Replica D τ) {e : Local D τ} (h : ∀ m, e ≠ .regular m) :
    (r.step e).balance = r.balance ∧ (r.step e).executedList.drop r.executedList.length = [] := by
  cases e with
  | command c origin =>
      have hc : r.step (.command c origin) = (c.run origin).after r := rfl
      rw [hc, Command.run_after]
      refine ⟨rfl, ?_⟩
      cases c <;> simp
  | tick => simp [step_tick]
  | regular m => exact absurd rfl (h m)
  | membership info => simp [step_membership]
  | timeout => simp [step_timeout]

theorem step_regular (m : SpreadMessage D τ) (r : Replica D τ) :
    (r.step (.regular m)).balance = m.effect r.balance
      ∧ (r.step (.regular m)).executedList.drop r.executedList.length = m.recorded := by
  obtain ⟨collection, flag, naive, out, hafter⟩ := regularMessageReceived_frame m r
  have hstep : r.step (.regular m) = (regularMessageReceived m).after r := rfl
  rw [hstep, hafter]
  exact ⟨rfl, List.drop_left⟩

theorem run_balance (r : Replica D τ) (es : List (Local D τ)) :
    (r.run es).balance = (regulars es).foldl (fun b m => m.effect b) r.balance := by
  induction es generalizing r with
  | nil => rfl
  | cons e es ih =>
      have hrun : r.run (e :: es) = (r.step e).run es := rfl
      rw [hrun, ih]
      by_cases hreg : ∃ m, e = .regular m
      · obtain ⟨m, rfl⟩ := hreg
        rw [(step_regular m r).1]
        rfl
      · have hne : ∀ m, e ≠ .regular m := fun m hm => hreg ⟨m, hm⟩
        rw [(step_of_not_regular r hne).1]
        cases e <;> first | rfl | exact absurd rfl (hne _)

theorem appended_eq (r : Replica D τ) (es : List (Local D τ)) :
    appended r es = (regulars es).flatMap (fun m => m.recorded) := by
  induction es generalizing r with
  | nil => rfl
  | cons e es ih =>
      rw [appended, ih]
      by_cases hreg : ∃ m, e = .regular m
      · obtain ⟨m, rfl⟩ := hreg
        rw [(step_regular m r).2]
        rfl
      · have hne : ∀ m, e ≠ .regular m := fun m hm => hreg ⟨m, hm⟩
        rw [(step_of_not_regular r hne).2]
        cases e <;> first | rfl | exact absurd rfl (hne _)

/-! ## Two replicas -/

/-- The two ways in which two replicas come to hold the same balance: both are new, or both have
just delivered one `balanceUpdate`, whatever state each of them was in before. -/
inductive CommonStart : Replica D τ → Replica D τ → Prop where
  | constructed (n₁ n₂ : Int32) : CommonStart (Replica.new n₁) (Replica.new n₂)
  | transferred (m : SpreadMessage D τ) (hm : m.type = balanceUpdate) (r₁ r₂ : Replica D τ) :
      CommonStart (r₁.step (.regular m)) (r₂.step (.regular m))

theorem CommonStart.balance_eq {r₁ r₂ : Replica D τ} (h : CommonStart r₁ r₂) :
    r₁.balance = r₂.balance := by
  cases h with
  | constructed n₁ n₂ => rfl
  | transferred m hm r₁ r₂ =>
      have hne : m.type ≠ outstandingUpdate := by rw [hm]; decide
      rw [(step_regular m r₁).1, (step_regular m r₂).1]
      simp only [SpreadMessage.effect, if_neg hne, if_pos hm]

/-- **Replicas that deliver the same messages in the same order agree**, whatever commands,
ticks, membership messages and timeouts fall in between at each of them. -/
theorem agree_of_same_deliveries {r₁ r₂ : Replica D τ} (hstart : CommonStart r₁ r₂)
    {es₁ es₂ : List (Local D τ)} (hsame : regulars es₁ = regulars es₂) :
    (r₁.run es₁).balance = (r₂.run es₂).balance ∧ appended r₁ es₁ = appended r₂ es₂ := by
  refine ⟨?_, ?_⟩
  · rw [run_balance, run_balance, hsame, hstart.balance_eq]
  · rw [appended_eq, appended_eq, hsame]

end

/-- Two replicas with different pasts install a balance of `70` and then see one deposit, one of
them among commands of its own. -/
theorem agree_of_same_deliveries_transferred :
    let r₁ : Replica ℚ ℕ := Replica.new 2
    let r₂ := (Replica.new 3 : Replica ℚ ℕ).run [.command (.deposit 5) 0, .tick, .timeout]
    let m : SpreadMessage ℚ ℕ := outstandingMessage [⟨"deposit 30.0", "replica0", 7⟩]
    let es₁ : List (Local ℚ ℕ) := [.regular m]
    let es₂ : List (Local ℚ ℕ) :=
      [.command .cleanHistory 1, .regular m, .command .getSyncedBalance 1]
    ((r₁.step (.regular (balanceMessage 70))).run es₁).balance
        = ((r₂.step (.regular (balanceMessage 70))).run es₂).balance
      ∧ appended (r₁.step (.regular (balanceMessage 70))) es₁
        = appended (r₂.step (.regular (balanceMessage 70))) es₂ :=
  agree_of_same_deliveries (.transferred (balanceMessage 70) rfl _ _) rfl

end SpreadAccount
