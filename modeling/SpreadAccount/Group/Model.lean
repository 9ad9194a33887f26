import SpreadAccount.Client.Local
import SpreadAccount.Lib.Machine

set_option autoImplicit false

/-! # A group of replicas

The system: replicas indexed by an arbitrary type `ι`, each with its own `Replica` object, and a
group communication service that hands every multicast to every member at most once, after an
arbitrary delay and in an arbitrary order. A message is named by its sender and its position in
what that sender has multicast, so `deliver i j k` delivers the `k`-th message of `j` to `i`; it
is refused when there is no such message yet or `i` has delivered it before. Membership messages
and the timeout of the start-up wait can come at any time, which covers joins at any time: a
replica that joins late simply delivers nothing sent before.

`history` is a ghost: for each replica, what has happened there, in order. The replicas do not
read it. A step uses it for the service's own record of what it has delivered, and for the serial
number in the identity of a new transaction.
-/

namespace SpreadAccount

/-- The identity of a transaction object: who issued it, and how many it had issued before. -/
abbrev Origin (ι : Type) : Type := ι × ℕ

/-- Something that happened at one replica. -/
inductive Happening (ι D : Type) where
  /-- The command was called. -/
  | called (c : Command D)
  /-- A call of a command issued the transaction. -/
  | issued (t : Transaction (Origin ι))
  /-- The replica multicast the message. -/
  | sent (m : SpreadMessage D (Origin ι))
  /-- The `k`-th message of `j` was delivered. -/
  | received (j : ι) (k : ℕ) (m : SpreadMessage D (Origin ι))
  /-- The membership message with number `v` was delivered. -/
  | viewed (v : ℕ) (info : MembershipInfo)
  /-- `cleanHistory` was called. -/
  | cleaned
  /-- `getSyncedBalance` turned its flag on, with these transactions outstanding. -/
  | raised (pending : List (Transaction (Origin ι)))
  /-- `getSyncedBalanceNaive` turned its flag on, with these transactions outstanding. -/
  | raisedNaive (pending : List (Transaction (Origin ι)))
  /-- `initializeBalance` stopped waiting. -/
  | timedOut
  deriving DecidableEq

section

variable {ι D : Type}

/-! ## Reading a history -/

/-- The transactions issued, in order. -/
def issuedIn (h : List (Happening ι D)) : List (Transaction (Origin ι)) :=
  h.filterMap fun
    | .issued t => some t
    | _ => none

/-- The messages multicast, in order. -/
def sentIn (h : List (Happening ι D)) : List (SpreadMessage D (Origin ι)) :=
  h.filterMap fun
    | .sent m => some m
    | _ => none

/-- The names of the regular messages delivered, in order. -/
def receivedIn (h : List (Happening ι D)) : List (ι × ℕ) :=
  h.filterMap fun
    | .received j k _ => some (j, k)
    | _ => none

/-- The regular messages delivered, in order. -/
def messagesIn (h : List (Happening ι D)) : List (SpreadMessage D (Origin ι)) :=
  h.filterMap fun
    | .received _ _ m => some m
    | _ => none

/-! ## The group -/

/-- The state of the group. -/
structure Group (ι D : Type) where
  replica : ι → Replica D (Origin ι)
  history : ι → List (Happening ι D)

/-- What can happen in the group. -/
inductive Event (ι D : Type) where
  /-- A command is called at `i`. -/
  | command (i : ι) (c : Command D)
  /-- The timer of `i` fires. -/
  | tick (i : ι)
  /-- The `k`-th message of `j` is delivered at `i`. -/
  | deliver (i j : ι) (k : ℕ)
  /-- The membership message number `v` is delivered at `i`. -/
  | membership (i : ι) (v : ℕ) (info : MembershipInfo)
  /-- The wait of `initializeBalance` at `i` times out. -/
  | timeout (i : ι)

/-- The group before anything has happened: every replica is as its constructor leaves it. -/
def Group.init [Zero D] (numReplicas : ι → Int32) : Group ι D where
  replica i := Replica.new (numReplicas i)
  history _ := []

/-- The flags a command turns on and the history it clears, from the state before it. -/
def changeNote (c : Command D) (r : Replica D (Origin ι)) : List (Happening ι D) :=
  match c with
  | .cleanHistory => [.cleaned]
  | .getSyncedBalance =>
      if r.awaitingSyncedBalance then [] else [.raised r.outstandingCollection]
  | .getSyncedBalanceNaive =>
      if r.awaitingSyncedBalanceNaive then [] else [.raisedNaive r.outstandingCollection]
  | _ => []

/-- A call of a command, in the state before it: what it changes, and the transaction it issues
with the identity `origin`. -/
def commandNote [DoubleText D] (c : Command D) (origin : Origin ι) (r : Replica D (Origin ι)) :
    List (Happening ι D) :=
  .called c :: changeNote c r ++ (c.issued origin r).map .issued

/-- The messages a step has multicast. -/
def sentNote (r r' : Replica D (Origin ι)) : List (Happening ι D) :=
  (r'.sent.drop r.sent.length).map .sent

/-- Replica `i` moves to the state `r'`, and `note` is added to its history. -/
def Group.move [DecidableEq ι] (g : Group ι D) (i : ι) (r' : Replica D (Origin ι))
    (note : List (Happening ι D)) : Group ι D where
  replica := Function.update g.replica i r'
  history := Function.update g.history i (g.history i ++ note)

variable [DecidableEq ι] [Zero D] [Add D] [Mul D] [Div D] [NatCast D] [DoubleText D]

/-- One step of the group; `none` when the event is not possible. -/
def Group.step (g : Group ι D) : Event ι D → Option (Group ι D)
  | .command i c =>
      let r := g.replica i
      let origin := (i, (issuedIn (g.history i)).length)
      some (g.move i (r.step (.command c origin)) (commandNote c origin r))
  | .tick i =>
      let r := g.replica i
      let r' := r.step .tick
      some (g.move i r' (sentNote r r'))
  | .deliver i j k =>
      match (g.replica j).sent[k]? with
      | none => none
      | some m =>
          if (j, k) ∈ receivedIn (g.history i) then none
          else some (g.move i ((g.replica i).step (.regular m)) [.received j k m])
  | .membership i v info =>
      let r := g.replica i
      let r' := r.step (.membership info)
      some (g.move i r' (.viewed v info :: sentNote r r'))
  | .timeout i => some (g.move i ((g.replica i).step .timeout) [.timedOut])

/-- The states a group of replicas can reach. -/
def Group.Reachable (g : Group ι D) : Prop :=
  ∃ numReplicas, Machine.Reachable Group.step (Group.init numReplicas) g

theorem Group.Reachable.later {g g' : Group ι D} (hg : g.Reachable)
    (hrun : Machine.Reachable Group.step g g') : g'.Reachable := by
  obtain ⟨numReplicas, hstart⟩ := hg
  exact ⟨numReplicas, hstart.trans hrun⟩

theorem Group.Reachable.snoc {g g' : Group ι D} {e : Event ι D} (hg : g.Reachable)
    (hs : g.step e = some g') : g'.Reachable :=
  hg.later (Machine.Reachable.single hs)

/-- The group at the end of a run that is checked by evaluation. -/
theorem Group.exists_of_run (numReplicas : ι → Int32) (es : List (Event ι D))
    (p : Group ι D → Bool)
    (h : (Machine.exec Group.step (Group.init numReplicas) es).any p = true) :
    ∃ g : Group ι D, Machine.exec Group.step (Group.init numReplicas) es = some g ∧ p g = true :=
  Machine.exists_of_any Group.step (Group.init numReplicas) es p h

end

/-- The replicas of a group of two. -/
inductive Site where
  | alpha
  | beta
  deriving DecidableEq

instance : Fintype Site where
  elems := {.alpha, .beta}
  complete s := by cases s <;> decide

/-- Two replicas start, one after the other. Both learn that the group is complete before either
of them has a balance to give, and both stop waiting for one. -/
def startUp : List (Event Site ℚ) :=
  [.membership .alpha 1 ⟨.join, ["#replica#alpha"]⟩,
    .membership .alpha 2 ⟨.join, ["#replica#alpha", "#replica#beta"]⟩,
    .membership .beta 2 ⟨.join, ["#replica#alpha", "#replica#beta"]⟩,
    .timeout .alpha, .timeout .beta]

end SpreadAccount
