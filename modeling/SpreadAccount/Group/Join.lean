import SpreadAccount.Group.Invariant
import SpreadAccount.Lib.Occurrence

set_option autoImplicit false

/-! # State transfer to a joining replica

A member that has a balance answers a join with it, and every member installs every answer, the
ones that have a balance included. This file is about runs in which all replicas deliver the
regular messages and the views in one common order, each from its own join on.

The common order has an account: the batches of the order, replayed from `0`. Where no update is
ordered between a join and the answers to it, and where the replicas that stop waiting for a
balance have joined an empty account, every member with a balance holds the balance of the account
at its place in the order (`OnAccount`), and the answers change nothing (`transfer_keeps_balance`).
An update ordered between a join and its answer is undone (`transfer_undoes_deposit`).
-/

namespace SpreadAccount

open Occurrence (AtEach)

section

variable {ι D : Type}

/-! ## The common order -/

/-- Something that all replicas deliver: a regular message or a view. -/
inductive Item (ι : Type) where
  | regular (j : ι) (k : ℕ)
  | view (v : ℕ)
  deriving DecidableEq

/-- The regular messages and views delivered, in order. -/
def itemsIn (h : List (Happening ι D)) : List (Item ι) :=
  h.filterMap fun
    | .received j k _ => some (.regular j k)
    | .viewed v _ => some (.view v)
    | _ => none

/-- The numbers of the views delivered, in order. -/
def viewsIn (h : List (Happening ι D)) : List ℕ :=
  h.filterMap fun
    | .viewed v _ => some v
    | _ => none

/-- Every replica delivers the items of `order` without a gap, `i` from position `start i` on. -/
def CommonOrder (g : Group ι D) (order : List (Item ι)) (start : ι → ℕ) : Prop :=
  order.Nodup ∧ ∀ i, itemsIn (g.history i) <+: order.drop (start i)

instance [Fintype ι] [DecidableEq ι] (g : Group ι D) (order : List (Item ι)) (start : ι → ℕ) :
    Decidable (CommonOrder g order start) :=
  inferInstanceAs (Decidable (order.Nodup ∧ ∀ i, itemsIn (g.history i) <+: order.drop (start i)))

@[simp] theorem itemsIn_append (h h' : List (Happening ι D)) :
    itemsIn (h ++ h') = itemsIn h ++ itemsIn h' := List.filterMap_append

@[simp] theorem viewsIn_append (h h' : List (Happening ι D)) :
    viewsIn (h ++ h') = viewsIn h ++ viewsIn h' := List.filterMap_append

theorem itemsIn_map_issued (ts : List (Transaction (Origin ι))) :
    itemsIn (ts.map (.issued : _ → Happening ι D)) = [] := by
  simp [itemsIn, List.filterMap_map]

theorem itemsIn_map_sent (ms : List (SpreadMessage D (Origin ι))) :
    itemsIn (ms.map .sent) = [] := by
  simp [itemsIn, List.filterMap_map]

theorem itemsIn_commandNote [DoubleText D] (c : Command D) (origin : Origin ι)
    (r : Replica D (Origin ι)) : itemsIn (commandNote c origin r) = [] := by
  have hchange : itemsIn (changeNote c r) = [] := by
    cases c <;> simp only [changeNote] <;> try split
    all_goals rfl
  show itemsIn ([.called c] ++ (changeNote c r ++ (c.issued origin r).map .issued)) = []
  rw [itemsIn_append, itemsIn_append, hchange, itemsIn_map_issued]
  rfl

/-! ## The account of an order -/

variable [Zero D]

/-- The batch an item brings. -/
def Group.batchOf (g : Group ι D) : Item ι → List (Transaction (Origin ι))
  | .regular j k =>
      match (g.replica j).sent[k]? with
      | some m => m.batch
      | none => []
  | .view _ => []

variable [Add D] [Mul D] [Div D] [NatCast D] [DoubleText D]

/-- The balance after a list of items, from the balance `b`. -/
def Group.account (g : Group ι D) (items : List (Item ι)) (b : D) : D :=
  items.foldl (fun b item => replay (g.batchOf item) b) b

/-- The balance of the account after the first `n` items of the order. -/
def Group.accountAt (g : Group ι D) (order : List (Item ι)) (n : ℕ) : D :=
  g.account (order.take n) 0

theorem Group.accountAt_succ (g : Group ι D) {order : List (Item ι)} {n : ℕ} {item : Item ι}
    (h : order[n]? = some item) :
    g.accountAt order (n + 1) = replay (g.batchOf item) (g.accountAt order n) := by
  unfold Group.accountAt Group.account
  rw [List.take_add_one, h, Option.toList_some, List.foldl_append]
  rfl

/-- The account after a stretch of the order. -/
theorem Group.accountAt_add (g : Group ι D) {order items : List (Item ι)} {s : ℕ}
    (h : items <+: order.drop s) :
    g.accountAt order (s + items.length) = g.account items (g.accountAt order s) := by
  have htake : (order.drop s).take items.length = items := (List.prefix_iff_eq_take.mp h).symm
  unfold Group.accountAt Group.account
  rw [List.take_add, htake, List.foldl_append]

omit [Zero D] [Add D] [Mul D] [Div D] [NatCast D] [DoubleText D] in
/-- The next item of a replica that follows the order. -/
theorem getElem?_of_prefix_drop {order items : List (Item ι)} {s : ℕ} {item : Item ι}
    (h : items ++ [item] <+: order.drop s) : order[s + items.length]? = some item := by
  have hlt : items.length < (items ++ [item]).length := by simp
  have hget := List.prefix_iff_getElem?.mp h items.length hlt
  rw [List.getElem?_drop] at hget
  rw [hget, List.getElem_append_right (by omega)]
  simp

/-! ## The condition -/

/-- The happening is the answer to a join. -/
def Happening.isTransfer : Happening ι D → Bool
  | .sent m => m.type == balanceUpdate
  | _ => false

def Happening.isTimeout : Happening ι D → Bool
  | .timedOut => true
  | _ => false

variable [DecidableEq ι]

/-- The condition on the order. An answer to the view `v` is ordered where the account has the
balance it had at `v`; and a replica that stops waiting for a balance without having got one
has joined an account with a balance of `0`. -/
def TransferSafe (g : Group ι D) (order : List (Item ι)) (start : ι → ℕ) : Prop :=
  (∀ j, AtEach (g.history j) fun pre e => e.isTransfer = true →
      ∀ v ∈ (viewsIn pre).getLast?, .regular j (sentIn pre).length ∈ order →
        g.accountAt order (order.idxOf (.view v))
          = g.accountAt order (order.idxOf (.regular j (sentIn pre).length)))
    ∧ ∀ i, AtEach (g.history i) fun pre e => e.isTimeout = true →
        (∀ m ∈ messagesIn pre, m.type ≠ balanceUpdate) → g.accountAt order (start i) = 0

instance [Fintype ι] [DecidableEq D] (g : Group ι D) (order : List (Item ι)) (start : ι → ℕ) :
    Decidable (TransferSafe g order start) :=
  inferInstanceAs (Decidable ((∀ j, AtEach (g.history j) fun pre e => e.isTransfer = true →
      ∀ v ∈ (viewsIn pre).getLast?, .regular j (sentIn pre).length ∈ order →
        g.accountAt order (order.idxOf (.view v))
          = g.accountAt order (order.idxOf (.regular j (sentIn pre).length)))
    ∧ ∀ i, AtEach (g.history i) fun pre e => e.isTimeout = true →
        (∀ m ∈ messagesIn pre, m.type ≠ balanceUpdate) → g.accountAt order (start i) = 0))

/-! ## The invariant -/

/-- Replica `i` in the state `r`, with the history `h`, on its way to the group `g`: with a
balance it holds that of the account of `g`, without one it has replayed what it has delivered,
and the answers it has sent have the balance of the account at the view they answer. -/
structure OnAccount (g : Group ι D) (order : List (Item ι)) (start : ι → ℕ) (i : ι)
    (h : List (Happening ι D)) (r : Replica D (Origin ι)) : Prop where
  updated : r.hasUpdatedBalance = true →
    r.balance = g.accountAt order (start i + (itemsIn h).length)
  waiting : r.hasUpdatedBalance = false →
    r.balance = g.account (itemsIn h) 0 ∧ ∀ m ∈ messagesIn h, m.type ≠ balanceUpdate
  transfers : AtEach h fun pre e => ∀ x, e = .sent (balanceMessage x) →
    ∃ v, (viewsIn pre).getLast? = some v ∧ .view v ∈ order
      ∧ x = g.accountAt order (order.idxOf (.view v))

theorem OnAccount.new (g : Group ι D) (order : List (Item ι)) (start : ι → ℕ) (i : ι) (n : Int32) :
    OnAccount g order start i [] (Replica.new n) where
  updated h := by cases h
  waiting _ := ⟨rfl, fun m hm => by cases hm⟩
  transfers := Occurrence.atEach_nil

/-- A move that delivers nothing, sends no answer and leaves the balance alone. -/
theorem OnAccount.of_quiet {g : Group ι D} {order : List (Item ι)} {start : ι → ℕ} {i : ι}
    {h note : List (Happening ι D)} {r r' : Replica D (Origin ι)}
    (hon : OnAccount g order start i h r) (hitems : itemsIn note = [])
    (hquiet : messagesIn note = []) (hsent : ∀ x, .sent (balanceMessage x) ∉ note)
    (hbalance : r'.balance = r.balance) (hflag : r'.hasUpdatedBalance = r.hasUpdatedBalance) :
    OnAccount g order start i (h ++ note) r' where
  updated hup := by
    rw [hflag] at hup
    rw [hbalance, hon.updated hup, itemsIn_append, hitems, List.append_nil]
  waiting hno := by
    rw [hflag] at hno
    rw [hbalance, itemsIn_append, hitems, List.append_nil, messagesIn_append, hquiet,
      List.append_nil]
    exact hon.waiting hno
  transfers := by
    refine Occurrence.atEach_append.mpr ⟨hon.transfers, fun pre e post hsplit x hx => ?_⟩
    exact absurd (show .sent (balanceMessage x) ∈ note by simp [hsplit, hx]) (hsent x)

/-- The answers a replica has sent, by their names. -/
theorem OnAccount.transfer {g : Group ι D} {order : List (Item ι)} {start : ι → ℕ} {j : ι}
    {h : List (Happening ι D)} {r : Replica D (Origin ι)} (hon : OnAccount g order start j h r)
    (hsafe : TransferSafe g order start) (hpre : h <+: g.history j) {k : ℕ} {x : D}
    (hk : (sentIn h)[k]? = some (balanceMessage x)) (hmem : .regular j k ∈ order) :
    x = g.accountAt order (order.idxOf (.regular j k)) := by
  obtain ⟨pre, post, hsplit, hlen⟩ := sentIn_getElem? hk
  obtain ⟨later, hlater⟩ := hpre
  obtain ⟨v, hv, -, hx⟩ := hon.transfers pre _ post hsplit x rfl
  have hgsplit : g.history j = pre ++ .sent (balanceMessage x) :: (post ++ later) := by
    rw [← hlater, hsplit, List.append_assoc, List.cons_append]
  have hcurrent := hsafe.1 j pre _ _ hgsplit rfl v hv (by rwa [hlen])
  rw [hx, hcurrent, hlen]

omit [Zero D] [Add D] [Mul D] [Div D] [NatCast D] [DoubleText D] in
/-- The place of an item in an order without repetitions. -/
theorem idxOf_of_getElem? {order : List (Item ι)} (hnd : order.Nodup) {n : ℕ} {item : Item ι}
    (h : order[n]? = some item) : order.idxOf item = n := by
  obtain ⟨hn, hval⟩ := List.getElem?_eq_some_iff.mp h
  rw [← hval]
  exact hnd.idxOf_getElem n hn

/-- The delivery of a batch moves the replica and the account alike. -/
theorem OnAccount.batch {g : Group ι D} {order : List (Item ι)} {start : ι → ℕ} {i j : ι} {k : ℕ}
    {h : List (Happening ι D)} {r : Replica D (Origin ι)} (hon : OnAccount g order start i h r)
    {ts : List (Transaction (Origin ι))}
    (hitem : order[start i + (itemsIn h).length]? = some (.regular j k))
    (hbatch : g.batchOf (.regular j k) = ts) :
    OnAccount g order start i (h ++ [.received j k (outstandingMessage ts)]) (afterBatch ts r) where
  updated hup := by
    have hlen : (itemsIn (h ++ [.received j k (outstandingMessage ts)])).length
        = (itemsIn h).length + 1 := by
      rw [itemsIn_append, List.length_append]
      rfl
    calc replay ts r.balance
        = replay ts (g.accountAt order (start i + (itemsIn h).length)) := by rw [hon.updated hup]
      _ = g.accountAt order (start i + (itemsIn h).length + 1) := by
          rw [g.accountAt_succ hitem, hbatch]
      _ = _ := by rw [hlen, Nat.add_assoc]
  waiting hno := by
    refine ⟨?_, fun m hm => ?_⟩
    · show replay ts r.balance = _
      rw [itemsIn_append, Group.account, List.foldl_append, (hon.waiting hno).1]
      show _ = replay (g.batchOf (.regular j k)) _
      rw [hbatch]
      rfl
    · rw [messagesIn_append, List.mem_append] at hm
      rcases hm with hm | hm
      · exact (hon.waiting hno).2 m hm
      · rw [List.mem_singleton.mp hm]
        exact show outstandingUpdate ≠ balanceUpdate by decide
  transfers := by
    refine Occurrence.atEach_append.mpr ⟨hon.transfers, ?_⟩
    exact Occurrence.atEach_singleton.mpr (fun x hx => by cases hx)

/-- The delivery of an answer that has the balance of the account. -/
theorem OnAccount.balance {g : Group ι D} {order : List (Item ι)} {start : ι → ℕ} {i j : ι} {k : ℕ}
    {h : List (Happening ι D)} {r : Replica D (Origin ι)} (hon : OnAccount g order start i h r)
    {x : D} (hitem : order[start i + (itemsIn h).length]? = some (.regular j k))
    (hbatch : g.batchOf (.regular j k) = [])
    (hvalue : x = g.accountAt order (start i + (itemsIn h).length)) :
    OnAccount g order start i (h ++ [.received j k (balanceMessage x)])
      { r with balance := x, hasUpdatedBalance := true } where
  updated _ := by
    have hlen : (itemsIn (h ++ [.received j k (balanceMessage x)])).length
        = (itemsIn h).length + 1 := by
      rw [itemsIn_append, List.length_append]
      rfl
    -- the answer brings no batch, so the account stays where it is
    calc x = g.accountAt order (start i + (itemsIn h).length) := hvalue
      _ = g.accountAt order (start i + (itemsIn h).length + 1) := by
          rw [g.accountAt_succ hitem, hbatch, replay_nil]
      _ = _ := by rw [hlen, Nat.add_assoc]
  waiting hno := by cases hno
  transfers := by
    refine Occurrence.atEach_append.mpr ⟨hon.transfers, ?_⟩
    exact Occurrence.atEach_singleton.mpr (fun y hy => by cases hy)

/-- A view leaves the account alone, and an answer to it has the balance of the account. -/
theorem OnAccount.membership {g : Group ι D} {order : List (Item ι)} {start : ι → ℕ} {i : ι}
    {h : List (Happening ι D)} {r : Replica D (Origin ι)} (hon : OnAccount g order start i h r)
    (hnd : order.Nodup) {v : ℕ} {info : MembershipInfo}
    (hitem : order[start i + (itemsIn h).length]? = some (.view v)) :
    OnAccount g order start i (h ++ .viewed v info :: (joinAnswer info r).map .sent)
      (r.step (.membership info)) := by
  have hnote : itemsIn (.viewed v info :: (joinAnswer info r).map .sent : List (Happening ι D))
      = [.view v] := congrArg (Item.view v :: ·) (itemsIn_map_sent _)
  have hquiet : messagesIn (.viewed v info :: (joinAnswer info r).map .sent
      : List (Happening ι D)) = [] := messagesIn_map_sent _
  rw [step_membership]
  refine ⟨fun hup => ?_, fun hno => ⟨?_, ?_⟩, ?_⟩
  · show r.balance = _
    rw [itemsIn_append, hnote, List.length_append, List.length_singleton, ← Nat.add_assoc,
      g.accountAt_succ hitem]
    exact hon.updated hup
  · show r.balance = _
    rw [itemsIn_append, hnote, Group.account, List.foldl_append, (hon.waiting hno).1]
    rfl
  · rw [messagesIn_append, hquiet, List.append_nil]
    exact (hon.waiting hno).2
  · refine Occurrence.atEach_append.mpr ⟨hon.transfers, Occurrence.atEach_cons.mpr ⟨?_, ?_⟩⟩
    · intro x hx
      cases hx
    · unfold joinAnswer
      split
      · -- there is an answer, so the replica has a balance
        rename_i hanswer
        have hup : r.hasUpdatedBalance = true := by
          simp only [Bool.and_eq_true] at hanswer
          exact hanswer.2
        refine Occurrence.atEach_singleton.mpr fun x hx => ⟨v, ?_, ?_, ?_⟩
        · rw [viewsIn_append]
          simp [viewsIn]
        · exact List.mem_of_getElem? hitem
        · obtain rfl : r.balance = x := by simpa [balanceMessage] using hx
          rw [idxOf_of_getElem? hnd hitem]
          exact hon.updated hup
      · exact Occurrence.atEach_nil

/-- A replica that stops waiting is on the account if the account was empty when it joined. -/
theorem OnAccount.timeout {g : Group ι D} {order : List (Item ι)} {start : ι → ℕ} {i : ι}
    {h : List (Happening ι D)} {r : Replica D (Origin ι)} (hon : OnAccount g order start i h r)
    (hitems : itemsIn h <+: order.drop (start i))
    (hstart : (∀ m ∈ messagesIn h, m.type ≠ balanceUpdate) → g.accountAt order (start i) = 0) :
    OnAccount g order start i (h ++ [.timedOut]) { r with hasUpdatedBalance := true } where
  updated _ := by
    have hsame : itemsIn (h ++ [.timedOut]) = itemsIn h := by
      rw [itemsIn_append]
      exact List.append_nil _
    show r.balance = _
    rw [hsame]
    cases hup : r.hasUpdatedBalance with
    | true => exact hon.updated hup
    | false =>
        -- nothing has been installed, so the balance is what was delivered since the join
        obtain ⟨hbalance, hnone⟩ := hon.waiting hup
        rw [g.accountAt_add hitems, hstart hnone]
        exact hbalance
  waiting hno := by cases hno
  transfers := by
    refine Occurrence.atEach_append.mpr ⟨hon.transfers, ?_⟩
    exact Occurrence.atEach_singleton.mpr (fun x hx => by cases hx)

/-! ## Whole runs -/

omit [Zero D] [Add D] [Mul D] [Div D] [NatCast D] [DoubleText D] in
/-- A move of `i` in a state `t` on the way to `g` follows the order. -/
theorem CommonOrder.next {g t : Group ι D} {order : List (Item ι)} {start : ι → ℕ}
    (hcommon : CommonOrder g order start) {i : ι} {r' : Replica D (Origin ι)}
    {note : List (Happening ι D)} (hpre : (t.move i r' note).history i <+: g.history i) :
    itemsIn (t.history i ++ note) <+: order.drop (start i) := by
  rw [Group.move_history_self] at hpre
  obtain ⟨later, hlater⟩ := hpre
  refine List.IsPrefix.trans ?_ (hcommon.2 i)
  rw [← hlater, itemsIn_append _ later]
  exact List.prefix_append _ _

/-- The answer `i` is about to install has the balance of the account at this place. -/
theorem transfer_value {g t : Group ι D} {order : List (Item ι)} {start : ι → ℕ}
    (hcommon : CommonOrder g order start) (hsafe : TransferSafe g order start) (ht : t.Reachable)
    (hrun : Machine.Reachable Group.step t g) {i j : ι} {k : ℕ} {x : D}
    (hon : OnAccount g order start j (t.history j) (t.replica j))
    (hx : (t.replica j).sent[k]? = some (balanceMessage x))
    (hitem : order[start i + (itemsIn (t.history i)).length]? = some (.regular j k)) :
    x = g.accountAt order (start i + (itemsIn (t.history i)).length) := by
  rw [← idxOf_of_getElem? hcommon.1 hitem]
  refine hon.transfer hsafe (ht.history_grows hrun j) ?_ (List.mem_of_getElem? hitem)
  rw [← (ht.explained j).sent]
  exact hx

/-- **One move** on the way to `g` keeps its replica on the account. -/
theorem OnAccount.move {g t : Group ι D} {order : List (Item ι)} {start : ι → ℕ}
    (hcommon : CommonOrder g order start) (hsafe : TransferSafe g order start) (ht : t.Reachable)
    (hrun : Machine.Reachable Group.step t g) {e : Event ι D} {i : ι} {r' : Replica D (Origin ι)}
    {note : List (Happening ι D)} (hm : Moves t e i r' note)
    (hpre : (t.move i r' note).history i <+: g.history i)
    (hon : ∀ j, OnAccount g order start j (t.history j) (t.replica j)) :
    OnAccount g order start i (t.history i ++ note) r' := by
  have hnext := hcommon.next hpre
  have hplace : ∀ item, itemsIn note = [item] →
      order[start i + (itemsIn (t.history i)).length]? = some item := by
    intro item hitem
    rw [itemsIn_append, hitem] at hnext
    exact getElem?_of_prefix_drop hnext
  cases hm with
  | command i c origin horigin =>
      obtain ⟨-, hs, -, hq⟩ := commandNote_cases c origin (t.replica i)
      rw [Command.run_after]
      refine (hon i).of_quiet (itemsIn_commandNote c origin _) hq (fun x hx => ?_) rfl rfl
      have hin := mem_sentIn.mpr hx
      rw [hs] at hin
      cases hin
  | tick i =>
      refine (hon i).of_quiet rfl rfl (fun x hx => ?_) rfl rfl
      simp [balanceMessage, outstandingMessage] at hx
  | batch i j k ts hts hfresh hwf =>
      refine (hon i).batch (hplace _ rfl) ?_
      simp only [Group.batchOf, ht.sent_later hrun hts]
      rfl
  | balance i j k x hx hfresh =>
      refine (hon i).balance (hplace _ rfl) ?_
        (transfer_value hcommon hsafe ht hrun (hon j) hx (hplace _ rfl))
      simp only [Group.batchOf, ht.sent_later hrun hx]
      rfl
  | membership i v info =>
      refine (hon i).membership hcommon.1 (hplace _ ?_)
      exact congrArg (Item.view v :: ·) (itemsIn_map_sent _)
  | timeout i =>
      rw [Group.move_history_self] at hpre
      obtain ⟨later, hlater⟩ := hpre
      refine (hon i).timeout ?_ (hsafe.2 i (t.history i) .timedOut later ?_ rfl)
      · rw [itemsIn_append] at hnext
        exact (List.prefix_append _ _).trans hnext
      · rw [← hlater, List.append_assoc]
        rfl

/-- **Along a run to `g`, every replica is on the account of `g`.** -/
theorem onAccount_of_run {g t : Group ι D} {order : List (Item ι)} {start : ι → ℕ}
    (hcommon : CommonOrder g order start) (hsafe : TransferSafe g order start) (ht : t.Reachable)
    (hrun : Machine.Reachable Group.step t g) (i : ι) :
    OnAccount g order start i (t.history i) (t.replica i) := by
  obtain ⟨numReplicas, hr⟩ := ht
  revert i hrun
  refine hr.induct (P := fun t => Machine.Reachable Group.step t g → ∀ i,
    OnAccount g order start i (t.history i) (t.replica i))
    (fun _ i => OnAccount.new g order start i (numReplicas i)) ?_
  intro t e t' hreach ih hs hrun
  have ht : t.Reachable := ⟨numReplicas, hreach⟩
  have hrun' : Machine.Reachable Group.step t g := (Machine.Reachable.single hs).trans hrun
  have ht' : t'.Reachable := ht.snoc hs
  have hpre := ht'.history_grows hrun
  obtain ⟨i, r', note, hm, rfl⟩ := ht.step_moves hs
  exact (Group.forall_move_iff t i r' note (P := OnAccount g order start) fun j _ => ih hrun' j).mpr
    (OnAccount.move hcommon hsafe ht hrun' hm (hpre i) (ih hrun'))

omit [Zero D] [Add D] [Mul D] [Div D] [NatCast D] [DoubleText D] [DecidableEq ι] in
/-- If the step from `t` to `t'` delivers a `balanceUpdate` to a replica that has a balance
already, the balance stays as it is. -/
def TransferKeeps (t : Group ι D) (e : Event ι D) (t' : Group ι D) : Prop :=
  match e with
  | .deliver i j k => ∀ m ∈ (t.replica j).sent[k]?, m.type = balanceUpdate →
      (t.replica i).hasUpdatedBalance = true → (t'.replica i).balance = (t.replica i).balance
  | _ => True

instance [DecidableEq D] (t : Group ι D) (e : Event ι D) (t' : Group ι D) :
    Decidable (TransferKeeps t e t') :=
  match e with
  | .deliver i j k => inferInstanceAs (Decidable (∀ m ∈ (t.replica j).sent[k]?,
      m.type = balanceUpdate → (t.replica i).hasUpdatedBalance = true →
        (t'.replica i).balance = (t.replica i).balance))
  | .command _ _ => .isTrue trivial
  | .tick _ => .isTrue trivial
  | .membership _ _ _ => .isTrue trivial
  | .timeout _ => .isTrue trivial

/-- **When a transfer changes nothing.** In a run with a common order that meets the condition
`TransferSafe`, no delivery of a `balanceUpdate` changes the balance of a replica that has one
already. -/
theorem transfer_keeps_balance {numReplicas : ι → Int32} {es : List (Event ι D)} {g : Group ι D}
    (hrun : Machine.exec Group.step (Group.init numReplicas) es = some g)
    {order : List (Item ι)} {start : ι → ℕ} (hcommon : CommonOrder g order start)
    (hsafe : TransferSafe g order start) :
    Machine.StepsMeet Group.step (fun t e => ∀ t' ∈ t.step e, TransferKeeps t e t')
      (Group.init numReplicas) es := by
  rintro pre e post t rfl hpre t' hs
  have ht : t.Reachable := ⟨numReplicas, pre, hpre⟩
  have ht' : t'.Reachable := ht.snoc hs
  -- the rest of the run leads to `g`
  have hlater : Machine.Reachable Group.step t' g := Machine.reachable_rest hrun hpre hs
  have hrun' : Machine.Reachable Group.step t g := (Machine.Reachable.single hs).trans hlater
  have hgrow := ht'.history_grows hlater
  have hon := onAccount_of_run hcommon hsafe ht hrun'
  obtain ⟨i, r', note, hm, rfl⟩ := ht.step_moves hs
  cases hm with
  | batch i j k ts hts hfresh hwf =>
      intro m hm htype
      rw [hts, Option.mem_some_iff] at hm
      subst hm
      exact absurd htype (show outstandingUpdate ≠ balanceUpdate by decide)
  | balance i j k x hx hfresh =>
      intro m hm htype hup
      rw [Group.move_replica_self]
      show x = (t.replica i).balance
      have hitem : order[start i + (itemsIn (t.history i)).length]? = some (.regular j k) := by
        have hnext := hcommon.next (hgrow i)
        rw [itemsIn_append] at hnext
        exact getElem?_of_prefix_drop hnext
      rw [(hon i).updated hup]
      exact transfer_value hcommon hsafe ht hrun' (hon j) hx hitem
  | _ => trivial

end

/-- A member that is alone deposits `100`; another replica joins after the deposit has been
delivered, and gets the balance. -/
def joinAfterDeposit : List (Event Site ℚ) :=
  [.membership .alpha 1 ⟨.join, ["#replica#alpha"]⟩, .timeout .alpha,
    .command .alpha (.deposit 100), .tick .alpha,
    .deliver .alpha .alpha 0, .membership .alpha 2 ⟨.join, ["#replica#alpha", "#replica#beta"]⟩,
    .membership .beta 2 ⟨.join, ["#replica#alpha", "#replica#beta"]⟩,
    .deliver .alpha .alpha 1, .deliver .beta .alpha 1]

theorem transfer_keeps_balance_joinAfterDeposit :
    ∃ g, Machine.exec Group.step (Group.init fun _ => 1) joinAfterDeposit = some g
      ∧ (g.replica .alpha).balance = 100 ∧ (g.replica .beta).balance = 100
      ∧ Machine.StepsMeet Group.step (fun t e => ∀ t' ∈ t.step e, TransferKeeps t e t')
          (Group.init fun _ => 1) joinAfterDeposit := by
  let order : List (Item Site) := [.view 1, .regular .alpha 0, .view 2, .regular .alpha 1]
  let start : Site → ℕ := fun i => if i = .alpha then 0 else 2
  obtain ⟨g, hrun, hp⟩ := Group.exists_of_run (fun _ => 1) joinAfterDeposit
    (fun g => decide ((g.replica .alpha).balance = 100 ∧ (g.replica .beta).balance = 100
      ∧ CommonOrder g order start ∧ TransferSafe g order start)) (by decide +kernel)
  obtain ⟨h0, h1, hcommon, hsafe⟩ := of_decide_eq_true hp
  exact ⟨g, hrun, h0, h1, transfer_keeps_balance hrun hcommon hsafe⟩

/-- The same with the join ordered before the batch: the member answers the join with the balance
it has then, and installs its answer after the batch. -/
def joinBeforeDeposit : List (Event Site ℚ) :=
  [.membership .alpha 1 ⟨.join, ["#replica#alpha"]⟩, .timeout .alpha,
    .command .alpha (.deposit 100), .tick .alpha,
    .membership .alpha 2 ⟨.join, ["#replica#alpha", "#replica#beta"]⟩,
    .membership .beta 2 ⟨.join, ["#replica#alpha", "#replica#beta"]⟩,
    .deliver .alpha .alpha 0, .deliver .alpha .alpha 1,
    .deliver .beta .alpha 0, .deliver .beta .alpha 1]

/-- The deposit is in the history of the member and not in its balance. -/
theorem transfer_undoes_deposit :
    ∃ g, Machine.exec Group.step (Group.init fun _ => 1) joinBeforeDeposit = some g
      ∧ CommonOrder g [.view 1, .view 2, .regular .alpha 0, .regular .alpha 1]
          (fun i => if i = .alpha then 0 else 1)
      ∧ (g.replica .alpha).executedList.map (·.command) = ["deposit 100.0"]
      ∧ (g.replica .alpha).balance = 0
      ∧ ¬ Machine.StepsMeet Group.step (fun t e => ∀ t' ∈ t.step e, TransferKeeps t e t')
          (Group.init fun _ => 1) joinBeforeDeposit := by
  obtain ⟨g, hrun, hp⟩ := Group.exists_of_run (fun _ => 1) joinBeforeDeposit
    (fun g => decide (CommonOrder g [.view 1, .view 2, .regular .alpha 0, .regular .alpha 1]
        (fun i => if i = .alpha then 0 else 1)
      ∧ (g.replica .alpha).executedList.map (·.command) = ["deposit 100.0"]
      ∧ (g.replica .alpha).balance = 0)) (by decide +kernel)
  obtain ⟨hcommon, hlist, hbalance⟩ := of_decide_eq_true hp
  exact ⟨g, hrun, hcommon, hlist, hbalance, by decide +kernel⟩

end SpreadAccount
