import SpreadAccount.Client.Replica

set_option autoImplicit false

/-! # What the message handlers compute

One lemma for each method of the handler, with the state it leaves behind written out. No later
file unfolds `regularMessageReceived` or `membershipMessageReceived`.

* For an arbitrary message, `regularMessageReceived_frame` says which fields can change. The two
  that only deliveries write are given in closed form: the balance (`SpreadMessage.effect`) and
  what is appended to `executedList` (`SpreadMessage.recorded`). A batch with an undecodable entry
  is applied up to that entry.
* For a batch of transactions the source builds, `regularMessageReceived_batch` gives the whole
  state, and no exception is thrown.
* A message that cannot be decoded at all is ignored in one case only (`undecodable_ignored_iff`).
-/

namespace SpreadAccount

/-! ## Running a method -/

section

variable {D τ α β : Type}

@[simp] theorem Java.pure_apply (a : α) (r : Replica D τ) : (pure a : Java D τ α) r = .ok a r := rfl

@[simp] theorem Java.bind_apply (x : Java D τ α) (f : α → Java D τ β) (r : Replica D τ) :
    (x >>= f) r = match x r with
      | .ok a r' => f a r'
      | .error e r' => .error e r' := by
  show EStateM.bind x f r = _
  unfold EStateM.bind
  cases x r <;> rfl

@[simp] theorem Java.get_apply (r : Replica D τ) : (get : Java D τ (Replica D τ)) r = .ok r r := rfl

@[simp] theorem Java.modify_apply (f : Replica D τ → Replica D τ) (r : Replica D τ) :
    (modify f : Java D τ PUnit) r = .ok ⟨⟩ (f r) := rfl

@[simp] theorem Java.throw_apply (e : JavaException) (r : Replica D τ) :
    (throw e : Java D τ α) r = .error e r := rfl

@[simp] theorem logOut_apply (line : Line D τ) (r : Replica D τ) :
    logOut line r = .ok () { r with out := r.out ++ [line] } := rfl

theorem Java.after_of_ok {x : Java D τ α} {r r' : Replica D τ} {a : α} (h : x r = .ok a r') :
    x.after r = r' := by
  rw [Java.after, h]

theorem index_apply (data : List String) (i : ℕ) (r : Replica D τ) :
    index data i r = match data[i]? with
      | some s => .ok s r
      | none => .error .indexOutOfBounds r := by
  unfold index
  cases data[i]? <;> rfl

theorem readNumber_bind [DoubleText D] (data : List String) (f : D → Java D τ α)
    (r : Replica D τ) :
    (index data 1 >>= fun s => parse s >>= f) r
      = match (readNumber data : Except JavaException D) with
        | .ok x => f x r
        | .error e => .error e r := by
  unfold readNumber
  rw [Java.bind_apply, index_apply]
  cases data[1]? with
  | none => rfl
  | some s =>
      simp only [Java.bind_apply, parse]
      cases DoubleText.parseDouble (D := D) s <;> rfl

end

section

variable {D τ : Type} [Add D] [Mul D] [Div D] [NatCast D] [DoubleText D]

/-! ## One entry -/

/-- The lines printed for an entry, from the flag and the balance before it. -/
def entryLines (awaiting : Bool) (b : D) (t : Transaction τ) : List (Line D τ) :=
  match (readCall t : Except JavaException (Option (Call D))) with
  | .ok (some .getSyncedBalance) => if awaiting then [.syncedBalance t b] else []
  | .ok (some c) => [.updatedBalance t (c.apply b)]
  | _ => []

/-- An entry changes the balance and prints; an undecodable one throws and changes nothing. -/
theorem applyEntry_eq (t : Transaction τ) (r : Replica D τ) :
    applyEntry t r =
      match (readCall t : Except JavaException (Option (Call D))) with
      | .error e => .error e r
      | .ok _ => .ok () { r with
          balance := effect t r.balance
          out := r.out ++ entryLines r.awaitingSyncedBalance r.balance t } := by
  unfold applyEntry effect entryLines readCall
  rw [Java.bind_apply, index_apply]
  cases (split t.command)[0]? with
  | none => rfl
  | some word =>
      simp only
      by_cases hd : word = "deposit"
      · simp only [if_pos hd]
        rw [readNumber_bind]
        cases (readNumber (split t.command) : Except JavaException D) <;> rfl
      by_cases hi : word = "addInterest"
      · simp only [if_neg hd, if_pos hi]
        rw [readNumber_bind]
        cases (readNumber (split t.command) : Except JavaException D) <;> rfl
      simp only [if_neg hd, if_neg hi]
      by_cases hg : word = "getSyncedBalance"
      · by_cases ha : r.awaitingSyncedBalance = true
        · simp [hg, ha, Call.apply]
        · simp only [if_pos hg, if_neg ha, if_neg (fun h : _ ∧ _ => ha h.2), Java.bind_apply,
            Java.get_apply, Java.pure_apply, Call.apply, List.append_nil]
      · simp [hg]

/-- One pass of the loop. -/
theorem processEntry_eq (t : Transaction τ) (r : Replica D τ) :
    processEntry t r =
      match (readCall t : Except JavaException (Option (Call D))) with
      | .error e => .error e r
      | .ok _ => .ok () { r with
          balance := effect t r.balance
          outstandingCollection := r.outstandingCollection.filter (·.uniqueId != t.uniqueId)
          executedList := r.executedList ++ [t].filter (·.isUpdate)
          out := r.out ++ entryLines r.awaitingSyncedBalance r.balance t } := by
  unfold processEntry
  rw [Java.bind_apply, applyEntry_eq]
  cases (readCall t : Except JavaException (Option (Call D))) with
  | error e => rfl
  | ok c =>
      by_cases hu : t.isUpdate = true
      · simp [hu]
      · simp [hu]

/-! ## A batch -/

/-- The transactions of a batch before its first undecodable entry: those the loop finishes. -/
def readable (D : Type) [DoubleText D] : List (Transaction τ) → List (Transaction τ)
  | [] => []
  | t :: rest =>
      match (readCall t : Except JavaException (Option (Call D))) with
      | .error _ => []
      | .ok _ => t :: readable D rest

/-- The lines printed for a batch, the balance running along. -/
def batchLines (awaiting : Bool) : D → List (Transaction τ) → List (Line D τ)
  | _, [] => []
  | b, t :: rest => entryLines awaiting b t ++ batchLines awaiting (effect t b) rest

/-- The state after the loop has finished the entries `ts`. -/
def afterEntries (ts : List (Transaction τ)) (r : Replica D τ) : Replica D τ :=
  { r with
    balance := replay ts r.balance
    outstandingCollection :=
      r.outstandingCollection.filter (fun u => ts.all (fun t => u.uniqueId != t.uniqueId))
    executedList := r.executedList ++ ts.filter (·.isUpdate)
    out := r.out ++ batchLines r.awaitingSyncedBalance r.balance ts }

theorem afterEntries_nil (r : Replica D τ) : afterEntries [] r = r := by
  simp [afterEntries, batchLines]

/-- The loop takes the first entry, then the rest. -/
theorem afterEntries_cons (t : Transaction τ) (ts : List (Transaction τ)) (r : Replica D τ) :
    afterEntries (t :: ts) r = afterEntries ts { r with
      balance := effect t r.balance
      outstandingCollection := r.outstandingCollection.filter (·.uniqueId != t.uniqueId)
      executedList := r.executedList ++ [t].filter (·.isUpdate)
      out := r.out ++ entryLines r.awaitingSyncedBalance r.balance t } := by
  have hexec : (t :: ts).filter (·.isUpdate)
      = [t].filter (·.isUpdate) ++ ts.filter (·.isUpdate) := by
    rw [← List.filter_append]
    rfl
  simp only [afterEntries, replay_cons, batchLines, hexec, List.filter_filter, List.all_cons,
    List.append_assoc]
  simp only [Bool.and_comm]

/-- **The loop over a batch** finishes the entries before the first undecodable one, and throws
exactly when there is an undecodable one. -/
theorem processBatch_eq (batch : List (Transaction τ)) (r : Replica D τ) :
    (processBatch batch).after r = afterEntries (readable D batch) r
      ∧ (readable D batch = batch → processBatch batch r = .ok () (afterEntries batch r)) := by
  induction batch generalizing r with
  | nil => simp [processBatch, Java.after, readable, afterEntries_nil]
  | cons t rest ih =>
      unfold processBatch Java.after readable
      rw [Java.bind_apply, processEntry_eq]
      cases (readCall t : Except JavaException (Option (Call D))) with
      | error e => simp [afterEntries_nil]
      | ok c =>
          simp only [List.cons.injEq, true_and]
          rw [afterEntries_cons, afterEntries_cons]
          exact ih _

omit [Add D] [Mul D] [Div D] [NatCast D] in
theorem readable_of_wellFormed {batch : List (Transaction τ)}
    (h : ∀ t ∈ batch, t.WellFormed D) : readable D batch = batch := by
  induction batch with
  | nil => rfl
  | cons t rest ih =>
      obtain ⟨c, hc⟩ := h t (by simp)
      rw [readable, readCall_of_command hc]
      simp only [List.cons.injEq, true_and]
      exact ih (fun u hu => h u (by simp [hu]))

/-! ## Reading the console

A batch entry shows on the console: one `updatedBalance` line for each application, one
`syncedBalance` line for each answer. `appliedIn` and `answeredIn` read the entries back. -/

omit [Add D] [Mul D] [Div D] [NatCast D] [DoubleText D] in
/-- The entries that have been applied to the balance, in order. -/
def appliedIn (out : List (Line D τ)) : List (Transaction τ) :=
  out.filterMap fun
    | .updatedBalance t _ => some t
    | _ => none

omit [Add D] [Mul D] [Div D] [NatCast D] [DoubleText D] in
/-- The balance requests that have been answered, in order. -/
def answeredIn (out : List (Line D τ)) : List (Transaction τ) :=
  out.filterMap fun
    | .syncedBalance t _ => some t
    | _ => none

omit [Add D] [Mul D] [Div D] [NatCast D] [DoubleText D] in
@[simp] theorem appliedIn_append (out out' : List (Line D τ)) :
    appliedIn (out ++ out') = appliedIn out ++ appliedIn out' := List.filterMap_append

omit [Add D] [Mul D] [Div D] [NatCast D] [DoubleText D] in
@[simp] theorem answeredIn_append (out out' : List (Line D τ)) :
    answeredIn (out ++ out') = answeredIn out ++ answeredIn out' := List.filterMap_append

omit [Add D] [Mul D] [Div D] [NatCast D] [DoubleText D] in
/-- The line is one of those that the delivery of a batch prints. -/
def Line.fromBatch : Line D τ → Bool
  | .updatedBalance _ _ => true
  | .syncedBalance _ _ => true
  | .naiveSyncedBalance _ => true
  | _ => false

omit [Add D] [Mul D] [Div D] [NatCast D] [DoubleText D] in
theorem appliedIn_eq_nil {out : List (Line D τ)} (h : ∀ line ∈ out, line.fromBatch = false) :
    appliedIn out = [] := by
  refine List.filterMap_eq_nil_iff.mpr fun line hline => ?_
  have hno := h line hline
  cases line with
  | updatedBalance t b => cases hno
  | _ => rfl

omit [Add D] [Mul D] [Div D] [NatCast D] [DoubleText D] in
theorem answeredIn_eq_nil {out : List (Line D τ)} (h : ∀ line ∈ out, line.fromBatch = false) :
    answeredIn out = [] := by
  refine List.filterMap_eq_nil_iff.mpr fun line hline => ?_
  have hno := h line hline
  cases line with
  | syncedBalance t b => cases hno
  | _ => rfl

/-- The lines of an entry the source builds. -/
theorem entryLines_of_wellFormed {t : Transaction τ} (h : t.WellFormed D) (awaiting : Bool)
    (b : D) :
    entryLines awaiting b t =
      if t.isUpdate then [.updatedBalance t (effect t b)]
      else if awaiting then [.syncedBalance t b] else [] := by
  obtain ⟨c, hc⟩ := h
  have hu := isUpdate_of_command hc
  rw [entryLines, effect, readCall_of_command hc]
  cases c with
  | deposit amount => simp [hu.mpr (by simp)]
  | addInterest percent => simp [hu.mpr (by simp)]
  | getSyncedBalance =>
      have hf : t.isUpdate = false := by
        cases ht : t.isUpdate with
        | false => rfl
        | true => exact absurd rfl (hu.mp ht)
      simp [hf]

/-- A batch applies its updates, in order. -/
theorem appliedIn_batchLines {ts : List (Transaction τ)} (h : ∀ t ∈ ts, t.WellFormed D)
    (awaiting : Bool) (b : D) :
    appliedIn (batchLines awaiting b ts) = ts.filter (·.isUpdate) := by
  induction ts generalizing b with
  | nil => rfl
  | cons t ts ih =>
      rw [batchLines, appliedIn_append, ih (fun u hu => h u (by simp [hu])),
        entryLines_of_wellFormed (h t (by simp))]
      cases ht : t.isUpdate <;> cases awaiting <;> simp [appliedIn, ht]

/-- A batch answers its balance requests, if the replica is waiting for an answer. -/
theorem answeredIn_batchLines {ts : List (Transaction τ)} (h : ∀ t ∈ ts, t.WellFormed D)
    (awaiting : Bool) (b : D) :
    answeredIn (batchLines awaiting b ts)
      = if awaiting then ts.filter (fun t => !t.isUpdate) else [] := by
  induction ts generalizing b with
  | nil => cases awaiting <;> rfl
  | cons t ts ih =>
      rw [batchLines, answeredIn_append, ih (fun u hu => h u (by simp [hu])),
        entryLines_of_wellFormed (h t (by simp))]
      cases ht : t.isUpdate <;> cases awaiting <;> simp [answeredIn, ht]

/-! ## Regular messages -/

/-- The state after a batch that decodes. -/
def afterBatch (batch : List (Transaction τ)) (r : Replica D τ) : Replica D τ :=
  { afterEntries batch r with
    awaitingSyncedBalance := false
    awaitingSyncedBalanceNaive := false
    out := (afterEntries batch r).out
      ++ if r.awaitingSyncedBalanceNaive then [.naiveSyncedBalance (replay batch r.balance)]
        else [] }

/-- What a batch leaves outstanding. -/
theorem mem_outstanding_afterBatch {batch : List (Transaction τ)} {r : Replica D τ}
    {t : Transaction τ} :
    t ∈ (afterBatch batch r).outstandingCollection
      ↔ t ∈ r.outstandingCollection ∧ ∀ e ∈ batch, e.uniqueId ≠ t.uniqueId := by
  show t ∈ List.filter _ _ ↔ _
  rw [List.mem_filter, List.all_eq_true]
  refine and_congr_right fun _ => forall₂_congr fun e _ => ?_
  rw [bne_iff_ne, ne_comm]

/-- A batch applies its updates; the naive report at its end is no application. -/
theorem appliedIn_afterBatch {batch : List (Transaction τ)} (h : ∀ t ∈ batch, t.WellFormed D)
    (r : Replica D τ) :
    appliedIn (afterBatch batch r).out = appliedIn r.out ++ batch.filter (·.isUpdate) := by
  simp only [afterBatch, afterEntries, appliedIn_append, appliedIn_batchLines h]
  split <;> simp [appliedIn]

/-- A batch answers its requests if the flag is on. -/
theorem answeredIn_afterBatch {batch : List (Transaction τ)} (h : ∀ t ∈ batch, t.WellFormed D)
    (r : Replica D τ) :
    answeredIn (afterBatch batch r).out
      = answeredIn r.out ++ batch.filter (fun t => r.awaitingSyncedBalance && !t.isUpdate) := by
  have hlast : answeredIn (if r.awaitingSyncedBalanceNaive then
      [(.naiveSyncedBalance (replay batch r.balance) : Line D τ)] else []) = [] := by
    split <;> rfl
  simp only [afterBatch, afterEntries, answeredIn_append, answeredIn_batchLines h, hlast,
    List.append_nil]
  cases r.awaitingSyncedBalance <;> simp

theorem receiveOutstanding_batch {batch : List (Transaction τ)}
    (h : ∀ t ∈ batch, t.WellFormed D) (r : Replica D τ) :
    receiveOutstanding (some batch) r = .ok () (afterBatch batch r) := by
  have hb := (processBatch_eq batch r).2 (readable_of_wellFormed h)
  unfold receiveOutstanding afterBatch
  dsimp only
  rw [Java.bind_apply, hb]
  by_cases hn : r.awaitingSyncedBalanceNaive = true
  · simp [hn, afterEntries]
  · simp [hn, afterEntries]

/-- After the loop over a batch only the flags and the console change, and after an exception
nothing does. -/
theorem receiveOutstanding_frame (batch : List (Transaction τ)) (r : Replica D τ) :
    ∃ flag naive out, (receiveOutstanding (some batch)).after r
      = { afterEntries (readable D batch) r with
          awaitingSyncedBalance := flag
          awaitingSyncedBalanceNaive := naive
          out := out } := by
  have hb := (processBatch_eq batch r).1
  unfold receiveOutstanding Java.after
  dsimp only
  rw [Java.bind_apply]
  unfold Java.after at hb
  cases hp : processBatch batch r with
  | error e r' =>
      rw [hp] at hb
      subst hb
      exact ⟨_, _, _, rfl⟩
  | ok u r' =>
      rw [hp] at hb
      subst hb
      by_cases hn : r.awaitingSyncedBalanceNaive = true
      · exact ⟨false, false, _, by simp [hn, afterEntries]; rfl⟩
      · exact ⟨false, false, _, by simp [hn, afterEntries]; rfl⟩

variable [Zero D]

omit [Add D] [Mul D] [Div D] [NatCast D] [DoubleText D] in
/-- The batch a message carries: the value of the local `outstanding`, if it is not `null`. -/
def SpreadMessage.batch (m : SpreadMessage D τ) : List (Transaction τ) :=
  match m.decode with
  | .ok (some batch, _) => batch
  | _ => []

/-- The effect of a message on the balance. -/
def SpreadMessage.effect (m : SpreadMessage D τ) (b : D) : D :=
  if m.type = outstandingUpdate then replay (readable D m.batch) b
  else if m.type = balanceUpdate then
    match m.decode with
    | .ok (_, newBalance) => newBalance
    | .error _ => 0
  else b

/-- What a message appends to `executedList`. -/
def SpreadMessage.recorded (m : SpreadMessage D τ) : List (Transaction τ) :=
  (readable D m.batch).filter (·.isUpdate)

omit [Add D] [Mul D] [Div D] [NatCast D] [DoubleText D] in
/-- Only a message of type `outstandingUpdate` carries a batch. -/
theorem SpreadMessage.batch_eq_nil {m : SpreadMessage D τ} (h : m.type ≠ outstandingUpdate) :
    m.batch = [] := by
  unfold SpreadMessage.batch SpreadMessage.decode
  rw [if_neg h]
  by_cases hb : m.type = balanceUpdate
  · rw [if_pos hb]
    rcases m.digestHead with e | o
    · rfl
    · cases o <;> rfl
  · rw [if_neg hb]

/-- **What a delivery does**, for every message, undecodable ones included: the fields named here
are the only ones it can change, and what it writes to the balance and the history depends on the
message and the old balance only. -/
theorem regularMessageReceived_frame (m : SpreadMessage D τ) (r : Replica D τ) :
    ∃ collection flag naive out, (regularMessageReceived m).after r = { r with
      balance := m.effect r.balance
      hasUpdatedBalance := r.hasUpdatedBalance || decide (m.type = balanceUpdate)
      executedList := r.executedList ++ m.recorded
      outstandingCollection := collection
      awaitingSyncedBalance := flag
      awaitingSyncedBalanceNaive := naive
      out := out } := by
  by_cases ho : m.type = outstandingUpdate
  · have hne : m.type ≠ balanceUpdate := by rw [ho]; decide
    unfold regularMessageReceived SpreadMessage.effect SpreadMessage.recorded SpreadMessage.batch
    simp only [if_pos ho, decide_eq_false hne, Bool.or_false]
    cases m.decode with
    | error e =>
        -- `outstanding` is still `null`: the handler throws before it changes a field
        exact ⟨r.outstandingCollection, r.awaitingSyncedBalance, r.awaitingSyncedBalanceNaive,
          r.out ++ [.decodeError], by simp [receiveOutstanding, Java.after, readable]⟩
    | ok locals =>
        obtain ⟨outstanding, newBalance⟩ := locals
        cases outstanding with
        | none =>
            exact ⟨r.outstandingCollection, r.awaitingSyncedBalance, r.awaitingSyncedBalanceNaive,
              r.out, by simp [receiveOutstanding, Java.after, readable]⟩
        | some batch =>
            obtain ⟨flag, naive, out, hout⟩ := receiveOutstanding_frame batch r
            exact ⟨_, flag, naive, out, hout⟩
  · have hrec : m.recorded = [] := by
      rw [SpreadMessage.recorded, SpreadMessage.batch_eq_nil ho]
      rfl
    rw [hrec, List.append_nil]
    unfold regularMessageReceived SpreadMessage.effect
    simp only [if_neg ho]
    by_cases hb : m.type = balanceUpdate
    · simp only [if_pos hb, decide_eq_true hb, Bool.or_true]
      cases m.decode with
      | error e => exact ⟨_, _, _, _, rfl⟩
      | ok locals => exact ⟨_, _, _, _, rfl⟩
    · simp only [if_neg hb, decide_eq_false hb, Bool.or_false]
      cases m.decode with
      | error e => exact ⟨_, _, _, _, rfl⟩
      | ok locals => exact ⟨_, _, _, _, rfl⟩

theorem regularMessageReceived_batch {batch : List (Transaction τ)}
    (h : ∀ t ∈ batch, t.WellFormed D) (r : Replica D τ) :
    regularMessageReceived (outstandingMessage batch) r = .ok () (afterBatch batch r) :=
  receiveOutstanding_batch h r

theorem regularMessageReceived_balance (x : D) (r : Replica D τ) :
    regularMessageReceived (balanceMessage x) r
      = .ok () { r with balance := x, hasUpdatedBalance := true } := rfl

/-! ## The two messages a replica sends -/

omit [Add D] [Mul D] [Div D] [NatCast D] in
/-- A message a replica multicasts: a batch of transactions the source builds, or a balance. -/
def SpreadMessage.WellFormed (m : SpreadMessage D τ) : Prop :=
  (∃ batch, m = outstandingMessage batch ∧ ∀ t ∈ batch, t.WellFormed D) ∨ ∃ x, m = balanceMessage x

omit [Add D] [Mul D] [Div D] [NatCast D] [DoubleText D] in
@[simp] theorem batch_outstandingMessage (batch : List (Transaction τ)) :
    (outstandingMessage batch : SpreadMessage D τ).batch = batch := rfl

omit [Add D] [Mul D] [Div D] [NatCast D] [DoubleText D] in
@[simp] theorem batch_balanceMessage (x : D) :
    (balanceMessage x : SpreadMessage D τ).batch = [] := rfl

theorem effect_outstandingMessage {batch : List (Transaction τ)}
    (h : ∀ t ∈ batch, t.WellFormed D) (b : D) :
    (outstandingMessage batch : SpreadMessage D τ).effect b = replay batch b := by
  show replay (readable D batch) b = replay batch b
  rw [readable_of_wellFormed h]

@[simp] theorem effect_balanceMessage (x b : D) :
    (balanceMessage x : SpreadMessage D τ).effect b = x := rfl

omit [Add D] [Mul D] [Div D] [NatCast D] in
theorem recorded_outstandingMessage {batch : List (Transaction τ)}
    (h : ∀ t ∈ batch, t.WellFormed D) :
    (outstandingMessage batch : SpreadMessage D τ).recorded = batch.filter (·.isUpdate) := by
  show (readable D batch).filter (·.isUpdate) = batch.filter (·.isUpdate)
  rw [readable_of_wellFormed h]

omit [Add D] [Mul D] [Div D] [NatCast D] in
@[simp] theorem recorded_balanceMessage (x : D) :
    (balanceMessage x : SpreadMessage D τ).recorded = [] := rfl

omit [Add D] [Mul D] [Div D] [NatCast D] in
/-- The history gets the updates of a well-formed message. -/
theorem SpreadMessage.WellFormed.recorded_eq {m : SpreadMessage D τ} (h : m.WellFormed) :
    m.recorded = m.batch.filter (·.isUpdate) := by
  rcases h with ⟨batch, rfl, hwf⟩ | ⟨x, rfl⟩
  · exact recorded_outstandingMessage hwf
  · rfl

omit [Add D] [Mul D] [Div D] [NatCast D] in
theorem SpreadMessage.WellFormed.mem_recorded {m : SpreadMessage D τ} (h : m.WellFormed)
    {t : Transaction τ} : t ∈ m.recorded ↔ t ∈ m.batch ∧ t.isUpdate = true := by
  rw [h.recorded_eq, List.mem_filter]

/-! ## Undecodable messages

The handler catches what goes wrong while it decodes, and then looks at the type of the message
a second time, with the locals as they were before. -/

omit [Zero D] [Add D] [Mul D] [Div D] [NatCast D] [DoubleText D] in
/-- The message is of one of the two types and its digest does not hold what the type asks for:
`getDigest()` throws, the digest is empty, or its first element is of another class. -/
def SpreadMessage.Undecodable (m : SpreadMessage D τ) : Prop :=
  (m.type = outstandingUpdate ∧ ∀ batch rest, m.digest ≠ some (.transactions batch :: rest))
    ∨ (m.type = balanceUpdate ∧ ∀ x rest, m.digest ≠ some (.double x :: rest))

omit [Add D] [Mul D] [Div D] [NatCast D] [DoubleText D] in
theorem SpreadMessage.Undecodable.decode {m : SpreadMessage D τ} (h : m.Undecodable) :
    ∃ e, m.decode = .error e := by
  unfold SpreadMessage.decode SpreadMessage.digestHead
  rcases h with ⟨htype, hno⟩ | ⟨htype, hno⟩
  · rw [if_pos htype]
    rcases hd : m.digest with _ | _ | ⟨o, rest⟩
    · exact ⟨_, rfl⟩
    · exact ⟨_, rfl⟩
    · cases o with
      | transactions batch => exact absurd hd (hno batch rest)
      | double x => exact ⟨_, rfl⟩
      | other => exact ⟨_, rfl⟩
  · have hne : m.type ≠ outstandingUpdate := by rw [htype]; decide
    rw [if_neg hne, if_pos htype]
    rcases hd : m.digest with _ | _ | ⟨o, rest⟩
    · exact ⟨_, rfl⟩
    · exact ⟨_, rfl⟩
    · cases o with
      | transactions batch => exact ⟨_, rfl⟩
      | double x => exact absurd hd (hno x rest)
      | other => exact ⟨_, rfl⟩

/-- What an undecodable message does: a batch is `null` and the handler throws, a balance is `0`
and the handler installs it. -/
theorem regularMessageReceived_undecodable {m : SpreadMessage D τ} (h : m.Undecodable)
    (r : Replica D τ) :
    regularMessageReceived m r =
      if m.type = outstandingUpdate then
        .error .nullPointer { r with out := r.out ++ [.decodeError] }
      else
        .ok () { r with
          balance := 0
          hasUpdatedBalance := true
          out := r.out ++ [.decodeError] } := by
  obtain ⟨e, he⟩ := h.decode
  unfold regularMessageReceived
  rw [he]
  rcases h with ⟨htype, -⟩ | ⟨htype, -⟩
  · simp only [if_pos htype]
    rfl
  · have hne : m.type ≠ outstandingUpdate := by rw [htype]; decide
    simp only [if_neg hne, if_pos htype]
    rfl

/-- The handler returns from the message and leaves the account and the flags as they were. -/
def Ignores (m : SpreadMessage D τ) (r : Replica D τ) : Prop :=
  ∃ r', regularMessageReceived m r = .ok () r' ∧ r'.balance = r.balance
    ∧ r'.hasUpdatedBalance = r.hasUpdatedBalance ∧ r'.executedList = r.executedList
    ∧ r'.outstandingCollection = r.outstandingCollection
    ∧ r'.awaitingSyncedBalance = r.awaitingSyncedBalance
    ∧ r'.awaitingSyncedBalanceNaive = r.awaitingSyncedBalanceNaive

/-- **When an undecodable message changes nothing**: only where a balance of `0` is already
installed and the message is meant to bring one. -/
theorem undecodable_ignored_iff {m : SpreadMessage D τ} (h : m.Undecodable) (r : Replica D τ) :
    Ignores m r ↔ m.type = balanceUpdate ∧ r.balance = 0 ∧ r.hasUpdatedBalance = true := by
  have heq := regularMessageReceived_undecodable h r
  unfold Ignores
  rw [heq]
  by_cases ho : m.type = outstandingUpdate
  · have hne : m.type ≠ balanceUpdate := by rw [ho]; decide
    rw [if_pos ho]
    constructor
    · rintro ⟨r', hr', -⟩
      cases hr'
    · rintro ⟨hb, -⟩
      exact absurd hb hne
  · have hb : m.type = balanceUpdate := by
      rcases h with ⟨htype, -⟩ | ⟨htype, -⟩
      · exact absurd htype ho
      · exact htype
    rw [if_neg ho]
    constructor
    · rintro ⟨r', hr', hbalance, hflag, -⟩
      cases hr'
      exact ⟨hb, hbalance.symm, hflag.symm⟩
    · rintro ⟨-, hbalance, hflag⟩
      exact ⟨_, rfl, hbalance.symm, hflag.symm, rfl, rfl, rfl, rfl⟩

end

/-- A `balanceUpdate` with an empty digest at a replica that has a balance of `0`. -/
theorem undecodable_ignored_iff_emptyDigest :
    Ignores (⟨balanceUpdate, some []⟩ : SpreadMessage ℚ ℕ)
      { Replica.new 2 with hasUpdatedBalance := true } := by
  refine (undecodable_ignored_iff (Or.inr ⟨rfl, fun x rest h => ?_⟩) _).mpr ⟨rfl, rfl, rfl⟩
  cases h

/-- A `balanceUpdate` whose digest cannot be read, at a replica with a balance of `100`. -/
theorem undecodable_balance_installed :
    let m : SpreadMessage ℚ ℕ := ⟨balanceUpdate, none⟩
    let r : Replica ℚ ℕ := { Replica.new 2 with balance := 100, hasUpdatedBalance := true }
    m.Undecodable ∧ ((regularMessageReceived m).after r).balance = 0 ∧ ¬ Ignores m r := by
  refine ⟨Or.inr ⟨rfl, fun x rest h => by cases h⟩, rfl, ?_⟩
  rintro ⟨r', hr', hbalance, -⟩
  have h100 : (0 : ℚ) = 100 := by
    cases hr'
    exact hbalance
  norm_num at h100

end SpreadAccount
