import SpreadAccount.Group.Residency

set_option autoImplicit false

/-! # The reports of the synced balance

`getSyncedBalance` turns on one flag and queues a request; the handler prints a report for every
request in a batch while the flag is on, and turns the flag off at the end of every batch.
`getSyncedBalanceNaive` turns on another flag, and the next batch prints a report at its end.
Neither looks at whose batch it is.

`Awaits` says what a flag knows: the command has been called since the last batch was delivered.
With it, what is expected of the reports becomes a condition on the order of calls, ticks and
deliveries, and both results say that this condition is exact for whole runs.

* `answers_match_iff`: a report is printed for the own requests that have not been answered, for
  each of them, and for no other request.
* `reports_cover_iff`: what was outstanding when the flag was turned on has been applied when the
  report is printed.

What does hold in every run is that the flag is never on without a request: `flag_has_live_request`.
-/

namespace SpreadAccount

open Occurrence (AtEach Since FirstSince)

open scoped List

section

variable {ι D : Type}

/-! ## The two flags -/

/-- A batch was delivered. -/
def Happening.isBatch : Happening ι D → Bool
  | .received _ _ m => m.type == outstandingUpdate
  | _ => false

/-- The two reports: one for every request in a batch, and one at the end of a batch. -/
inductive Report where
  | synced
  | naive

namespace Report

/-- The command that asks for the report. -/
def command : Report → Command D
  | .synced => .getSyncedBalance
  | .naive => .getSyncedBalanceNaive

/-- The flag that the command turns on. -/
def flag {τ : Type} : Report → Replica D τ → Bool
  | .synced, r => r.awaitingSyncedBalance
  | .naive, r => r.awaitingSyncedBalanceNaive

/-- What was outstanding when a happening turned the flag on. -/
def raised : Report → Happening ι D → Option (List (Transaction (Origin ι)))
  | .synced, .raised pending => some pending
  | .naive, .raisedNaive pending => some pending
  | _, _ => none

/-- What was outstanding when the flag was last turned on. -/
def pending (report : Report) (h : List (Happening ι D)) : List (Transaction (Origin ι)) :=
  (h.filterMap report.raised).getLast?.getD []

/-- The command has been called since the last batch was delivered. -/
def CalledIn (report : Report) (h : List (Happening ι D)) : Prop :=
  Since Happening.isBatch (.called report.command) h

/-- `before` is what happened before the first of these calls. -/
def FirstCall (report : Report) (h before : List (Happening ι D)) : Prop :=
  FirstSince Happening.isBatch (.called report.command) h before

theorem pending_append_of_none {report : Report} {h note : List (Happening ι D)}
    (hnote : ∀ e ∈ note, report.raised e = none) :
    report.pending (h ++ note) = report.pending h := by
  have hnil : note.filterMap report.raised = [] := List.filterMap_eq_nil_iff.mpr hnote
  rw [pending, pending, List.filterMap_append, hnil, List.append_nil]

/-- What a call adds to the history, apart from the call itself. -/
theorem quiet_of_call [DoubleText D] (report : Report) {c : Command D} {origin : Origin ι}
    {r : Replica D (Origin ι)} {e : Happening ι D}
    (he : e ∈ changeNote c r ++ (c.issued origin r).map .issued) :
    (e ≠ .called report.command ∧ e.isBatch = false)
      ∧ (c ≠ report.command → report.raised e = none) := by
  rcases List.mem_append.mp he with he | he
  · cases c with
    | cleanHistory =>
        rw [List.mem_singleton.mp he]
        exact ⟨⟨by simp, rfl⟩, fun _ => by cases report <;> rfl⟩
    | getSyncedBalance =>
        simp only [changeNote] at he
        split at he
        · cases he
        · rw [List.mem_singleton.mp he]
          refine ⟨⟨by simp, rfl⟩, fun hc => ?_⟩
          cases report with
          | synced => exact absurd rfl hc
          | naive => rfl
    | getSyncedBalanceNaive =>
        simp only [changeNote] at he
        split at he
        · cases he
        · rw [List.mem_singleton.mp he]
          refine ⟨⟨by simp, rfl⟩, fun hc => ?_⟩
          cases report with
          | synced => rfl
          | naive => exact absurd rfl hc
    | _ => cases he
  · obtain ⟨t, -, rfl⟩ := List.mem_map.mp he
    exact ⟨⟨by simp, rfl⟩, fun _ => by cases report <;> rfl⟩

/-- The call of a report turns its flag on, if it is not on already. -/
theorem call_self [DoubleText D] (report : Report) (origin : Origin ι)
    (r : Replica D (Origin ι)) :
    (commandNote report.command origin r).filterMap report.raised
        = (if report.flag r = true then [] else [r.outstandingCollection])
      ∧ report.flag ((report.command.run origin).after r) = true := by
  rw [Command.run_after]
  cases report with
  | synced =>
      refine ⟨?_, rfl⟩
      cases hflag : r.awaitingSyncedBalance <;>
        simp only [commandNote, changeNote, command, flag, hflag] <;> rfl
  | naive =>
      refine ⟨?_, rfl⟩
      cases hflag : r.awaitingSyncedBalanceNaive <;>
        simp only [commandNote, changeNote, command, flag, hflag] <;> rfl

/-- Another call leaves it alone. -/
theorem call_other [DoubleText D] {report : Report} {c : Command D} (hc : c ≠ report.command)
    (origin : Origin ι) (r : Replica D (Origin ι)) :
    report.flag ((c.run origin).after r) = report.flag r := by
  rw [Command.run_after]
  cases report with
  | synced =>
      cases c with
      | getSyncedBalance => exact absurd rfl hc
      | _ => rfl
  | naive =>
      cases c with
      | getSyncedBalanceNaive => exact absurd rfl hc
      | _ => rfl

end Report

/-! ## What a flag knows -/

variable [Zero D]

/-- The flag is on exactly if the command has been called since the last batch, and it was turned
on by the first of these calls. -/
structure Awaits (report : Report) (h : List (Happening ι D)) (r : Replica D (Origin ι)) :
    Prop where
  flag : report.flag r = true ↔ report.CalledIn h
  pending : ∀ before, report.FirstCall h before → report.pending h = residents before

/-- A move that neither calls the command nor delivers a batch. -/
theorem Awaits.of_quiet {report : Report} {h note : List (Happening ι D)}
    {r r' : Replica D (Origin ι)} (ha : Awaits report h r)
    (hnote : ∀ e ∈ note, (e ≠ .called report.command ∧ e.isBatch = false)
      ∧ report.raised e = none)
    (hflag : report.flag r' = report.flag r) : Awaits report (h ++ note) r' := by
  obtain ⟨hsince, hfirst⟩ := Occurrence.since_append_of_quiet (l := h) fun e he => (hnote e he).1
  refine ⟨?_, fun before hbefore => ?_⟩
  · rw [hflag, ha.flag]
    exact hsince.symm
  · rw [Report.pending_append_of_none fun e he => (hnote e he).2]
    exact ha.pending before ((hfirst before).mp hbefore)

variable [Add D] [Mul D] [Div D] [NatCast D] [DoubleText D]

/-- **Every move** keeps what a flag knows. -/
theorem Awaits.move {report : Report} {g : Group ι D} {e : Event ι D} {i : ι}
    {r' : Replica D (Origin ι)} {note : List (Happening ι D)} (hm : Moves g e i r' note)
    (he : Explained i (g.history i) (g.replica i))
    (ha : Awaits report (g.history i) (g.replica i)) : Awaits report (g.history i ++ note) r' := by
  have hsent : ∀ ms : List (SpreadMessage D (Origin ι)), ∀ e ∈ ms.map (.sent : _ → Happening ι D),
      (e ≠ .called report.command ∧ e.isBatch = false) ∧ report.raised e = none := by
    intro ms e he
    obtain ⟨m, -, rfl⟩ := List.mem_map.mp he
    exact ⟨⟨nofun, rfl⟩, by cases report <;> rfl⟩
  cases hm with
  | command i c origin horigin =>
      by_cases hc : c = report.command
      · subst hc
        obtain ⟨hraised, hflag⟩ := report.call_self origin (g.replica i)
        have hnote : g.history i ++ commandNote report.command origin (g.replica i)
            = g.history i ++ [.called report.command]
              ++ (changeNote report.command (g.replica i)
                ++ (report.command.issued origin (g.replica i)).map .issued) := by
          rw [List.append_assoc]
          rfl
        have hquiet : ∀ e ∈ changeNote report.command (g.replica i)
            ++ (report.command.issued origin (g.replica i)).map .issued,
            e ≠ .called report.command ∧ e.isBatch = false :=
          fun e he => (report.quiet_of_call he).1
        obtain ⟨hsince, hfirst⟩ := Occurrence.since_append_of_quiet
          (l := g.history i ++ [.called report.command]) hquiet
        refine ⟨iff_of_true hflag ?_, fun before hbefore => ?_⟩
        · rw [hnote]
          exact hsince.mpr (Occurrence.since_concat.mpr (Or.inl rfl))
        · rw [Report.pending, List.filterMap_append, hraised]
          rw [hnote] at hbefore
          rcases Occurrence.firstSince_concat.mp ((hfirst before).mp hbefore) with
            ⟨-, rfl, hno⟩ | ⟨-, hold⟩
          · -- the first call since the last batch: it turns the flag on
            have hoff : ¬ report.flag (g.replica i) = true := fun hon => hno (ha.flag.mp hon)
            rw [if_neg hoff, List.getLast?_concat, ← he.outstanding]
            rfl
          · -- a later one finds it on
            rw [if_pos (ha.flag.mpr hold.since), List.append_nil]
            exact ha.pending before hold
      · refine ha.of_quiet (fun e he => ?_) (Report.call_other hc origin _)
        rcases List.mem_cons.mp he with rfl | he
        · refine ⟨⟨fun h => hc (Happening.called.inj h), rfl⟩, by cases report <;> rfl⟩
        · obtain ⟨hquiet, hraised⟩ := report.quiet_of_call he
          exact ⟨hquiet, hraised hc⟩
  | tick i => exact ha.of_quiet (hsent [_]) (by cases report <;> rfl)
  | batch i j k ts hsent hfresh hwf =>
      have hno : ¬ report.CalledIn (g.history i ++ [.received j k (outstandingMessage ts)]) := by
        rw [Report.CalledIn, Occurrence.since_concat]
        rintro (h | ⟨h, -⟩) <;> cases h
      refine ⟨iff_of_false ?_ hno, fun before hbefore => absurd hbefore.since hno⟩
      cases report <;> exact Bool.false_ne_true
  | balance i j k x hsent hfresh =>
      refine ha.of_quiet ?_ (by cases report <;> rfl)
      intro e he
      rw [List.mem_singleton.mp he]
      exact ⟨⟨nofun, rfl⟩, by cases report <;> rfl⟩
  | membership i v info =>
      rw [step_membership]
      refine ha.of_quiet ?_ (by cases report <;> rfl)
      intro e he
      rcases List.mem_cons.mp he with rfl | he
      · exact ⟨⟨nofun, rfl⟩, by cases report <;> rfl⟩
      · exact hsent _ e he
  | timeout i =>
      refine ha.of_quiet ?_ (by cases report <;> rfl)
      intro e he
      rw [List.mem_singleton.mp he]
      exact ⟨⟨nofun, rfl⟩, by cases report <;> rfl⟩

variable [DecidableEq ι]

theorem Group.Reachable.awaits {g : Group ι D} (hg : g.Reachable) (report : Report) (i : ι) :
    Awaits report (g.history i) (g.replica i) := by
  have hboth := hg.local_induct
    (P := fun i h r => Explained i h r ∧ Awaits report h r) (fun i n => ?_) ?_ i
  · exact hboth.2
  · refine ⟨Explained.new i n, iff_of_false ?_ Occurrence.not_since_nil, fun before hbefore => ?_⟩
    · cases report <;> exact Bool.false_ne_true
    · exact absurd hbefore.since Occurrence.not_since_nil
  · rintro g e i r' note hm ⟨he, ha⟩
    exact ⟨he.move hm, ha.move hm he⟩

omit [Add D] [Mul D] [Div D] [NatCast D] [DoubleText D] [DecidableEq ι] in
/-- What is asked of the pending transactions while the flag is on is asked of what was outstanding
before the first call since the last batch. -/
theorem Awaits.forall_pending_iff {report : Report} {h : List (Happening ι D)}
    {r : Replica D (Origin ι)} (ha : Awaits report h r)
    {Q : List (Transaction (Origin ι)) → Prop} :
    (report.flag r = true → Q (report.pending h))
      ↔ ∀ before, report.FirstCall h before → Q (residents before) := by
  constructor
  · intro hQ before hbefore
    rw [← ha.pending before hbefore]
    exact hQ (ha.flag.mpr hbefore.since)
  · intro hQ hflag
    obtain ⟨before, hbefore⟩ := (ha.flag.mp hflag).exists_first (by rfl)
    rw [ha.pending before hbefore]
    exact hQ before hbefore

/-! ## Moves and batches -/

omit [DecidableEq ι] in
/-- A move is the delivery of a batch, or it prints no report, brings no entry and takes nothing
out of the collection. -/
theorem Moves.batch_or_quiet {g : Group ι D} {e : Event ι D} {i : ι} {r' : Replica D (Origin ι)}
    {note : List (Happening ι D)} (hm : Moves g e i r' note) :
    (∃ j k ts, e = .deliver i j k ∧ (g.replica j).sent[k]? = some (outstandingMessage ts)
        ∧ (j, k) ∉ receivedIn (g.history i) ∧ (∀ t ∈ ts, t.WellFormed D)
        ∧ r' = afterBatch ts (g.replica i) ∧ note = [.received j k (outstandingMessage ts)])
      ∨ ((∀ i' j k, e = .deliver i' j k → ∃ x, (g.replica j).sent[k]? = some (balanceMessage x))
        ∧ (∃ lines, r'.out = (g.replica i).out ++ lines ∧ ∀ line ∈ lines, line.fromBatch = false)
        ∧ (g.replica i).outstandingCollection ⊆ r'.outstandingCollection
        ∧ ∀ m ∈ messagesIn note, m.batch = []) := by
  cases hm with
  | command i c origin horigin =>
      refine Or.inr ⟨(fun i' j k h => by cases h), ?_, ?_, ?_⟩
      · rw [Command.run_after]
        exact ⟨_, rfl, c.lines_not_fromBatch _⟩
      · rw [Command.run_after]
        exact List.subset_append_left _ _
      · rw [(commandNote_cases c origin _).2.2.2]
        intro m hm
        cases hm
  | tick i =>
      refine Or.inr ⟨(fun i' j k h => by cases h), ⟨[], (List.append_nil _).symm, ?_⟩, ?_, ?_⟩
      · intro line hline
        cases hline
      · exact List.Subset.refl _
      · intro m hm
        cases hm
  | batch i j k ts hsent hfresh hwf => exact Or.inl ⟨j, k, ts, rfl, hsent, hfresh, hwf, rfl, rfl⟩
  | balance i j k x hsent hfresh =>
      refine Or.inr ⟨fun i' j' k' h => ?_, ⟨[], (List.append_nil _).symm, ?_⟩, ?_, ?_⟩
      · cases h
        exact ⟨x, hsent⟩
      · intro line hline
        cases hline
      · exact List.Subset.refl _
      · intro m hm
        rw [List.mem_singleton.mp hm]
        exact batch_balanceMessage x
  | membership i v info =>
      rw [step_membership]
      refine Or.inr ⟨(fun i' j k h => by cases h), ⟨_, rfl, ?_⟩, List.Subset.refl _, ?_⟩
      · intro line hline
        split at hline
        · rw [List.mem_singleton.mp hline]
          rfl
        · cases hline
      · show ∀ m ∈ messagesIn (List.map .sent _), m.batch = []
        rw [messagesIn_map_sent]
        intro m hm
        cases hm
  | timeout i =>
      refine Or.inr ⟨(fun i' j k h => by cases h), ⟨[], (List.append_nil _).symm, ?_⟩, ?_, ?_⟩
      · intro line hline
        cases hline
      · exact List.Subset.refl _
      · intro m hm
        cases hm

omit [Add D] [Mul D] [Div D] [NatCast D] [DoubleText D] [DecidableEq ι] in
/-- Nothing is removed while no batch is delivered. -/
theorem removedBy_of_no_batch {h : List (Happening ι D)} (hno : ∀ e ∈ h, e.isBatch = false)
    (t : Transaction (Origin ι)) : removedBy h t = false := by
  refine removedBy_eq_false_iff.mpr fun j k m hm e he => ?_
  have htype : m.type ≠ outstandingUpdate := by simpa [Happening.isBatch] using hno _ hm
  rw [SpreadMessage.batch_eq_nil htype] at he
  cases he

omit [Add D] [Mul D] [Div D] [NatCast D] [DoubleText D] [DecidableEq ι] in
/-- What was outstanding before the first call since the last batch still is. -/
theorem Report.FirstCall.residents_subset {report : Report} {h before : List (Happening ι D)}
    (hbefore : report.FirstCall h before) : residents before ⊆ residents h := by
  obtain ⟨⟨after, rfl, hafter⟩, -⟩ := hbefore
  intro t ht
  rw [residents_append]
  refine List.mem_append_left _ (List.mem_filter.mpr ⟨ht, ?_⟩)
  rw [removedBy_of_no_batch fun e he => ?_]
  · rfl
  · rcases List.mem_cons.mp he with rfl | he
    · rfl
    · exact hafter e he

/-! ## Requests and answers -/

omit [Add D] [Mul D] [Div D] [NatCast D] [DoubleText D] in
/-- The batch an event makes replica `i` work on. -/
def Event.batchAt (e : Event ι D) (g : Group ι D) (i : ι) : List (Transaction (Origin ι)) :=
  match e with
  | .deliver i' j k =>
      if i' = i then
        match (g.replica j).sent[k]? with
        | some m => m.batch
        | none => []
      else []
  | _ => []

omit [Zero D] [Add D] [Mul D] [Div D] [NatCast D] [DoubleText D] in
/-- The entry is a balance request of `i` that `i` has not answered. -/
def unanswered (g : Group ι D) (i : ι) (e : Transaction (Origin ι)) : Bool :=
  !e.isUpdate && decide (e.origin.1 = i ∧ e ∉ answeredIn (g.replica i).out)

omit [Add D] [Mul D] [Div D] [NatCast D] [DoubleText D] in
/-- In the step from `g` to `g'`, every replica answers exactly the entries that are its own
unanswered requests, and no request leaves its collection without an answer. -/
def AnswersMatch (g : Group ι D) (e : Event ι D) (g' : Group ι D) : Prop :=
  ∀ i, answeredIn (g'.replica i).out
      = answeredIn (g.replica i).out ++ (e.batchAt g i).filter (unanswered g i)
    ∧ ∀ t ∈ (g.replica i).outstandingCollection, t.isUpdate = false →
        t ∉ (g'.replica i).outstandingCollection → t ∈ answeredIn (g'.replica i).out

instance [Fintype ι] (g : Group ι D) (e : Event ι D) (g' : Group ι D) :
    Decidable (AnswersMatch g e g') :=
  inferInstanceAs (Decidable (∀ i, answeredIn (g'.replica i).out
      = answeredIn (g.replica i).out ++ (e.batchAt g i).filter (unanswered g i)
    ∧ ∀ t ∈ (g.replica i).outstandingCollection, t.isUpdate = false →
        t ∉ (g'.replica i).outstandingCollection → t ∈ answeredIn (g'.replica i).out))

omit [Add D] [Mul D] [Div D] [NatCast D] [DoubleText D] in
omit [Add D] [Mul D] [Div D] [NatCast D] [DoubleText D] in
/-- The condition on the delivery of a batch, in terms of the flag and of what has been answered. -/
def AnswersFlagged (g : Group ι D) : Event ι D → Prop
  | .deliver i j k => (j, k) ∉ receivedIn (g.history i) → ∀ m ∈ (g.replica j).sent[k]?,
      (∀ e ∈ m.batch, e.isUpdate = false → ((g.replica i).awaitingSyncedBalance = true
        ↔ e.origin.1 = i ∧ e ∉ answeredIn (g.replica i).out))
      ∧ ∀ t ∈ (g.replica i).outstandingCollection, t.isUpdate = false →
          (∃ e ∈ m.batch, e.uniqueId = t.uniqueId) →
          t ∈ m.batch ∨ t ∈ answeredIn (g.replica i).out
  | _ => True

omit [Zero D] in
/-- The delivery of one batch. -/
theorem answersMatch_afterBatch {g : Group ι D} {i : ι}
    (hown : ∀ t ∈ (g.replica i).outstandingCollection, t.origin.1 = i)
    {ts : List (Transaction (Origin ι))} (hwf : ∀ t ∈ ts, t.WellFormed D) :
    (answeredIn (afterBatch ts (g.replica i)).out
          = answeredIn (g.replica i).out ++ ts.filter (unanswered g i)
        ∧ ∀ t ∈ (g.replica i).outstandingCollection, t.isUpdate = false →
            t ∉ (afterBatch ts (g.replica i)).outstandingCollection →
            t ∈ answeredIn (afterBatch ts (g.replica i)).out)
      ↔ (∀ e ∈ ts, e.isUpdate = false → ((g.replica i).awaitingSyncedBalance = true
            ↔ e.origin.1 = i ∧ e ∉ answeredIn (g.replica i).out))
        ∧ ∀ t ∈ (g.replica i).outstandingCollection, t.isUpdate = false →
            (∃ e ∈ ts, e.uniqueId = t.uniqueId) →
            t ∈ ts ∨ t ∈ answeredIn (g.replica i).out := by
  have hflag : ts.filter (fun e => (g.replica i).awaitingSyncedBalance && !e.isUpdate)
        = ts.filter (unanswered g i)
      ↔ ∀ e ∈ ts, e.isUpdate = false → ((g.replica i).awaitingSyncedBalance = true
          ↔ e.origin.1 = i ∧ e ∉ answeredIn (g.replica i).out) := by
    rw [Occurrence.filter_eq_filter_iff]
    refine forall₂_congr fun e _ => ?_
    unfold unanswered
    cases e.isUpdate with
    | true => simp
    | false =>
        rw [Bool.eq_iff_iff]
        simp
  have hdropped : ∀ t ∈ (g.replica i).outstandingCollection,
      (t ∉ (afterBatch ts (g.replica i)).outstandingCollection
        ↔ ∃ e ∈ ts, e.uniqueId = t.uniqueId) := by
    intro t ht
    rw [mem_outstanding_afterBatch]
    push Not
    exact ⟨fun h => h ht, fun h _ => h⟩
  rw [answeredIn_afterBatch hwf, List.append_cancel_left_eq, hflag]
  refine and_congr_right fun hfit => ?_
  refine forall₃_congr fun t ht hreq => ?_
  rw [hdropped t ht, hflag.mpr hfit, List.mem_append, List.mem_filter]
  refine imp_congr_right fun _ => ?_
  -- an own request in the batch is answered, now or earlier
  have hun : unanswered g i t = true ↔ t ∉ answeredIn (g.replica i).out := by
    simp [unanswered, hreq, hown t ht]
  rw [hun]
  tauto

/-- **One step**, in terms of the flag. -/
theorem Group.Reachable.answersMatch_step {g g' : Group ι D} {e : Event ι D} (hg : g.Reachable)
    (h : g.step e = some g') : AnswersMatch g e g' ↔ AnswersFlagged g e := by
  obtain ⟨i, r', note, hm, rfl⟩ := hg.step_moves h
  have he := hg.explained i
  have hown : ∀ t ∈ (g.replica i).outstandingCollection, t.origin.1 = i := by
    intro t ht
    rw [he.outstanding] at ht
    exact he.origin_fst ((residents_sublist _).subset ht)
  -- the other replicas stay as they are
  have hothers : (∀ j ≠ i, e.batchAt g j = []) → (AnswersMatch g e (g.move i r' note)
      ↔ answeredIn r'.out = answeredIn (g.replica i).out ++ (e.batchAt g i).filter (unanswered g i)
        ∧ ∀ t ∈ (g.replica i).outstandingCollection, t.isUpdate = false →
            t ∉ r'.outstandingCollection → t ∈ answeredIn r'.out) := by
    intro hnone
    refine Group.forall_move_iff g i r' note (P := fun j _ r => answeredIn r.out
      = answeredIn (g.replica j).out ++ (e.batchAt g j).filter (unanswered g j)
      ∧ ∀ t ∈ (g.replica j).outstandingCollection, t.isUpdate = false →
        t ∉ r.outstandingCollection → t ∈ answeredIn r.out) (fun j hj => ?_)
    rw [hnone j hj]
    exact ⟨(List.append_nil _).symm, fun t ht _ hno => absurd ht hno⟩
  rcases hm.batch_or_quiet with
    ⟨j, k, ts, rfl, hsent, hfresh, hwf, rfl, -⟩ |
      ⟨hbalance, ⟨lines, hout, hlines⟩, hkept, -⟩
  · have hat : ∀ l, (Event.deliver i j k : Event ι D).batchAt g l = if i = l then ts else [] := by
      intro l
      simp [Event.batchAt, hsent]
    rw [hothers (fun l hl => by rw [hat, if_neg (Ne.symm hl)]), hat, if_pos rfl,
      answersMatch_afterBatch hown hwf]
    simp [AnswersFlagged, hsent, hfresh]
  · -- no batch is worked on anywhere
    have hat : ∀ l, e.batchAt g l = [] := by
      intro l
      cases e with
      | deliver i' j k =>
          obtain ⟨x, hx⟩ := hbalance i' j k rfl
          simp [Event.batchAt, hx]
      | _ => rfl
    refine iff_of_true ((hothers fun l _ => hat l).mpr ⟨?_, fun t ht _ hno => ?_⟩) ?_
    · rw [hat, hout, answeredIn_append, answeredIn_eq_nil hlines]
      rfl
    · exact absurd (hkept ht) hno
    · cases e with
      | deliver i' j k =>
          obtain ⟨x, hx⟩ := hbalance i' j k rfl
          simp [AnswersFlagged, hx]
      | _ => trivial

omit [Add D] [Mul D] [Div D] [NatCast D] [DoubleText D] in
/-- The condition on the delivery of a batch, in terms of the order of calls, ticks and deliveries.
For a request in the batch, `getSyncedBalance` has been called at the receiver since the last batch
was delivered there, exactly if the receiver sent the batch itself and gets the request back for the
first time; and where the batch has the id of a request that is still outstanding at the receiver,
it has the request itself. -/
def AnswersFit (g : Group ι D) : Event ι D → Prop
  | .deliver i j k => (j, k) ∉ receivedIn (g.history i) → ∀ m ∈ (g.replica j).sent[k]?,
      (∀ e ∈ m.batch, e.isUpdate = false → (Report.synced.CalledIn (g.history i)
        ↔ j = i ∧ ∀ earlier ∈ messagesIn (g.history i), e ∉ earlier.batch))
      ∧ ∀ t ∈ residents (g.history i), t.isUpdate = false →
          (∃ e ∈ m.batch, e.uniqueId = t.uniqueId) → t ∈ m.batch
  | _ => True

omit [Add D] [Mul D] [Div D] [NatCast D] [DoubleText D] [DecidableEq ι] in
/-- A replica has answered exactly those of its requests that it has got back in a batch. -/
def AnsweredBack (g : Group ι D) : Prop :=
  ∀ i, ∀ e : Transaction (Origin ι), e.isUpdate = false → e.origin.1 = i →
    (e ∈ answeredIn (g.replica i).out ↔ ∃ m ∈ messagesIn (g.history i), e ∈ m.batch)

/-- Steps in which requests and answers match keep it so. -/
theorem AnsweredBack.step {g g' : Group ι D} {e : Event ι D} (hg : g.Reachable)
    (hback : AnsweredBack g) (h : g.step e = some g') (hmatch : AnswersMatch g e g') :
    AnsweredBack g' := by
  obtain ⟨i, r', note, hm, rfl⟩ := hg.step_moves h
  refine (Group.forall_move_iff g i r' note (P := fun i h r =>
    ∀ e : Transaction (Origin ι), e.isUpdate = false → e.origin.1 = i →
      (e ∈ answeredIn r.out ↔ ∃ m ∈ messagesIn h, e ∈ m.batch)) fun j _ => hback j).mpr ?_
  intro t hreq hown
  rcases hm.batch_or_quiet with
    ⟨j, k, ts, rfl, hsent, -, -, rfl, rfl⟩ | ⟨-, ⟨lines, hout, hlines⟩, -, hempty⟩
  · have hanswered := (hmatch i).1
    have hat : (Event.deliver i j k : Event ι D).batchAt g i = ts := by
      simp [Event.batchAt, hsent]
    rw [Group.move_replica_self, hat] at hanswered
    have hdelivered : messagesIn [(.received j k (outstandingMessage ts) : Happening ι D)]
        = [outstandingMessage ts] := rfl
    rw [hanswered, messagesIn_append, hdelivered]
    simp only [List.mem_append, List.mem_filter, List.mem_singleton, or_and_right, exists_or,
      exists_eq_left, batch_outstandingMessage, ← hback i t hreq hown]
    by_cases hold : t ∈ answeredIn (g.replica i).out
    · simp [hold]
    · simp [hold, unanswered, hreq, hown]
  · rw [hout, answeredIn_append, answeredIn_eq_nil hlines, List.append_nil, messagesIn_append,
      hback i t hreq hown]
    constructor
    · rintro ⟨m, hm, ht⟩
      exact ⟨m, List.mem_append_left _ hm, ht⟩
    · rintro ⟨m, hm, ht⟩
      rcases List.mem_append.mp hm with hm | hm
      · exact ⟨m, hm, ht⟩
      · rw [hempty m hm] at ht
        cases ht

/-- Where it is so, the flag and the answers are given by the order of things. -/
theorem AnsweredBack.flagged_iff {g : Group ι D} (hg : g.Reachable) (hback : AnsweredBack g)
    (e : Event ι D) : AnswersFlagged g e ↔ AnswersFit g e := by
  cases e with
  | deliver i j k =>
      refine imp_congr_right fun _ => forall₂_congr fun m hm => ?_
      have hflag : (g.replica i).awaitingSyncedBalance = true
          ↔ Report.synced.CalledIn (g.history i) := (hg.awaits .synced i).flag
      have hsent : m ∈ (g.replica j).sent := List.mem_of_getElem? hm
      refine and_congr ?_ ?_
      · refine forall₃_congr fun t ht hreq => ?_
        have hfrom : t.origin.1 = j := (hg.origin_of_sent hsent ht).2
        rw [hflag, hfrom]
        refine iff_congr Iff.rfl (and_congr_right fun hji => ?_)
        rw [hback i t hreq (hfrom.trans hji)]
        push Not
        rfl
      · rw [(hg.explained i).outstanding]
        refine forall₃_congr fun t ht hreq => imp_congr_right fun _ => or_iff_left ?_
        -- an outstanding request has not come back
        have hown : t.origin.1 = i :=
          (hg.explained i).origin_fst ((residents_sublist _).subset ht)
        rw [hback i t hreq hown]
        rintro ⟨earlier, hearlier, hin⟩
        exact hg.not_delivered_of_outstanding ht hearlier hin
  | _ => exact Iff.rfl

/-- **When requests and answers match.** In a run, every step answers exactly the own unanswered
requests it meets, and drops none of them, exactly when every delivery meets the condition
`AnswersFit`. -/
theorem answers_match_iff (numReplicas : ι → Int32) (es : List (Event ι D)) :
    Machine.StepsMeet Group.step (fun g e => ∀ g' ∈ g.step e, AnswersMatch g e g')
        (Group.init numReplicas) es
      ↔ Machine.StepsMeet Group.step AnswersFit (Group.init numReplicas) es := by
  refine Machine.stepsMeet_transition_iff_of_invariant (P := AnsweredBack) ?_ ?_ ?_ ?_
  · exact fun i t _ _ => iff_of_false nofun fun ⟨m, hm, _⟩ => by cases hm
  · intro g e hr hs
    cases e with
    | deliver i j k => exact fun hfresh m hm => absurd hm (Group.not_sent_of_refused hs hfresh)
    | _ => trivial
  · intro g e g' hr hback hs
    have hg : g.Reachable := ⟨numReplicas, hr⟩
    rw [hg.answersMatch_step hs, hback.flagged_iff hg]
  · exact fun g e g' hr hback hs hmatch => hback.step ⟨numReplicas, hr⟩ hs hmatch

end

/-- Replica `alpha` asks for the synced balance. The empty batch of replica `beta` arrives before
its own batch. -/
def emptyBatchFirst : List (Event Site ℚ) :=
  startUp ++ [.command .alpha .getSyncedBalance, .tick .beta, .deliver .alpha .beta 0,
    .tick .alpha, .deliver .alpha .alpha 0]

/-- The empty batch turns the flag off, and the request is dropped without an answer. -/
theorem request_dropped_unanswered :
    ∃ g, Machine.exec Group.step (Group.init fun _ => 2) emptyBatchFirst = some g
      ∧ issuedIn (g.history .alpha) = [⟨"getSyncedBalance", "replica0", (.alpha, 0)⟩]
      ∧ (g.replica .alpha).outstandingCollection = [] ∧ answeredIn (g.replica .alpha).out = []
      ∧ ¬ Machine.StepsMeet Group.step (fun g e => ∀ g' ∈ g.step e, AnswersMatch g e g')
          (Group.init fun _ => 2) emptyBatchFirst := by
  obtain ⟨g, hrun, hp⟩ := Group.exists_of_run (fun _ => 2) emptyBatchFirst
    (fun g => decide (issuedIn (g.history .alpha) = [⟨"getSyncedBalance", "replica0", (.alpha, 0)⟩]
      ∧ (g.replica .alpha).outstandingCollection = [] ∧ answeredIn (g.replica .alpha).out = []))
    (by decide +kernel)
  obtain ⟨hissued, hout, hanswered⟩ := of_decide_eq_true hp
  exact ⟨g, hrun, hissued, hout, hanswered, by decide +kernel⟩

section

variable {ι D : Type}

/-! ## Reports and earlier updates -/

/-- If the line is a report, `applied` has every update that was outstanding when the flag behind
the report was last turned on. -/
def Covers (h : List (Happening ι D)) (applied : List (Transaction (Origin ι))) :
    Line D (Origin ι) → Prop
  | .syncedBalance _ _ => ∀ d ∈ Report.synced.pending h, d.isUpdate = true → d ∈ applied
  | .naiveSyncedBalance _ => ∀ d ∈ Report.naive.pending h, d.isUpdate = true → d ∈ applied
  | _ => True

instance [DecidableEq ι] (h : List (Happening ι D)) (applied : List (Transaction (Origin ι))) :
    ∀ line, Decidable (Covers h applied line)
  | .syncedBalance _ _ =>
      inferInstanceAs (Decidable (∀ d ∈ Report.synced.pending h, d.isUpdate = true → d ∈ applied))
  | .naiveSyncedBalance _ =>
      inferInstanceAs (Decidable (∀ d ∈ Report.naive.pending h, d.isUpdate = true → d ∈ applied))
  | .decodeError | .updatedBalance _ _ | .groupSize _ _ | .quickBalance _ | .addingDeposit _
  | .addingInterest _ | .history | .executedHeader _ | .outstandingHeader _ | .historyEntry _
  | .txCompleted _ | .txOutstanding _ | .txNotFound _ | .clearingHistory | .memberInfo _ =>
      .isTrue trivial

/-- Every report printed in the step from `g` to `g'` covers what it has to: `x` is what the step
has printed before the line. -/
def ReportsCover (g g' : Group ι D) : Prop :=
  ∀ i, AtEach ((g'.replica i).out.drop (g.replica i).out.length)
    (fun x line => Covers (g.history i) (appliedIn ((g.replica i).out ++ x)) line)

instance [Fintype ι] [DecidableEq ι] (g g' : Group ι D) : Decidable (ReportsCover g g') :=
  inferInstanceAs (Decidable (∀ i, AtEach ((g'.replica i).out.drop (g.replica i).out.length)
    (fun x line => Covers (g.history i) (appliedIn ((g.replica i).out ++ x)) line)))

variable [Zero D]

/-- The condition on the delivery of a batch, in terms of the flags and of what has been applied. If
it prints a report for a request, it has every pending update that has not been applied *before* the
request; if it prints a naive report, it has every such update somewhere. -/
def ReportsFlagged (g : Group ι D) : Event ι D → Prop
  | .deliver i j k => (j, k) ∉ receivedIn (g.history i) → ∀ m ∈ (g.replica j).sent[k]?,
      m.type = outstandingUpdate →
      ((g.replica i).awaitingSyncedBalance = true → AtEach m.batch (fun a e =>
        e.isUpdate = false → ∀ d ∈ Report.synced.pending (g.history i), d.isUpdate = true →
          d ∈ appliedIn (g.replica i).out ∨ d ∈ a))
      ∧ ((g.replica i).awaitingSyncedBalanceNaive = true →
          ∀ d ∈ Report.naive.pending (g.history i), d.isUpdate = true →
            d ∈ appliedIn (g.replica i).out ∨ d ∈ m.batch)
  | _ => True

variable [Add D] [Mul D] [Div D] [NatCast D] [DoubleText D]

omit [Zero D] in
/-- The lines of a batch that are reports come from its requests. -/
theorem atEach_batchLines {ts : List (Transaction (Origin ι))} (hwf : ∀ t ∈ ts, t.WellFormed D)
    (awaiting : Bool) (b : D) {P : List (Line D (Origin ι)) → Line D (Origin ι) → Prop}
    (hP : ∀ x t c, P x (.updatedBalance t c)) :
    AtEach (batchLines awaiting b ts) P
      ↔ (awaiting = true → AtEach ts (fun a e => e.isUpdate = false →
          P (batchLines awaiting b a) (.syncedBalance e (replay a b)))) := by
  induction ts generalizing b P with
  | nil => exact iff_of_true Occurrence.atEach_nil (fun _ => Occurrence.atEach_nil)
  | cons t ts ih =>
      have hrest := ih (fun u hu => hwf u (by simp [hu])) (effect t b)
        (P := fun x => P (entryLines awaiting b t ++ x)) (fun x u c => hP _ u c)
      have hhead : AtEach (entryLines awaiting b t) P
          ↔ (awaiting = true → t.isUpdate = false → P [] (.syncedBalance t b)) := by
        rw [entryLines_of_wellFormed (hwf t (by simp))]
        cases t.isUpdate with
        | true => simp [Occurrence.atEach_singleton, hP]
        | false =>
            cases awaiting with
            | true => simp [Occurrence.atEach_singleton]
            | false => simp [Occurrence.atEach_nil]
      rw [batchLines, Occurrence.atEach_append, hhead, hrest, Occurrence.atEach_cons,
        ← imp_and]
      rfl

omit [Zero D] in
/-- What the delivery of a batch prints. -/
theorem afterBatch_printed (ts : List (Transaction (Origin ι))) (r : Replica D (Origin ι)) :
    (afterBatch ts r).out.drop r.out.length
      = batchLines r.awaitingSyncedBalance r.balance ts
        ++ if r.awaitingSyncedBalanceNaive then [.naiveSyncedBalance (replay ts r.balance)]
          else [] := by
  simp only [afterBatch, afterEntries, List.append_assoc, List.drop_left]

omit [Zero D] in
/-- The delivery of one batch. -/
theorem reportsCover_afterBatch {h : List (Happening ι D)} {ts : List (Transaction (Origin ι))}
    (hwf : ∀ t ∈ ts, t.WellFormed D) (r : Replica D (Origin ι)) :
    AtEach ((afterBatch ts r).out.drop r.out.length)
        (fun x line => Covers h (appliedIn (r.out ++ x)) line)
      ↔ (r.awaitingSyncedBalance = true → AtEach ts (fun a e => e.isUpdate = false →
            ∀ d ∈ Report.synced.pending h, d.isUpdate = true → d ∈ appliedIn r.out ∨ d ∈ a))
        ∧ (r.awaitingSyncedBalanceNaive = true → ∀ d ∈ Report.naive.pending h, d.isUpdate = true →
            d ∈ appliedIn r.out ∨ d ∈ ts) := by
  -- an update is among the applied ones if it was there before or is in the batch so far
  have hmem : ∀ a, (∀ t ∈ a, t.WellFormed D) → ∀ d : Transaction (Origin ι), d.isUpdate = true →
      (d ∈ appliedIn (r.out ++ batchLines r.awaitingSyncedBalance r.balance a)
        ↔ d ∈ appliedIn r.out ∨ d ∈ a) := by
    intro a ha d hd
    rw [appliedIn_append, appliedIn_batchLines ha, List.mem_append, List.mem_filter]
    simp [hd]
  rw [afterBatch_printed, Occurrence.atEach_append,
    atEach_batchLines hwf _ _ (fun _ _ _ => trivial)]
  -- the requests of the batch, then its end
  refine and_congr (imp_congr_right fun _ => ?_) ?_
  · constructor
    · intro hcov a e c hsplit hreq d hd hu
      have ha : ∀ t ∈ a, t.WellFormed D := fun t ht => hwf t (by simp [hsplit, ht])
      exact (hmem a ha d hu).mp (hcov a e c hsplit hreq d hd hu)
    · intro hcov a e c hsplit hreq d hd hu
      have ha : ∀ t ∈ a, t.WellFormed D := fun t ht => hwf t (by simp [hsplit, ht])
      exact (hmem a ha d hu).mpr (hcov a e c hsplit hreq d hd hu)
  · cases r.awaitingSyncedBalanceNaive with
    | false => simp [Occurrence.atEach_nil]
    | true =>
        simp only [if_true, Occurrence.atEach_singleton, List.append_nil, forall_const]
        exact forall₃_congr fun d _ hu => hmem ts hwf d hu

variable [DecidableEq ι]

/-- **One step**, in terms of the flags. -/
theorem Group.Reachable.reportsCover_step {g g' : Group ι D} {e : Event ι D} (hg : g.Reachable)
    (h : g.step e = some g') : ReportsCover g g' ↔ ReportsFlagged g e := by
  obtain ⟨i, r', note, hm, rfl⟩ := hg.step_moves h
  have hothers : ReportsCover g (g.move i r' note) ↔ AtEach (r'.out.drop (g.replica i).out.length)
      (fun x line => Covers (g.history i) (appliedIn ((g.replica i).out ++ x)) line) := by
    refine Group.forall_move_iff g i r' note (P := fun j _ r =>
      AtEach (r.out.drop (g.replica j).out.length) (fun x line =>
        Covers (g.history j) (appliedIn ((g.replica j).out ++ x)) line)) (fun j _ => ?_)
    rw [List.drop_length]
    exact Occurrence.atEach_nil
  rw [hothers]
  rcases hm.batch_or_quiet with
    ⟨j, k, ts, rfl, hsent, hfresh, hwf, rfl, -⟩ | ⟨hbalance, ⟨lines, hout, hlines⟩, -⟩
  · rw [reportsCover_afterBatch hwf]
    have htype : (outstandingMessage ts : SpreadMessage D (Origin ι)).type
        = outstandingUpdate := rfl
    simp [ReportsFlagged, hsent, hfresh, htype]
  · refine iff_of_true ?_ ?_
    · rw [hout, List.drop_left]
      intro x line y hsplit
      have hno := hlines line (by simp [hsplit])
      cases line with
      | syncedBalance t b => cases hno
      | naiveSyncedBalance b => cases hno
      | _ => trivial
    · cases e with
      | deliver i' j k =>
          obtain ⟨x, hx⟩ := hbalance i' j k rfl
          simp [ReportsFlagged, hx, balanceMessage, balanceUpdate, outstandingUpdate]
      | _ => trivial

omit [Zero D] [Add D] [Mul D] [Div D] [NatCast D] [DoubleText D] [DecidableEq ι] in
/-- `t` was issued before the `k`-th message was multicast. -/
def IssuedBeforeSend (h : List (Happening ι D)) (k : ℕ) (t : Transaction (Origin ι)) : Prop :=
  ∃ pre m post, h = pre ++ .sent m :: post ∧ (sentIn pre).length = k ∧ t ∈ issuedIn pre

omit [Add D] [Mul D] [Div D] [NatCast D] [DoubleText D] in
/-- The condition on the delivery of a batch, in terms of the order of calls, ticks and deliveries.
Of the updates that were outstanding before the first call of `getSyncedBalance` since the last
batch, every one was issued at the receiver before every request in the batch. And where
`getSyncedBalanceNaive` has been called since the last batch, and an update was outstanding before
the first of these calls, the batch is one of the receiver's own, and the update was issued before
it was multicast. -/
def ReportsFit (g : Group ι D) : Event ι D → Prop
  | .deliver i j k => (j, k) ∉ receivedIn (g.history i) → ∀ m ∈ (g.replica j).sent[k]?,
      m.type = outstandingUpdate →
      (∀ before, Report.synced.FirstCall (g.history i) before → ∀ d ∈ residents before,
        d.isUpdate = true → ∀ e ∈ m.batch, e.isUpdate = false → [d, e] <+ issuedIn (g.history i))
      ∧ ∀ before, Report.naive.FirstCall (g.history i) before → ∀ d ∈ residents before,
          d.isUpdate = true → j = i ∧ IssuedBeforeSend (g.history i) k d
  | _ => True

/-- An own batch has what was outstanding when it was multicast. -/
theorem Group.Reachable.mem_batch_iff {g : Group ι D} (hg : g.Reachable) {i : ι} {k : ℕ}
    {m : SpreadMessage D (Origin ι)} (hk : (g.replica i).sent[k]? = some m)
    (htype : m.type = outstandingUpdate) {d : Transaction (Origin ι)}
    (hd : d ∈ residents (g.history i)) :
    d ∈ m.batch ↔ IssuedBeforeSend (g.history i) k d := by
  have hsent : (sentIn (g.history i))[k]? = some m := by
    rw [← (hg.explained i).sent]
    exact hk
  -- the batch is that of the history up to the `k`-th message
  have hbatch : ∀ pre post, g.history i = pre ++ .sent m :: post → m.batch = residents pre := by
    intro pre post hsplit
    rcases hg.snapshots i pre m post hsplit with rfl | ⟨x, rfl⟩
    · rfl
    · cases htype
  constructor
  · intro hin
    obtain ⟨pre, post, hsplit, hlen⟩ := sentIn_getElem? hsent
    rw [hbatch pre post hsplit] at hin
    exact ⟨pre, m, post, hsplit, hlen, (residents_sublist pre).subset hin⟩
  · rintro ⟨pre, m', post, hsplit, hlen, hissued⟩
    obtain rfl : m' = m := by
      rw [hsplit, sentIn_append, List.getElem?_append_right hlen.le, hlen, Nat.sub_self] at hsent
      exact Option.some.inj hsent
    rw [hbatch pre post hsplit]
    rw [hsplit, residents_append] at hd
    rcases List.mem_append.mp hd with hd | hd
    · exact List.mem_of_mem_filter hd
    · -- it is not issued a second time
      have hnd := (hg.explained i).issued_nodup
      rw [hsplit, issuedIn_append] at hnd
      exact absurd ((residents_sublist _).subset hd)
        (List.disjoint_of_nodup_append hnd hissued)

/-- The updates before a request in an own batch: those that were issued before it. -/
theorem Group.Reachable.before_in_batch_iff {g : Group ι D} (hg : g.Reachable) {i j : ι} {k : ℕ}
    {m : SpreadMessage D (Origin ι)} (hk : (g.replica j).sent[k]? = some m)
    (htype : m.type = outstandingUpdate) {d e : Transaction (Origin ι)}
    (hd : d ∈ residents (g.history i)) {a c : List (Transaction (Origin ι))}
    (hsplit : m.batch = a ++ e :: c) :
    d ∈ a ↔ [d, e] <+ issuedIn (g.history i) := by
  have hsent : m ∈ (g.replica j).sent := List.mem_of_getElem? hk
  have he : e ∈ m.batch := by simp [hsplit]
  have hown : ∀ t ∈ issuedIn (g.history i), t ∈ m.batch → j = i := by
    intro t ht htm
    rw [← (hg.origin_of_sent hsent htm).2, (hg.explained i).origin_fst ht]
  constructor
  · intro hin
    have hdm : d ∈ m.batch := by simp [hsplit, hin]
    obtain rfl := hown d ((residents_sublist _).subset hd) hdm
    refine List.Sublist.trans ?_ (hg.batch_sublist hsent)
    rw [hsplit]
    exact (List.singleton_sublist.mpr hin).append (List.singleton_sublist.mpr (by simp))
  · intro hpair
    obtain rfl := hown e (hpair.subset (by simp)) he
    have hdm : d ∈ m.batch := by
      obtain ⟨pre, post, hcut, hlen⟩ := sentIn_getElem? (k := k) (m := m)
        (by rw [← (hg.explained j).sent]; exact hk)
      have hepre : e ∈ issuedIn pre := by
        rcases hg.snapshots j pre m post hcut with rfl | ⟨x, rfl⟩
        · exact (residents_sublist pre).subset he
        · cases htype
      have hpre := issued_before (hg.explained j).issued_nodup hpair hcut hepre
      exact (hg.mem_batch_iff hk htype hd).mpr ⟨pre, m, post, hcut, hlen, hpre.subset (by simp)⟩
    have hnd := hg.batch_nodup hsent
    have hin := hg.pair_in_batch hpair hsent hdm he
    rw [hsplit, List.append_cons] at hin hnd
    have hfirst : [d] ++ [e] <+ a ++ [e] := Occurrence.pair_sublist_left hnd hin (by simp)
    exact ((List.append_sublist_append_right [e]).mp hfirst).subset (by simp)

/-- The flags and the applications are given by the order of things. -/
theorem Group.Reachable.reportsFlagged_iff {g : Group ι D} (hg : g.Reachable) (e : Event ι D) :
    ReportsFlagged g e ↔ ReportsFit g e := by
  cases e with
  | deliver i j k =>
      refine imp_congr_right fun _ => forall₃_congr fun m hk htype => ?_
      -- what was outstanding before the first call has not been applied yet
      have hnew : ∀ {report : Report} {before}, report.FirstCall (g.history i) before →
          ∀ d ∈ residents before, d.isUpdate = true →
            d ∈ residents (g.history i) ∧ d ∉ appliedIn (g.replica i).out := by
        intro report before hbefore d hd hu
        have hstill := hbefore.residents_subset hd
        refine ⟨hstill, fun happlied => ?_⟩
        obtain ⟨earlier, hearlier, hin⟩ := (hg.mem_applied i hu).mp happlied
        exact hg.not_delivered_of_outstanding hstill hearlier hin
      refine and_congr ?_ ?_
      · refine ((hg.awaits .synced i).forall_pending_iff (Q := fun pending =>
          AtEach m.batch fun a e => e.isUpdate = false → ∀ d ∈ pending, d.isUpdate = true →
            d ∈ appliedIn (g.replica i).out ∨ d ∈ a)).trans ?_
        refine forall₂_congr fun before hbefore => ?_
        constructor
        · intro hall d hd hu e he hreq
          obtain ⟨a, c, hsplit⟩ := List.append_of_mem he
          obtain ⟨hstill, hno⟩ := hnew hbefore d hd hu
          exact (hg.before_in_batch_iff hk htype hstill hsplit).mp
            ((hall a e c hsplit hreq d hd hu).resolve_left hno)
        · intro hall a e c hsplit hreq d hd hu
          obtain ⟨hstill, -⟩ := hnew hbefore d hd hu
          exact Or.inr ((hg.before_in_batch_iff hk htype hstill hsplit).mpr
            (hall d hd hu e (by simp [hsplit]) hreq))
      · refine ((hg.awaits .naive i).forall_pending_iff (Q := fun pending =>
          ∀ d ∈ pending, d.isUpdate = true →
            d ∈ appliedIn (g.replica i).out ∨ d ∈ m.batch)).trans ?_
        refine forall₂_congr fun before hbefore => forall₃_congr fun d hd hu => ?_
        obtain ⟨hstill, hno⟩ := hnew hbefore d hd hu
        rw [or_iff_right hno]
        constructor
        · intro hin
          have hfrom := (hg.origin_of_sent (List.mem_of_getElem? hk) hin).2
          obtain rfl : j = i := by
            rw [← hfrom, (hg.explained i).origin_fst ((residents_sublist _).subset hstill)]
          exact ⟨rfl, (hg.mem_batch_iff hk htype hstill).mp hin⟩
        · rintro ⟨rfl, hissued⟩
          exact (hg.mem_batch_iff hk htype hstill).mpr hissued
  | _ => exact Iff.rfl

/-- **When the reports cover the earlier updates.** In a run, every report includes the updates
that were outstanding when its flag was last turned on, exactly when every delivery meets the
condition `ReportsFit`. -/
theorem reports_cover_iff (numReplicas : ι → Int32) (es : List (Event ι D)) :
    Machine.StepsMeet Group.step (fun g e => ∀ g' ∈ g.step e, ReportsCover g g')
        (Group.init numReplicas) es
      ↔ Machine.StepsMeet Group.step ReportsFit (Group.init numReplicas) es := by
  refine Machine.stepsMeet_transition_iff (fun g e hr hs => ?_) (fun g e g' hr hs => ?_)
  · cases e with
    | deliver i j k => exact fun hfresh m hm => absurd hm (Group.not_sent_of_refused hs hfresh)
    | _ => trivial
  · have hg : g.Reachable := ⟨numReplicas, hr⟩
    rw [hg.reportsCover_step hs, hg.reportsFlagged_iff]

end

/-- Replica `alpha` deposits `100` and asks for the synced balance; replica `beta` asks for it
too. Both deliver the batch of replica `beta` first. -/
def foreignRequestFirst : List (Event Site ℚ) :=
  startUp ++ [.command .alpha (.deposit 100), .command .alpha .getSyncedBalance,
    .command .beta .getSyncedBalance, .tick .beta, .deliver .alpha .beta 0, .deliver .beta .beta 0]

/-- Replica `alpha` reports a balance of `0` at the request of replica `beta`, without its own
deposit. -/
theorem report_without_own_deposit :
    ∃ g, Machine.exec Group.step (Group.init fun _ => 2) foreignRequestFirst = some g
      ∧ (g.replica .alpha).out.getLast?
        = some (.syncedBalance ⟨"getSyncedBalance", "replica0", (.beta, 0)⟩ 0)
      ∧ appliedIn (g.replica .alpha).out = []
      ∧ ¬ Machine.StepsMeet Group.step (fun g e => ∀ g' ∈ g.step e, ReportsCover g g')
          (Group.init fun _ => 2) foreignRequestFirst := by
  obtain ⟨g, hrun, hp⟩ := Group.exists_of_run (fun _ => 2) foreignRequestFirst
    (fun g => decide ((g.replica .alpha).out.getLast?
        = some (.syncedBalance ⟨"getSyncedBalance", "replica0", (.beta, 0)⟩ 0)
      ∧ appliedIn (g.replica .alpha).out = [])) (by decide +kernel)
  obtain ⟨hreport, happlied⟩ := of_decide_eq_true hp
  exact ⟨g, hrun, hreport, happlied, by decide +kernel⟩

section

variable {ι D : Type}

/-! ## The request behind the flag -/

/-- The replica `i` has a balance request of its own in its collection, and no batch has been
delivered to it since it issued the request. -/
def LiveRequest (i : ι) (h : List (Happening ι D)) (r : Replica D (Origin ι)) : Prop :=
  ∃ a T b, h = a ++ .issued T :: b ∧ T.command = "getSyncedBalance" ∧ T.origin.1 = i
    ∧ T ∈ r.outstandingCollection ∧ ∀ e ∈ b, e.isBatch = false

/-- A request stays behind the flag as long as no batch is delivered and nothing leaves the
collection. -/
theorem LiveRequest.later {i : ι} {h note : List (Happening ι D)} {r r' : Replica D (Origin ι)}
    (hlive : LiveRequest i h r) (hnote : ∀ e ∈ note, e.isBatch = false)
    (hsub : r.outstandingCollection ⊆ r'.outstandingCollection) :
    LiveRequest i (h ++ note) r' := by
  obtain ⟨a, T, b, rfl, hcommand, horigin, hT, hb⟩ := hlive
  refine ⟨a, T, b ++ note, by simp, hcommand, horigin, hsub hT, fun e he => ?_⟩
  rcases List.mem_append.mp he with he | he
  · exact hb e he
  · exact hnote e he

variable [Zero D] [Add D] [Mul D] [Div D] [NatCast D] [DoubleText D]

omit [Zero D] [Add D] [Mul D] [Div D] [NatCast D] in
theorem commandNote_not_batch (c : Command D) (origin : Origin ι) (r : Replica D (Origin ι)) :
    ∀ e ∈ commandNote c origin r, e.isBatch = false := by
  intro e he
  rcases List.mem_cons.mp he with rfl | he
  · rfl
  · exact (Report.synced.quiet_of_call he).1.2

/-- **Every move** keeps a request behind the flag. -/
theorem Moves.live_request {g : Group ι D} {e : Event ι D} {i : ι} {r' : Replica D (Origin ι)}
    {note : List (Happening ι D)} (hm : Moves g e i r' note)
    (hlive : (g.replica i).awaitingSyncedBalance = true → LiveRequest i (g.history i) (g.replica i))
    (hflag : r'.awaitingSyncedBalance = true) : LiveRequest i (g.history i ++ note) r' := by
  cases hm with
  | command i c origin horigin =>
      have hnote := commandNote_not_batch c origin (g.replica i)
      rw [Command.run_after] at hflag ⊢
      by_cases hc : c = .getSyncedBalance
      · -- the call that turns the flag on queues the request
        subst hc
        refine ⟨g.history i
            ++ (.called .getSyncedBalance :: changeNote .getSyncedBalance (g.replica i)), _, [],
          ?_, rfl, ?_, List.mem_append_right _ (List.mem_singleton.mpr rfl), by simp⟩
        · rw [List.append_assoc]
          rfl
        · rw [horigin]
      · refine (hlive ?_).later hnote (List.subset_append_left _ _)
        cases c with
        | getSyncedBalance => exact absurd rfl hc
        | _ => exact hflag
  | tick i => exact (hlive hflag).later (by simp [Happening.isBatch]) (List.Subset.refl _)
  | batch i j k ts hsent hfresh hwf => cases hflag
  | balance i j k x hsent hfresh =>
      refine (hlive hflag).later ?_ (List.Subset.refl _)
      simp [Happening.isBatch, balanceMessage, balanceUpdate, outstandingUpdate]
  | membership i v info =>
      rw [step_membership] at hflag ⊢
      refine (hlive hflag).later ?_ (List.Subset.refl _)
      intro e he
      rcases List.mem_cons.mp he with rfl | he
      · rfl
      · obtain ⟨m, -, rfl⟩ := List.mem_map.mp he
        rfl
  | timeout i => exact (hlive hflag).later (by simp [Happening.isBatch]) (List.Subset.refl _)

variable [DecidableEq ι]

theorem Group.Reachable.live_request {g : Group ι D} (hg : g.Reachable) (i : ι) :
    (g.replica i).awaitingSyncedBalance = true → LiveRequest i (g.history i) (g.replica i) := by
  refine hg.local_induct (P := fun i h r => r.awaitingSyncedBalance = true → LiveRequest i h r)
    (fun i n hflag => by cases hflag) ?_ i
  exact fun g e i r' note hm hlive => hm.live_request hlive

/-- A step prints a report for a request only at a replica whose flag is on. -/
theorem Group.Reachable.flag_of_report {g g' : Group ι D} {e : Event ι D} (hg : g.Reachable)
    (h : g.step e = some g') {i : ι} {t : Transaction (Origin ι)} {b : D}
    (hreport : .syncedBalance t b ∈ (g'.replica i).out.drop (g.replica i).out.length) :
    (g.replica i).awaitingSyncedBalance = true := by
  have hmem : ∀ {lines : List (Line D (Origin ι))}, .syncedBalance t b ∈ lines →
      t ∈ answeredIn lines := fun hl => List.mem_filterMap.mpr ⟨_, hl, rfl⟩
  obtain ⟨i', r', note, hm, rfl⟩ := hg.step_moves h
  by_cases hi : i = i'
  · subst hi
    rw [Group.move_replica_self] at hreport
    rcases hm.batch_or_quiet with
      ⟨j, k, ts, -, -, -, hwf, rfl, -⟩ | ⟨-, ⟨lines, hout, hlines⟩, -⟩
    · -- the lines of a batch have no report while the flag is off
      rw [afterBatch_printed] at hreport
      rcases List.mem_append.mp hreport with hin | hin
      · have ht := hmem hin
        rw [answeredIn_batchLines hwf] at ht
        split at ht
        · assumption
        · cases ht
      · split at hin
        · simp at hin
        · cases hin
    · rw [hout, List.drop_left] at hreport
      cases hlines _ hreport
  · rw [Group.move_replica_ne _ _ _ hi, List.drop_length] at hreport
    cases hreport

/-- **A raised flag has a live request behind it**, in every reachable state; so a report for a
request is printed only at a replica that has called `getSyncedBalance` since the last batch was
delivered to it. -/
theorem flag_has_live_request {g : Group ι D} (hg : g.Reachable) :
    (∀ r, (g.replica r).awaitingSyncedBalance = true →
        LiveRequest r (g.history r) (g.replica r))
      ∧ ∀ e g', g.step e = some g' → ∀ r t b,
          .syncedBalance t b ∈ (g'.replica r).out.drop (g.replica r).out.length →
          LiveRequest r (g.history r) (g.replica r) := by
  refine ⟨hg.live_request, fun e g' hs r t b hreport => ?_⟩
  exact hg.live_request r (hg.flag_of_report hs hreport)

end

/-- Replica `alpha` asks for the synced balance after a batch of replica `beta`, and has its
deposit and its request in flight. -/
theorem flag_has_live_request_pending :
    ∃ g : Group Site ℚ, g.Reachable ∧ (g.replica .alpha).awaitingSyncedBalance = true
      ∧ LiveRequest .alpha (g.history .alpha) (g.replica .alpha) := by
  obtain ⟨g, hrun, hp⟩ := Group.exists_of_run (fun _ => 2)
    (startUp ++ [.command .alpha (.deposit 100), .tick .beta, .deliver .alpha .beta 0,
      .command .alpha .getSyncedBalance, .tick .alpha])
    (fun g : Group Site ℚ => (g.replica .alpha).awaitingSyncedBalance) (by decide +kernel)
  have hg : g.Reachable := ⟨_, _, hrun⟩
  exact ⟨g, hg, hp, (flag_has_live_request hg).1 .alpha hp⟩

end SpreadAccount
