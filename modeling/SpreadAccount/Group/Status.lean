import SpreadAccount.Group.Delivery
import SpreadAccount.Group.History

set_option autoImplicit false

/-! # What `checkTxStatus` says about an own update

`checkTxStatus` looks for an id, first in `executedList`, then in the outstanding collection. Ids
of different replicas coincide, so what it finds need not be the transaction it was asked about,
and what it looks for may have been removed by a foreign batch. `status_told_iff` says exactly when
the answer is right.
-/

namespace SpreadAccount

section

variable {ι D : Type} [Zero D] [Add D] [Mul D] [Div D] [NatCast D] [DoubleText D] [DecidableEq ι]

/-! ## The answer -/

omit [Zero D] [Add D] [Mul D] [Div D] [NatCast D] [DoubleText D] in
/-- `checkTxStatus` with the id of `T` prints one line; it says that the transaction is completed
exactly when `T` has been applied, and that it is outstanding exactly when it has not. -/
def TellsStatus (r : Replica D (Origin ι)) (T : Transaction (Origin ι)) : Prop :=
  ∃ line, ((checkTxStatus T.uniqueId).after r).out = r.out ++ [line]
    ∧ (line = .txCompleted T.uniqueId ↔ T ∈ appliedIn r.out)
    ∧ (line = .txOutstanding T.uniqueId ↔ T ∉ appliedIn r.out)

omit [Zero D] [Add D] [Mul D] [Div D] [NatCast D] in
/-- The line is decided by two searches for the id. -/
theorem tellsStatus_iff (r : Replica D (Origin ι)) (T : Transaction (Origin ι)) :
    TellsStatus r T ↔
      if T ∈ appliedIn r.out then ∃ e ∈ r.executedList, e.uniqueId = T.uniqueId
      else (∀ e ∈ r.executedList, e.uniqueId ≠ T.uniqueId)
        ∧ ∃ e ∈ r.outstandingCollection, e.uniqueId = T.uniqueId := by
  have hout : ((checkTxStatus T.uniqueId).after r).out
      = r.out ++ (Command.checkTxStatus T.uniqueId : Command D).lines r := by
    have h := (Command.checkTxStatus T.uniqueId : Command D).run_after T.origin r
    exact congrArg Replica.out h
  have hlines : ((Command.checkTxStatus T.uniqueId : Command D).lines r : List (Line D _)) =
      [if r.executedList.any (·.uniqueId == T.uniqueId) then .txCompleted T.uniqueId
      else if r.outstandingCollection.any (·.uniqueId == T.uniqueId) then .txOutstanding T.uniqueId
      else .txNotFound T.uniqueId] := by
    simp only [Command.lines]
    split
    · rfl
    · split <;> rfl
  have hany : ∀ ts : List (Transaction (Origin ι)),
      ts.any (·.uniqueId == T.uniqueId) = true ↔ ∃ e ∈ ts, e.uniqueId = T.uniqueId := by
    intro ts
    simp
  have hnone : (∀ e ∈ r.executedList, e.uniqueId ≠ T.uniqueId)
      ↔ ¬ ∃ e ∈ r.executedList, e.uniqueId = T.uniqueId := by
    push Not
    rfl
  unfold TellsStatus
  rw [hout, hlines, hnone]
  simp only [List.append_cancel_left_eq, List.cons.injEq, and_true, exists_eq_left', hany]
  by_cases hdone : T ∈ appliedIn r.out <;>
    by_cases hexec : ∃ e ∈ r.executedList, e.uniqueId = T.uniqueId <;>
      by_cases hpend : ∃ e ∈ r.outstandingCollection, e.uniqueId = T.uniqueId <;>
        simp [hdone, hexec, hpend]

omit [Add D] [Mul D] [Div D] [NatCast D] [DoubleText D] [DecidableEq ι] in
/-- The condition on what has happened at the replica: a batch with `T` itself has been delivered;
or no batch since the last `cleanHistory` had an update with the id of `T`, and since the issue of
`T`, or of another own transaction with this id, no batch had any entry with it. -/
def IdTells (h : List (Happening ι D)) (T : Transaction (Origin ι)) : Prop :=
  (∃ m ∈ messagesIn h, T ∈ m.batch)
    ∨ ((∀ m ∈ messagesIn (sinceCleaned h), ∀ e ∈ m.batch, e.isUpdate = true →
          e.uniqueId ≠ T.uniqueId)
        ∧ ∃ a U b, h = a ++ .issued U :: b ∧ U.uniqueId = T.uniqueId
            ∧ ∀ m ∈ messagesIn b, ∀ e ∈ m.batch, e.uniqueId ≠ T.uniqueId)

/-- The history of a replica has an entry with the id exactly when a batch since the last
`cleanHistory` had an update with it. -/
theorem Group.Reachable.exists_executed {g : Group ι D} (hg : g.Reachable) (i : ι) (id : String) :
    (∃ e ∈ (g.replica i).executedList, e.uniqueId = id)
      ↔ ∃ m ∈ messagesIn (sinceCleaned (g.history i)), ∃ e ∈ m.batch,
          e.isUpdate = true ∧ e.uniqueId = id := by
  have hwf := hg.sinceCleaned_wellFormed i
  rw [(hg.executedList_eq i).1]
  constructor
  · rintro ⟨e, he, hid⟩
    obtain ⟨m, hm, hem⟩ := List.mem_flatMap.mp he
    obtain ⟨hbatch, hu⟩ := (hwf m hm).mem_recorded.mp hem
    exact ⟨m, hm, e, hbatch, hu, hid⟩
  · rintro ⟨m, hm, e, hbatch, hu, hid⟩
    exact ⟨e, List.mem_flatMap.mpr ⟨m, hm, (hwf m hm).mem_recorded.mpr ⟨hbatch, hu⟩⟩, hid⟩

/-- The collection of a replica has an entry with the id exactly when the replica has issued one
and no batch since had an entry with it. -/
theorem Group.Reachable.exists_outstanding {g : Group ι D} (hg : g.Reachable) (i : ι)
    (id : String) :
    (∃ e ∈ (g.replica i).outstandingCollection, e.uniqueId = id)
      ↔ ∃ a U b, g.history i = a ++ .issued U :: b ∧ U.uniqueId = id
          ∧ ∀ m ∈ messagesIn b, ∀ e ∈ m.batch, e.uniqueId ≠ id := by
  rw [(hg.explained i).outstanding]
  constructor
  · rintro ⟨U, hU, hid⟩
    obtain ⟨a, b, hab, hrem⟩ := mem_residents.mp hU
    refine ⟨a, U, b, hab, hid, fun m hm e he => ?_⟩
    obtain ⟨j, k, hrec⟩ := mem_messagesIn.mp hm
    rw [← hid]
    exact removedBy_eq_false_iff.mp hrem j k m hrec e he
  · rintro ⟨a, U, b, hab, hid, hno⟩
    refine ⟨U, mem_residents.mpr ⟨a, b, hab, ?_⟩, hid⟩
    refine removedBy_eq_false_iff.mpr fun j k m hrec e he => ?_
    rw [hid]
    exact hno m (mem_messagesIn.mpr ⟨j, k, hrec⟩) e he

/-- **When `checkTxStatus` tells the truth** about an update `T` of the caller, asked for by its
id at any time after the issue, with no `cleanHistory` in between. -/
theorem status_told_iff {g : Group ι D} (hg : g.Reachable) {r : ι} {T : Transaction (Origin ι)}
    {a b : List (Happening ι D)} (hissued : g.history r = a ++ .issued T :: b)
    (hupdate : T.isUpdate = true) (hkept : ∀ e ∈ b, e.isCleaned = false) :
    TellsStatus (g.replica r) T ↔ IdTells (g.history r) T := by
  -- a batch with `T` comes after its issue, and so after the last `cleanHistory`
  have hsince : ∀ m ∈ messagesIn (g.history r), T ∈ m.batch →
      m ∈ messagesIn (sinceCleaned (g.history r)) := by
    intro m hm hT
    obtain ⟨j, k, hrec⟩ := mem_messagesIn.mp hm
    have hb := hg.received_after_issue hissued hrec hT
    have hcut : sinceCleaned (g.history r) = sinceCleaned a ++ .issued T :: b := by
      rw [hissued]
      refine Occurrence.rtakeWhile_append_of_all fun e hin => ?_
      rcases List.mem_cons.mp hin with rfl | hin
      · rfl
      · rw [hkept e hin]
        rfl
    rw [hcut]
    exact mem_messagesIn.mpr ⟨j, k, by simp [hb]⟩
  rw [tellsStatus_iff, IdTells]
  by_cases hdone : ∃ m ∈ messagesIn (g.history r), T ∈ m.batch
  · -- `T` itself is in the history, and is found there
    rw [if_pos ((hg.mem_applied r hupdate).mpr hdone)]
    refine iff_of_true ?_ (Or.inl hdone)
    obtain ⟨m, hm, hT⟩ := hdone
    exact (hg.exists_executed r _).mpr ⟨m, hsince m hm hT, T, hT, hupdate, rfl⟩
  · rw [if_neg (fun h => hdone ((hg.mem_applied r hupdate).mp h)), or_iff_right hdone,
      ← hg.exists_outstanding r]
    refine and_congr_left fun _ => ?_
    have hexec := hg.exists_executed r T.uniqueId
    constructor
    · intro hno m hm e hem hu hid
      obtain ⟨e', he', hid'⟩ := hexec.mpr ⟨m, hm, e, hem, hu, hid⟩
      exact hno e' he' hid'
    · intro hno e hmem' hid
      obtain ⟨m, hm, e', hem', hu', hid'⟩ := hexec.mp ⟨e, hmem', hid⟩
      exact hno m hm e' hem' hu' hid'

end

/-- A deposit that has been sent and has not come back yet is reported as outstanding. -/
theorem status_told_iff_inFlight :
    ∃ (g : Group Site ℚ) (T : Transaction (Origin Site)), g.Reachable
      ∧ Multicast (g.replica .alpha) T ∧ T ∉ appliedIn (g.replica .alpha).out
      ∧ TellsStatus (g.replica .alpha) T := by
  let T : Transaction (Origin Site) := ⟨"deposit 100.0", "replica0", (.alpha, 0)⟩
  let a : List (Happening Site ℚ) :=
    [.viewed 1 ⟨.join, ["#replica#alpha"]⟩,
      .viewed 2 ⟨.join, ["#replica#alpha", "#replica#beta"]⟩, .timedOut, .called (.deposit 100)]
  let b : List (Happening Site ℚ) := [.sent (outstandingMessage [T])]
  obtain ⟨g, hrun, hp⟩ := Group.exists_of_run (fun _ => 2)
    (startUp ++ [.command .alpha (.deposit 100), .tick .alpha])
    (fun g : Group Site ℚ => decide (g.history .alpha = a ++ .issued T :: b
      ∧ Multicast (g.replica .alpha) T ∧ T ∉ appliedIn (g.replica .alpha).out)) (by decide +kernel)
  obtain ⟨hissued, hsent, happlied⟩ := of_decide_eq_true hp
  have hg : g.Reachable := ⟨_, _, hrun⟩
  refine ⟨g, T, hg, hsent, happlied, (status_told_iff hg hissued rfl (by decide)).mpr ?_⟩
  refine Or.inr ⟨?_, a, T, b, hissued, rfl, by decide⟩
  rw [hissued]
  decide

/-- The first deposits of two replicas have the same id. Replica `beta` is told that its deposit is
completed, when it is the one of replica `alpha` that has been applied. -/
theorem status_of_foreign_deposit :
    ∃ g, Machine.exec Group.step (Group.init fun _ => 2) sameId = some g
      ∧ ∃ T a b, g.history .beta = a ++ .issued T :: b ∧ T.isUpdate = true
        ∧ (∀ e ∈ b, e.isCleaned = false) ∧ T ∉ appliedIn (g.replica .beta).out
        ∧ ((checkTxStatus T.uniqueId).after (g.replica .beta)).out.getLast?
          = some (.txCompleted T.uniqueId)
        ∧ ¬ TellsStatus (g.replica .beta) T := by
  let T : Transaction (Origin Site) := ⟨"deposit 50.0", "replica0", (.beta, 0)⟩
  let a : List (Happening Site ℚ) :=
    [.viewed 2 ⟨.join, ["#replica#alpha", "#replica#beta"]⟩, .timedOut, .called (.deposit 50)]
  let b : List (Happening Site ℚ) :=
    [.received .alpha 0 (outstandingMessage [⟨"deposit 100.0", "replica0", (.alpha, 0)⟩])]
  obtain ⟨g, hrun, hp⟩ := Group.exists_of_run (fun _ => 2) sameId
    (fun g => decide (g.history .beta = a ++ .issued T :: b
      ∧ T ∉ appliedIn (g.replica .beta).out
      ∧ ((checkTxStatus T.uniqueId).after (g.replica .beta)).out.getLast?
        = some (.txCompleted T.uniqueId)
      ∧ ∃ e ∈ (g.replica .beta).executedList, e.uniqueId = T.uniqueId)) (by decide +kernel)
  obtain ⟨hissued, happlied, hlast, hfound⟩ := of_decide_eq_true hp
  refine ⟨g, hrun, T, a, b, hissued, rfl, by decide, happlied, hlast, fun htells => ?_⟩
  rw [tellsStatus_iff, if_neg happlied] at htells
  obtain ⟨e, he, hid⟩ := hfound
  exact htells.1 e he hid

end SpreadAccount
