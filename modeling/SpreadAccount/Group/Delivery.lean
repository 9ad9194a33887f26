import SpreadAccount.Group.Residency

set_option autoImplicit false

/-! # How often an update is delivered

A deposit or an interest should reach every replica, and should be applied there once. The code
has a gap on either side.

* *Never sent.* The handler removes from the outstanding collection whatever has the id of an
  entry of the delivered batch. Every replica is called `replica` and counts from `0`, so ids of
  different replicas coincide, and a foreign batch removes transactions that have not been sent
  (`update_lost_to_foreign_id`). `no_update_lost_iff` says that this is the only way to lose one.
* *Applied twice.* A transaction stays in the collection until a batch with its id comes back,
  and every tick in between sends it again; the handler applies every entry of every batch
  (`update_applied_twice`). `applied_at_most_once` says that this is the only way to apply one
  twice.
-/

namespace SpreadAccount

section

variable {ι D : Type} [Zero D]

/-- The transaction is in a batch that the replica has multicast. -/
def Multicast (r : Replica D (Origin ι)) (t : Transaction (Origin ι)) : Prop :=
  ∃ m ∈ r.sent, t ∈ m.batch

instance [DecidableEq ι] (r : Replica D (Origin ι)) (t : Transaction (Origin ι)) :
    Decidable (Multicast r t) :=
  inferInstanceAs (Decidable (∃ m ∈ r.sent, t ∈ m.batch))

/-! ## No update is lost -/

/-- Every update issued in `h` is still outstanding or has been multicast. -/
def UpdatesKept (h : List (Happening ι D)) (r : Replica D (Origin ι)) : Prop :=
  ∀ t ∈ issuedIn h, t.isUpdate = true → t ∈ r.outstandingCollection ∨ Multicast r t

/-- No update issued anywhere in the group is lost. -/
def Group.NoUpdateLost (g : Group ι D) : Prop := ∀ i, UpdatesKept (g.history i) (g.replica i)

/-- The condition on a delivery: no entry of the batch has the id of an update that is
outstanding at the receiver and has not been multicast by it. -/
def SparesUnsent (g : Group ι D) : Event ι D → Prop
  | .deliver i j k => ∀ m ∈ (g.replica j).sent[k]?, ∀ t ∈ (g.replica i).outstandingCollection,
      t.isUpdate = true → ¬ Multicast (g.replica i) t → ∀ e ∈ m.batch, e.uniqueId ≠ t.uniqueId
  | _ => True

instance [DecidableEq ι] (g : Group ι D) : ∀ e, Decidable (SparesUnsent g e)
  | .deliver i j k => inferInstanceAs (Decidable
      (∀ m ∈ (g.replica j).sent[k]?, ∀ t ∈ (g.replica i).outstandingCollection,
        t.isUpdate = true → ¬ Multicast (g.replica i) t → ∀ e ∈ m.batch, e.uniqueId ≠ t.uniqueId))
  | .command _ _ => .isTrue trivial
  | .tick _ => .isTrue trivial
  | .membership _ _ _ => .isTrue trivial
  | .timeout _ => .isTrue trivial

/-- A move that takes nothing out of the collection loses nothing. -/
theorem UpdatesKept.of_grows {h note : List (Happening ι D)} {r r' : Replica D (Origin ι)}
    (hk : UpdatesKept h r)
    (houtstanding : r'.outstandingCollection = r.outstandingCollection ++ issuedIn note)
    (hsent : r.sent <+: r'.sent) : UpdatesKept (h ++ note) r' := by
  intro t ht hu
  rw [houtstanding]
  rw [issuedIn_append] at ht
  rcases List.mem_append.mp ht with ht | ht
  · rcases hk t ht hu with hin | ⟨m, hm, htm⟩
    · exact Or.inl (List.mem_append_left _ hin)
    · exact Or.inr ⟨m, hsent.subset hm, htm⟩
  · exact Or.inl (List.mem_append_right _ ht)

variable [Add D] [Mul D] [Div D] [NatCast D] [DoubleText D]

/-- A batch loses nothing exactly when it spares what has not been sent. -/
theorem updatesKept_afterBatch {h note : List (Happening ι D)} {r : Replica D (Origin ι)}
    (hk : UpdatesKept h r) (hsub : r.outstandingCollection ⊆ issuedIn h)
    (hquiet : issuedIn note = []) (ts : List (Transaction (Origin ι))) :
    UpdatesKept (h ++ note) (afterBatch ts r)
      ↔ ∀ t ∈ r.outstandingCollection, t.isUpdate = true → ¬ Multicast r t →
          ∀ e ∈ ts, e.uniqueId ≠ t.uniqueId := by
  have hissued : issuedIn (h ++ note) = issuedIn h := by
    rw [issuedIn_append, hquiet, List.append_nil]
  unfold UpdatesKept
  rw [hissued]
  constructor
  · -- something unsent that the batch removes is lost
    intro hkept t ht hu hnot
    rcases hkept t (hsub ht) hu with hin | hsent
    · exact (mem_outstanding_afterBatch.mp hin).2
    · exact absurd hsent hnot
  · -- what has been sent is safe, and what has not is spared
    intro hspares t ht hu
    by_cases hsent : Multicast r t
    · exact Or.inr hsent
    · have hin := (hk t ht hu).resolve_right hsent
      exact Or.inl (mem_outstanding_afterBatch.mpr ⟨hin, hspares t hin hu hsent⟩)

/-- One move keeps every update of its replica exactly when it meets the condition. -/
theorem Moves.updatesKept_iff {g : Group ι D} {e : Event ι D} {i : ι} {r' : Replica D (Origin ι)}
    {note : List (Happening ι D)} (hm : Moves g e i r' note)
    (he : Explained i (g.history i) (g.replica i)) (hk : UpdatesKept (g.history i) (g.replica i)) :
    UpdatesKept (g.history i ++ note) r' ↔ SparesUnsent g e := by
  have hsent : (g.replica i).sent <+: r'.sent := by
    rw [(he.move hm).sent, he.sent, sentIn_append]
    exact List.prefix_append _ _
  cases hm with
  | command i c origin horigin =>
      refine iff_of_true (hk.of_grows ?_ hsent) trivial
      rw [Command.run_after, (commandNote_cases c _ _).1]
  | tick i => exact iff_of_true (hk.of_grows (List.append_nil _).symm hsent) trivial
  | batch i j k ts hts hfresh hwf =>
      have hsub : (g.replica i).outstandingCollection ⊆ issuedIn (g.history i) := by
        rw [he.outstanding]
        exact (residents_sublist _).subset
      rw [updatesKept_afterBatch hk hsub rfl ts]
      simp [SparesUnsent, hts]
  | balance i j k x hx hfresh =>
      refine iff_of_true (hk.of_grows (List.append_nil _).symm hsent) ?_
      simp [SparesUnsent, hx]
  | membership i v info =>
      refine iff_of_true (hk.of_grows ?_ hsent) trivial
      rw [step_membership]
      show _ = _ ++ issuedIn (List.map .sent _)
      rw [issuedIn_map_sent, List.append_nil]
  | timeout i => exact iff_of_true (hk.of_grows (List.append_nil _).symm hsent) trivial

variable [DecidableEq ι]

theorem Group.Reachable.noUpdateLost_step {g g' : Group ι D} {e : Event ι D} (hg : g.Reachable)
    (hk : g.NoUpdateLost) (h : g.step e = some g') : g'.NoUpdateLost ↔ SparesUnsent g e := by
  obtain ⟨i, r', note, hm, rfl⟩ := hg.step_moves h
  rw [← hm.updatesKept_iff (hg.explained i) (hk i)]
  exact Group.forall_move_iff g i r' note (P := fun _ h r => UpdatesKept h r) (fun j _ => hk j)

/-- **When no update is lost.** Along a run, every update issued is outstanding at its issuer or
has been multicast by it, exactly when no delivery of the run brings a batch with the id of an
update that its receiver has outstanding and has never sent. -/
theorem no_update_lost_iff (numReplicas : ι → Int32) {es : List (Event ι D)}
    (hrun : (Machine.exec Group.step (Group.init numReplicas : Group ι D) es).isSome) :
    (∀ pre g, pre <+: es → Machine.exec Group.step (Group.init numReplicas) pre = some g →
        g.NoUpdateLost)
      ↔ Machine.StepsMeet Group.step SparesUnsent (Group.init numReplicas) es := by
  refine (Machine.stepsMeet_iff_forall_prefix hrun ?_ ?_).symm
  · intro i t ht
    cases ht
  · exact fun g e g' hr hk h => Group.Reachable.noUpdateLost_step ⟨numReplicas, hr⟩ hk h

end

/-- Replica `alpha` sends its first deposit while replica `beta` has nothing outstanding, and
replica `beta` deposits afterwards. -/
def oneAfterTheOther : List (Event Site ℚ) :=
  startUp ++ [.command .alpha (.deposit 100), .tick .alpha, .deliver .beta .alpha 0,
    .deliver .alpha .alpha 0,
    .command .beta (.deposit 50), .tick .beta, .deliver .alpha .beta 0, .deliver .beta .beta 0]

theorem no_update_lost_iff_oneAfterTheOther :
    (Machine.exec Group.step (Group.init fun _ => 2) oneAfterTheOther).isSome = true
      ∧ ∀ pre g, pre <+: oneAfterTheOther →
          Machine.exec Group.step (Group.init fun _ => 2) pre = some g → g.NoUpdateLost := by
  have hrun : (Machine.exec Group.step (Group.init fun _ => 2) oneAfterTheOther).isSome = true := by
    decide +kernel
  exact ⟨hrun, (no_update_lost_iff _ hrun).mpr (by decide +kernel)⟩

/-- The first deposits of two replicas have the same id, and replica `beta` gets the batch of
replica `alpha` before its own timer fires. -/
def sameId : List (Event Site ℚ) :=
  startUp ++ [.command .alpha (.deposit 100), .command .beta (.deposit 50), .tick .alpha,
    .deliver .beta .alpha 0]

/-- The deposit of replica `beta` is gone: it is not outstanding, and it has never been sent. -/
theorem update_lost_to_foreign_id :
    ∃ g, Machine.exec Group.step (Group.init fun _ => 2) sameId = some g ∧ ¬ g.NoUpdateLost := by
  let T : Transaction (Origin Site) := ⟨"deposit 50.0", "replica0", (.beta, 0)⟩
  obtain ⟨g, hrun, hp⟩ := Group.exists_of_run (fun _ => 2) sameId
    (fun g => decide (T ∈ issuedIn (g.history .beta) ∧ T.isUpdate = true
      ∧ T ∉ (g.replica .beta).outstandingCollection ∧ ¬ Multicast (g.replica .beta) T))
    (by decide +kernel)
  obtain ⟨hissued, hupdate, hout, hsent⟩ := of_decide_eq_true hp
  refine ⟨g, hrun, fun hkept => ?_⟩
  exact (hkept .beta T hissued hupdate).elim hout hsent

section

variable {ι D : Type} [Zero D] [DecidableEq ι]

/-! ## No update is applied twice -/

omit [Zero D] in
/-- No update has been applied more than once to the balance of any replica. -/
def Group.AppliedAtMostOnce (g : Group ι D) : Prop :=
  ∀ q T, (appliedIn (g.replica q).out).count T ≤ 1

omit [DecidableEq ι] in
/-- The condition on a tick: no update in the collection has been multicast before. -/
def SendsNoneAgain (g : Group ι D) : Event ι D → Prop
  | .tick i => ∀ t ∈ (g.replica i).outstandingCollection,
      t.isUpdate = true → ¬ Multicast (g.replica i) t
  | _ => True

instance (g : Group ι D) : ∀ e, Decidable (SendsNoneAgain g e)
  | .tick i => inferInstanceAs (Decidable (∀ t ∈ (g.replica i).outstandingCollection,
      t.isUpdate = true → ¬ Multicast (g.replica i) t))
  | .command _ _ => .isTrue trivial
  | .deliver _ _ _ => .isTrue trivial
  | .membership _ _ _ => .isTrue trivial
  | .timeout _ => .isTrue trivial

omit [DecidableEq ι] in
/-- Different messages have no update in common. -/
def Apart (ms : List (SpreadMessage D (Origin ι))) : Prop :=
  ms.Pairwise fun m m' => ∀ t, t.isUpdate = true → t ∈ m.batch → t ∉ m'.batch

variable [Add D] [Mul D] [Div D] [NatCast D] [DoubleText D]

omit [DecidableEq ι] in
/-- A step that meets the condition keeps the messages of its replica apart. -/
theorem Moves.apart {g : Group ι D} {e : Event ι D} {i : ι} {r' : Replica D (Origin ι)}
    {note : List (Happening ι D)} (hm : Moves g e i r' note)
    (he : Explained i (g.history i) (g.replica i)) (hcond : SendsNoneAgain g e)
    (hapart : Apart (g.replica i).sent) : Apart r'.sent := by
  rw [(he.move hm).sent, sentIn_append, ← he.sent]
  have hnew : ∀ m' ∈ sentIn note, ∀ m ∈ (g.replica i).sent, ∀ t : Transaction (Origin ι),
      t.isUpdate = true → t ∈ m.batch → t ∉ m'.batch := by
    intro m' hm' m hmem t hu ht ht'
    rcases hm.sent_cases (mem_sentIn.mp hm') with ⟨rfl, -, rfl⟩ | ⟨x, rfl⟩
    · exact hcond t ht' hu ⟨m, hmem, ht⟩
    · cases ht'
  refine List.pairwise_append.mpr ⟨hapart, ?_, fun m hmem m' hm' => hnew m' hm' m hmem⟩
  -- a move sends at most one batch
  cases hm with
  | command i c origin horigin =>
      rw [(commandNote_cases c _ _).2.1]
      exact List.Pairwise.nil
  | membership i v info =>
      show (sentIn (List.map .sent _)).Pairwise _
      rw [sentIn_map_sent]
      unfold joinAnswer
      split
      · exact List.pairwise_singleton _ _
      · exact List.Pairwise.nil
  | _ => first | exact List.pairwise_singleton _ _ | exact List.Pairwise.nil

theorem apart_of_stepsMeet {numReplicas : ι → Int32} {es : List (Event ι D)} {g : Group ι D}
    (hrun : Machine.exec Group.step (Group.init numReplicas) es = some g)
    (hcond : Machine.StepsMeet Group.step SendsNoneAgain (Group.init numReplicas) es) (i : ι) :
    Apart (g.replica i).sent := by
  revert i
  refine hcond.induct (P := fun g => ∀ i, Apart (g.replica i).sent) hrun ?_ ?_
  · exact fun i => List.Pairwise.nil
  intro g e g' hr hapart hC hs
  have hg : g.Reachable := ⟨numReplicas, hr⟩
  obtain ⟨i, r', note, hm, rfl⟩ := hg.step_moves hs
  exact (Group.forall_move_iff g i r' note (P := fun _ _ r => Apart r.sent)
    (fun j _ => hapart j)).mpr (hm.apart (hg.explained i) hC (hapart i))

/-- Messages that are apart where they are sent are apart where they are delivered. -/
theorem Group.Reachable.apart_received {g : Group ι D} (hg : g.Reachable)
    (hapart : ∀ i, Apart (g.replica i).sent) (q : ι) : Apart (messagesIn (g.history q)) := by
  have hnd := hg.received_nodup q
  unfold receivedIn List.Nodup at hnd
  rw [List.pairwise_filterMap] at hnd
  refine pairwise_messagesIn hnd ?_
  intro j k m j' k' m' he he' hne t hu ht ht'
  have hsent := hg.received_sent he
  have hsent' := hg.received_sent he'
  -- an update travels from its issuer only, so the two deliveries are from one sender
  have hissued := (hg.origin_of_sent (List.mem_of_getElem? hsent) ht).1
  obtain rfl : j' = j := hg.sender_of_received he' hissued ht'
  have hkk : k ≠ k' := by
    rintro rfl
    exact hne (j', k) rfl (j', k) rfl rfl
  rcases Nat.lt_or_gt_of_ne hkk with hlt | hlt
  · exact Occurrence.pairwise_getElem? (hapart j') hlt hsent hsent' t hu ht ht'
  · exact Occurrence.pairwise_getElem? (hapart j') hlt hsent' hsent t hu ht' ht

/-- **When no update is applied twice.** In every state of a run in which no tick sends an update
again, no update has been applied twice at any replica. -/
theorem applied_at_most_once {numReplicas : ι → Int32} {es : List (Event ι D)} {g : Group ι D}
    (hrun : Machine.exec Group.step (Group.init numReplicas) es = some g)
    (hcond : Machine.StepsMeet Group.step SendsNoneAgain (Group.init numReplicas) es) :
    g.AppliedAtMostOnce := by
  have hg : g.Reachable := ⟨numReplicas, es, hrun⟩
  have hwf : ∀ q, ∀ m ∈ messagesIn (g.history q), m.WellFormed ∧ m.batch.Nodup := by
    intro q m hm
    obtain ⟨j, k, hrec⟩ := mem_messagesIn.mp hm
    have hsent : m ∈ (g.replica j).sent := List.mem_of_getElem? (hg.received_sent hrec)
    exact ⟨hg.sound.sent j m hsent, hg.batch_nodup hsent⟩
  intro q T
  rw [(hg.explained q).applied]
  refine Occurrence.count_flatMap_le_one (fun m hm => ?_) ?_
  · -- one batch has no update twice
    rw [(hwf q m hm).1.recorded_eq]
    exact List.nodup_iff_count_le_one.mp ((hwf q m hm).2.filter _) T
  · -- two batches have none in common
    refine (hg.apart_received (apart_of_stepsMeet hrun hcond) q).imp_of_mem ?_
    intro m m' hm hm' hapart hT hT'
    obtain ⟨hb, hu⟩ := (hwf q m hm).1.mem_recorded.mp hT
    obtain ⟨hb', -⟩ := (hwf q m' hm').1.mem_recorded.mp hT'
    exact hapart T hu hb hb'

end

/-- Two ticks, with the return of the first batch in between. -/
def backBeforeTheTick : List (Event Site ℚ) :=
  startUp ++ [.command .alpha (.deposit 100), .tick .alpha, .deliver .alpha .alpha 0,
    .tick .alpha, .deliver .alpha .alpha 1,
    .deliver .beta .alpha 1, .deliver .beta .alpha 0]

theorem applied_at_most_once_backBeforeTheTick :
    ∃ g, Machine.exec Group.step (Group.init fun _ => 2) backBeforeTheTick = some g
      ∧ g.AppliedAtMostOnce := by
  obtain ⟨g, hrun, -⟩ := Group.exists_of_run (fun _ => 2) backBeforeTheTick (fun _ => true)
    (by decide +kernel)
  exact ⟨g, hrun, applied_at_most_once hrun (by decide +kernel)⟩

/-- The timer fires twice before the first batch comes back. -/
def twoTicks : List (Event Site ℚ) :=
  startUp ++ [.command .alpha (.deposit 100), .tick .alpha, .tick .alpha,
    .deliver .alpha .alpha 0, .deliver .alpha .alpha 1]

/-- The deposit travels twice and is applied twice, at its issuer as well. -/
theorem update_applied_twice :
    ∃ g, Machine.exec Group.step (Group.init fun _ => 2) twoTicks = some g
      ∧ (g.replica .alpha).balance = 200 ∧ ¬ g.AppliedAtMostOnce := by
  let T : Transaction (Origin Site) := ⟨"deposit 100.0", "replica0", (.alpha, 0)⟩
  obtain ⟨g, hrun, hp⟩ := Group.exists_of_run (fun _ => 2) twoTicks
    (fun g => decide ((g.replica .alpha).balance = 200
      ∧ (appliedIn (g.replica .alpha).out).count T = 2))
    (by decide +kernel)
  obtain ⟨hbalance, htwice⟩ := of_decide_eq_true hp
  refine ⟨g, hrun, hbalance, fun honce => ?_⟩
  have := honce .alpha T
  omega

end SpreadAccount
