import SpreadAccount.Group.Invariant

set_option autoImplicit false

/-! # How long a transaction is outstanding, and in which batches it travels

The outstanding collection of a replica is a function of its history (`residents`), and so is
every batch it multicasts: a batch is the list of residents at the moment of the tick
(`Group.Reachable.snapshots`). Three results follow.

* `issue_order_kept`: overlapping batches never invert the order in which a replica issued its
  transactions.
* `own_ids_distinct`: the ids of one replica do not repeat before its counter has gone through all
  values of an `int`, so neither its collection nor a batch has an id twice.
* `outstanding_exact`: a transaction is in the collection from the call that issues it to the first
  delivery, after the call, of a batch with its id, and it travels in exactly the batches of the
  ticks in between.
-/

namespace SpreadAccount

open scoped List

section

variable {ι D : Type} [Zero D]

/-- No batch delivered in `h` has an entry with the id of `t`. -/
theorem removedBy_eq_false_iff {h : List (Happening ι D)} {t : Transaction (Origin ι)} :
    removedBy h t = false
      ↔ ∀ j k m, .received j k m ∈ h → ∀ e ∈ m.batch, e.uniqueId ≠ t.uniqueId := by
  simp only [removedBy, List.any_eq_false, mem_messagesIn]
  constructor
  · intro hno j k m hm e he heq
    exact hno m ⟨j, k, hm⟩ (List.any_eq_true.mpr ⟨e, he, by simpa using heq⟩)
  · rintro hno m ⟨j, k, hm⟩ hany
    obtain ⟨e, he, heq⟩ := List.any_eq_true.mp hany
    exact hno j k m hm e he (by simpa using heq)

theorem residents_sublist (h : List (Happening ι D)) : residents h <+ issuedIn h := by
  induction h with
  | nil => exact .slnil
  | cons e h ih =>
      cases e with
      | issued t =>
          show (if removedBy h t then residents h else t :: residents h) <+ t :: issuedIn h
          split
          · exact ih.cons t
          · exact ih.cons_cons t
      | _ => exact ih

/-- A transaction is outstanding when it has been issued and no batch with its id has been
delivered since. -/
theorem mem_residents {h : List (Happening ι D)} {t : Transaction (Origin ι)} :
    t ∈ residents h ↔ ∃ a b, h = a ++ .issued t :: b ∧ removedBy b t = false := by
  induction h with
  | nil => simp [residents]
  | cons e h ih =>
      -- `hlift` and `hdrop`: the issue of `t` is further on, or it is the head of the history
      have hlift : (∃ a b, h = a ++ .issued t :: b ∧ removedBy b t = false) →
          ∃ a b, e :: h = a ++ .issued t :: b ∧ removedBy b t = false := by
        rintro ⟨a, b, rfl, hb⟩
        exact ⟨e :: a, b, rfl, hb⟩
      have hdrop : (∃ a b, e :: h = a ++ .issued t :: b ∧ removedBy b t = false) →
          (e = .issued t ∧ removedBy h t = false)
            ∨ ∃ a b, h = a ++ .issued t :: b ∧ removedBy b t = false := by
        rintro ⟨a, b, hab, hb⟩
        cases a with
        | nil =>
            obtain ⟨rfl, rfl⟩ := List.cons.inj hab
            exact Or.inl ⟨rfl, hb⟩
        | cons a₀ a => exact Or.inr ⟨a, b, (List.cons.inj hab).2, hb⟩
      cases e with
      | issued u =>
          show t ∈ (if removedBy h u then residents h else u :: residents h) ↔ _
          constructor
          · intro ht
            split at ht
            · exact hlift (ih.mp ht)
            · rename_i hu
              rcases List.mem_cons.mp ht with rfl | ht
              · exact ⟨[], h, rfl, by simpa using hu⟩
              · exact hlift (ih.mp ht)
          · intro hex
            rcases hdrop hex with ⟨hut, hrem⟩ | hex
            · obtain rfl : u = t := by injection hut
              rw [if_neg (by simp [hrem])]
              exact List.mem_cons_self
            · have ht := ih.mpr hex
              split
              · exact ht
              · exact List.mem_cons_of_mem _ ht
      | _ =>
          refine Iff.trans ih ⟨hlift, fun hex => ?_⟩
          rcases hdrop hex with ⟨hut, -⟩ | hex
          · cases hut
          · exact hex

/-- Every batch multicast in `h` is the list of the transactions outstanding at that moment. -/
def Snapshots (h : List (Happening ι D)) : Prop :=
  ∀ pre m post, h = pre ++ .sent m :: post →
    m = outstandingMessage (residents pre) ∨ ∃ x, m = balanceMessage x

variable [Add D] [Mul D] [Div D] [NatCast D] [DoubleText D]

/-- A move multicasts the outstanding collection as it is, or a balance. -/
theorem Moves.sent_cases {g : Group ι D} {e : Event ι D} {i : ι} {r' : Replica D (Origin ι)}
    {note : List (Happening ι D)} (hm : Moves g e i r' note) {m : SpreadMessage D (Origin ι)}
    (h : .sent m ∈ note) :
    (e = .tick i ∧ note = [.sent m]
        ∧ m = outstandingMessage (g.replica i).outstandingCollection)
      ∨ ∃ x, m = balanceMessage x := by
  have hin : m ∈ sentIn note := mem_sentIn.mpr h
  cases hm with
  | command i c origin horigin =>
      rw [(commandNote_cases c origin (g.replica i)).2.1] at hin
      cases hin
  | tick i =>
      obtain rfl : m = _ := by simpa using h
      exact Or.inl ⟨rfl, rfl, rfl⟩
  | batch i j k ts hsent hfresh hwf => simp at h
  | balance i j k x hsent hfresh => simp at h
  | membership i v info =>
      have hm : m ∈ joinAnswer info (g.replica i) := by simpa using h
      unfold joinAnswer at hm
      split at hm
      · exact Or.inr ⟨_, List.mem_singleton.mp hm⟩
      · cases hm
  | timeout i => simp at h

/-- A batch is the first thing that its move adds to the history. -/
theorem Moves.sent_split {g : Group ι D} {e : Event ι D} {i : ι} {r' : Replica D (Origin ι)}
    {before after : List (Happening ι D)} {m : SpreadMessage D (Origin ι)}
    (hm : Moves g e i r' (before ++ .sent m :: after)) :
    (e = .tick i ∧ before = []
        ∧ m = outstandingMessage (g.replica i).outstandingCollection)
      ∨ ∃ x, m = balanceMessage x := by
  refine (hm.sent_cases (m := m) (by simp)).imp_left ?_
  rintro ⟨htick, hone, hbatch⟩
  rcases List.append_eq_singleton_iff.mp hone with ⟨hbefore, -⟩ | ⟨-, hnil⟩
  · exact ⟨htick, hbefore, hbatch⟩
  · cases hnil

theorem Explained.origin_fst {i : ι} {h : List (Happening ι D)} {r : Replica D (Origin ι)}
    (he : Explained i h r) {t : Transaction (Origin ι)} (ht : t ∈ issuedIn h) : t.origin.1 = i := by
  have horigin := List.mem_map_of_mem (f := (·.origin)) ht
  rw [he.origins, List.mem_map] at horigin
  obtain ⟨n, -, hn⟩ := horigin
  rw [← hn]

/-- No transaction object is issued twice. -/
theorem Explained.issued_nodup {i : ι} {h : List (Happening ι D)} {r : Replica D (Origin ι)}
    (he : Explained i h r) : (issuedIn h).Nodup := by
  refine List.Nodup.of_map (·.origin) ?_
  rw [he.origins]
  exact List.nodup_range.map (Prod.mk_right_injective i)

variable [DecidableEq ι]

theorem Group.Reachable.snapshots {g : Group ι D} (hg : g.Reachable) (i : ι) :
    Snapshots (g.history i) := by
  have hboth := hg.local_induct (P := fun i h r => Explained i h r ∧ Snapshots h)
    (fun i n => ⟨Explained.new i n, fun pre m post h => by simp at h⟩) ?_ i
  · exact hboth.2
  rintro g e i r' note hm ⟨he, hs⟩
  refine ⟨he.move hm, fun pre m post hsplit => ?_⟩
  rcases Occurrence.split_append hsplit with ⟨post', hold, -⟩ | ⟨pre', rfl, hnote⟩
  · exact hs pre m post' hold
  · subst hnote
    rcases hm.sent_split with ⟨-, rfl, hbatch⟩ | hbalance
    · -- the snapshot is of the state before the move
      rw [List.append_nil, ← he.outstanding]
      exact Or.inl hbatch
    · exact Or.inr hbalance

/-- A batch is a sublist of what its sender has issued. -/
theorem Group.Reachable.batch_sublist {g : Group ι D} (hg : g.Reachable) {i : ι}
    {m : SpreadMessage D (Origin ι)} (hm : m ∈ (g.replica i).sent) :
    m.batch <+ issuedIn (g.history i) := by
  rw [(hg.explained i).sent, mem_sentIn] at hm
  obtain ⟨pre, post, hsplit⟩ := List.append_of_mem hm
  rcases hg.snapshots i pre m post hsplit with rfl | ⟨x, rfl⟩
  · rw [hsplit, issuedIn_append]
    exact (residents_sublist pre).trans (List.sublist_append_left _ _)
  · exact List.nil_sublist _

theorem Group.Reachable.batch_nodup {g : Group ι D} (hg : g.Reachable) {i : ι}
    {m : SpreadMessage D (Origin ι)} (hm : m ∈ (g.replica i).sent) : m.batch.Nodup :=
  (hg.explained i).issued_nodup.sublist (hg.batch_sublist hm)

/-- A replica sends only what it has issued itself. -/
theorem Group.Reachable.origin_of_sent {g : Group ι D} (hg : g.Reachable) {i : ι}
    {m : SpreadMessage D (Origin ι)} (hm : m ∈ (g.replica i).sent) {t : Transaction (Origin ι)}
    (ht : t ∈ m.batch) : t ∈ issuedIn (g.history i) ∧ t.origin.1 = i := by
  have hin := (hg.batch_sublist hm).subset ht
  exact ⟨hin, (hg.explained i).origin_fst hin⟩

/-! ## A replica gets its own transactions back after it has issued them -/

/-- What a delivered batch has of the receiver's own transactions was issued before. -/
theorem Group.Reachable.issued_before_received {g : Group ι D} (hg : g.Reachable) {i j : ι} {k : ℕ}
    {m : SpreadMessage D (Origin ι)} {a b : List (Happening ι D)}
    (h : g.history i = a ++ .received j k m :: b) {t : Transaction (Origin ι)} (ht : t ∈ m.batch)
    (horigin : t.origin.1 = i) : t ∈ issuedIn a := by
  obtain ⟨numReplicas, hr⟩ := hg
  revert i j k m a b t
  refine hr.induct (P := fun g => ∀ {i j k m a b}, g.history i = a ++ .received j k m :: b →
    ∀ {t}, t ∈ m.batch → t.origin.1 = i → t ∈ issuedIn a) (fun h => by simp [Group.init] at h) ?_
  intro g e g' hreach ih hs i j k m a b h t ht horigin
  have hg : g.Reachable := ⟨numReplicas, hreach⟩
  obtain ⟨i', r', note, hm, rfl⟩ := hg.step_moves hs
  by_cases hi : i = i'
  · subst hi
    rw [Group.move_history_self] at h
    rcases Occurrence.split_append h with ⟨b', hold, -⟩ | ⟨a', rfl, hnote⟩
    · exact ih hold ht horigin
    · rcases hm.received_cases with ⟨-, hno⟩ | ⟨j', k', m', hone, hsent, -⟩
      · exact absurd (by simp [hnote]) (hno j k m)
      · -- the delivery is all that happens in this step
        have hm' : m = m' := by
          have hin : (.received j k m : Happening ι D) ∈ [.received j' k' m'] := by
            rw [← hone, hnote]
            simp
          simp only [List.mem_singleton, Happening.received.injEq] at hin
          exact hin.2.2
        subst hm'
        obtain ⟨hissued, hfrom⟩ := hg.origin_of_sent (List.mem_of_getElem? hsent) ht
        obtain rfl : j' = i := hfrom.symm.trans horigin
        rw [issuedIn_append]
        exact List.mem_append_left _ hissued
  · rw [Group.move_history_ne _ _ _ hi] at h
    exact ih h ht horigin

/-- A batch with an own transaction is delivered after the issue of the transaction. -/
theorem Group.Reachable.received_after_issue {g : Group ι D} (hg : g.Reachable) {i j : ι} {k : ℕ}
    {m : SpreadMessage D (Origin ι)} {T : Transaction (Origin ι)} {a b : List (Happening ι D)}
    (hissued : g.history i = a ++ .issued T :: b) (hrec : .received j k m ∈ g.history i)
    (hT : T ∈ m.batch) : .received j k m ∈ b := by
  have he := hg.explained i
  have hmem : T ∈ issuedIn (g.history i) := by rw [hissued]; simp [issuedIn]
  have hnd := he.issued_nodup
  rw [hissued] at hrec
  rcases List.mem_append.mp hrec with hin | hin
  · -- a delivery before this issue would find `T` issued once more
    obtain ⟨pre, post, rfl⟩ := List.append_of_mem hin
    have hsplit : g.history i = pre ++ .received j k m :: (post ++ .issued T :: b) := by
      rw [hissued]
      simp
    have hfirst : T ∈ issuedIn pre :=
      hg.issued_before_received hsplit hT (he.origin_fst hmem)
    rw [hissued, issuedIn_append] at hnd
    refine absurd ?_ (List.disjoint_of_nodup_append hnd (a := T) ?_)
    · simp [issuedIn]
    · rw [issuedIn_append]
      exact List.mem_append_left _ hfirst
  · rcases List.mem_cons.mp hin with hin | hin
    · cases hin
    · exact hin

/-- What is outstanding is in no batch delivered so far. -/
theorem Group.Reachable.not_delivered_of_outstanding {g : Group ι D} (hg : g.Reachable) {i : ι}
    {t : Transaction (Origin ι)} (ht : t ∈ residents (g.history i))
    {m : SpreadMessage D (Origin ι)} (hm : m ∈ messagesIn (g.history i)) : t ∉ m.batch := by
  obtain ⟨a, b, hsplit, hkept⟩ := mem_residents.mp ht
  obtain ⟨j, k, hrec⟩ := mem_messagesIn.mp hm
  intro htm
  have hafter := hg.received_after_issue hsplit hrec htm
  exact removedBy_eq_false_iff.mp hkept j k m hafter t htm rfl

/-- A replica has applied an update exactly when a batch with it has been delivered. -/
theorem Group.Reachable.mem_applied {g : Group ι D} (hg : g.Reachable) (i : ι)
    {T : Transaction (Origin ι)} (hu : T.isUpdate = true) :
    T ∈ appliedIn (g.replica i).out ↔ ∃ m ∈ messagesIn (g.history i), T ∈ m.batch := by
  rw [(hg.explained i).applied, List.mem_flatMap]
  refine exists_congr fun m => and_congr_right fun hm => ?_
  rw [(hg.messages_wellFormed hm).mem_recorded]
  exact and_iff_left hu

end

section

variable {ι D : Type} [Zero D]

/-! ## The order of the issues -/

omit [Zero D] in
/-- Every prefix of the history that has the issue of `U` has that of `T`. -/
theorem issued_before {h pre post : List (Happening ι D)} {T U : Transaction (Origin ι)}
    (hnd : (issuedIn h).Nodup) (hTU : [T, U] <+ issuedIn h) (hpre : h = pre ++ post)
    (hU : U ∈ issuedIn pre) : [T, U] <+ issuedIn pre := by
  rw [hpre, issuedIn_append] at hnd hTU
  exact Occurrence.pair_sublist_left hnd hTU hU

/-- A later batch can have `T` only if every earlier batch with `U` has `T`: once `U` has been
issued, `T` can only leave the collection. -/
theorem snapshots_kept {h : List (Happening ι D)} (hs : Snapshots h) {T U : Transaction (Origin ι)}
    (hnd : (issuedIn h).Nodup) (hTU : [T, U] <+ issuedIn h) :
    (sentIn h).Pairwise (fun m m' => U ∈ m.batch → T ∈ m'.batch → T ∈ m.batch) := by
  -- read the history as the messages sent in it, each with what came before
  suffices hmain : ∀ pre post, h = pre ++ post →
      (sentIn pre).Pairwise (fun m m' => U ∈ m.batch → T ∈ m'.batch → T ∈ m.batch) by
    exact hmain h [] (List.append_nil h).symm
  intro pre
  induction pre using List.reverseRecOn with
  | nil => exact fun _ _ => List.Pairwise.nil
  | append_singleton pre e ih =>
      intro post hpre
      rw [List.append_assoc] at hpre
      have hold := ih _ hpre
      cases e with
      | sent m' =>
          rw [sentIn_append]
          refine List.pairwise_append.mpr ⟨hold, List.pairwise_singleton _ _, ?_⟩
          intro m hm m'' hm'' hU hT
          obtain rfl : m'' = m' := by simpa [sentIn] using hm''
          obtain ⟨a, b, rfl⟩ := List.append_of_mem (mem_sentIn.mp hm)
          -- both are snapshots, of `a` and of the longer `a ++ .sent m :: b`
          rcases hs (a ++ .sent m :: b) m'' post hpre with rfl | ⟨x, rfl⟩
          · rcases hs a m (b ++ .sent _ :: post) (by simpa using hpre) with rfl | ⟨x, rfl⟩
            · have hTa : T ∈ issuedIn a :=
                (issued_before hnd hTU (by simpa using hpre)
                  ((residents_sublist a).subset hU)).subset (by simp)
              -- after `a`, `T` can only be removed
              rw [batch_outstandingMessage, residents_append] at hT
              rcases List.mem_append.mp hT with hT | hT
              · exact List.mem_of_mem_filter hT
              · have hTb := (residents_sublist _).subset hT
                rw [hpre, issuedIn_append, issuedIn_append] at hnd
                exact absurd hTb
                  (List.disjoint_of_nodup_append (List.Nodup.of_append_left hnd) hTa)
            · cases hU
          · cases hT
      | _ => simpa [sentIn] using hold

variable [Add D] [Mul D] [Div D] [NatCast D] [DoubleText D] [DecidableEq ι]

/-- The positions, in what `r` has sent, of the batches of `r` delivered in `h`. -/
def batchesFrom (r : ι) (h : List (Happening ι D)) : List ℕ :=
  h.filterMap fun
    | .received j k m => if j = r ∧ m.type = outstandingUpdate then some k else none
    | _ => none

/-- Where a batch has both transactions, it has them in the order of their issue. -/
theorem Group.Reachable.pair_in_batch {g : Group ι D} (hg : g.Reachable) {r : ι}
    {T U : Transaction (Origin ι)} (hTU : [T, U] <+ issuedIn (g.history r))
    {m : SpreadMessage D (Origin ι)} (hm : m ∈ (g.replica r).sent) (hT : T ∈ m.batch)
    (hU : U ∈ m.batch) : [T, U] <+ m.batch :=
  Occurrence.pair_sublist_of_mem (hg.explained r).issued_nodup hTU (hg.batch_sublist hm) hT hU

/-- A delivery at `q` of a transaction issued at `r` is that of a batch of `r`. -/
theorem Group.Reachable.sender_of_received {g : Group ι D} (hg : g.Reachable) {q j r : ι} {k : ℕ}
    {m : SpreadMessage D (Origin ι)} (hm : .received j k m ∈ g.history q)
    {t : Transaction (Origin ι)} (ht : t ∈ issuedIn (g.history r)) (htm : t ∈ m.batch) : j = r := by
  have hsent : m ∈ (g.replica j).sent := List.mem_of_getElem? (hg.received_sent hm)
  rw [← (hg.origin_of_sent hsent htm).2, (hg.explained r).origin_fst ht]

/-- Where the batches of `r` are delivered in the order they were sent, a delivery that applies
`U` applies `T` as well or comes after every delivery that does. -/
theorem Group.Reachable.applied_kept {g : Group ι D} (hg : g.Reachable) {r q : ι}
    {T U : Transaction (Origin ι)} (hTU : [T, U] <+ issuedIn (g.history r))
    (hfifo : (batchesFrom r (g.history q)).Pairwise (· < ·)) :
    (messagesIn (g.history q)).Pairwise
      (fun m m' => U ∈ m.recorded → T ∈ m'.recorded → T ∈ m.recorded) := by
  have hsound := hg.sound
  have hkept := snapshots_kept (hg.snapshots r) (hg.explained r).issued_nodup hTU
  rw [← (hg.explained r).sent] at hkept
  unfold batchesFrom at hfifo
  rw [List.pairwise_filterMap] at hfifo
  -- two deliveries at `q`, the first with `U` and the second with `T`
  refine pairwise_messagesIn hfifo ?_
  intro j k m j' k' m' he he' hlt hU hT
  have hsent := hg.received_sent he
  have hsent' := hg.received_sent he'
  have hwf := hsound.sent j m (List.mem_of_getElem? hsent)
  have hwf' := hsound.sent j' m' (List.mem_of_getElem? hsent')
  obtain ⟨hUm, -⟩ := hwf.mem_recorded.mp hU
  obtain ⟨hTm', hTupd⟩ := hwf'.mem_recorded.mp hT
  obtain rfl : j = r := hg.sender_of_received he (hTU.subset (by simp)) hUm
  obtain rfl : j' = j := hg.sender_of_received he' (hTU.subset (by simp)) hTm'
  have htype : ∀ {m : SpreadMessage D (Origin ι)} {t}, t ∈ m.batch →
      m.type = outstandingUpdate := by
    intro m t ht
    by_contra hne
    rw [SpreadMessage.batch_eq_nil hne] at ht
    cases ht
  have hkk : k < k' := hlt k (if_pos ⟨rfl, htype hUm⟩) k' (if_pos ⟨rfl, htype hTm'⟩)
  have hTm : T ∈ m.batch := Occurrence.pairwise_getElem? hkept hkk hsent hsent' hUm hTm'
  exact hwf.mem_recorded.mpr ⟨hTm, hTupd⟩

/-- **The batching never inverts the order of the issues.** `T` is issued before `U`; `idxOf` is
the position of the first occurrence, and the length of the list where there is none. -/
theorem issue_order_kept {g : Group ι D} (hg : g.Reachable) {r : ι} {T U : Transaction (Origin ι)}
    (hTU : [T, U] <+ issuedIn (g.history r)) :
    (T ∈ (g.replica r).sent.flatMap (·.batch) →
        ((g.replica r).sent.flatMap (·.batch)).idxOf T
          < ((g.replica r).sent.flatMap (·.batch)).idxOf U)
      ∧ ∀ q, (batchesFrom r (g.history q)).Pairwise (· < ·) →
          T ∈ appliedIn (g.replica q).out →
          (appliedIn (g.replica q).out).idxOf T < (appliedIn (g.replica q).out).idxOf U := by
  constructor
  · intro hT
    refine Occurrence.idxOf_flatMap_lt (fun m hm hTm hUm => ?_) ?_ hT
    · exact Occurrence.idxOf_lt_of_pair_sublist (hg.batch_nodup hm)
        (hg.pair_in_batch hTU hm hTm hUm)
    · rw [(hg.explained r).sent]
      exact snapshots_kept (hg.snapshots r) (hg.explained r).issued_nodup hTU
  · intro q hfifo hT
    rw [(hg.explained q).applied] at hT ⊢
    refine Occurrence.idxOf_flatMap_lt (fun m hm hTm hUm => ?_) (hg.applied_kept hTU hfifo) hT
    obtain ⟨j, k, hrec⟩ := mem_messagesIn.mp hm
    have hsent : m ∈ (g.replica j).sent := List.mem_of_getElem? (hg.received_sent hrec)
    have hwf := hg.sound.sent j m hsent
    obtain ⟨hTb, -⟩ := hwf.mem_recorded.mp hTm
    obtain ⟨hUb, -⟩ := hwf.mem_recorded.mp hUm
    obtain rfl : j = r := hg.sender_of_received hrec (hTU.subset (by simp)) hTb
    have hnd := hg.batch_nodup hsent
    have hpair := hg.pair_in_batch hTU hsent hTb hUb
    -- the record of a message keeps the order of its batch
    have hsub : m.recorded <+ m.batch := by
      rw [hwf.recorded_eq]
      exact List.filter_sublist
    exact Occurrence.idxOf_lt_of_pair_sublist (hnd.sublist hsub)
      (Occurrence.pair_sublist_of_mem hnd hpair hsub hTm hUm)

end

/-- Replica `alpha` sends its first deposit twice, the second time together with its second one, and
replica `beta` gets both batches in order. -/
theorem issue_order_kept_overlapping :
    ∃ (g : Group Site ℚ) (T U : Transaction (Origin Site)), g.Reachable
      ∧ (g.replica .alpha).sent.flatMap (·.batch) = [T, T, U]
      ∧ (appliedIn (g.replica .beta).out).idxOf T < (appliedIn (g.replica .beta).out).idxOf U := by
  let T : Transaction (Origin Site) := ⟨"deposit 100.0", "replica0", (.alpha, 0)⟩
  let U : Transaction (Origin Site) := ⟨"deposit 50.0", "replica1", (.alpha, 1)⟩
  obtain ⟨g, hrun, hp⟩ := Group.exists_of_run (fun _ => 2)
    (startUp ++ [.command .alpha (.deposit 100), .tick .alpha, .command .alpha (.deposit 50),
      .tick .alpha, .deliver .beta .alpha 0, .deliver .beta .alpha 1])
    (fun g : Group Site ℚ => decide (issuedIn (g.history .alpha) = [T, U]
      ∧ (g.replica .alpha).sent.flatMap (fun m => m.batch) = [T, T, U]
      ∧ batchesFrom .alpha (g.history .beta) = [0, 1] ∧ T ∈ appliedIn (g.replica .beta).out))
    (by decide +kernel)
  obtain ⟨hissued, hsent, hfifo, happlied⟩ := of_decide_eq_true hp
  have hg : g.Reachable := ⟨_, _, hrun⟩
  refine ⟨g, T, U, hg, hsent, (issue_order_kept hg (r := .alpha) ?_).2 .beta ?_ happlied⟩
  · rw [hissued]
  · rw [hfifo]
    decide

section

variable {ι D : Type}

/-! ## Ids -/

/-- The id of the transaction that a replica issues after `n` others: `name + outstandingCounter`,
with the counter wrapped around. -/
def idAt (name : String) (n : ℕ) : String := name ++ toString (Int32.ofNat n)

/-- **The period of the ids.** -/
theorem idAt_eq_iff {name : String} {m n : ℕ} :
    idAt name m = idAt name n ↔ m % 2 ^ 32 = n % 2 ^ 32 := by
  rw [← int32_ofNat_eq_iff]
  constructor
  · intro h
    have htext : toString (Int32.ofNat m) = toString (Int32.ofNat n) :=
      (String.append_right_inj name).mp h
    exact toString_int32_injective htext
  · intro h
    rw [idAt, idAt, h]

example : idAt "replica" (2 ^ 31 - 1) = "replica2147483647"
    ∧ idAt "replica" (2 ^ 31) = "replica-2147483648" := by decide +kernel

/-- The counter has counted the issues, and the ids are the values it has gone through. -/
structure Numbered (h : List (Happening ι D)) (r : Replica D (Origin ι)) : Prop where
  counter : r.outstandingCounter = Int32.ofNat (issuedIn h).length
  ids : (issuedIn h).map (·.uniqueId) = (List.range (issuedIn h).length).map (idAt r.name)

theorem Numbered.of_quiet {h note : List (Happening ι D)} {r r' : Replica D (Origin ι)}
    (hr : Numbered h r) (hnote : issuedIn note = []) (hname : r'.name = r.name)
    (hcounter : r'.outstandingCounter = r.outstandingCounter) : Numbered (h ++ note) r' := by
  have hissued : issuedIn (h ++ note) = issuedIn h := by
    rw [issuedIn_append, hnote, List.append_nil]
  refine ⟨?_, ?_⟩
  · rw [hcounter, hissued, hr.counter]
  · rw [hname, hissued, hr.ids]

/-- A new transaction takes the id the counter stands at. -/
theorem Numbered.issue {h note : List (Happening ι D)} {r r' : Replica D (Origin ι)}
    {t : Transaction (Origin ι)} (hr : Numbered h r) (hnote : issuedIn note = [t])
    (hid : t.uniqueId = r.name ++ toString r.outstandingCounter) (hname : r'.name = r.name)
    (hcounter : r'.outstandingCounter = r.outstandingCounter + 1) : Numbered (h ++ note) r' := by
  have hissued : issuedIn (h ++ note) = issuedIn h ++ [t] := by
    rw [issuedIn_append, hnote]
  refine ⟨?_, ?_⟩
  · rw [hcounter, hissued, List.length_append, hr.counter, Int32.ofNat_add]
    rfl
  · have hnext : t.uniqueId = idAt r.name (issuedIn h).length := by
      rw [hid, hr.counter, idAt]
    rw [hname, hissued]
    exact Occurrence.map_concat_eq_map_range hr.ids hnext

variable [Zero D] [Add D] [Mul D] [Div D] [NatCast D] [DoubleText D]

/-- Only the three commands that issue a transaction touch the counter. -/
theorem Numbered.move {g : Group ι D} {e : Event ι D} {i : ι} {r' : Replica D (Origin ι)}
    {note : List (Happening ι D)} (hm : Moves g e i r' note)
    (hr : Numbered (g.history i) (g.replica i)) : Numbered (g.history i ++ note) r' := by
  cases hm with
  | command i c origin horigin =>
      obtain ⟨hnote, -⟩ := commandNote_cases c origin (g.replica i)
      rw [Command.run_after]
      cases hc : c.call with
      | none =>
          have hnone : c.issued origin (g.replica i) = [] := by
            rw [Command.issued, hc]
          exact hr.of_quiet (hnote.trans hnone) rfl rfl
      | some call =>
          have hone : c.issued origin (g.replica i)
              = [⟨call.command, (g.replica i).name ++ toString (g.replica i).outstandingCounter,
                  origin⟩] := by
            rw [Command.issued, hc]
          exact hr.issue (hnote.trans hone) rfl rfl rfl
  | tick i => exact hr.of_quiet rfl rfl rfl
  | batch i j k ts hsent hfresh hwf => exact hr.of_quiet rfl rfl rfl
  | balance i j k x hsent hfresh => exact hr.of_quiet rfl rfl rfl
  | membership i v info =>
      rw [step_membership]
      exact hr.of_quiet (issuedIn_map_sent _) rfl rfl
  | timeout i => exact hr.of_quiet rfl rfl rfl

variable [DecidableEq ι]

theorem Group.Reachable.numbered {g : Group ι D} (hg : g.Reachable) (i : ι) :
    Numbered (g.history i) (g.replica i) := by
  refine hg.local_induct (P := fun _ h r => Numbered h r) (fun i n => ⟨rfl, rfl⟩) ?_ i
  intro g e i r' note hm hr
  exact hr.move hm

/-- What a replica has issued within one period has different ids. -/
theorem Group.Reachable.issued_ids_nodup {g : Group ι D} (hg : g.Reachable) {i : ι}
    (hfew : (issuedIn (g.history i)).length ≤ 2 ^ 32) :
    ((issuedIn (g.history i)).map (·.uniqueId)).Nodup := by
  rw [(hg.numbered i).ids]
  refine List.nodup_range.map_on fun m hm n hn h => ?_
  have hm' : m < 2 ^ 32 := (List.mem_range.mp hm).trans_le hfew
  have hn' : n < 2 ^ 32 := (List.mem_range.mp hn).trans_le hfew
  have hmod := idAt_eq_iff.mp h
  rwa [Nat.mod_eq_of_lt hm', Nat.mod_eq_of_lt hn'] at hmod

/-- **The ids of one replica do not repeat before the period of its counter.** In a run in which
`r` issues at most `2 ^ 32` transactions their ids are pairwise different, and in no state of the
run are there two entries with the same id in its collection or in a batch it has multicast. -/
theorem own_ids_distinct {numReplicas : ι → Int32} {es : List (Event ι D)} {g : Group ι D}
    (hrun : Machine.exec Group.step (Group.init numReplicas) es = some g) {r : ι}
    (hfew : (issuedIn (g.history r)).length ≤ 2 ^ 32) :
    ((issuedIn (g.history r)).map (·.uniqueId)).Nodup
      ∧ ∀ pre g₁, pre <+: es → Machine.exec Group.step (Group.init numReplicas) pre = some g₁ →
        ((g₁.replica r).outstandingCollection.map (·.uniqueId)).Nodup
          ∧ ∀ m ∈ (g₁.replica r).sent, (m.batch.map (·.uniqueId)).Nodup := by
  have hg : g.Reachable := ⟨numReplicas, es, hrun⟩
  refine ⟨hg.issued_ids_nodup hfew, ?_⟩
  rintro pre g₁ ⟨post, rfl⟩ hpre
  have hg₁ : g₁.Reachable := ⟨numReplicas, pre, hpre⟩
  have hrest : Machine.Reachable Group.step g₁ g := Machine.reachable_after hrun hpre
  -- an earlier state has issued a part of it
  have hfew₁ : (issuedIn (g₁.history r)).length ≤ 2 ^ 32 := by
    obtain ⟨later, hlater⟩ := hg₁.history_grows hrest r
    have hlen : (issuedIn (g.history r)).length
        = (issuedIn (g₁.history r)).length + (issuedIn later).length := by
      rw [← hlater, issuedIn_append, List.length_append]
    omega
  have hnd := hg₁.issued_ids_nodup hfew₁
  refine ⟨?_, fun m hm => ?_⟩
  · rw [(hg₁.explained r).outstanding]
    exact hnd.sublist ((residents_sublist _).map _)
  · exact hnd.sublist ((hg₁.batch_sublist hm).map _)

end

/-- One transaction of each kind, in one batch. -/
theorem own_ids_distinct_oneOfEach :
    ∃ g : Group Site ℚ, g.Reachable
      ∧ (issuedIn (g.history .alpha)).map (·.uniqueId) = ["replica0", "replica1", "replica2"]
      ∧ ((issuedIn (g.history .alpha)).map (·.uniqueId)).Nodup
      ∧ (g.replica .alpha).sent ≠ []
      ∧ ((g.replica .alpha).outstandingCollection.map (·.uniqueId)).Nodup
      ∧ ∀ m ∈ (g.replica .alpha).sent, (m.batch.map (·.uniqueId)).Nodup := by
  obtain ⟨g, hrun, hp⟩ := Group.exists_of_run (fun _ => 2)
    (startUp ++ [.command .alpha (.deposit 100), .command .alpha (.addInterest 10),
      .command .alpha .getSyncedBalance, .tick .alpha])
    (fun g : Group Site ℚ => decide
      ((issuedIn (g.history .alpha)).map (·.uniqueId) = ["replica0", "replica1", "replica2"]
        ∧ (issuedIn (g.history .alpha)).length = 3 ∧ (g.replica .alpha).sent ≠ []))
    (by decide +kernel)
  obtain ⟨hids, hlen, hsent⟩ := of_decide_eq_true hp
  have hfew : (issuedIn (g.history .alpha)).length ≤ 2 ^ 32 := by omega
  obtain ⟨hissued, hstates⟩ := own_ids_distinct hrun hfew
  obtain ⟨hcollection, hbatches⟩ := hstates _ g (List.prefix_refl _) hrun
  exact ⟨g, ⟨_, _, hrun⟩, hids, hissued, hsent, hcollection, hbatches⟩

section

variable {ι D : Type}

/-! ## Residency -/

variable [DecidableEq ι]

/-- The operations that the calls at `r` queue, in order. -/
def callsAt (r : ι) (es : List (Event ι D)) : List (Call D) :=
  es.filterMap fun
    | .command i c => if i = r then c.call else none
    | _ => none

/-- The names of the messages delivered at `r`, in order. -/
def deliveriesAt (r : ι) (es : List (Event ι D)) : List (ι × ℕ) :=
  es.filterMap fun
    | .deliver i j k => if i = r then some (j, k) else none
    | _ => none

/-- The transactions of these calls at `r`: the `n`-th has the id and the identity number `n`. -/
def transactionsOf [DoubleText D] (r : ι) (calls : List (Call D)) : List (Transaction (Origin ι)) :=
  calls.mapIdx fun n call => ⟨call.command, idAt "replica" n, (r, n)⟩

variable [Zero D] [Add D] [Mul D] [Div D] [NatCast D] [DoubleText D]

/-- What the history of `r` has of the events of the run. -/
structure Accounted (es : List (Event ι D)) (g : Group ι D) (r : ι) : Prop where
  name : (g.replica r).name = "replica"
  issued : issuedIn (g.history r) = transactionsOf r (callsAt r es)
  received : receivedIn (g.history r) = deliveriesAt r es

omit [Zero D] [Add D] [Mul D] [Div D] [NatCast D] [DoubleText D] in
/-- An event that neither calls a command nor delivers a message at `r`. -/
theorem callsAt_deliveriesAt_concat {r : ι} (es : List (Event ι D)) {e : Event ι D}
    (hcall : callsAt r [e] = []) (hdeliver : deliveriesAt r [e] = []) :
    callsAt r (es ++ [e]) = callsAt r es ∧ deliveriesAt r (es ++ [e]) = deliveriesAt r es := by
  have hcalls : callsAt r (es ++ [e]) = callsAt r es ++ callsAt r [e] := List.filterMap_append
  have hdeliveries : deliveriesAt r (es ++ [e]) = deliveriesAt r es ++ deliveriesAt r [e] :=
    List.filterMap_append
  rw [hcalls, hdeliveries, hcall, hdeliver, List.append_nil, List.append_nil]
  exact ⟨rfl, rfl⟩

omit [Zero D] [Add D] [Mul D] [Div D] [NatCast D] in
/-- A step at `r` that issues and delivers nothing, or a step of another replica. -/
theorem Accounted.of_quiet {es : List (Event ι D)} {g g' : Group ι D} {r : ι} {e : Event ι D}
    (h : Accounted es g r) (hcall : callsAt r [e] = []) (hdeliver : deliveriesAt r [e] = [])
    (hname : (g'.replica r).name = (g.replica r).name)
    (hissued : issuedIn (g'.history r) = issuedIn (g.history r))
    (hreceived : receivedIn (g'.history r) = receivedIn (g.history r)) :
    Accounted (es ++ [e]) g' r := by
  obtain ⟨hcalls, hdeliveries⟩ := callsAt_deliveriesAt_concat es hcall hdeliver
  refine ⟨hname.trans h.name, ?_, ?_⟩
  · rw [hissued, h.issued, hcalls]
  · rw [hreceived, h.received, hdeliveries]

/-- **One step**: a call issues the transaction of its operation, a delivery is noted, and nothing
else issues or delivers. -/
theorem Accounted.step {es : List (Event ι D)} {g g' : Group ι D} {r : ι} {e : Event ι D}
    (h : Accounted es g r) (hg : g.Reachable) (hs : g.step e = some g') :
    Accounted (es ++ [e]) g' r := by
  obtain ⟨i, r', note, hm, rfl⟩ := hg.step_moves hs
  by_cases hi : r = i
  · subst hi
    -- a move that is no call and no delivery
    have hquiet : callsAt r [e] = [] → deliveriesAt r [e] = [] → r'.name = (g.replica r).name →
        issuedIn note = [] → receivedIn note = [] → Accounted (es ++ [e]) (g.move r r' note) r := by
      intro hcall hdeliver hname hissued hreceived
      refine h.of_quiet hcall hdeliver ?_ ?_ ?_
      · rw [Group.move_replica_self, hname]
      · rw [Group.move_history_self, issuedIn_append, hissued, List.append_nil]
      · rw [Group.move_history_self, receivedIn_append, hreceived, List.append_nil]
    -- a delivery
    have hdelivery : ∀ j k m r', r'.name = (g.replica r).name →
        Accounted (es ++ [.deliver r j k]) (g.move r r' [.received j k m]) r := by
      intro j k m r' hname
      have hcalls : callsAt r (es ++ [.deliver r j k]) = callsAt r es := by
        simp [callsAt]
      have hdeliveries :
          deliveriesAt r (es ++ [.deliver r j k]) = deliveriesAt r es ++ [(j, k)] := by
        simp [deliveriesAt]
      refine ⟨?_, ?_, ?_⟩
      · rw [Group.move_replica_self, hname, h.name]
      · rw [Group.move_history_self, issuedIn_append, h.issued, hcalls]
        exact List.append_nil _
      · rw [Group.move_history_self, receivedIn_append, h.received, hdeliveries]
        rfl
    cases hm with
    | command i c origin horigin =>
        obtain ⟨hi, -, hr, -⟩ := commandNote_cases c origin (g.replica r)
        have hnumbered := hg.numbered r
        have hname : ((c.run origin).after (g.replica r)).name = (g.replica r).name := by
          rw [Command.run_after]
        cases hc : c.call with
        | none =>
            have hnone : c.issued origin (g.replica r) = [] := by
              rw [Command.issued, hc]
            refine hquiet ?_ rfl hname (hi.trans hnone) hr
            simp [callsAt, hc]
        | some call =>
            have hcalls : callsAt r (es ++ [.command r c]) = callsAt r es ++ [call] := by
              simp [callsAt, hc]
            have hdeliveries : deliveriesAt r (es ++ [.command r c]) = deliveriesAt r es := by
              simp [deliveriesAt]
            have hlen : (callsAt r es).length = (issuedIn (g.history r)).length := by
              rw [h.issued, transactionsOf, List.length_mapIdx]
            have hnew : c.issued origin (g.replica r)
                = [⟨call.command, idAt "replica" (callsAt r es).length,
                    (r, (callsAt r es).length)⟩] := by
              rw [Command.issued, hc, hnumbered.counter, h.name, horigin, hlen]
              rfl
            refine ⟨?_, ?_, ?_⟩
            · rw [Group.move_replica_self, hname, h.name]
            · rw [Group.move_history_self, issuedIn_append, hi, hnew, h.issued, hcalls,
                transactionsOf, transactionsOf, List.mapIdx_concat]
            · rw [Group.move_history_self, receivedIn_append, hr, List.append_nil, h.received,
                hdeliveries]
    | tick i => exact hquiet rfl rfl rfl rfl rfl
    | batch i j k ts hsent hfresh hwf => exact hdelivery j k _ _ rfl
    | balance i j k x hsent hfresh => exact hdelivery j k _ _ rfl
    | membership i v info =>
        refine hquiet rfl rfl ?_ (issuedIn_map_sent _) (receivedIn_map_sent _)
        rw [step_membership]
    | timeout i => exact hquiet rfl rfl rfl rfl rfl
  · have hir : i ≠ r := fun hir => hi hir.symm
    refine h.of_quiet ?_ ?_ ?_ ?_ ?_
    · cases hm <;> simp [callsAt, hir]
    · cases hm <;> simp [deliveriesAt, hir]
    · rw [Group.move_replica_ne _ _ _ hi]
    · rw [Group.move_history_ne _ _ _ hi]
    · rw [Group.move_history_ne _ _ _ hi]

theorem accounted_of_run {numReplicas : ι → Int32} {es : List (Event ι D)} {g : Group ι D}
    (hrun : Machine.exec Group.step (Group.init numReplicas) es = some g) (r : ι) :
    Accounted es g r := by
  refine Machine.exec_induct (P := fun es g => Accounted es g r) hrun ⟨rfl, rfl, rfl⟩ ?_
  intro es e g g' hg h hs
  exact h.step ⟨numReplicas, es, hg⟩ hs

/-- Every tick multicasts the outstanding collection. -/
theorem sent_of_tick {numReplicas : ι → Int32} {pre post : List (Event ι D)} {g : Group ι D} {r : ι}
    (hrun : Machine.exec Group.step (Group.init numReplicas) (pre ++ .tick r :: post) = some g) :
    ∃ g₀ later, Machine.exec Group.step (Group.init numReplicas) pre = some g₀
      ∧ g.history r = g₀.history r
        ++ .sent (outstandingMessage (g₀.replica r).outstandingCollection) :: later := by
  obtain ⟨g₀, hg₀, hrest⟩ := Machine.exec_append_eq_some.mp hrun
  obtain ⟨g₁, hs, hlast⟩ := Machine.exec_cons_eq_some.mp hrest
  have hreach : g₀.Reachable := ⟨numReplicas, pre, hg₀⟩
  obtain ⟨i, r', note, hm, rfl⟩ := hreach.step_moves hs
  cases hm with
  | tick i =>
      obtain ⟨later, hlater⟩ := (hreach.snoc hs).history_grows ⟨post, hlast⟩ r
      rw [Group.move_history_self] at hlater
      exact ⟨g₀, later, hg₀, by rw [← hlater, List.append_assoc]; rfl⟩

/-- And a batch in the history is one of these. -/
theorem tick_of_split {numReplicas : ι → Int32} {es : List (Event ι D)} {g : Group ι D}
    (hrun : Machine.exec Group.step (Group.init numReplicas) es = some g) {r : ι}
    {h later : List (Happening ι D)} {batch : List (Transaction (Origin ι))}
    (hsplit : g.history r = h ++ .sent (outstandingMessage batch) :: later) :
    ∃ pre post g₀, es = pre ++ .tick r :: post
      ∧ Machine.exec Group.step (Group.init numReplicas) pre = some g₀ ∧ g₀.history r = h
      ∧ batch = (g₀.replica r).outstandingCollection := by
  obtain ⟨pre, e, post, g₀, r', note, before, after, hes, hg₀, hm, hnote, rfl⟩ :=
    exists_move_of_split hrun hsplit
  subst hnote
  rcases hm.sent_split with ⟨rfl, rfl, hbatch⟩ | ⟨x, hx⟩
  · refine ⟨pre, post, g₀, hes, hg₀, (List.append_nil _).symm, ?_⟩
    simpa [outstandingMessage] using hbatch
  · simp [outstandingMessage, balanceMessage] at hx

/-- `T` was issued in `h`, and no batch with its id has been delivered since. -/
def Unreturned (h : List (Happening ι D)) (T : Transaction (Origin ι)) : Prop :=
  ∃ a b, h = a ++ .issued T :: b
    ∧ ∀ j k m, .received j k m ∈ b → ∀ e ∈ m.batch, e.uniqueId ≠ T.uniqueId

/-- Where the transactions of `r` are, after the run `es`. -/
structure ExactResidency (numReplicas : ι → Int32) (es : List (Event ι D)) (g : Group ι D)
    (r : ι) : Prop where
  /-- The collection: what has been issued, in order, without what has been removed since. -/
  collection : (g.replica r).outstandingCollection = residents (g.history r)
  unreturned : ∀ T, T ∈ (g.replica r).outstandingCollection ↔ Unreturned (g.history r) T
  /-- Every call of `deposit`, `addInterest` and `getSyncedBalance` issues, and nothing else. -/
  issued : issuedIn (g.history r) = transactionsOf r (callsAt r es)
  /-- Every delivery is one of the run, of the message as it was sent. -/
  received : receivedIn (g.history r) = deliveriesAt r es
  delivered : ∀ j k m, .received j k m ∈ g.history r → (g.replica j).sent[k]? = some m
  sent : (g.replica r).sent = sentIn (g.history r)
  /-- Every tick multicasts a batch of what is unreturned at the tick. -/
  ticks : ∀ pre post, es = pre ++ .tick r :: post → ∃ g₀ batch later,
    Machine.exec Group.step (Group.init numReplicas) pre = some g₀
      ∧ g.history r = g₀.history r ++ .sent (outstandingMessage batch) :: later
      ∧ ∀ T, T ∈ batch ↔ Unreturned (g₀.history r) T
  /-- And every batch is multicast by a tick. -/
  batches : ∀ h batch later, g.history r = h ++ .sent (outstandingMessage batch) :: later →
    ∃ pre post g₀, es = pre ++ .tick r :: post
      ∧ Machine.exec Group.step (Group.init numReplicas) pre = some g₀ ∧ g₀.history r = h
  own : ∀ m ∈ (g.replica r).sent, ∀ T ∈ m.batch, T.origin.1 = r

theorem Group.Reachable.mem_outstanding_iff {g : Group ι D} (hg : g.Reachable) (r : ι)
    (T : Transaction (Origin ι)) :
    T ∈ (g.replica r).outstandingCollection ↔ Unreturned (g.history r) T := by
  rw [(hg.explained r).outstanding, mem_residents]
  refine exists₂_congr fun a b => and_congr_right fun _ => ?_
  exact removedBy_eq_false_iff

/-- **Exact residency.** A transaction is in the outstanding collection from the call that issues
it to the first delivery, after it, of a batch with its id; and it travels in exactly the batches
that the ticks in between multicast. -/
theorem outstanding_exact {numReplicas : ι → Int32} {es : List (Event ι D)} {g : Group ι D}
    (hrun : Machine.exec Group.step (Group.init numReplicas) es = some g) (r : ι) :
    ExactResidency numReplicas es g r where
  collection := (Group.Reachable.explained ⟨numReplicas, es, hrun⟩ r).outstanding
  unreturned := Group.Reachable.mem_outstanding_iff ⟨numReplicas, es, hrun⟩ r
  issued := (accounted_of_run hrun r).issued
  received := (accounted_of_run hrun r).received
  delivered _ _ _ hm := Group.Reachable.received_sent ⟨numReplicas, es, hrun⟩ hm
  sent := (Group.Reachable.explained ⟨numReplicas, es, hrun⟩ r).sent
  ticks pre post hes := by
    subst hes
    obtain ⟨g₀, later, hg₀, hhistory⟩ := sent_of_tick hrun
    have hreach : g₀.Reachable := ⟨numReplicas, pre, hg₀⟩
    exact ⟨g₀, _, later, hg₀, hhistory, hreach.mem_outstanding_iff r⟩
  batches h batch later hsplit := by
    obtain ⟨pre, post, g₀, hes, hg₀, hh, -⟩ := tick_of_split hrun hsplit
    exact ⟨pre, post, g₀, hes, hg₀, hh⟩
  own m hm T hT := (Group.Reachable.origin_of_sent ⟨numReplicas, es, hrun⟩ hm hT).2

end

/-- A run in which a transaction has left the collection and another is still there. -/
theorem outstanding_exact_two_replicas :
    let es : List (Event Site ℚ) := startUp ++ [.command .alpha (.deposit 100), .tick .alpha,
      .command .alpha .getSyncedBalance, .deliver .alpha .alpha 0]
    ∃ g, Machine.exec Group.step (Group.init fun _ => 2) es = some g
      ∧ (g.replica .alpha).outstandingCollection.map (·.uniqueId) = ["replica1"]
      ∧ ExactResidency (fun _ => 2) es g .alpha := by
  intro es
  obtain ⟨g, hrun, hp⟩ := Group.exists_of_run (fun _ => 2) es
    (fun g => (g.replica .alpha).outstandingCollection.map (·.uniqueId) == ["replica1"])
    (by decide +kernel)
  exact ⟨g, hrun, by simpa using hp, outstanding_exact hrun .alpha⟩

end SpreadAccount
