import SpreadAccount.Group.Invariant

set_option autoImplicit false

/-! # The history explains the balance

The effect of an entry on the balance is decided by a test on the first word of its command, and
its place in `executedList` by a test on the whole command. `Moves.recording` says once that the
two tests agree: whatever a move prints as applied it appends to `executedList`, in the same
order, unless it is a `cleanHistory`. The main result is `history_explains_balance`.
-/

namespace SpreadAccount

section

variable {ι D : Type}

/-! ## Since the last `cleanHistory` -/

def Happening.isCleaned : Happening ι D → Bool
  | .cleaned => true
  | _ => false

def Line.isClearing {τ : Type} : Line D τ → Bool
  | .clearingHistory => true
  | _ => false

/-- What has happened since the last `cleanHistory`, or since construction. -/
def sinceCleaned (h : List (Happening ι D)) : List (Happening ι D) :=
  h.rtakeWhile (fun e => !e.isCleaned)

/-- What has been printed since the last `cleanHistory`, or since construction. -/
def sinceClearing {τ : Type} (out : List (Line D τ)) : List (Line D τ) :=
  out.rtakeWhile (fun line => !line.isClearing)

/-- The happening is a reset of the history or of the balance: a `cleanHistory` or the delivery
of a `balanceUpdate`. -/
def Happening.isReset : Happening ι D → Bool
  | .cleaned => true
  | .received _ _ m => m.type == balanceUpdate
  | _ => false

variable [Zero D] [Add D] [Mul D] [Div D] [NatCast D] [DoubleText D]

/-! ## One move -/

/-- What a move prints, and what it does to `executedList`: a `cleanHistory` empties it, anything
else appends what it applies. -/
inductive Recording (r r' : Replica D (Origin ι)) (note : List (Happening ι D)) : Prop where
  | cleaned (hnote : note = [.called .cleanHistory, .cleaned]) (hlist : r'.executedList = [])
      (hout : r'.out = r.out ++ [.clearingHistory])
  | appended (lines : List (Line D (Origin ι))) (hnote : ∀ e ∈ note, e.isCleaned = false)
      (hlines : ∀ line ∈ lines, line.isClearing = false) (hout : r'.out = r.out ++ lines)
      (happlied : appliedIn lines = (messagesIn note).flatMap (fun m => m.recorded))
      (hlist : r'.executedList = r.executedList ++ appliedIn lines)

omit [Add D] [Mul D] [Div D] [NatCast D] in
/-- A move that prints nothing of interest and delivers nothing records nothing. -/
theorem Recording.quiet {r r' : Replica D (Origin ι)} {note : List (Happening ι D)}
    (lines : List (Line D (Origin ι))) (hnote : ∀ e ∈ note, e.isCleaned = false)
    (hquiet : messagesIn note = []) (hlines : ∀ line ∈ lines, line.isClearing = false)
    (hnone : appliedIn lines = []) (hout : r'.out = r.out ++ lines)
    (hlist : r'.executedList = r.executedList) : Recording r r' note := by
  refine .appended lines hnote hlines hout ?_ ?_
  · rw [hnone, hquiet]
    rfl
  · rw [hnone, List.append_nil, hlist]

omit [Zero D] [Add D] [Mul D] [Div D] [NatCast D] [DoubleText D] in
/-- Only `cleanHistory` prints that it clears the history. -/
theorem command_lines_not_clearing {c : Command D} (hc : c ≠ .cleanHistory)
    (r : Replica D (Origin ι)) : ∀ line ∈ c.lines r, line.isClearing = false := by
  cases c with
  | cleanHistory => exact absurd rfl hc
  | getHistory =>
      intro line hline
      simp only [Command.lines, List.mem_append, List.mem_cons, List.mem_map] at hline
      rcases hline with (rfl | rfl | ⟨t, -, rfl⟩) | rfl | ⟨t, -, rfl⟩ <;> rfl
  | checkTxStatus id =>
      simp only [Command.lines]
      split
      · simp [Line.isClearing]
      · split <;> simp [Line.isClearing]
  | _ => simp [Command.lines, Line.isClearing]

omit [Zero D] in
/-- No line of a batch says that the history is cleared. -/
theorem batchLines_not_clearing {ts : List (Transaction (Origin ι))}
    (hwf : ∀ t ∈ ts, t.WellFormed D) (awaiting : Bool) (b : D) :
    ∀ line ∈ batchLines awaiting b ts, line.isClearing = false := by
  induction ts generalizing b with
  | nil => simp [batchLines]
  | cons t ts ih =>
      intro line hline
      rw [batchLines, List.mem_append] at hline
      rcases hline with hline | hline
      · rw [entryLines_of_wellFormed (hwf t (by simp))] at hline
        split at hline
        · rw [List.mem_singleton.mp hline]
          rfl
        · split at hline
          · rw [List.mem_singleton.mp hline]
            rfl
          · cases hline
      · exact ih (fun u hu => hwf u (by simp [hu])) _ line hline

/-- **What every move records.** -/
theorem Moves.recording {g : Group ι D} {e : Event ι D} {i : ι} {r' : Replica D (Origin ι)}
    {note : List (Happening ι D)} (hm : Moves g e i r' note) : Recording (g.replica i) r' note := by
  cases hm with
  | command i c origin horigin =>
      by_cases hc : c = .cleanHistory
      · subst hc
        rw [Command.run_after]
        exact .cleaned rfl rfl rfl
      · rw [Command.run_after]
        refine .quiet _ ?_ ?_ (command_lines_not_clearing hc _)
          (appliedIn_eq_nil (c.lines_not_fromBatch _)) rfl ?_
        · intro e he
          rcases List.mem_append.mp he with he | he
          · rcases List.mem_cons.mp he with rfl | he
            · rfl
            cases c with
            | cleanHistory => exact absurd rfl hc
            | getSyncedBalance =>
                simp only [changeNote] at he
                split at he
                · cases he
                · rw [List.mem_singleton.mp he]
                  rfl
            | getSyncedBalanceNaive =>
                simp only [changeNote] at he
                split at he
                · cases he
                · rw [List.mem_singleton.mp he]
                  rfl
            | _ => cases he
          · obtain ⟨t, -, rfl⟩ := List.mem_map.mp he
            rfl
        · rw [(commandNote_cases c _ _).2.2.2]
        · cases c with
          | cleanHistory => exact absurd rfl hc
          | _ => rfl
  | tick i =>
      exact .quiet [] (by simp [Happening.isCleaned]) rfl (by simp) rfl
        (List.append_nil _).symm rfl
  | batch i j k ts hsent hfresh hwf =>
      have hrec : (messagesIn [(.received j k (outstandingMessage ts) : Happening ι D)]).flatMap
          (fun m => m.recorded) = ts.filter (·.isUpdate) := by
        show (outstandingMessage ts : SpreadMessage D (Origin ι)).recorded ++ [] = _
        rw [List.append_nil, recorded_outstandingMessage hwf]
      -- the last line, if there is one, is the naive report
      have hnaive : ∀ (b : Bool) (x : D), appliedIn
          (if b then [(.naiveSyncedBalance x : Line D (Origin ι))] else []) = [] := by
        intro b x
        cases b <;> rfl
      have hlast : ∀ (b : Bool) (x : D), ∀ line ∈
          (if b then [(.naiveSyncedBalance x : Line D (Origin ι))] else []),
          line.isClearing = false := by
        intro b x line hline
        cases b with
        | false => cases hline
        | true =>
            rw [List.mem_singleton.mp hline]
            rfl
      refine .appended _ (by simp [Happening.isCleaned]) ?_ (List.append_assoc _ _ _) ?_ ?_
      · intro line hline
        rcases List.mem_append.mp hline with hline | hline
        · exact batchLines_not_clearing hwf _ _ line hline
        · exact hlast _ _ line hline
      · rw [hrec, appliedIn_append, appliedIn_batchLines hwf, hnaive, List.append_nil]
      · rw [appliedIn_append, appliedIn_batchLines hwf, hnaive, List.append_nil]
        rfl
  | balance i j k x hsent hfresh =>
      refine .appended [] (by simp [Happening.isCleaned]) (by simp) (List.append_nil _).symm ?_
        (List.append_nil _).symm
      simp [messagesIn, appliedIn]
  | membership i v info =>
      rw [step_membership]
      refine .quiet _ ?_ (messagesIn_map_sent _) ?_ ?_ rfl rfl
      · intro e he
        rcases List.mem_cons.mp he with rfl | he
        · rfl
        · obtain ⟨m, -, rfl⟩ := List.mem_map.mp he
          rfl
      · intro line hline
        split at hline
        · rw [List.mem_singleton.mp hline]
          rfl
        · cases hline
      · split <;> rfl
  | timeout i =>
      exact .quiet [] (by simp [Happening.isCleaned]) rfl (by simp) rfl
        (List.append_nil _).symm rfl

/-- Without a reset, what a move appends to the history is what it does to the balance. -/
theorem Moves.replays {g : Group ι D} {e : Event ι D} {i : ι} {r' : Replica D (Origin ι)}
    {note : List (Happening ι D)} (hm : Moves g e i r' note)
    (hno : ∀ e ∈ note, e.isReset = false) :
    ∃ ts, r'.executedList = (g.replica i).executedList ++ ts
      ∧ r'.balance = replay ts (g.replica i).balance := by
  cases hm with
  | command i c origin horigin =>
      refine ⟨[], ?_, ?_⟩
      · rw [Command.run_after, List.append_nil]
        cases c with
        | cleanHistory =>
            have hreset := hno .cleaned (by simp [commandNote, changeNote])
            cases hreset
        | _ => rfl
      · rw [Command.run_after]
        rfl
  | tick i => exact ⟨[], (List.append_nil _).symm, rfl⟩
  | batch i j k ts hsent hfresh hwf =>
      refine ⟨ts.filter (·.isUpdate), rfl, ?_⟩
      rw [replay_filter_isUpdate]
      rfl
  | balance i j k x hsent hfresh =>
      have hreset := hno (.received j k (balanceMessage x)) (by simp)
      simp [Happening.isReset, balanceMessage] at hreset
  | membership i v info =>
      rw [step_membership]
      exact ⟨[], (List.append_nil _).symm, rfl⟩
  | timeout i => exact ⟨[], (List.append_nil _).symm, rfl⟩

/-! ## Whole runs -/

variable [DecidableEq ι]

/-- `executedList` holds what has been delivered, and what has been applied, since the last
`cleanHistory`. -/
theorem Group.Reachable.executedList_eq {g : Group ι D} (hg : g.Reachable) (i : ι) :
    (g.replica i).executedList
        = (messagesIn (sinceCleaned (g.history i))).flatMap (fun m => m.recorded)
      ∧ (g.replica i).executedList = appliedIn (sinceClearing (g.replica i).out) := by
  refine hg.local_induct (P := fun _ h r => r.executedList
      = (messagesIn (sinceCleaned h)).flatMap (fun m => m.recorded)
    ∧ r.executedList = appliedIn (sinceClearing r.out)) (fun _ _ => ⟨rfl, rfl⟩) ?_ i
  rintro g e i r' note hm ⟨hdelivered, happlied⟩
  cases hm.recording with
  | cleaned hnote hlist hout =>
      -- both stretches start anew
      have hcut : sinceCleaned (g.history i ++ note) = [] := by
        rw [hnote, List.append_cons]
        exact List.rtakeWhile_concat_neg _ _ _ (by simp [Happening.isCleaned])
      have hcut' : sinceClearing r'.out = [] := by
        rw [hout]
        exact List.rtakeWhile_concat_neg _ _ _ (by simp [Line.isClearing])
      rw [hlist, hcut, hcut']
      exact ⟨rfl, rfl⟩
  | appended lines hnote hlines hout hrecorded hlist =>
      -- both stretches go on
      have hgrow : sinceCleaned (g.history i ++ note) = sinceCleaned (g.history i) ++ note :=
        Occurrence.rtakeWhile_append_of_all (fun e he => by rw [hnote e he]; rfl)
      have hgrow' : sinceClearing r'.out = sinceClearing (g.replica i).out ++ lines := by
        rw [hout]
        exact Occurrence.rtakeWhile_append_of_all (fun line hl => by rw [hlines line hl]; rfl)
      constructor
      · rw [hlist, hgrow, messagesIn_append, List.flatMap_append, ← hdelivered, hrecorded]
      · rw [hlist, hgrow', appliedIn_append, ← happlied]

theorem Group.Reachable.sinceCleaned_wellFormed {g : Group ι D} (hg : g.Reachable) (i : ι) :
    ∀ m ∈ messagesIn (sinceCleaned (g.history i)), m.WellFormed := by
  intro m hm
  obtain ⟨j, k, hrec⟩ := mem_messagesIn.mp hm
  have hrec' := (List.rtakeWhile_suffix _ _).subset hrec
  exact hg.messages_wellFormed (mem_messagesIn.mpr ⟨j, k, hrec'⟩)

/-- From any state of a run on, as long as there is no reset, the balance is the replay of what
is appended to the history. -/
theorem Group.Reachable.replays {g₁ g : Group ι D} (hg₁ : g₁.Reachable)
    (hrun : Machine.Reachable Group.step g₁ g) (i : ι) :
    ∃ later, g.history i = g₁.history i ++ later
      ∧ ((∀ e ∈ later, e.isReset = false) →
          ∃ ts, (g.replica i).executedList = (g₁.replica i).executedList ++ ts
            ∧ (g.replica i).balance = replay ts (g₁.replica i).balance) := by
  refine hrun.induct (P := fun g => ∃ later, g.history i = g₁.history i ++ later
    ∧ ((∀ e ∈ later, e.isReset = false) →
      ∃ ts, (g.replica i).executedList = (g₁.replica i).executedList ++ ts
        ∧ (g.replica i).balance = replay ts (g₁.replica i).balance)) ?_ ?_
  · exact ⟨[], (List.append_nil _).symm, fun _ => ⟨[], (List.append_nil _).symm, rfl⟩⟩
  · rintro g e g' hr ⟨later, hlater, hreplay⟩ hs
    obtain ⟨j, r', note, hm, rfl⟩ := (hg₁.later hr).step_moves hs
    by_cases hj : i = j
    · subst hj
      rw [Group.move_history_self, Group.move_replica_self]
      refine ⟨later ++ note, by rw [hlater, List.append_assoc], fun hno => ?_⟩
      obtain ⟨ts, hlist, hbalance⟩ := hreplay (fun e he => hno e (by simp [he]))
      obtain ⟨us, hlist', hbalance'⟩ := hm.replays (fun e he => hno e (by simp [he]))
      refine ⟨ts ++ us, ?_, ?_⟩
      · rw [hlist', hlist, List.append_assoc]
      · calc r'.balance = replay us (g.replica i).balance := hbalance'
          _ = replay us (replay ts (g₁.replica i).balance) := by rw [hbalance]
          _ = replay (ts ++ us) (g₁.replica i).balance := (replay_append ts us _).symm
    · rw [Group.move_history_ne _ _ _ hj, Group.move_replica_ne _ _ _ hj]
      exact ⟨later, hlater, hreplay⟩

/-- **The history explains the balance.** In the last state `g` of any run, `executedList` has the
updates of the batches delivered since the last `cleanHistory`, which are the updates that have
been applied since then; and the balance of `g` is that of any earlier state `g₁` after which
there was no reset, with what has been appended to `executedList` since `g₁` replayed. -/
theorem history_explains_balance {numReplicas : ι → Int32} {es₁ es : List (Event ι D)}
    {g₁ g : Group ι D}
    (hrun₁ : Machine.exec Group.step (Group.init numReplicas) es₁ = some g₁)
    (hrun : Machine.exec Group.step g₁ es = some g) (r : ι) :
    (g.replica r).executedList = (messagesIn (sinceCleaned (g.history r))).flatMap
        (fun m => m.batch.filter (·.isUpdate))
      ∧ (g.replica r).executedList = appliedIn (sinceClearing (g.replica r).out)
      ∧ (∀ t ∈ (g.replica r).executedList,
          ∃ c : Call D, t.command = c.command ∧ c ≠ .getSyncedBalance)
      ∧ ∃ later, g.history r = g₁.history r ++ later
          ∧ ((∀ e ∈ later, e.isReset = false) →
              ∃ ts, (g.replica r).executedList = (g₁.replica r).executedList ++ ts
                ∧ (g.replica r).balance = replay ts (g₁.replica r).balance) := by
  have hg₁ : g₁.Reachable := ⟨numReplicas, es₁, hrun₁⟩
  have hg : g.Reachable := hg₁.later ⟨es, hrun⟩
  obtain ⟨hdelivered, happlied⟩ := hg.executedList_eq r
  have hwf := hg.sinceCleaned_wellFormed r
  refine ⟨?_, happlied, ?_, hg₁.replays ⟨es, hrun⟩ r⟩
  · rw [hdelivered]
    exact List.flatMap_congr fun m hm => (hwf m hm).recorded_eq
  · intro t ht
    rw [hdelivered, List.mem_flatMap] at ht
    obtain ⟨m, hm, htm⟩ := ht
    obtain ⟨hbatch, hupdate⟩ := (hwf m hm).mem_recorded.mp htm
    obtain ⟨ts, rfl, hts⟩ | ⟨x, rfl⟩ := hwf m hm
    · obtain ⟨c, hc⟩ := hts t hbatch
      exact ⟨c, hc, (isUpdate_of_command hc).mp hupdate⟩
    · cases hbatch

end

/-- A deposit of `100` is delivered, the history is cleared, and an interest of `10` percent is
delivered after that. -/
theorem history_explains_balance_cleared :
    ∃ g₁ g : Group Site ℚ, (g₁.replica .alpha).balance = 100 ∧ (g.replica .alpha).balance = 110
      ∧ (g.replica .alpha).executedList.map (·.command) = ["addInterest 10.0"]
      ∧ (g.replica .alpha).executedList = appliedIn (sinceClearing (g.replica .alpha).out) := by
  let es₁ : List (Event Site ℚ) := startUp
    ++ [.command .alpha (.deposit 100), .tick .alpha, .deliver .alpha .alpha 0,
      .command .alpha .cleanHistory]
  let es : List (Event Site ℚ) :=
    [.command .alpha (.addInterest 10), .tick .alpha, .deliver .alpha .alpha 1]
  obtain ⟨g, hrun, hp⟩ := Group.exists_of_run (fun _ => 2) (es₁ ++ es)
    (fun g => decide ((g.replica .alpha).balance = 110
      ∧ (g.replica .alpha).executedList.map (·.command) = ["addInterest 10.0"])) (by decide +kernel)
  obtain ⟨g₁', hrun₁, hp₁⟩ := Group.exists_of_run (fun _ => 2) es₁
    (fun g => decide ((g.replica .alpha).balance = 100)) (by decide +kernel)
  obtain ⟨g₁, hstart, hlater⟩ := Machine.exec_append_eq_some.mp hrun
  obtain rfl : g₁' = g₁ := Option.some.inj (hrun₁.symm.trans hstart)
  obtain ⟨hbalance, hlist⟩ := of_decide_eq_true hp
  exact ⟨g₁', g, of_decide_eq_true hp₁, hbalance, hlist,
    (history_explains_balance hstart hlater .alpha).2.1⟩

end SpreadAccount
