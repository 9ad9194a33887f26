import SpreadAccount.Group.Residency

set_option autoImplicit false

/-! # From the call to the wire and back

A call of `deposit`, `addInterest` or `getSyncedBalance` becomes a command string in a transaction,
travels in batches, and is read out of the string again by the message handler of every replica.
`wire_integrity` follows a batch the whole way, through any run: the handler works through it
without an exception, and what it does for an entry is what the call that created the entry asks
for.
-/

namespace SpreadAccount

section

variable {ι τ D : Type} [Zero D] [Add D] [Mul D] [Div D] [NatCast D] [DoubleText D]

/-! ## What a call asks for -/

/-- What an operation does at a replica when its entry `t` is processed: it changes the balance and
prints it, or reports the balance if the replica waits for a report. -/
def Call.enact (c : Call D) (t : Transaction τ) (r : Replica D τ) : Replica D τ :=
  match c with
  | .getSyncedBalance =>
      { r with out := r.out
          ++ if r.awaitingSyncedBalance then [.syncedBalance t r.balance] else [] }
  | _ =>
      { r with
        balance := c.apply r.balance
        out := r.out ++ [.updatedBalance t (c.apply r.balance)] }

omit [Zero D] in
/-- The branches of the handler on an entry do what its operation asks for. -/
theorem applyEntry_of_command {t : Transaction τ} {c : Call D} (h : t.command = c.command)
    (r : Replica D τ) : applyEntry t r = .ok () (c.enact t r) := by
  rw [applyEntry_eq, readCall_of_command h, effect_of_command h, entryLines, readCall_of_command h]
  cases c with
  | deposit amount => rfl
  | addInterest percent => rfl
  | getSyncedBalance => rfl

omit [Zero D] in
/-- The effect of a batch on the balance is that of the operations behind its entries. -/
theorem replay_of_commands {ts : List (Transaction τ)} {calls : List (Call D)}
    (h : List.Forall₂ (fun t c => t.command = c.command) ts calls) (b : D) :
    replay ts b = calls.foldl (fun b c => c.apply b) b := by
  induction h generalizing b with
  | nil => rfl
  | cons hc _ ih =>
      rw [replay_cons, effect_of_command hc, ih]
      rfl

/-! ## Where an entry comes from -/

variable [DecidableEq ι]

/-- `t` was created by a call of the operation `call` at replica `i`, at some point of the run
`es`: `c` is the command of the call, and `g` the group at that moment. -/
def CreatedBy (numReplicas : ι → Int32) (es : List (Event ι D)) (i : ι)
    (t : Transaction (Origin ι)) (call : Call D) : Prop :=
  ∃ pre c post g, es = pre ++ .command i c :: post
    ∧ Machine.exec Group.step (Group.init numReplicas) pre = some g ∧ c.call = some call
    ∧ c.issued (i, (issuedIn (g.history i)).length) (g.replica i) = [t]

/-- Every transaction that a replica has issued was created by a call there, and carries the
command string of the call. -/
theorem createdBy_of_issued {numReplicas : ι → Int32} {es : List (Event ι D)} {g : Group ι D}
    (hrun : Machine.exec Group.step (Group.init numReplicas) es = some g) {i : ι}
    {t : Transaction (Origin ι)} (ht : t ∈ issuedIn (g.history i)) :
    ∃ call, CreatedBy numReplicas es i t call ∧ t.command = call.command := by
  obtain ⟨pre, e, post, g₀, r', note, hes, hg₀, hm, hnote⟩ :=
    exists_move_of_mem_history hrun (mem_issuedIn.mp ht)
  have hin : t ∈ issuedIn note := mem_issuedIn.mpr hnote
  cases hm with
  | command i c origin horigin =>
      rw [(commandNote_cases c _ _).1] at hin
      subst horigin
      cases hc : c.call with
      | none => simp [Command.issued, hc] at hin
      | some call =>
          have hone : ∀ origin, c.issued origin (g₀.replica i)
              = [⟨call.command, (g₀.replica i).name ++ toString (g₀.replica i).outstandingCounter,
                origin⟩] := by
            intro origin
            rw [Command.issued, hc]
          rw [hone] at hin
          have ht' := List.mem_singleton.mp hin
          refine ⟨call, ⟨pre, c, post, g₀, hes, hg₀, hc, ?_⟩, by rw [ht']⟩
          rw [hone, ht']
  | membership i v info => simp [issuedIn] at hin
  | _ => simp [issuedIn] at hin

/-- Every batch that a replica has sent is the outstanding collection at a tick of the run. -/
theorem tick_of_sent {numReplicas : ι → Int32} {es : List (Event ι D)} {g : Group ι D}
    (hrun : Machine.exec Group.step (Group.init numReplicas) es = some g) {j : ι}
    {m : SpreadMessage D (Origin ι)} (hm : m ∈ (g.replica j).sent)
    (htype : m.type = outstandingUpdate) :
    ∃ earlier later g₁, es = earlier ++ .tick j :: later
      ∧ Machine.exec Group.step (Group.init numReplicas) earlier = some g₁
      ∧ m = outstandingMessage (g₁.replica j).outstandingCollection := by
  have hg : g.Reachable := ⟨numReplicas, es, hrun⟩
  rw [(hg.explained j).sent] at hm
  obtain ⟨pre, e, post, g₁, r', note, hes, hg₁, hmove, hnote⟩ :=
    exists_move_of_mem_history hrun (mem_sentIn.mp hm)
  rcases hmove.sent_cases hnote with ⟨rfl, -, hbatch⟩ | ⟨x, rfl⟩
  · exact ⟨pre, post, g₁, hes, hg₁, hbatch⟩
  · cases htype

/-! ## The whole way -/

/-- **Integrity of commands on the wire.** A batch `m` that `j` has multicast in a run was sent by
a tick of `j`. Each of its entries was created by an earlier call at `j`, and the handler does for
the entry what that call asks for. The handler works through the whole batch at every replica, in
any state `r`, and returns. -/
theorem wire_integrity {numReplicas : ι → Int32} {es : List (Event ι D)} {g : Group ι D}
    (hrun : Machine.exec Group.step (Group.init numReplicas) es = some g) {j : ι}
    {m : SpreadMessage D (Origin ι)} (hm : m ∈ (g.replica j).sent)
    (htype : m.type = outstandingUpdate) :
    ∃ earlier later, es = earlier ++ .tick j :: later ∧ ∃ calls : List (Call D),
      List.Forall₂ (fun t call => CreatedBy numReplicas earlier j t call
        ∧ ∀ r : Replica D (Origin ι), applyEntry t r = .ok () (call.enact t r)) m.batch calls
      ∧ ∀ r : Replica D (Origin ι), ∃ r', regularMessageReceived m r = .ok () r'
        ∧ r'.balance = calls.foldl (fun b call => call.apply b) r.balance := by
  obtain ⟨earlier, later, g₁, hes, hg₁, rfl⟩ := tick_of_sent hrun hm htype
  have hreach : g₁.Reachable := ⟨numReplicas, earlier, hg₁⟩
  have hcalls : ∀ t ∈ (g₁.replica j).outstandingCollection, ∃ call,
      CreatedBy numReplicas earlier j t call ∧ t.command = call.command := by
    intro t ht
    rw [(hreach.explained j).outstanding] at ht
    exact createdBy_of_issued hg₁ ((residents_sublist _).subset ht)
  obtain ⟨calls, hforall⟩ := Occurrence.exists_forall₂_of_forall_mem hcalls
  refine ⟨earlier, later, hes, calls, ?_, fun r => ?_⟩
  · exact hforall.imp fun t call h => ⟨h.1, fun r => applyEntry_of_command h.2 r⟩
  · have hwf := hreach.sound.outstanding j
    refine ⟨_, regularMessageReceived_batch hwf r, ?_⟩
    exact replay_of_commands (hforall.imp fun t call h => h.2) r.balance

end

/-- Replica `alpha` withdraws `5` and asks for the synced balance; both travel in one batch. -/
def withdrawAndAsk : List (Event Site ℚ) :=
  startUp ++ [.command .alpha (.deposit (-5)), .command .alpha .getSyncedBalance, .tick .alpha]

theorem wire_integrity_withdrawAndAsk :
    ∃ (g : Group Site ℚ) (m : SpreadMessage ℚ (Origin Site)),
      Machine.exec Group.step (Group.init fun _ => 2) withdrawAndAsk = some g
      ∧ m ∈ (g.replica .alpha).sent
      ∧ m.batch.map (·.command) = ["deposit -5.0", "getSyncedBalance"]
      ∧ ∃ earlier later, withdrawAndAsk = earlier ++ .tick .alpha :: later ∧ ∃ calls : List (Call ℚ),
        List.Forall₂ (fun t call => CreatedBy (fun _ => 2) earlier .alpha t call
          ∧ ∀ r : Replica ℚ (Origin Site), applyEntry t r = .ok () (call.enact t r)) m.batch calls
        ∧ ∀ r : Replica ℚ (Origin Site), ∃ r', regularMessageReceived m r = .ok () r'
          ∧ r'.balance = calls.foldl (fun b call => call.apply b) r.balance := by
  let m : SpreadMessage ℚ (Origin Site) := outstandingMessage
    [⟨"deposit -5.0", "replica0", (.alpha, 0)⟩, ⟨"getSyncedBalance", "replica1", (.alpha, 1)⟩]
  obtain ⟨g, hrun, hp⟩ := Group.exists_of_run (fun _ => 2) withdrawAndAsk
    (fun g => decide (m ∈ (g.replica .alpha).sent)) (by decide +kernel)
  have hm := of_decide_eq_true hp
  exact ⟨g, m, hrun, hm, rfl, wire_integrity hrun hm rfl⟩

end SpreadAccount
