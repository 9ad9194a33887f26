import SpreadAccount.Group.Process
import SpreadAccount.Group.Residency

set_option autoImplicit false

/-! # The life of a process

Two results about whole lives of processes, from the constructor to `System.exit`.

* Leaving (`exit_keeps_updates_iff`): when a process that leaves through `exit()` has multicast
  everything it has accepted.
* Joining (`joiner_waits`): when a process that waits for a balance can be relied on to have one
  before it multicasts anything.
-/

namespace SpreadAccount

open Occurrence (AtEach)

section

variable {ι D : Type}

/-! ## Leaving -/

/-- The transaction is in one of the batches. -/
def Included (sent : List (SpreadMessage D (Origin ι))) (T : Transaction (Origin ι)) : Prop :=
  ∃ batch, outstandingMessage batch ∈ sent ∧ T ∈ batch

variable [DecidableEq ι] [Zero D] [Add D] [Mul D] [Div D] [NatCast D] [DoubleText D]
  [DoubleLong D]

/-- The condition on the order of things: in the run there is a tick of `i` at which `T` has been
issued and no batch with its id has been delivered since. -/
def TickedInTime (config : ι → Config) (es : List (ProcessEvent ι)) (i : ι)
    (T : Transaction (Origin ι)) : Prop :=
  ∃ pre post, ∃ S : System ι D, es = pre ++ .tick i :: post
    ∧ Machine.exec System.step (System.init config) pre = some S
    ∧ Unreturned (S.group.history i) T

omit [DoubleLong D] in
/-- Only a tick of `i` multicasts a batch of `i`. -/
theorem Group.Reachable.sent_step {g g' : Group ι D} {e : Event ι D} (hg : g.Reachable)
    (h : g.step e = some g') {i : ι} (hne : e ≠ .tick i) (batch : List (Transaction (Origin ι))) :
    outstandingMessage batch ∈ (g'.replica i).sent
      ↔ outstandingMessage batch ∈ (g.replica i).sent := by
  obtain ⟨r', note, hm, rfl⟩ := hg.step_at h
  by_cases hi : i = e.site
  · subst hi
    have he := hg.explained e.site
    rw [Group.move_replica_self, (he.move hm).sent, he.sent, sentIn_append, List.mem_append]
    refine or_iff_left fun hin => ?_
    rcases hm.sent_cases (mem_sentIn.mp hin) with ⟨htick, -, -⟩ | ⟨x, hx⟩
    · exact hne htick
    · simp [outstandingMessage, balanceMessage] at hx
  · rw [Group.move_replica_ne _ _ _ hi]

/-- What a step multicasts at `i`: a tick of `i` the outstanding collection, and no other step a
batch. -/
theorem System.sent_step {S S' : System ι D} {e : ProcessEvent ι} (hS : S.Reachable)
    (h : S.step e = some S') (i : ι) (batch : List (Transaction (Origin ι))) :
    outstandingMessage batch ∈ (S'.group.replica i).sent
      ↔ outstandingMessage batch ∈ (S.group.replica i).sent
        ∨ e = .tick i ∧ batch = (S.group.replica i).outstandingCollection := by
  obtain ⟨j, main, g, hp, rfl⟩ := System.step_proceeds h
  show outstandingMessage batch ∈ (g.replica i).sent ↔ _
  cases hp with
  | tick j g hphase hstep =>
      by_cases hij : i = j
      · subst hij
        obtain rfl := Option.some.inj hstep
        rw [Group.move_replica_self, step_tick, List.mem_append, List.mem_singleton]
        simp [outstandingMessage]
      · have hne : j ≠ i := fun h => hij h.symm
        rw [hS.group.sent_step hstep (by simp [hne])]
        simp [hne]
  | command j outcome last c main g hphase hphase' hstep =>
      simp [hS.group.sent_step hstep (i := i) (by simp)]
  | timedOut j t0 g hphase hlong hstep =>
      simp [hS.group.sent_step hstep (i := i) (by simp)]
  | deliver j k n g hphase hstep =>
      simp [hS.group.sent_step hstep (i := i) (by simp)]
  | membership j v info g hphase hstep =>
      simp [hS.group.sent_step hstep (i := i) (by simp)]
  | _ => simp

/-- A transaction is in a batch of its replica exactly when a tick comes in time. -/
theorem System.included_iff {config : ι → Config} {es : List (ProcessEvent ι)} {S : System ι D}
    (hrun : Machine.exec System.step (System.init config) es = some S) (i : ι)
    (T : Transaction (Origin ι)) :
    Included (S.group.replica i).sent T ↔ TickedInTime (D := D) config es i T := by
  refine Machine.exec_induct (P := fun es S => Included (S.group.replica i).sent T
    ↔ TickedInTime (D := D) config es i T) hrun ?_ ?_
  · refine iff_of_false ?_ ?_
    · rintro ⟨batch, hbatch, -⟩
      cases hbatch
    · rintro ⟨pre, post, S, hes, -⟩
      simp at hes
  · intro es e S S' hS ih hstep
    have hreach : S.Reachable := ⟨config, es, hS⟩
    -- a tick in time is one of before, or the last event
    have hsplit : TickedInTime (D := D) config (es ++ [e]) i T
        ↔ TickedInTime (D := D) config es i T
          ∨ e = .tick i ∧ Unreturned (S.group.history i) T := by
      constructor
      · rintro ⟨pre, post, S₀, hes, hpre, hT⟩
        rcases Occurrence.split_append hes with ⟨post', rfl, -⟩ | ⟨pre', rfl, hlast⟩
        · exact Or.inl ⟨pre, post', S₀, rfl, hpre, hT⟩
        · cases pre' with
          | nil =>
              rw [List.append_nil, hS] at hpre
              obtain rfl := Option.some.inj hpre
              exact Or.inr ⟨(List.cons.inj hlast).1, hT⟩
          | cons e' pre' => simp at hlast
      · rintro (⟨pre, post, S₀, rfl, hpre, hT⟩ | ⟨rfl, hT⟩)
        · exact ⟨pre, post ++ [e], S₀, by simp, hpre, hT⟩
        · exact ⟨es, [], S, rfl, hS, hT⟩
    rw [hsplit, ← ih, ← hreach.group.mem_outstanding_iff]
    unfold Included
    constructor
    · rintro ⟨batch, hbatch, hT⟩
      rcases (System.sent_step hreach hstep i batch).mp hbatch with hold | ⟨he, rfl⟩
      · exact Or.inl ⟨batch, hold, hT⟩
      · exact Or.inr ⟨he, hT⟩
    · rintro (⟨batch, hold, hT⟩ | ⟨he, hT⟩)
      · exact ⟨batch, (System.sent_step hreach hstep i batch).mpr (Or.inl hold), hT⟩
      · exact ⟨_, (System.sent_step hreach hstep i _).mpr (Or.inr ⟨he, rfl⟩), hT⟩

/-- What an exited process leaves behind: apart from `active` the replica is as in the group. -/
theorem System.Reachable.final_eq {S : System ι D} (hS : S.Reachable) {i : ι} {status : Int32}
    {final : Session D (Origin ι)} (hexit : (S.main i).phase = .exited status final) :
    ∃ active, final.toReplica = { S.group.replica i with active := active } := by
  obtain ⟨config, hr⟩ := hS
  refine hr.induct (P := fun S => ∀ status final, (S.main i).phase = .exited status final →
    ∃ active, final.toReplica = { S.group.replica i with active := active }) ?_ ?_ _ _ hexit
  · intro status final h
    cases h
  · intro S e S' hreach hold hstep
    have hgroup : S.group.Reachable := System.Reachable.group ⟨config, hreach⟩
    refine System.step_at hgroup hstep i (P := fun main _ r => ∀ status final,
      main.phase = .exited status final → ∃ active, final.toReplica = { r with active := active })
      hold ?_
    intro main g hp status final hmain
    cases hp with
    | clock i now hle => exact hold _ _ hmain
    | waits i => exact hold _ _ hmain
    | joined i hphase => cases hmain
    | updated i t0 hphase hflag => cases hmain
    | looked i t0 hphase hflag => cases hmain
    | timedOut i t0 g hphase hlong hstep => cases hmain
    | inTime i t0 hphase hshort => cases hmain
    | exits i outcome last main status' final' active hphase hphase' hfinal =>
        rw [hmain] at hphase'
        cases hphase'
        exact ⟨active, hfinal⟩
    -- the other steps need a process that has not exited, or leave one
    | command i outcome last c main g hphase hphase' hstep =>
        rw [hmain] at hphase'
        cases hphase'
    | line i outcome last main hphase hphase' =>
        rw [hmain] at hphase'
        cases hphase'
    | tick i g hphase hstep =>
        rw [hmain] at hphase
        cases hphase
    | deliver i j k g hphase hstep =>
        rw [hmain] at hphase
        cases hphase
    | membership i v info g hphase hstep =>
        rw [hmain] at hphase
        cases hphase

/-- **When leaving drops nothing.** At a process that has left through `exit()`, every deposit and
every interest it has accepted is in a batch it has multicast, exactly if each was followed by a
tick of the timer in time. -/
theorem exit_keeps_updates_iff {config : ι → Config} {es : List (ProcessEvent ι)}
    {S : System ι D} (hrun : Machine.exec System.step (System.init config) es = some S) {i : ι}
    {final : Session D (Origin ι)} (hexit : (S.main i).phase = .exited 0 final) :
    (∀ T ∈ issuedIn (S.group.history i), T.isUpdate = true → Included final.sent T)
      ↔ ∀ T ∈ issuedIn (S.group.history i), T.isUpdate = true →
          TickedInTime (D := D) config es i T := by
  have hS : S.Reachable := ⟨config, es, hrun⟩
  obtain ⟨active, hfinal⟩ := hS.final_eq hexit
  have hsent : final.sent = (S.group.replica i).sent := by rw [hfinal]
  rw [hsent]
  exact forall₃_congr fun T _ _ => System.included_iff hrun i T

end

/-- Every process is started with the expectation of one member, and takes its commands from a
file. -/
def fileConfig (_ : Site) : Config where
  serverAddress := "localhost"
  accountName := "account"
  numReplicas := 1
  commandFile := true
  now := 0
  closeFault := none
  leaveFault := none

/-- The first process learns that it is in the group, finds nobody to give it a balance, and starts
to read its file. -/
def aloneInGroup : List (ProcessEvent Site) :=
  [.membership .alpha 1 ⟨.join, ["#replica#alpha"]⟩, .read .alpha, .read .alpha, .clock .alpha 1,
    .read .alpha]

/-- A file with a deposit, and a tick before its end. -/
theorem exit_keeps_updates_iff_tick :
    let es := aloneInGroup ++ [.input .alpha (.line "deposit 100"), .tick .alpha,
      .input .alpha .endOfStream]
    ∃ (S : System Site ℚ) (final : Session ℚ (Origin Site)) (T : Transaction (Origin Site)),
      Machine.exec System.step (System.init fileConfig) es = some S
        ∧ (S.main .alpha).phase = .exited 0 final
        ∧ issuedIn (S.group.history .alpha) = [T] ∧ T.command = "deposit 100.0"
        ∧ TickedInTime (D := ℚ) fileConfig es .alpha T := by
  intro es
  obtain ⟨S, hrun, hp⟩ := Machine.exists_of_any System.step
    (System.init fileConfig : System Site ℚ) es
    (fun S => (S.main .alpha).phase.ended.any fun x : Int32 × Session ℚ _ => decide (x.1 = 0
      ∧ (issuedIn (S.group.history .alpha)).map (·.command) = ["deposit 100.0"]
      ∧ x.2.sent = [outstandingMessage (issuedIn (S.group.history .alpha))]))
    (by decide +kernel)
  obtain ⟨⟨status, final⟩, hended, hx⟩ := (Option.any_eq_true _ _).mp hp
  obtain ⟨rfl, hcommands, hsent⟩ := of_decide_eq_true hx
  have hphase := Phase.eq_exited hended
  obtain ⟨T, hissued, hcommand⟩ := List.map_eq_singleton_iff.mp hcommands
  have hall : ∀ T' ∈ issuedIn (S.group.history .alpha), T'.isUpdate = true →
      Included final.sent T' :=
    fun T' hT' _ => ⟨_, by rw [hsent]; simp, hT'⟩
  have hupdate : T.isUpdate = true := by
    rw [Transaction.isUpdate, hcommand]
    decide
  have hticked := (exit_keeps_updates_iff hrun hphase).mp hall T (by rw [hissued]; simp) hupdate
  exact ⟨S, final, T, hrun, hphase, hissued, hcommand, hticked⟩

/-- A file with a deposit and nothing else: the process exits before the timer has fired once. -/
theorem exit_drops_deposit :
    ∃ (S : System Site ℚ) (final : Session ℚ (Origin Site)) (T : Transaction (Origin Site)),
      Machine.exec System.step (System.init fileConfig)
          (aloneInGroup ++ [.input .alpha (.line "deposit 100"), .input .alpha .endOfStream])
          = some S
        ∧ (S.main .alpha).phase = .exited 0 final
        ∧ issuedIn (S.group.history .alpha) = [T] ∧ T.command = "deposit 100.0"
        ∧ final.sent = []
        ∧ ¬ ∀ T ∈ issuedIn (S.group.history .alpha), T.isUpdate = true →
            Included final.sent T := by
  obtain ⟨S, hrun, hp⟩ := Machine.exists_of_any System.step
    (System.init fileConfig : System Site ℚ)
    (aloneInGroup ++ [.input .alpha (.line "deposit 100"), .input .alpha .endOfStream])
    (fun S => (S.main .alpha).phase.ended.any fun x : Int32 × Session ℚ _ => decide (x.1 = 0
      ∧ (issuedIn (S.group.history .alpha)).map (·.command) = ["deposit 100.0"]
      ∧ x.2.sent = []))
    (by decide +kernel)
  obtain ⟨⟨status, final⟩, hended, hx⟩ := (Option.any_eq_true _ _).mp hp
  obtain ⟨rfl, hcommands, hsent⟩ := of_decide_eq_true hx
  obtain ⟨T, hissued, hcommand⟩ := List.map_eq_singleton_iff.mp hcommands
  have hupdate : T.isUpdate = true := by
    rw [Transaction.isUpdate, hcommand]
    decide
  refine ⟨S, final, T, hrun, Phase.eq_exited hended, hissued, hcommand, hsent, fun h => ?_⟩
  obtain ⟨batch, hbatch, -⟩ := h T (by rw [hissued]; simp) hupdate
  rw [hsent] at hbatch
  cases hbatch

section

variable {ι D : Type}

/-! ## Joining -/

/-- A balance has been delivered, and with that installed. -/
def BalanceReceived (h : List (Happening ι D)) : Prop :=
  ∃ j k x, .received j k (balanceMessage x) ∈ h

/-- Nothing is multicast before a balance has been delivered. -/
def SentInformed (h : List (Happening ι D)) : Prop :=
  AtEach h fun before x => ∀ m, x = .sent m → BalanceReceived before

/-- The condition on a step, for the process `i`: where it reads the clock in its wait for a balance
and has none, the clock has not moved on from the reading it started with. -/
def WaitsInTime [DecidableEq ι] (i : ι) (S : System ι D) (e : ProcessEvent ι) : Prop :=
  e = .read i → (S.group.replica i).hasUpdatedBalance = false →
    ∀ t0 ∈ (S.main i).phase.timingFrom, Unmoved t0 (S.main i).now

instance decidableWaitsInTime [DecidableEq ι] (i : ι) (S : System ι D) (e : ProcessEvent ι) :
    Decidable (WaitsInTime i S e) :=
  have : Decidable (∀ t0 ∈ (S.main i).phase.timingFrom, Unmoved t0 (S.main i).now) :=
    Option.decidableForallMem _
  inferInstanceAs (Decidable (_ → _ → ∀ t0 ∈ (S.main i).phase.timingFrom,
    Unmoved t0 (S.main i).now))

/-- A replica with the flag on has a balance from somebody, and so has one that multicasts. -/
structure Informed (h : List (Happening ι D)) (r : Replica D (Origin ι)) : Prop where
  flag : r.hasUpdatedBalance = true → BalanceReceived h
  sent : SentInformed h

theorem BalanceReceived.append {h : List (Happening ι D)} (hh : BalanceReceived h)
    (note : List (Happening ι D)) : BalanceReceived (h ++ note) := by
  obtain ⟨j, k, x, hmem⟩ := hh
  exact ⟨j, k, x, List.mem_append_left note hmem⟩

/-- A note in which nothing is sent, or before which a balance has been delivered. -/
theorem SentInformed.append {h note : List (Happening ι D)} (hh : SentInformed h)
    (hnote : ∀ m, .sent m ∈ note → BalanceReceived h) : SentInformed (h ++ note) := by
  refine Occurrence.atEach_append.mpr ⟨hh, fun before x after hsplit m hx => ?_⟩
  have hmem : .sent m ∈ note := by rw [hsplit, hx]; simp
  exact (hnote m hmem).append before

variable [Zero D] [Add D] [Mul D] [Div D] [NatCast D] [DoubleText D]

/-- Every move keeps this, except the end of the wait and a tick where the flag is off. -/
theorem Moves.informed {g : Group ι D} {e : Event ι D} {i : ι} {r' : Replica D (Origin ι)}
    {note : List (Happening ι D)} (hm : Moves g e i r' note)
    (htimeout : e = .timeout i → (g.replica i).hasUpdatedBalance = true)
    (htick : e = .tick i → (g.replica i).hasUpdatedBalance = true)
    (h : Informed (g.history i) (g.replica i)) : Informed (g.history i ++ note) r' := by
  cases hm with
  | command i c origin horigin =>
      refine ⟨fun hflag => ?_, h.sent.append fun m hmem => ?_⟩
      · rw [Command.run_after] at hflag
        exact (h.flag hflag).append _
      · have hin : m ∈ sentIn (commandNote c origin (g.replica i)) := mem_sentIn.mpr hmem
        rw [(commandNote_cases c origin (g.replica i)).2.1] at hin
        cases hin
  | tick i =>
      have hknown := h.flag (htick rfl)
      exact ⟨fun _ => hknown.append _, h.sent.append fun _ _ => hknown⟩
  | batch i j k ts hsent hfresh hwf =>
      refine ⟨fun hflag => (h.flag hflag).append _, h.sent.append fun m hmem => ?_⟩
      simp at hmem
  | balance i j k x hsent hfresh =>
      refine ⟨fun _ => ⟨j, k, x, by simp⟩, h.sent.append fun m hmem => ?_⟩
      simp at hmem
  | membership i v info =>
      refine ⟨fun hflag => ?_, h.sent.append fun m hmem => ?_⟩
      · rw [step_membership] at hflag
        exact (h.flag hflag).append _
      · -- only a replica with the flag on answers a join
        have hanswer : m ∈ joinAnswer info (g.replica i) := by simpa using hmem
        unfold joinAnswer at hanswer
        split at hanswer
        · rename_i hcond
          simp only [Bool.and_eq_true] at hcond
          exact h.flag hcond.2
        · cases hanswer
  | timeout i =>
      refine ⟨fun _ => (h.flag (htimeout rfl)).append _, h.sent.append fun m hmem => ?_⟩
      simp at hmem

theorem Moves.flag_kept {g : Group ι D} {e : Event ι D} {i : ι} {r' : Replica D (Origin ι)}
    {note : List (Happening ι D)} (hm : Moves g e i r' note)
    (h : (g.replica i).hasUpdatedBalance = true) : r'.hasUpdatedBalance = true := by
  cases hm with
  | command i c origin horigin =>
      rw [Command.run_after]
      exact h
  | tick i => exact h
  | batch i j k ts hsent hfresh hwf => exact h
  | balance i j k x hsent hfresh => rfl
  | membership i v info =>
      rw [step_membership]
      exact h
  | timeout i => rfl

variable [DecidableEq ι] [DoubleLong D]

omit [DecidableEq ι] [Zero D] [Add D] [Mul D] [Div D] [NatCast D] [DoubleText D] [DoubleLong D] in
/-- The invariant of a process that waits in time. -/
structure Arrived (main : Main ι D) (h : List (Happening ι D)) (r : Replica D (Origin ι)) :
    Prop where
  informed : Informed h r
  started : main.phase.started = true → r.hasUpdatedBalance = true

omit [DecidableEq ι] [Zero D] [Add D] [Mul D] [Div D] [NatCast D] [DoubleText D] [DoubleLong D] in
theorem Phase.started_of_timerRuns {phase : Phase ι D} (h : phase.timerRuns = true) :
    phase.started = true := by
  rw [Phase.started, Phase.stage_of_timerRuns h]
  rfl

omit [DoubleLong D] in
/-- A step that the process takes itself. -/
theorem Proceeds.arrived {S : System ι D} {e : ProcessEvent ι} {i : ι} {main : Main ι D}
    {g : Group ι D} (h : Proceeds S e i main g) (hS : S.group.Reachable)
    (hwaits : WaitsInTime i S e)
    (hold : Arrived (S.main i) (S.group.history i) (S.group.replica i)) :
    Arrived main (g.history i) (g.replica i) := by
  -- an event of the group that is neither a timeout nor a tick without a balance
  have hmove : ∀ event : Event ι D, event.site = i →
      (event = .timeout i → (S.group.replica i).hasUpdatedBalance = true) →
      (event = .tick i → (S.group.replica i).hasUpdatedBalance = true) →
      (main.phase.started = true → (S.group.replica i).hasUpdatedBalance = true) →
      S.group.step event = some g → Arrived main (g.history i) (g.replica i) := by
    rintro event rfl htimeout htick hstarted hstep
    obtain ⟨r', note, hm, rfl⟩ := hS.step_at hstep
    rw [Group.move_history_self, Group.move_replica_self]
    exact ⟨hm.informed htimeout htick hold.informed,
      fun hphase => hm.flag_kept (hstarted hphase)⟩
  cases h with
  | clock i now hle => exact ⟨hold.informed, hold.started⟩
  | waits i => exact hold
  | joined i hphase => exact ⟨hold.informed, nofun⟩
  | updated i t0 hphase hflag => exact ⟨hold.informed, fun _ => hflag⟩
  | looked i t0 hphase hflag => exact ⟨hold.informed, nofun⟩
  | timedOut i t0 g hphase hlong hstep =>
      -- the balance has come since the look at the flag
      have hflag : (S.group.replica i).hasUpdatedBalance = true := by
        by_contra hoff
        rcases hwaits rfl (by simpa using hoff) t0 (by rw [hphase]; rfl) with hnow | ⟨-, hshort⟩
        · rw [hnow, not_waitedTooLong_self] at hlong
          cases hlong
        · rw [hshort] at hlong
          cases hlong
      exact hmove _ rfl (fun _ => hflag) (by simp) (fun _ => hflag) hstep
  | inTime i t0 hphase hshort => exact ⟨hold.informed, nofun⟩
  | command i outcome last c main g hphase hphase' hstep =>
      have hflag := hold.started (by rw [hphase]; rfl)
      exact hmove _ rfl (by simp) (fun _ => hflag) (fun _ => hflag) hstep
  | line i outcome last main hphase hphase' =>
      exact ⟨hold.informed, fun _ => hold.started (by rw [hphase]; rfl)⟩
  | exits i outcome last main status final active hphase hphase' hfinal =>
      exact ⟨hold.informed, fun _ => hold.started (by rw [hphase]; rfl)⟩
  | tick i g hphase hstep =>
      have hflag := hold.started (Phase.started_of_timerRuns hphase)
      exact hmove _ rfl (by simp) (fun _ => hflag) (fun _ => hflag) hstep
  | deliver i j k g hphase hstep => exact hmove _ rfl (by simp) (by simp) hold.started hstep
  | membership i v info g hphase hstep =>
      exact hmove _ rfl (by simp) (by simp) hold.started hstep

/-- A run in which `i` waits in time. -/
theorem arrived_of_stepsMeet {config : ι → Config} {es : List (ProcessEvent ι)} {S : System ι D}
    {i : ι} (hrun : Machine.exec System.step (System.init config) es = some S)
    (hwaits : Machine.StepsMeet System.step (WaitsInTime i) (System.init config : System ι D) es) :
    Arrived (S.main i) (S.group.history i) (S.group.replica i) := by
  refine hwaits.induct
    (P := fun S => Arrived (S.main i) (S.group.history i) (S.group.replica i)) hrun ?_ ?_
  · exact ⟨⟨nofun, Occurrence.atEach_nil⟩, nofun⟩
  · intro S e S' hreach hold hcond hstep
    have hgroup : S.group.Reachable := System.Reachable.group ⟨config, hreach⟩
    exact System.step_at hgroup hstep i (P := Arrived) hold
      (fun main g hp => hp.arrived hgroup hcond hold)

/-- **When a joiner is brought up to date first.** The wait for a balance is left because of one,
and only then, exactly if the clock has not moved on from `t0` in any pass that looks at the flag
before a balance has arrived; within a minute it has not moved on only if it still shows `t0`. And a
process that always reads the clock in this way while it has no balance multicasts nothing, neither
a batch nor a balance, before a balance has been delivered to it. -/
theorem joiner_waits {τ : Type} :
    (∀ (t0 : Int64) (s : Session D τ) (schedule : List (Moment D τ)),
        (t0 :: readings schedule).Pairwise (· ≤ ·) →
        (LeftUpdated t0 s schedule ↔ ReadsStart t0 s.hasUpdatedBalance schedule))
      ∧ (∀ t0 now : Int64, now.toInt - t0.toInt < 60000 → (Unmoved t0 now ↔ now = t0))
      ∧ ∀ (config : ι → Config) (es : List (ProcessEvent ι)) (S : System ι D) (i : ι),
        Machine.exec System.step (System.init config) es = some S →
        Machine.StepsMeet System.step (WaitsInTime i) (System.init config : System ι D) es →
        SentInformed (S.group.history i) := by
  refine ⟨?_, ?_, ?_⟩
  · intro t0 s schedule hclock
    exact initializeBalance_iff hclock
  · intro t0 now hsoon
    exact unmoved_iff_of_soon hsoon
  · intro config es S i hrun hwaits
    exact (arrived_of_stepsMeet hrun hwaits).informed.sent

end

/-- The first process deposits `100` and has applied it when the second one joins, and answers. -/
def secondJoins : List (ProcessEvent Site) :=
  aloneInGroup ++
    [.input .alpha (.line "deposit 100"), .tick .alpha, .deliver .alpha .alpha 0,
      .membership .alpha 2 ⟨.join, ["#replica#alpha", "#replica#beta"]⟩,
      .membership .beta 2 ⟨.join, ["#replica#alpha", "#replica#beta"]⟩, .read .beta]

/-- The answer arrives in the millisecond in which the joiner has started to wait, between the two
reads of a pass. -/
theorem joiner_waits_sameMillisecond :
    LeftUpdated 0 startedSession [.read 0, .message (balanceMessage 100), .read 0, .read 7]
      ∧ ∃ S : System Site ℚ, S.Reachable
        ∧ sentIn (S.group.history .beta) = [outstandingMessage []]
        ∧ SentInformed (S.group.history .beta) := by
  have hboth := joiner_waits (ι := Site) (D := ℚ) (τ := ℕ)
  refine ⟨(hboth.1 0 startedSession _ ?_).mpr ?_, ?_⟩
  · simp [readings]
  · simp [ReadsStart, clockReadings, Unmoved, balanceMessage]
  · obtain ⟨S, hrun, hp⟩ := Machine.exists_of_any System.step
      (System.init fileConfig : System Site ℚ)
      (secondJoins ++ [.read .beta, .deliver .beta .alpha 1, .read .beta, .clock .beta 7,
        .read .beta, .tick .beta])
      (fun S => decide (sentIn (S.group.history .beta) = [outstandingMessage []]))
      (by decide +kernel)
    refine ⟨S, ⟨_, _, hrun⟩, of_decide_eq_true hp, ?_⟩
    exact hboth.2.2 fileConfig _ S .beta hrun (by decide +kernel)

/-- The joiner's clock moves on by a millisecond before the answer arrives, and a third process
joins: the joiner gives it a balance of `0`. In the second schedule the answer arrives after the
look at the flag, and the loop gives up all the same. -/
theorem joiner_gives_up_after_a_millisecond :
    ¬ LeftUpdated 0 startedSession [.read 0, .read 1, .message (balanceMessage 100)]
      ∧ ¬ LeftUpdated 0 startedSession [.read 0, .message (balanceMessage 100), .read 1]
      ∧ ∃ S : System Site ℚ,
        Machine.exec System.step (System.init fileConfig)
            (secondJoins ++ [.read .beta, .clock .beta 1, .read .beta,
              .membership .beta 3 ⟨.join, ["#replica#alpha", "#replica#beta", "#replica#gamma"]⟩,
              .clock .beta 2, .deliver .beta .alpha 1])
            = some S
          ∧ S.group.history .beta =
            [.viewed 2 ⟨.join, ["#replica#alpha", "#replica#beta"]⟩, .timedOut,
              .viewed 3 ⟨.join, ["#replica#alpha", "#replica#beta", "#replica#gamma"]⟩,
              .sent (balanceMessage 0), .received .alpha 1 (balanceMessage 100)]
          ∧ .sent (balanceMessage 100) ∈ S.group.history .alpha ∧ (S.main .beta).now = 2
          ∧ ¬ SentInformed (S.group.history .beta) := by
  refine ⟨fun h => ?_, fun h => ?_, ?_⟩
  · obtain ⟨hending, -⟩ := h _ _ _ rfl
    cases hending
  · obtain ⟨hending, -⟩ := h _ _ _ rfl
    cases hending
  · obtain ⟨S, hrun, hp⟩ := Machine.exists_of_any System.step
      (System.init fileConfig : System Site ℚ)
      (secondJoins ++ [.read .beta, .clock .beta 1, .read .beta,
        .membership .beta 3 ⟨.join, ["#replica#alpha", "#replica#beta", "#replica#gamma"]⟩,
        .clock .beta 2, .deliver .beta .alpha 1])
      (fun S => decide (S.group.history .beta =
        [.viewed 2 ⟨.join, ["#replica#alpha", "#replica#beta"]⟩, .timedOut,
          .viewed 3 ⟨.join, ["#replica#alpha", "#replica#beta", "#replica#gamma"]⟩,
          .sent (balanceMessage 0), .received .alpha 1 (balanceMessage 100)]
        ∧ .sent (balanceMessage 100) ∈ S.group.history .alpha ∧ (S.main .beta).now = 2))
      (by decide +kernel)
    obtain ⟨hhistory, hanswer, hnow⟩ := of_decide_eq_true hp
    refine ⟨S, hrun, hhistory, hanswer, hnow, fun h => ?_⟩
    rw [hhistory] at h
    obtain ⟨j, k, x, hmem⟩ := h [_, _, _] _ _ rfl _ rfl
    simp at hmem

end SpreadAccount
