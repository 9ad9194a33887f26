import SpreadAccount.Client.Shell
import SpreadAccount.Lib.Occurrence

set_option autoImplicit false

/-! # The main thread: starting up

Between connecting and taking commands the main thread waits twice: `awaitMembers` until the group
is complete, `initializeBalance` until a balance has arrived. Both are busy loops over fields that
the listener writes. A schedule says what happens meanwhile: the messages the listener handles, and
the reads of the main thread among them, each with what the clock shows. A pass of `awaitMembers`
reads the member set; a pass of `initializeBalance` reads the flag and then the clock, and the
listener may handle messages in between. The sleep of `awaitMembers` between two passes is taken to
end without an interrupt.

The first wait counts the member set. `view_current_iff` says for which membership messages this
set is the current view. The second wait is meant to last up to a minute; `initializeBalance_iff`
says what ends it.
-/

namespace SpreadAccount

open Occurrence (AtEach)

/-- What happens while the main thread waits: the listener handles a membership message or a regular
message, or the main thread makes the next read of its loop when the clock shows `now`. -/
inductive Moment (D τ : Type) where
  | view (info : MembershipInfo)
  | message (m : SpreadMessage D τ)
  | read (now : Int64)
  deriving DecidableEq

section

variable {D τ : Type}

/-- What the listener does at a moment. -/
def Moment.event : Moment D τ → Option (Local D τ)
  | .view info => some (.membership info)
  | .message m => some (.regular m)
  | .read _ => none

theorem Moment.eq_read {moment : Moment D τ} (h : moment.event = none) :
    ∃ now, moment = .read now := by
  cases moment with
  | read now => exact ⟨now, rfl⟩
  | _ => cases h

/-- The messages the listener has handled, in order. -/
def listened (schedule : List (Moment D τ)) : List (Local D τ) := schedule.filterMap Moment.event

variable [Zero D] [Add D] [Mul D] [Div D] [NatCast D] [DoubleText D]

/-! ## Waiting for the members -/

omit [Zero D] [Add D] [Mul D] [Div D] [NatCast D] [DoubleText D] in
/-- `members.size() < numReplicas`. -/
def Replica.membersMissing (r : Replica D τ) : Bool :=
  decide ((r.members.card : ℤ) < r.numReplicas.toInt)

/-- The loop of `awaitMembers`: the session when it ends, and what is left of the schedule. -/
def awaitMembersLoop (s : Session D τ) :
    List (Moment D τ) → Option (Session D τ × List (Moment D τ))
  | [] => none
  | .view info :: rest =>
      awaitMembersLoop { s with toReplica := s.toReplica.step (.membership info) } rest
  | .message m :: rest =>
      awaitMembersLoop { s with toReplica := s.toReplica.step (.regular m) } rest
  | .read _ :: rest => if s.membersMissing then awaitMembersLoop s rest else some (s, rest)

/-- `awaitMembers()`; `none` while it has not returned. -/
def awaitMembers (s : Session D τ) (schedule : List (Moment D τ)) :
    Option (Session D τ × List (Moment D τ)) :=
  match awaitMembersLoop ((notify .awaitingMembers).after s) schedule with
  | none => none
  | some (s, rest) => some ((notify .allJoined).after s, rest)

/-! ## The current view -/

omit [Zero D] [Add D] [Mul D] [Div D] [NatCast D] [DoubleText D] in
/-- The membership messages among the events, in order. -/
def viewsOf (es : List (Local D τ)) : List MembershipInfo :=
  es.filterMap fun
    | .membership info => some info
    | _ => none

omit [Zero D] [Add D] [Mul D] [Div D] [NatCast D] [DoubleText D] in
/-- The members in the latest message, or those the replica has if there was none. -/
def currentView (r : Replica D τ) (views : List MembershipInfo) : Finset String :=
  match views.getLast? with
  | some info => info.members.toFinset
  | none => r.members

/-- The member set is the current view throughout: at every moment of a run, in what `memberInfo`
prints there, and at the moment where `awaitMembers` returns. -/
structure ViewCurrent (s : Session D τ) (es : List (Local D τ)) : Prop where
  members : ∀ pre, pre <+: es →
    (s.toReplica.run pre).members = currentView s.toReplica (viewsOf pre)
  printed : ∀ pre, pre <+: es → (memberInfo.after (s.toReplica.run pre)).out
    = (s.toReplica.run pre).out ++ [.memberInfo (currentView s.toReplica (viewsOf pre))]
  awaited : ∀ schedule s' rest, listened schedule <+: es →
    awaitMembers s schedule = some (s', rest) → ∃ pre now, schedule = pre ++ .read now :: rest
      ∧ s.numReplicas.toInt ≤ (currentView s.toReplica (viewsOf (listened pre))).card

omit [Zero D] [Add D] [Mul D] [Div D] [NatCast D] [DoubleText D] in
/-- The condition on the messages: one that neither a join nor a leave has caused carries the
members of the message before it. -/
def ViewsKept (r : Replica D τ) (views : List MembershipInfo) : Prop :=
  AtEach views fun before info => info.isCausedByJoin = false → info.isCausedByLeave = false →
    info.members.toFinset = currentView r before

instance decidableViewsKept (r : Replica D τ) (views : List MembershipInfo) :
    Decidable (ViewsKept r views) := Occurrence.decidableAtEach views _

/-! ## What the events do to the member set -/

theorem foldl_insert_eq (names : List String) (start : Finset String) :
    names.foldl (fun ms m => insert m ms) start = start ∪ names.toFinset := by
  induction names generalizing start with
  | nil => simp
  | cons name names ih =>
      rw [List.foldl_cons, ih, List.toFinset_cons]
      ext x
      simp only [Finset.mem_union, Finset.mem_insert]
      tauto

omit [Zero D] [Add D] [Mul D] [Div D] [NatCast D] [DoubleText D] in
theorem membersAfter_eq {r : Replica D τ} (hactive : r.active = true) (info : MembershipInfo) :
    membersAfter info r
      = if info.isCausedByJoin || info.isCausedByLeave then info.members.toFinset
        else r.members := by
  unfold membersAfter
  rw [hactive, Bool.true_and, foldl_insert_eq, Finset.empty_union]

/-- Only membership messages write the member set, and no event writes the other two fields. -/
theorem step_members (r : Replica D τ) (e : Local D τ) :
    (r.step e).active = r.active ∧ (r.step e).numReplicas = r.numReplicas
      ∧ (r.step e).members = match e with
        | .membership info => membersAfter info r
        | _ => r.members := by
  cases e with
  | command c origin =>
      have hc : r.step (.command c origin) = (c.run origin).after r := rfl
      rw [hc, Command.run_after]
      exact ⟨rfl, rfl, rfl⟩
  | tick =>
      rw [step_tick]
      exact ⟨rfl, rfl, rfl⟩
  | regular m =>
      obtain ⟨collection, flag, naive, out, hafter⟩ := regularMessageReceived_frame m r
      have hm : r.step (.regular m) = (regularMessageReceived m).after r := rfl
      rw [hm, hafter]
      exact ⟨rfl, rfl, rfl⟩
  | membership info =>
      rw [step_membership]
      exact ⟨rfl, rfl, rfl⟩
  | timeout =>
      rw [step_timeout]
      exact ⟨rfl, rfl, rfl⟩

theorem run_concat (r : Replica D τ) (es : List (Local D τ)) (e : Local D τ) :
    r.run (es ++ [e]) = (r.run es).step e := by
  rw [Replica.run, List.foldl_append]
  rfl

theorem run_fixed (r : Replica D τ) (es : List (Local D τ)) :
    (r.run es).active = r.active ∧ (r.run es).numReplicas = r.numReplicas := by
  induction es using List.reverseRecOn with
  | nil => exact ⟨rfl, rfl⟩
  | append_singleton es e ih =>
      obtain ⟨hactive, hnum, -⟩ := step_members (r.run es) e
      rw [run_concat]
      exact ⟨hactive.trans ih.1, hnum.trans ih.2⟩

omit [Zero D] [Add D] [Mul D] [Div D] [NatCast D] [DoubleText D] in
theorem viewsOf_append (es fs : List (Local D τ)) :
    viewsOf (es ++ fs) = viewsOf es ++ viewsOf fs := List.filterMap_append

omit [Zero D] [Add D] [Mul D] [Div D] [NatCast D] [DoubleText D] in
@[simp] theorem currentView_concat (r : Replica D τ) (views : List MembershipInfo)
    (info : MembershipInfo) : currentView r (views ++ [info]) = info.members.toFinset := by
  rw [currentView, List.getLast?_concat]

/-- One event: where the member set is the current view before it, it is so after it exactly when
the event meets the condition. -/
theorem step_current_iff {r r' : Replica D τ} {views : List MembershipInfo}
    (hactive : r'.active = true) (hcurrent : r'.members = currentView r views) (e : Local D τ) :
    (r'.step e).members = currentView r (views ++ viewsOf [e])
      ↔ AtEach (viewsOf [e]) fun before info => info.isCausedByJoin = false →
          info.isCausedByLeave = false →
          info.members.toFinset = currentView r (views ++ before) := by
  obtain ⟨-, -, hmembers⟩ := step_members r' e
  rw [hmembers]
  by_cases hview : ∃ info, e = .membership info
  · obtain ⟨info, rfl⟩ := hview
    have hone : viewsOf [(.membership info : Local D τ)] = [info] := rfl
    rw [hone, Occurrence.atEach_singleton, List.append_nil, currentView_concat]
    dsimp only
    rw [membersAfter_eq hactive, hcurrent]
    cases info.isCausedByJoin <;> cases info.isCausedByLeave <;> simp [eq_comm]
  · have hno : viewsOf [e] = [] := by
      cases e <;> first | rfl | exact absurd ⟨_, rfl⟩ hview
    rw [hno, List.append_nil]
    refine iff_of_true ?_ Occurrence.atEach_nil
    rw [← hcurrent]
    cases e <;> first | rfl | exact absurd ⟨_, rfl⟩ hview

/-- A whole run, by induction on its last event. -/
theorem run_current_iff {r : Replica D τ} (hactive : r.active = true) (es : List (Local D τ)) :
    (∀ pre, pre <+: es → (r.run pre).members = currentView r (viewsOf pre))
      ↔ ViewsKept r (viewsOf es) := by
  induction es using List.reverseRecOn with
  | nil =>
      refine iff_of_true (fun pre hpre => ?_) Occurrence.atEach_nil
      rw [List.prefix_nil.mp hpre]
      rfl
  | append_singleton es e ih =>
      have hlast : (∀ pre, pre <+: es ++ [e] → (r.run pre).members = currentView r (viewsOf pre))
          ↔ (∀ pre, pre <+: es → (r.run pre).members = currentView r (viewsOf pre))
            ∧ (r.run (es ++ [e])).members = currentView r (viewsOf (es ++ [e])) := by
        constructor
        · exact fun h => ⟨fun pre hpre => h pre (hpre.trans (List.prefix_append es [e])),
            h _ (List.prefix_refl _)⟩
        · rintro ⟨hes, hall⟩ pre hpre
          rcases List.prefix_concat_iff.mp hpre with rfl | hpre
          · exact hall
          · exact hes pre hpre
      rw [hlast, ih, ViewsKept, ViewsKept, viewsOf_append, Occurrence.atEach_append]
      refine and_congr_right fun hkept => ?_
      have hcurrent := ih.mpr hkept es (List.prefix_refl es)
      have hactive' : (r.run es).active = true := (run_fixed r es).1.trans hactive
      rw [run_concat]
      exact step_current_iff hactive' hcurrent e

/-! ## Where `awaitMembers` returns -/

/-- The loop returns at a read that finds enough members in the set. -/
theorem awaitMembersLoop_eq_some {s s' : Session D τ} {schedule rest : List (Moment D τ)}
    (h : awaitMembersLoop s schedule = some (s', rest)) :
    ∃ pre now, schedule = pre ++ .read now :: rest
      ∧ s.numReplicas.toInt ≤ (s.toReplica.run (listened pre)).members.card := by
  induction schedule generalizing s with
  | nil => cases h
  | cons moment schedule ih =>
      have hlisten : ∀ e : Local D τ, moment.event = some e →
          awaitMembersLoop { s with toReplica := s.toReplica.step e } schedule = some (s', rest) →
          ∃ pre now, moment :: schedule = pre ++ .read now :: rest
            ∧ s.numReplicas.toInt ≤ (s.toReplica.run (listened pre)).members.card := by
        intro e he hrest
        obtain ⟨pre, now, hschedule, hcard⟩ := ih hrest
        refine ⟨moment :: pre, now, by rw [hschedule, List.cons_append], ?_⟩
        have hrun : s.toReplica.run (listened (moment :: pre))
            = (s.toReplica.step e).run (listened pre) := by
          rw [listened, List.filterMap_cons_some he]
          rfl
        rw [hrun, ← (step_members s.toReplica e).2.1]
        exact hcard
      cases moment with
      | view info => exact hlisten _ rfl h
      | message m => exact hlisten _ rfl h
      | read now =>
          rw [awaitMembersLoop] at h
          by_cases hmissing : s.membersMissing = true
          · rw [if_pos hmissing] at h
            obtain ⟨pre, now', hschedule, hcard⟩ := ih h
            exact ⟨.read now :: pre, now', by rw [hschedule, List.cons_append], hcard⟩
          · rw [if_neg hmissing] at h
            obtain ⟨-, rfl⟩ := Prod.mk.inj (Option.some.inj h)
            refine ⟨[], now, rfl, ?_⟩
            have hle : ¬ (s.members.card : ℤ) < s.numReplicas.toInt := by
              simpa [Replica.membersMissing] using hmissing
            exact not_lt.mp hle

theorem awaitMembers_eq_some {s s' : Session D τ} {schedule rest : List (Moment D τ)}
    (h : awaitMembers s schedule = some (s', rest)) :
    ∃ pre now, schedule = pre ++ .read now :: rest
      ∧ s.numReplicas.toInt ≤ (s.toReplica.run (listened pre)).members.card := by
  unfold awaitMembers at h
  cases hloop : awaitMembersLoop ((notify .awaitingMembers).after s) schedule with
  | none =>
      rw [hloop] at h
      cases h
  | some found =>
      obtain ⟨s'', rest'⟩ := found
      rw [hloop] at h
      obtain ⟨-, rfl⟩ := Prod.mk.inj (Option.some.inj h)
      exact awaitMembersLoop_eq_some (s := (notify .awaitingMembers).after s) hloop

/-- **For which membership messages the member set is the current view.** -/
theorem view_current_iff {s : Session D τ} (hactive : s.active = true) (es : List (Local D τ)) :
    ViewCurrent s es ↔ ViewsKept s.toReplica (viewsOf es) := by
  have hrun := run_current_iff (r := s.toReplica) hactive es
  constructor
  · exact fun h => hrun.mp h.members
  · intro hkept
    have hmembers := hrun.mpr hkept
    refine ⟨hmembers, fun pre hpre => ?_, fun schedule s' rest hschedule hawait => ?_⟩
    · rw [← hmembers pre hpre]
      rfl
    · obtain ⟨pre, now, rfl, hcard⟩ := awaitMembers_eq_some hawait
      have hpre : listened pre <+: es := by
        refine List.IsPrefix.trans ?_ hschedule
        rw [listened, listened, List.filterMap_append]
        exact List.prefix_append _ _
      rw [hmembers _ hpre] at hcard
      exact ⟨pre, now, rfl, hcard⟩

end

/-- A join, a network change that leaves everybody in, and a leave. -/
theorem view_current_iff_join_leave :
    ViewCurrent startedSession
      [.membership ⟨.join, ["a", "b"]⟩, .membership ⟨.network, ["b", "a"]⟩,
        .membership ⟨.leave, ["a"]⟩] :=
  (view_current_iff rfl _).mpr (by decide)

/-- A replica is killed. The member set keeps it: `memberInfo` still prints it, and `awaitMembers`
returns although the view has one member. -/
theorem killed_member_kept :
    let es : List (Local ℚ ℕ) :=
      [.membership ⟨.join, ["a", "b"]⟩, .membership ⟨.disconnect, ["a"]⟩]
    let schedule : List (Moment ℚ ℕ) :=
      [.view ⟨.join, ["a", "b"]⟩, .view ⟨.disconnect, ["a"]⟩, .read 0]
    (startedSession.toReplica.run es).members = {"a", "b"}
      ∧ (awaitMembers startedSession schedule).isSome
      ∧ ¬ ViewCurrent startedSession es := by
  refine ⟨by decide, by decide, fun h => ?_⟩
  exact absurd (h.members _ (List.prefix_refl _)) (by decide)

section

variable {D τ : Type}

/-! ## Waiting for a balance -/

/-- `(System.currentTimeMillis() - t0) * 1000 >= 60`, on `long`. -/
def waitedTooLong (t0 now : Int64) : Bool := decide ((now - t0) * 1000 ≥ 60)

/-- How the wait for a balance ends: a balance has arrived, or the loop gives up. -/
inductive WaitEnd where
  | updated
  | timedOut
  deriving DecidableEq

/-- What the loop of `initializeBalance` reads next: the flag, or the clock. -/
inductive Look where
  | flag
  | clock
  deriving DecidableEq

/-- The message brings a balance. -/
def Moment.bringsBalance : Moment D τ → Bool
  | .message m => decide (m.type = balanceUpdate)
  | _ => false

/-- What the clock shows at the reads. -/
def readings (schedule : List (Moment D τ)) : List Int64 :=
  schedule.filterMap fun
    | .read now => some now
    | _ => none

variable [Zero D] [Add D] [Mul D] [Div D] [NatCast D] [DoubleText D]

/-- The loop of `initializeBalance`, from one of its two reads on: how it ends, the session then,
and what is left of the schedule. -/
def initializeBalanceLoop (t0 : Int64) (look : Look) (s : Session D τ) :
    List (Moment D τ) → Option (WaitEnd × Session D τ × List (Moment D τ))
  | [] => none
  | .view info :: rest =>
      initializeBalanceLoop t0 look { s with toReplica := s.toReplica.step (.membership info) } rest
  | .message m :: rest =>
      initializeBalanceLoop t0 look { s with toReplica := s.toReplica.step (.regular m) } rest
  | .read now :: rest =>
      match look with
      | .flag =>
          if s.hasUpdatedBalance then some (.updated, s, rest)
          else initializeBalanceLoop t0 .clock s rest
      | .clock =>
          if waitedTooLong t0 now then
            some (.timedOut, { s with toReplica := s.toReplica.step .timeout }, rest)
          else initializeBalanceLoop t0 .flag s rest

/-- `initializeBalance()` after its first statement, which has read `t0`; `none` while it has not
returned. -/
def initializeBalance (t0 : Int64) (s : Session D τ) (schedule : List (Moment D τ)) :
    Option (WaitEnd × Session D τ × List (Moment D τ)) :=
  initializeBalanceLoop t0 .flag s schedule

/-- The loop is left because a balance has arrived, and only then. -/
def LeftUpdated (t0 : Int64) (s : Session D τ) (schedule : List (Moment D τ)) : Prop :=
  ∀ ending s' rest, initializeBalance t0 s schedule = some (ending, s', rest) →
    ending = .updated ∧ ∃ before now, schedule = before ++ .read now :: rest
      ∧ (s.hasUpdatedBalance = true ∨ ∃ moment ∈ before, moment.bringsBalance = true)

omit [Zero D] [Add D] [Mul D] [Div D] [NatCast D] [DoubleText D] in
/-- What is read from the clock in the passes whose look at the flag comes before a balance is
known. -/
def clockReadings : Bool → Look → List (Moment D τ) → List Int64
  | _, _, [] => []
  | known, look, .view _ :: rest => clockReadings known look rest
  | known, look, .message m :: rest =>
      clockReadings (known || decide (m.type = balanceUpdate)) look rest
  | known, .flag, .read _ :: rest => if known then [] else clockReadings known .clock rest
  | known, .clock, .read now :: rest => now :: clockReadings known .flag rest

/-- The clock shows `t0`, or a time so much later that the product has overflowed and is small
again. -/
def Unmoved (t0 now : Int64) : Prop :=
  now = t0 ∨ 2 ^ 63 ≤ (now.toInt - t0.toInt) * 1000 ∧ waitedTooLong t0 now = false

instance (t0 now : Int64) : Decidable (Unmoved t0 now) :=
  inferInstanceAs (Decidable (_ ∨ _))

omit [Zero D] [Add D] [Mul D] [Div D] [NatCast D] [DoubleText D] in
/-- The condition on the clock: in every pass whose look at the flag comes before a balance is known
it has not moved on from `t0`. -/
def ReadsStart (t0 : Int64) (known : Bool) (schedule : List (Moment D τ)) : Prop :=
  ∀ now ∈ clockReadings known .flag schedule, Unmoved t0 now

omit [Zero D] [Add D] [Mul D] [Div D] [NatCast D] [DoubleText D] in
instance (t0 : Int64) (known : Bool) (schedule : List (Moment D τ)) :
    Decidable (ReadsStart t0 known schedule) :=
  inferInstanceAs (Decidable (∀ now ∈ clockReadings known .flag schedule, Unmoved t0 now))

/-! ## The unit of the clock -/

theorem not_waitedTooLong_self (t0 : Int64) : waitedTooLong t0 t0 = false := by
  rw [waitedTooLong, Int64.sub_self, Int64.zero_mul]
  decide

/-- The difference of two readings, times `1000`, reaches `60` as soon as it is not `0`: the
readings are in milliseconds, and the product is in microseconds. -/
theorem waitedTooLong_iff {t0 now : Int64} (hle : t0 ≤ now)
    (hsoon : (now.toInt - t0.toInt) * 1000 < 2 ^ 63) : waitedTooLong t0 now = true ↔ now ≠ t0 := by
  have hle' : t0.toInt ≤ now.toInt := Int64.le_iff_toInt_le.mp hle
  have h1000 : (1000 : Int64).toInt = 1000 := by decide
  have h60 : (60 : Int64).toInt = 60 := by decide
  have hsub : (now - t0).toInt = now.toInt - t0.toInt := by
    rw [Int64.toInt_sub]
    exact Int.bmod_eq_of_le (by omega) (by omega)
  have hmul : ((now - t0) * 1000).toInt = (now.toInt - t0.toInt) * 1000 := by
    rw [Int64.toInt_mul, hsub, h1000]
    exact Int.bmod_eq_of_le (by omega) (by omega)
  rw [waitedTooLong, decide_eq_true_eq, ge_iff_le, Int64.le_iff_toInt_le, hmul, h60, ne_eq,
    ← Int64.toInt_inj]
  omega

theorem not_waitedTooLong_iff {t0 now : Int64} (hle : t0 ≤ now) :
    waitedTooLong t0 now = false ↔ Unmoved t0 now := by
  constructor
  · intro hshort
    by_cases hsoon : (now.toInt - t0.toInt) * 1000 < 2 ^ 63
    · refine Or.inl (not_not.mp fun hne => ?_)
      rw [(waitedTooLong_iff hle hsoon).mpr hne] at hshort
      cases hshort
    · exact Or.inr ⟨not_lt.mp hsoon, hshort⟩
  · rintro (rfl | ⟨-, hshort⟩)
    · exact not_waitedTooLong_self _
    · exact hshort

/-- Within a minute the clock has not moved on only if it still shows `t0`. -/
theorem unmoved_iff_of_soon {t0 now : Int64} (hsoon : now.toInt - t0.toInt < 60000) :
    Unmoved t0 now ↔ now = t0 :=
  or_iff_left fun h => by omega

/-! ## What ends the wait -/

/-- The flag after an event. -/
theorem step_hasUpdatedBalance (r : Replica D τ) (e : Local D τ) :
    (r.step e).hasUpdatedBalance = (r.hasUpdatedBalance || match e with
      | .regular m => decide (m.type = balanceUpdate)
      | .timeout => true
      | _ => false) := by
  cases e with
  | command c origin =>
      have hc : r.step (.command c origin) = (c.run origin).after r := rfl
      rw [hc, Command.run_after, Bool.or_false]
  | tick => rw [step_tick, Bool.or_false]
  | regular m =>
      obtain ⟨collection, flag, naive, out, hafter⟩ := regularMessageReceived_frame m r
      have hm : r.step (.regular m) = (regularMessageReceived m).after r := rfl
      rw [hm, hafter]
  | membership info => rw [step_membership, Bool.or_false]
  | timeout => rw [step_timeout, Bool.or_true]

/-- A moment of the listener: the loop goes on with what the listener has left. -/
theorem initializeBalance_listen {moment : Moment D τ} {e : Local D τ} (t0 : Int64) (look : Look)
    (he : moment.event = some e) (s : Session D τ) (rest : List (Moment D τ)) :
    initializeBalanceLoop t0 look s (moment :: rest)
        = initializeBalanceLoop t0 look { s with toReplica := s.toReplica.step e } rest
      ∧ (s.toReplica.step e).hasUpdatedBalance
        = (s.hasUpdatedBalance || moment.bringsBalance)
      ∧ clockReadings s.hasUpdatedBalance look (moment :: rest)
        = clockReadings (s.hasUpdatedBalance || moment.bringsBalance) look rest := by
  have hflag := step_hasUpdatedBalance s.toReplica e
  cases moment with
  | view info =>
      obtain rfl := Option.some.inj he
      exact ⟨rfl, hflag, by simp [clockReadings, Moment.bringsBalance]⟩
  | message m =>
      obtain rfl := Option.some.inj he
      exact ⟨rfl, hflag, by simp [clockReadings, Moment.bringsBalance]⟩
  | read now => cases he

/-- The loop finds the flag on only after a balance has arrived. -/
theorem initializeBalance_updated {t0 : Int64} {look : Look} {s s' : Session D τ}
    {schedule rest : List (Moment D τ)}
    (h : initializeBalanceLoop t0 look s schedule = some (.updated, s', rest)) :
    ∃ before now, schedule = before ++ .read now :: rest
      ∧ (s.hasUpdatedBalance = true ∨ ∃ moment ∈ before, moment.bringsBalance = true) := by
  induction schedule generalizing s look with
  | nil => cases h
  | cons moment schedule ih =>
      -- a read after which the loop goes on
      have hread : ∀ look', initializeBalanceLoop t0 look' s schedule = some (.updated, s', rest) →
          ∃ before now, moment :: schedule = before ++ .read now :: rest
            ∧ (s.hasUpdatedBalance = true ∨ ∃ m ∈ before, m.bringsBalance = true) := by
        intro look' h'
        obtain ⟨before, now, hschedule, hknown⟩ := ih h'
        refine ⟨moment :: before, now, by rw [hschedule, List.cons_append], ?_⟩
        rcases hknown with hknown | ⟨earlier, hmem, hbrings⟩
        · exact Or.inl hknown
        · exact Or.inr ⟨earlier, by simp [hmem], hbrings⟩
      cases he : moment.event with
      | some e =>
          obtain ⟨hstep, hflag, -⟩ := initializeBalance_listen t0 look he s schedule
          obtain ⟨before, now, hschedule, hknown⟩ := ih (hstep ▸ h)
          refine ⟨moment :: before, now, by rw [hschedule, List.cons_append], ?_⟩
          rw [hflag, Bool.or_eq_true] at hknown
          rcases hknown with (hknown | hbrings) | ⟨earlier, hmem, hbrings⟩
          · exact Or.inl hknown
          · exact Or.inr ⟨moment, by simp, hbrings⟩
          · exact Or.inr ⟨earlier, by simp [hmem], hbrings⟩
      | none =>
          obtain ⟨now, rfl⟩ := Moment.eq_read he
          cases look with
          | flag =>
              rw [initializeBalanceLoop] at h
              by_cases hflag : s.hasUpdatedBalance = true
              · rw [if_pos hflag] at h
                obtain ⟨-, rfl⟩ : s = s' ∧ schedule = rest := by simpa using h
                exact ⟨[], now, rfl, Or.inl hflag⟩
              · rw [if_neg hflag] at h
                exact hread _ h
          | clock =>
              rw [initializeBalanceLoop] at h
              by_cases hlong : waitedTooLong t0 now = true
              · rw [if_pos hlong] at h
                simp at h
              · rw [if_neg hlong] at h
                exact hread _ h

/-- The loop is never left through the timeout exactly when the clock has not moved on at any read
of it in a pass that has found the flag off. -/
theorem initializeBalance_not_timedOut_iff {t0 : Int64} {look : Look} {s : Session D τ}
    {schedule : List (Moment D τ)}
    (hclock : ∀ now ∈ readings schedule, waitedTooLong t0 now = false ↔ Unmoved t0 now) :
    (∀ ending s' rest, initializeBalanceLoop t0 look s schedule = some (ending, s', rest) →
        ending = .updated)
      ↔ ∀ now ∈ clockReadings s.hasUpdatedBalance look schedule, Unmoved t0 now := by
  induction schedule generalizing s look with
  | nil => exact iff_of_true nofun nofun
  | cons moment schedule ih =>
      have hlater : ∀ now ∈ readings schedule, waitedTooLong t0 now = false ↔ Unmoved t0 now := by
        intro now hnow
        refine hclock now ?_
        cases moment with
        | read now' => exact List.mem_cons_of_mem _ hnow
        | _ => exact hnow
      cases he : moment.event with
      | some e =>
          obtain ⟨hstep, hflag, hreadings⟩ := initializeBalance_listen t0 look he s schedule
          rw [hstep, hreadings, ← hflag]
          exact ih hlater
      | none =>
          obtain ⟨now, rfl⟩ := Moment.eq_read he
          cases look with
          | flag =>
              rw [initializeBalanceLoop, clockReadings]
              by_cases hflag : s.hasUpdatedBalance = true
              · rw [if_pos hflag, if_pos hflag]
                refine iff_of_true (fun ending s' rest hend => ?_) nofun
                exact (Prod.mk.inj (Option.some.inj hend)).1.symm
              · rw [if_neg hflag, if_neg hflag]
                exact ih hlater
          | clock =>
              have hhere := hclock now (by simp [readings])
              rw [initializeBalanceLoop, clockReadings, List.forall_mem_cons, ← hhere]
              by_cases hlong : waitedTooLong t0 now = true
              · rw [if_pos hlong]
                refine iff_of_false (fun h => ?_) fun h => ?_
                · cases h _ _ _ rfl
                · rw [hlong] at h
                  cases h.1
              · rw [if_neg hlong, and_iff_right (by simpa using hlong)]
                exact ih hlater

/-- **What ends the wait**: it is left because of a balance, and only then, exactly when the clock
has not moved on from `t0` in any pass whose look at the flag comes before the balance. -/
theorem initializeBalance_iff {t0 : Int64} {s : Session D τ} {schedule : List (Moment D τ)}
    (hclock : (t0 :: readings schedule).Pairwise (· ≤ ·)) :
    LeftUpdated t0 s schedule ↔ ReadsStart t0 s.hasUpdatedBalance schedule := by
  have hreading : ∀ now ∈ readings schedule, waitedTooLong t0 now = false ↔ Unmoved t0 now :=
    fun now hnow => not_waitedTooLong_iff ((List.pairwise_cons.mp hclock).1 now hnow)
  have hnever : (∀ ending s' rest, initializeBalanceLoop t0 .flag s schedule
        = some (ending, s', rest) → ending = .updated)
      ↔ ReadsStart t0 s.hasUpdatedBalance schedule :=
    initializeBalance_not_timedOut_iff hreading
  rw [← hnever]
  constructor
  · exact fun h ending s' rest hend => (h ending s' rest hend).1
  · intro h ending s' rest hend
    obtain rfl := h ending s' rest hend
    exact ⟨rfl, initializeBalance_updated hend⟩

end

end SpreadAccount
