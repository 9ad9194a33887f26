import SpreadAccount.Daemon.Safety
import Mathlib.Algebra.BigOperators.Group.Finset.Piecewise
import Mathlib.Algebra.Order.BigOperators.Group.Finset
import Mathlib.Data.Fintype.BigOperators

set_option autoImplicit false

/-! # Flow control

`flow_control` on the token is to be the number of packets that were sent in the last round, new
ones and retransmissions. Each daemon takes off what it added in its last turn and adds what it
sends in this one, in sixteen bits.

* `flow_control_counts`: it is this number, up to overflow, in every state of every run;
* `windows_kept`: new packets are sent only within the windows;
* `accelerated_agrees`: an accelerated ring sends what a plain one sends, some of it after the
  token.
-/

namespace SpreadAccount.Daemon

open Machine

section

variable {n : ℕ} {β : Type}

/-- What the daemons have sent in their last turns. -/
def Net.lastRound (s : Net n β) : ℤ :=
  ∑ i, ((s.daemon i).lastNumRetrans + (s.daemon i).lastNumSent : ℤ)

variable [NeZero n] [Payload β] {conf : RingConf n} {s s' : Net n β}

/-- **The token counts the packets of the last round.** -/
def Net.Counts (s : Net n β) : Prop :=
  (s.daemon s.holder).lastToken.flowControl = BitVec.ofInt 16 s.lastRound

omit [NeZero n] in
theorem Calm.lastRound {i : Fin n} (h : Calm conf s s' i) : s'.lastRound = s.lastRound :=
  Finset.sum_congr rfl fun j _ => by rw [(h.daemon j).2.2.1, (h.daemon j).2.2.2.1]

/-- What is sent in a turn takes the place of what was sent in the turn before. -/
theorem Taken.lastRound {i : Fin n} {t : Token n} (h : Taken conf s s' i t) :
    s'.lastRound = s.lastRound - (s.daemon i).lastNumRetrans - (s.daemon i).lastNumSent
      + ((s.daemon i).answer conf i t).sends.length
      + ((s.daemon i).sendNewPackets conf i t).1.length := by
  have hself : s'.daemon i = (acceptToken conf i t (s.daemon i)).1 := h.daemon_self
  have hothers : ∑ j ∈ Finset.univ.erase i,
        ((s'.daemon j).lastNumRetrans + (s'.daemon j).lastNumSent : ℤ)
      = ∑ j ∈ Finset.univ.erase i,
        ((s.daemon j).lastNumRetrans + (s.daemon j).lastNumSent : ℤ) :=
    Finset.sum_congr rfl fun j hj => by rw [h.daemon_of_ne (Finset.ne_of_mem_erase hj)]
  have hsplit := Finset.add_sum_erase Finset.univ
    (fun j => ((s.daemon j).lastNumRetrans + (s.daemon j).lastNumSent : ℤ)) (Finset.mem_univ i)
  have hsplit' := Finset.add_sum_erase Finset.univ
    (fun j => ((s'.daemon j).lastNumRetrans + (s'.daemon j).lastNumSent : ℤ)) (Finset.mem_univ i)
  rw [hothers, hself] at hsplit'
  rw [Net.lastRound, Net.lastRound, ← hsplit, ← hsplit']
  show ((((s.daemon i).answer conf i t).sends.length : ℤ)
    + ((s.daemon i).sendNewPackets conf i t).1.length) + _ = _
  omega

/-- **One step keeps the count.** -/
theorem Sane.counts_step (h : Sane conf s) (hs : s.Counts) {e : Event n β} (he : Timely s e)
    (hstep : s.step conf e = some s') : s'.Counts := by
  rcases step_cases hstep with rfl | ⟨i, hcalm⟩ | ⟨k, i, t, rfl, hk, ht⟩
  · exact hs
  · have hholder : s'.holder = s.holder := congrArg daemonAt (h.circulates.calm_hop hcalm)
    have hcore : (s'.daemon s.holder).lastToken.flowControl
        = (s.daemon s.holder).lastToken.flowControl :=
      congrArg (·.2.2.2.2.1) (hcalm.core s.holder)
    rw [Net.Counts, hholder, hcore, hcalm.lastRound]
    exact hs
  · have hage := he t hk
    rw [← ht.dest] at hage
    obtain ⟨hhop, hturn⟩ := h.circulates.fresh ht hage
    have hflow : t.flowControl = BitVec.ofInt 16 s.lastRound := (h.token_eq ht hhop).2.2.2.trans hs
    have hnew : (s'.daemon i).lastToken.flowControl
        = BitVec.ofInt 16 (t.flowControl.toInt - (s.daemon i).lastNumRetrans
          - (s.daemon i).lastNumSent + ((s.daemon i).answer conf i t).sends.length
          + ((s.daemon i).sendNewPackets conf i t).1.length) := by
      rw [ht.daemon_self]
      rfl
    -- the sixteen bits are those of the sum
    have hadd : ∀ d : ℤ, BitVec.ofInt 16 (t.flowControl.toInt + d)
        = BitVec.ofInt 16 (s.lastRound + d) := fun d => by
      rw [BitVec.ofInt_add, BitVec.ofInt_toInt, hflow, ← BitVec.ofInt_add]
    have hsum : ∀ x a b c d : ℤ, x - a - b + c + d = x + (c + d - a - b) := by
      intros
      omega
    rw [Net.Counts, (h.holder_taken ht hhop hturn).1, hnew, ht.lastRound, hsum, hadd, hsum]

/-- **The invariant with the count.** -/
theorem Sane.counts_of_run {I : Install n β conf} {es : List (Event n β)}
    (hes : exec (Net.step conf) I.init es = some s)
    (htimely : StepsMeet (Net.step conf) Timely I.init es) : Sane conf s ∧ s.Counts := by
  refine htimely.induct (P := fun s => Sane conf s ∧ s.Counts) hes ⟨Sane.init I, ?_⟩
    fun _ _ _ _ ⟨hs, h⟩ he hstep => ⟨hs.step he hstep, hs.counts_step h he hstep⟩
  show (0 : BitVec 16) = BitVec.ofInt 16 (∑ _i : Fin n, ((0 : ℕ) + (0 : ℕ) : ℤ))
  simp

/-- **`flow_control` on the last token is the number of packets sent in the last round**, in
sixteen bits. -/
theorem flow_control_counts {I : Install n β conf} {es : List (Event n β)}
    (hes : exec (Net.step conf) I.init es = some s)
    (htimely : StepsMeet (Net.step conf) Timely I.init es) :
    (s.daemon s.holder).lastToken.flowControl
      = BitVec.ofInt 16 (∑ i, ((s.daemon i).lastNumRetrans + (s.daemon i).lastNumSent : ℤ)) :=
  (Sane.counts_of_run hes htimely).2

theorem flow_control_counts_sample : ∃ s,
    exec (Net.step Sample.conf) Sample.install.init Sample.run = some s
      ∧ (s.daemon s.holder).lastToken.flowControl = 2
      ∧ (s.daemon s.holder).lastToken.flowControl
        = BitVec.ofInt 16 (∑ i, ((s.daemon i).lastNumRetrans + (s.daemon i).lastNumSent : ℤ)) := by
  obtain ⟨s, hs, h⟩ := exists_of_any (Net.step Sample.conf) Sample.install.init Sample.run
    (fun s => (s.daemon s.holder).lastToken.flowControl == 2) (by decide +kernel)
  exact ⟨s, hs, beq_iff_eq.mp h, flow_control_counts hs (by decide +kernel)⟩

/-- **New packets are sent only within the windows**: a daemon that sends some is not more than
`MAX_SEQ_GAP` behind, sends no more than its windows allow, and what was sent in the last round
together with the new packets is not more than both windows. -/
theorem windows_kept {I : Install n β conf} {es : List (Event n β)} {k : ℕ}
    (hes : exec (Net.step conf) I.init es = some s) (hk : s.step conf (.token k) = some s')
    (htimely : StepsMeet (Net.step conf) Timely I.init (es ++ [.token k]))
    (hnew : s'.log ≠ s.log) (hround : s.lastRound < 2 ^ 15) :
    s.log.length ≤ (s.daemon s'.holder).store.aru + maxSeqGap
      ∧ (s'.log.length - s.log.length : ℤ)
        ≤ min (s.daemon s'.holder).flow.window (s.daemon s'.holder).flow.personalWindow
      ∧ s.lastRound + (s'.log.length - s.log.length : ℤ)
        ≤ (s.daemon s'.holder).flow.window + (s.daemon s'.holder).flow.personalWindow := by
  obtain ⟨hs, hcounts⟩ := Sane.counts_of_run hes htimely.left
  have he : Timely s (.token k) := htimely.last hes
  rcases step_cases hk with rfl | ⟨i, hcalm⟩ | ⟨k', i, t, heq, hk', ht⟩
  · exact absurd rfl hnew
  · exact absurd hcalm.log hnew
  · obtain rfl := Event.token.inj heq
    have hage := he t hk'
    rw [← ht.dest] at hage
    obtain ⟨hhop, hturn⟩ := hs.circulates.fresh ht hage
    have hlog := hs.log_taken ht hhop
    have hsent : ((s.daemon i).sendNewPackets conf i t).1 ≠ [] := fun hnil =>
      hnew (by rw [hlog, hnil, List.append_nil])
    have hflow : t.flowControl.toInt = s.lastRound := by
      have hpos : 0 ≤ s.lastRound := Finset.sum_nonneg fun j _ => by omega
      rw [(hs.token_eq ht hhop).2.2.2.trans hcounts]
      exact BitVec.toInt_ofInt_eq_self (by decide) (by omega) (by omega)
    have hcount : (s'.log.length - s.log.length : ℤ)
        = ((s.daemon i).sendNewPackets conf i t).1.length := by
      rw [hlog, List.length_append]
      omega
    rw [(hs.holder_taken ht hhop hturn).1, hcount, ← hflow]
    exact hs.allowed ht hhop hsent

theorem windows_kept_sample : ∃ s s',
    exec (Net.step Sample.conf) Sample.install.init (Sample.run.take 7) = some s
      ∧ s.step Sample.conf (.token 1) = some s' ∧ s.lastRound = 2 ∧ s'.log.length = 3
      ∧ s.lastRound + (s'.log.length - s.log.length : ℤ)
        ≤ (s.daemon s'.holder).flow.window + (s.daemon s'.holder).flow.personalWindow := by
  obtain ⟨s, hs, h⟩ := exists_of_any (Net.step Sample.conf) Sample.install.init
    (Sample.run.take 7)
    (fun s => decide (s.lastRound = 2) && s.log.length == 2
      && (s.step Sample.conf (.token 1)).any fun s' : Net 2 (List UInt8) => s'.log.length == 3)
    (by decide +kernel)
  obtain ⟨h, hstep⟩ := Bool.and_eq_true_iff.mp h
  obtain ⟨hround, hlen⟩ := Bool.and_eq_true_iff.mp h
  obtain ⟨s', hs', hlen'⟩ := (Option.any_eq_true _ _).mp hstep
  rw [beq_iff_eq] at hlen hlen'
  have hround := of_decide_eq_true hround
  refine ⟨s, s', hs, hs', hround, hlen', ?_⟩
  refine (windows_kept hs hs' (by decide +kernel) (fun heq => ?_) (by rw [hround]; decide)).2.2
  rw [heq, hlen] at hlen'
  cases hlen'

end

/-! ## The accelerated ring -/

section

variable {n : ℕ} {β : Type}

/-- How many packets wait until the token is sent: as many as the window says, but at least one
unless it is zero. -/
theorem queueBcasts_length_le (window : ℤ) (ps queue : List (Packet n β))
    (hqueue : (queue.length : ℤ) ≤ max window 1) (hzero : window = 0 → queue = []) :
    ((queueBcasts true window ps queue).2.length : ℤ) ≤ max window 1
      ∧ (window = 0 → (queueBcasts true window ps queue).2 = []) := by
  induction ps generalizing queue with
  | nil => exact ⟨hqueue, hzero⟩
  | cons p ps ih =>
      rw [queueBcasts]
      dsimp only
      refine ih _ ?_ ?_
      · rw [queueBcast, if_pos rfl]
        dsimp only
        split
        · rw [List.length_drop]
          omega
        · rw [List.length_append, List.length_drop, List.length_singleton]
          split_ifs <;> omega
      · rintro rfl
        rw [hzero rfl]
        rfl

/-- Without acceleration nothing waits. -/
theorem queueBcasts_plain (window : ℤ) (ps : List (Packet n β)) :
    queueBcasts false window ps [] = (ps, []) := by
  have hnone : ∀ ps : List (Packet n β), (queueBcasts false window ps []).2 = [] := by
    intro ps
    induction ps with
    | nil => rfl
    | cons p ps ih => exact ih
  have happend := queueBcasts_append false window ps []
  rw [hnone, List.append_nil, List.nil_append] at happend
  exact Prod.ext happend (hnone ps)

/-- Whether a daemon takes a token does not depend on the acceleration, nor does what it does with a
token that it does not take. -/
theorem handleToken_agrees [NeZero n] [Payload β] (conf conf' : RingConf n) (me : Fin n)
    (t : Token n) (s : Prot n β) :
    (handleToken conf me t s = acceptToken conf me t s
        ∧ handleToken conf' me t s = acceptToken conf' me t s)
      ∨ handleToken conf me t s = handleToken conf' me t s := by
  simp only [handleToken]
  split_ifs
  all_goals first | exact Or.inl ⟨rfl, rfl⟩ | exact Or.inr rfl

/-- **The accelerated ring does what the plain one does**, and sends some packets later: the same
packets go to the same places in the same order, but the last of them follow the token, at most
`Accelerated_window` of them (one if that is negative). The state differs only in the requests on
the token. Both rings take the same tokens, and do the same with those that they do not take. -/
theorem accelerated_agrees [NeZero n] [Payload β] (conf : RingConf n) (me : Fin n) (t : Token n)
    (s : Prot n β) :
    let fast := { conf with accelerated := true }
    let plain := { conf with accelerated := false }
    let pass := fun t' : Token n =>
      if me = leader && tokenHold s.lastToken (s.filled conf me t) s.tokenCounter then []
      else sendToken (β := β) t'
    (∃ before after, s.sends fast me t
        = before ++ pass (s.passOn fast me t) ++ after.map (Send.packet Dest.all)
      ∧ s.sends plain me t
        = before ++ after.map (Send.packet Dest.all) ++ pass (s.passOn plain me t)
      ∧ (after.length : ℤ) ≤ max s.flow.acceleratedWindow 1
      ∧ (s.flow.acceleratedWindow = 0 → after = []))
    ∧ (acceptToken fast me t s).1
      = { (acceptToken plain me t s).1 with lastToken := s.passOn fast me t }
    ∧ { s.passOn fast me t with rtr := [] } = { s.passOn plain me t with rtr := [] }
    ∧ (handleToken fast me t s = acceptToken fast me t s
        ∧ handleToken plain me t s = acceptToken plain me t s
      ∨ handleToken fast me t s = handleToken plain me t s) := by
  dsimp only
  refine ⟨⟨_, _, rfl, ?_, queueBcasts_length_le _ _ [] (by simp) fun _ => rfl⟩, rfl, rfl,
    handleToken_agrees _ _ me t s⟩
  -- what is sent before the token and what waits are the new packets
  have hnew := queueBcasts_append true s.flow.acceleratedWindow (s.sendNewPackets conf me t).1 []
  rw [List.nil_append] at hnew
  have hplain := queueBcasts_plain s.flow.acceleratedWindow (s.sendNewPackets conf me t).1
  rw [Prot.sends]
  dsimp only
  rw [show (s.sendNewPackets { conf with accelerated := false } me t).1
    = (s.sendNewPackets conf me t).1 from rfl, hplain, List.map_nil, List.append_nil,
    List.append_assoc _ (List.map _ _) (List.map _ _), ← List.map_append]
  exact congrArg (fun ps => _ ++ List.map _ ps ++ _) hnew.symm

/-- Two messages wait at the first daemon when the token arrives. -/
theorem accelerated_agrees_sample : ∃ (s : Net 2 (List UInt8)) (t : Token 2),
    exec (Net.step Sample.conf) Sample.install.init (Sample.run.take 5) = some s
      ∧ s.tokens[0]? = some t ∧ (s.daemon 0).down.links.length = 2
      ∧ (acceptToken { Sample.conf with accelerated := true } 0 t (s.daemon 0)).1
        = { (acceptToken { Sample.conf with accelerated := false } 0 t (s.daemon 0)).1 with
            lastToken := (s.daemon 0).passOn { Sample.conf with accelerated := true } 0 t } := by
  obtain ⟨s, hs, h⟩ := exists_of_any (Net.step Sample.conf) Sample.install.init (Sample.run.take 5)
    (fun s => s.tokens[0]?.isSome && (s.daemon 0).down.links.length == 2) (by decide +kernel)
  obtain ⟨ht, hlen⟩ := Bool.and_eq_true_iff.mp h
  obtain ⟨t, ht⟩ := Option.isSome_iff_exists.mp ht
  exact ⟨s, t, hs, ht, beq_iff_eq.mp hlen, (accelerated_agrees Sample.conf 0 t (s.daemon 0)).2.1⟩

end

end SpreadAccount.Daemon
