import SpreadAccount.Daemon.Messages

set_option autoImplicit false

/-! # The ring comes to rest

When all packets have reached all daemons and no session sends anything, the daemons still have to
find out, by passing the token around, that everything is stable: only then do they deliver the
safe packets and free the array of packets. The leader holds the token back when there is nothing
left to do.

* `settles`: within three rounds of the token every daemon has delivered everything, and every
  session has been handed every message once;
* `held_token`: the leader holds the token only when every daemon has delivered everything.
-/

namespace SpreadAccount.Daemon

open Machine

section

variable {n : ℕ} [NeZero n] {β : Type} [Payload β] {conf : RingConf n} {s s' : Net n β}

/-! ## When everything is stable -/

/-- Every daemon takes all packets for stable. -/
def Net.Stable (s : Net n β) : Prop := ∀ i, (s.daemon i).store.aru = s.log.length

/-- Every daemon has all packets, and nothing waits to be sent. -/
def Net.Quiet (s : Net n β) : Prop :=
  ∀ i, (s.daemon i).store.myAru = s.log.length ∧ (s.daemon i).down.links = []

instance [DecidableEq β] (s : Net n β) : Decidable s.Quiet :=
  inferInstanceAs (Decidable (∀ _, _ ∧ _))

/-- **Everything stable is delivered.** -/
theorem Sane.delivered_of_stable (h : Sane conf s) (hstable : s.Stable) (i : Fin n) :
    (s.daemon i).store.lastDelivered = s.log.length
      ∧ (s.daemon i).store.deliveries.Perm s.log := by
  have hok := h.stored.ok i
  have hdiscarded : (s.daemon i).store.lastDiscarded = s.log.length :=
    (h.stored.discarded i).trans (hstable i)
  refine ⟨le_antisymm (hok.delivered_le.trans (hok.myAru_le.trans hok.highest_le))
    (hdiscarded.ge.trans hok.discarded_le), ?_⟩
  refine (List.perm_ext_iff_of_nodup hok.nodup h.stored.numbered.nodup).mpr fun p => ?_
  refine (hok.mem_deliveries p).trans (and_iff_left_of_imp fun hp => Or.inl ?_)
  rw [hdiscarded]
  exact (h.stored.numbered.getElem? hp).2.2

/-- **Every session has been handed every message**, once, and those that are not reliable ones in
their order, when everything is stable and nothing waits to be sent. -/
theorem Sane.handed_over (h : Sane conf s) (hstable : s.Stable)
    (hdown : ∀ i, (s.daemon i).down.links = []) (i j : Fin n) :
    ∃ u, (s.daemon j).up = some u
      ∧ (u.messagesOf i).Perm ((s.accepted i).map fun l => (l.reliable, l.mess))
      ∧ (u.inOrder.filter fun d => d.proc = i).map Delivered.mess
        = ((s.accepted i).filter fun l => !l.reliable).map DownLink.mess := by
  obtain ⟨hlast, hperm⟩ := h.delivered_of_stable hstable j
  obtain ⟨u, w, w', hu, hw, hagree, horder, -⟩ := h.up_spec j
  rw [hlast, List.take_length] at hw
  have hpending : (s.daemon i).down.marked = [] := by
    rw [DownQueue.marked, DownQueue.pending, hdown i, List.flatMap_nil, List.drop_nil]
    rfl
  -- all fragments of the messages are in the packets
  have hmessages : w.messagesOf i = (s.accepted i).map fun l => (l.reliable, l.mess) := by
    obtain ⟨w₀, hw₀, -, hchain⟩ := exec_deliverPacket_of_stream h.streams.whole fun i => by
      obtain ⟨c, hc, -⟩ := reassemble_of_append
        ((congrArg reassemble (h.streams.stream i)).symm.trans
          (reassemble_accepted (s.accepted i) (h.streams.accepted i)))
      exact ⟨c, hc⟩
    obtain rfl := Option.some.inj (hw.symm.trans hw₀)
    have hall := reassemble_accepted (s.accepted i) (h.streams.accepted i)
    rw [h.streams.stream i, hpending, List.append_nil, hchain i] at hall
    exact congrArg Prod.fst (Option.some.inj hall)
  have hout : u.out.Perm w.out := by
    rcases exec_deliverPacket_ordered s.log with ⟨hnone, -⟩ | ⟨w₀, v', hall⟩
    · rw [hw] at hnone
      cases hnone
    obtain rfl := Option.some.inj (hw.symm.trans hall.all)
    have hwithout := hagree.without
    rw [(h.stored.ok j).inOrder, hlast, List.take_length, hall.without] at hwithout
    obtain rfl := Option.some.inj hwithout
    exact hagree.out.trans ((((hperm.filter _).flatMap_right _).append_left _).trans
      hall.out.symm)
  refine ⟨u, hu, ?_, ?_⟩
  · rw [← hmessages]
    exact (hout.filter _).map _
  · rw [horder, inOrder_eq, hmessages, List.filter_map, List.map_map]
    rfl

/-! ## Rounds without messages -/

/-- Whether no session sends a message. -/
def Event.silent : Event n β → Bool
  | .message .. => false
  | _ => true

omit [NeZero n] [Payload β] in
theorem nextPackets_of_idle [Payload β] {body : ℕ} {me : Fin n} (allowed seq : ℕ) {q : DownQueue β}
    (hq : q.links = []) : nextPackets body me allowed seq q = ([], q) := by
  cases allowed with
  | zero => rfl
  | succ allowed => rw [nextPackets, nextPacket, hq]

theorem accepted_of_silent {e : Event n β} (he : e.silent = true)
    (h : s.step conf e = some s') : s'.accepted = s.accepted := by
  cases e with
  | message i messType mess => cases he
  | packet i k =>
      rw [Net.step] at h
      split at h
      · cases h
      split at h
      · obtain rfl := Option.some.inj h
        rfl
      · cases h
  | token k =>
      rw [Net.step] at h
      split at h
      · cases h
      · obtain rfl := Option.some.inj h
        rfl
  | hurry k =>
      rw [Net.step] at h
      split at h
      · cases h
      · obtain rfl := Option.some.inj h
        rfl
  | hurryTimeout =>
      obtain rfl := Option.some.inj h
      rfl
  | flowControl i window personalWindow acceleratedWindow =>
      obtain rfl := Option.some.inj h
      rfl
  | threshold i threshold =>
      rw [Net.step] at h
      split at h
      · obtain rfl := Option.some.inj h
        rfl
      · cases h
  | reliableEvent i =>
      rw [Net.step] at h
      split at h
      · obtain rfl := Option.some.inj h
        rfl
      · cases h
  | agreedEvent i =>
      rw [Net.step] at h
      split at h
      · obtain rfl := Option.some.inj h
        rfl
      · cases h

/-- The circuit of a ring in which every daemon has everything. -/
def Net.Settling (t₀ : ℕ) (s : Net n β) : Prop :=
  s.Quiet ∧ TokenBound.Settles n t₀ s.hop s.circuit

theorem Sane.settling (h : Sane conf s) (hquiet : s.Quiet) : s.Settling s.hop :=
  ⟨hquiet, TokenBound.Settles.start (fun i => (hquiet i).1) h.circulates.le_hop
    h.circulates.hop_lt (fun _ _ => h.circulates.turn_inj) rfl⟩

/-- **A step without a message.** -/
theorem Sane.settling_step (h : Sane conf s) {t₀ : ℕ} (hs : s.Settling t₀) {e : Event n β}
    (he : Timely s e) (hsilent : e.silent = true) (hstep : s.step conf e = some s') :
    s'.Settling t₀ ∧ s'.log = s.log := by
  obtain ⟨hquiet, hsettles⟩ := hs
  have hs' := h.step he hstep
  have haccepted := accepted_of_silent hsilent hstep
  rcases step_cases hstep with rfl | ⟨i, hcalm⟩ | ⟨k, i, t, rfl, hk, ht⟩
  · exact ⟨⟨hquiet, hsettles⟩, rfl⟩
  · have hdown : ∀ j, (s'.daemon j).down = (s.daemon j).down := fun j => by
      by_cases hj : j = i
      · subst hj
        rcases hcalm.down with ⟨hdown, -⟩ | ⟨l, -, -, hgrown⟩
        · exact hdown
        · rw [haccepted] at hgrown
          have hlen := congrArg (fun f => (f j).length) hgrown
          simp at hlen
      · rw [hcalm.others hj]
    have hmyAru : ∀ j, (s'.daemon j).store.myAru = s.log.length := fun j => by
      have hok := hs'.stored.ok j
      rw [hcalm.log] at hok
      refine le_antisymm (hok.myAru_le.trans hok.highest_le) ?_
      exact (hquiet j).1.ge.trans (hcalm.daemon j).2.2.2.2.2.2.2.1
    refine ⟨⟨fun j => ?_, ?_⟩, hcalm.log⟩
    · rw [hcalm.log, hdown]
      exact ⟨hmyAru j, (hquiet j).2⟩
    · have hhop := h.circulates.calm_hop hcalm
      have hsame : s.circuit.grow i (s'.daemon i).store.myAru = s.circuit := by
        rw [TokenBound.Circuit.grow, Function.update_eq_self_iff.mpr]
        rw [hmyAru]
        exact (hquiet i).1.symm
      rw [hcalm.circuit hhop, hsame, hhop]
      exact hsettles
  · have hage := he t hk
    rw [← ht.dest] at hage
    obtain ⟨hhop, hturn⟩ := h.circulates.fresh ht hage
    have hnew : (s.daemon i).sendNewPackets conf i t = ([], (s.daemon i).down) :=
      nextPackets_of_idle _ _ (hquiet i).2
    have hlog : s'.log = s.log := by
      rw [h.log_taken ht hhop, hnew, List.append_nil]
    have hfilled := (h.takes ht hhop).filled
    have hmyAru : ((s.daemon i).filled conf i t).myAru = s.log.length := by
      refine le_antisymm ?_ ((hquiet i).1.ge.trans hfilled.2.2.2.2.1)
      have hle := hfilled.1.myAru_le.trans hfilled.1.highest_le
      rwa [hnew, List.append_nil] at hle
    have hcircuit := h.circuit_taken ht hhop hturn
    rw [hmyAru, hlog] at hcircuit
    refine ⟨⟨fun j => ?_, ?_⟩, hlog⟩
    · rw [hlog]
      by_cases hj : j = i
      · subst hj
        refine ⟨((congrArg (·.2.1) (h.daemon_taken ht hhop).2.1)).trans hmyAru, ?_⟩
        rw [ht.daemon_self]
        show ((s.daemon j).sendNewPackets conf j t).2.links = []
        rw [hnew]
        exact (hquiet j).2
      · rw [ht.daemon_of_ne hj]
        exact hquiet j
    · rw [hcircuit, (h.holder_taken ht hhop hturn).2]
      exact hsettles.pass hturn (Nat.pos_of_neZero n)

/-- **Within three rounds of the token the ring comes to rest**: when every daemon has every packet
and no session sends a message, then after `3 * n - 1` more turns every daemon has delivered
everything, whatever copies of tokens and packets still arrive, and every session has been handed
every message. -/
theorem settles {I : Install n β conf} {es fs : List (Event n β)}
    (hes : exec (Net.step conf) I.init es = some s) (hquiet : s.Quiet)
    (hfs : exec (Net.step conf) s fs = some s') (hsilent : ∀ e ∈ fs, e.silent = true)
    (htimely : StepsMeet (Net.step conf) Timely I.init (es ++ fs))
    (hhop : s.hop + 3 * n ≤ s'.hop + 1) :
    s'.log = s.log ∧ s'.Stable ∧ (∀ i, (s'.daemon i).store.deliveries.Perm s.log)
      ∧ ∀ i j, ∃ u, (s'.daemon j).up = some u
        ∧ (u.messagesOf i).Perm ((s'.accepted i).map fun l => (l.reliable, l.mess))
        ∧ (u.inOrder.filter fun d => d.proc = i).map Delivered.mess
          = ((s'.accepted i).filter fun l => !l.reliable).map DownLink.mess := by
  have hs : Sane conf s := Sane.of_run hes htimely.left
  have hrest := htimely.right hes
  have hrun : Sane conf s' ∧ s'.Settling s.hop ∧ s'.log = s.log := by
    have hmeet : StepsMeet (Net.step conf) (fun u e => Timely u e ∧ e.silent = true) s fs :=
      fun pre e post t hfs' ht => ⟨hrest pre e post t hfs' ht, hsilent e (by rw [hfs']; simp)⟩
    refine hmeet.induct (P := fun u => Sane conf u ∧ u.Settling s.hop ∧ u.log = s.log) hfs
      ⟨hs, hs.settling hquiet, rfl⟩ ?_
    rintro t e u - ⟨hsane, hsettling, hlog⟩ ⟨he, hquietly⟩ hstep
    obtain ⟨hsettling', hlog'⟩ := hsane.settling_step hsettling he hquietly hstep
    exact ⟨hsane.step he hstep, hsettling', hlog'.trans hlog⟩
  obtain ⟨hs', ⟨hquiet', hsettles⟩, hlog⟩ := hrun
  have hstable : s'.Stable := fun i => hsettles.bound_eq_top hhop i
  refine ⟨hlog, hstable, fun i => ?_, hs'.handed_over hstable fun i => (hquiet' i).2⟩
  rw [← hlog]
  exact (hs'.delivered_of_stable hstable i).2

theorem settles_sample : ∃ s s',
    exec (Net.step Sample.conf) Sample.install.init (Sample.run ++ [.packet 1 3]) = some s
      ∧ exec (Net.step Sample.conf) s (Sample.rest.tail ++ [.token 7]) = some s'
      ∧ s.log.length = 3 ∧ s'.Stable := by
  obtain ⟨s, hs, h⟩ := exists_of_any (Net.step Sample.conf) Sample.install.init
    (Sample.run ++ [.packet 1 3])
    (fun s => s.log.length == 3 && decide s.Quiet
      && (exec (Net.step Sample.conf) s (Sample.rest.tail ++ [.token 7])).any fun s' =>
        decide (s.hop + 3 * 2 ≤ s'.hop + 1)) (by decide +kernel)
  obtain ⟨h, hrest⟩ := Bool.and_eq_true_iff.mp h
  obtain ⟨hlen, hquiet⟩ := Bool.and_eq_true_iff.mp h
  obtain ⟨s', hs', hhop⟩ := (Option.any_eq_true _ _).mp hrest
  exact ⟨s, s', hs, hs', beq_iff_eq.mp hlen, (settles hs (of_decide_eq_true hquiet) hs'
    (by decide) (by decide +kernel) (of_decide_eq_true hhop)).2.1⟩

/-! ## Holding the token

`Token_counter` counts the turns of the leader, without a hurry packet between them, in which it
took everything for stable. -/

/-- **What the leader's count says** while nothing new is sent. -/
structure Counted (s : Net n β) : Prop where
  seq_le : (s.daemon leader).lastToken.seq ≤ s.log.length
  sent : 1 ≤ (s.daemon leader).tokenCounter → s.log.length ≤ (s.daemon leader).lastToken.seq →
    ∀ j, (s.daemon j).lastAru = s.log.length
  bound : 1 ≤ (s.daemon leader).tokenCounter → s.log.length ≤ (s.daemon leader).lastToken.seq →
    ∀ j, (s.daemon leader).lastToken.hop ≤ (s.daemon j).lastToken.hop →
      (s.daemon j).store.aru = s.log.length
  stable : 2 ≤ (s.daemon leader).tokenCounter →
    s.log.length ≤ (s.daemon leader).lastToken.seq → s.Stable

namespace Counted

theorem calm (h : Counted s) {i : Fin n} (hcalm : Calm conf s s' i) : Counted s' := by
  have hcounter : ∀ k, k + 1 ≤ (s'.daemon leader).tokenCounter →
      k + 1 ≤ (s.daemon leader).tokenCounter := by
    intro k hk
    rcases (hcalm.daemon leader).2.2.2.2.1 with heq | hzero <;> omega
  have hseq : (s'.daemon leader).lastToken.seq = (s.daemon leader).lastToken.seq :=
    congrArg (·.2.1) (hcalm.core leader)
  have haru : ∀ j, (s'.daemon j).store.aru = (s.daemon j).store.aru := fun j =>
    (hcalm.daemon j).2.2.2.2.2.1
  refine ⟨?_, fun hc hlen j => ?_, fun hc hlen j hj => ?_, fun hc hlen j => ?_⟩
  · rw [hseq, hcalm.log]
    exact h.seq_le
  · rw [hseq, hcalm.log] at hlen
    rw [hcalm.lastAru, hcalm.log]
    exact h.sent (hcounter 0 hc) hlen j
  · rw [hseq, hcalm.log] at hlen
    rw [hcalm.lastHop, hcalm.lastHop] at hj
    rw [haru, hcalm.log]
    exact h.bound (hcounter 0 hc) hlen j hj
  · rw [hseq, hcalm.log] at hlen
    rw [haru, hcalm.log]
    exact h.stable (hcounter 1 hc) hlen j

variable {i : Fin n} {t : Token n}

/-- The leader takes the token. -/
theorem taken_leader (h : Counted s) (hs : Sane conf s) (ht : Taken conf s s' i t)
    (hage : (s.daemon i).lastToken.hop ≤ t.hop + 15 * n) (hi : i = leader) : Counted s' := by
  obtain ⟨hhop, hturn⟩ := hs.circulates.fresh ht hage
  have hs' := hs.taken ht hage
  have hlen : s.log.length ≤ s'.log.length := by
    rw [hs.log_taken ht hhop, List.length_append]
    exact Nat.le_add_right _ _
  have hsettled : ((s.daemon i).settled conf i t).highestSeq = s'.log.length
      ∧ ((s.daemon i).settled conf i t).aru = (s'.daemon i).store.aru := by
    have htakes := hs.takes ht hhop
    rw [htakes.settled (hs.newAru ht hhop).1, hs.log_taken ht hhop, hs.aru_taken ht hhop]
    exact ⟨htakes.filled.2.1, rfl⟩
  have hcounter : (s'.daemon i).tokenCounter
      = if s'.log.length = (s'.daemon i).store.aru then (s.daemon i).tokenCounter + 1 else 0 := by
    rw [← hsettled.1, ← hsettled.2, ht.daemon_self]
    rfl
  -- a count of one: the leader takes everything for stable
  have haru : 1 ≤ (s'.daemon leader).tokenCounter →
      (s'.daemon leader).store.aru = s'.log.length := by
    rw [← hi, hcounter]
    split
    · rename_i heq
      exact fun _ => heq.symm
    · exact fun hc => absurd hc (by decide)
  have hlast : ∀ j, (s'.daemon leader).lastToken.hop ≤ (s'.daemon j).lastToken.hop →
      j = leader := by
    intro j hj
    have hle := hs'.circulates.le_hop j
    rw [← hi, ← (hs.holder_taken ht hhop hturn).1, hs'.circulates.holder_hop] at hj
    rw [← hi, ← (hs.holder_taken ht hhop hturn).1]
    exact hs'.circulates.holder_eq (le_antisymm hle hj)
  refine ⟨?_, fun hc _ => hs'.bounded.sound.sent_eq_top (haru hc), fun hc _ j hj => ?_,
    fun hc _ j => ?_⟩
  · have hseq := hs'.bounded.holder_seq
    rw [(hs.holder_taken ht hhop hturn).1, hi] at hseq
    exact hseq.le
  · rw [hlast j hj]
    exact haru hc
  · have hall := haru (by omega)
    -- nothing is new since the last turn of the leader
    have hbound : (s'.daemon i).store.aru ≤ (s.daemon i).lastAru := by
      rw [hs.aru_taken ht hhop]
      exact min_le_right _ _
    have hprev := hs.bounded.lastAru_le i
    rw [hi] at hbound hprev
    have hold : 1 ≤ (s.daemon leader).tokenCounter := by
      rw [← hi, hcounter] at hc
      rw [← hi]
      split at hc <;> omega
    by_cases hj : j = i
    · rw [hj, hi]
      exact hall
    · have hturn' : (s.daemon leader).lastToken.hop ≤ (s.daemon j).lastToken.hop := by
        have := hs.circulates.hop_lt j
        have : (s.daemon i).lastToken.hop ≠ (s.daemon j).lastToken.hop := fun heq =>
          hj (hs.circulates.turn_inj heq).symm
        rw [hi] at hturn this
        omega
      have := h.seq_le
      rw [ht.daemon_of_ne hj, h.bound hold (by omega) j hturn']
      omega

/-- Another daemon takes the token. -/
theorem taken_other (h : Counted s) (hs : Sane conf s) (ht : Taken conf s s' i t)
    (hage : (s.daemon i).lastToken.hop ≤ t.hop + 15 * n) (hi : i ≠ leader) : Counted s' := by
  obtain ⟨hhop, hturn⟩ := hs.circulates.fresh ht hage
  have hlen : s.log.length ≤ s'.log.length := by
    rw [hs.log_taken ht hhop, List.length_append]
    exact Nat.le_add_right _ _
  have hleader : s'.daemon leader = s.daemon leader := ht.daemon_of_ne hi.symm
  -- where the count says something, nothing new is sent and the daemon finds the same as before
  have hsame : 1 ≤ (s.daemon leader).tokenCounter →
      s'.log.length ≤ (s.daemon leader).lastToken.seq →
      s'.log.length = s.log.length ∧ (s'.daemon i).lastAru = s.log.length
        ∧ (s'.daemon i).store.aru = s.log.length := by
    intro hc hseq
    have heq : s'.log.length = s.log.length := le_antisymm (hseq.trans h.seq_le) hlen
    have hsent := h.sent hc (heq ▸ hseq)
    have hfilled := (hs.takes ht hhop).filled
    have hmyAru : ((s.daemon i).filled conf i t).myAru = s.log.length := by
      refine le_antisymm ?_ ?_
      · rw [← heq, hs.log_taken ht hhop, ← hfilled.2.1]
        exact hfilled.1.myAru_le
      · rw [← hsent i]
        exact (hs.bounded.sound.sent_le_own i).trans hfilled.2.2.2.2.1
    have hnext : ((s.daemon i).passOn conf i t).aru = s.log.length := by
      rw [(hs.passOn_aru ht hhop).1, hmyAru, TokenBound.Circuit.next]
      split
      · rfl
      · exact hsent s.holder
    refine ⟨heq, (Sane.lastAru_taken ht).trans hnext, ?_⟩
    rw [hs.aru_taken ht hhop, hnext, hsent i, min_self]
  refine ⟨?_, fun hc hseq j => ?_, fun hc hseq j hj => ?_, fun hc hseq j => ?_⟩
  · rw [hleader]
    exact h.seq_le.trans hlen
  · rw [hleader] at hc hseq
    obtain ⟨heq, hlast, -⟩ := hsame hc hseq
    rw [heq]
    by_cases hj : j = i
    · rw [hj]
      exact hlast
    · rw [ht.daemon_of_ne hj]
      exact h.sent hc (heq ▸ hseq) j
  · rw [hleader] at hc hseq hj
    obtain ⟨heq, -, haru⟩ := hsame hc hseq
    rw [heq]
    by_cases hji : j = i
    · rw [hji]
      exact haru
    · rw [ht.daemon_of_ne hji] at hj ⊢
      exact h.bound hc (heq ▸ hseq) j hj
  · rw [hleader] at hc hseq
    obtain ⟨heq, -, haru⟩ := hsame (by omega) hseq
    rw [heq]
    by_cases hj : j = i
    · rw [hj]
      exact haru
    · rw [ht.daemon_of_ne hj]
      exact h.stable hc (heq ▸ hseq) j

theorem step (h : Counted s) (hs : Sane conf s) {e : Event n β} (he : Timely s e)
    (hstep : s.step conf e = some s') : Counted s' := by
  rcases step_cases hstep with rfl | ⟨i, hcalm⟩ | ⟨k, i, t, rfl, hk, ht⟩
  · exact h
  · exact h.calm hcalm
  · have hage := he t hk
    rw [← ht.dest] at hage
    by_cases hi : i = leader
    · exact h.taken_leader hs ht hage hi
    · exact h.taken_other hs ht hage hi

theorem of_run {I : Install n β conf} {es : List (Event n β)}
    (hes : exec (Net.step conf) I.init es = some s)
    (htimely : StepsMeet (Net.step conf) Timely I.init es) : Sane conf s ∧ Counted s := by
  refine htimely.induct (P := fun s => Sane conf s ∧ Counted s) hes ⟨Sane.init I, ?_⟩
    fun _ _ _ _ ⟨hs, h⟩ he hstep => ⟨hs.step he hstep, h.step hs he hstep⟩
  exact ⟨le_rfl, fun hc => absurd hc (Nat.not_succ_le_zero 0),
    fun hc => absurd hc (Nat.not_succ_le_zero 0), fun hc => absurd hc (Nat.not_succ_le_zero 1)⟩

end Counted

/-- The token that the leader has taken is not passed on only if it is held. -/
theorem hold_of_tokens {i : Fin n} {t : Token n} (ht : Taken conf s s' i t)
    (htokens : s'.tokens = s.tokens) : i = leader
      ∧ tokenHold (s.daemon i).lastToken ((s.daemon i).filled conf i t)
        (s.daemon i).tokenCounter = true := by
  rw [ht.eq] at htokens
  have hnone : ((s.daemon i).sends conf i t).filterMap Send.token? = [] :=
    List.append_right_eq_self.mp htokens
  rw [← Bool.and_eq_true_iff.trans (and_congr_left' (decide_eq_true_iff (p := i = leader)))]
  by_contra hpass
  refine absurd (List.filterMap_eq_nil_iff.mp hnone (.token ((s.daemon i).passOn conf i t)) ?_)
    (by simp [Send.token?])
  rw [Prot.sends]
  dsimp only
  rw [if_neg hpass]
  simp [mem_sendToken]

/-- **The leader holds the token only when every daemon has delivered everything**: when a token is
taken and not passed on, no packet is new and all are delivered everywhere. -/
theorem held_token {I : Install n β conf} {es : List (Event n β)} {k : ℕ}
    (hes : exec (Net.step conf) I.init es = some s) (hk : s.step conf (.token k) = some s')
    (htimely : StepsMeet (Net.step conf) Timely I.init (es ++ [.token k]))
    (htaken : s'.hop ≠ s.hop) (hheld : s'.tokens = s.tokens) :
    s'.log = s.log ∧ ∀ i, (s'.daemon i).store.deliveries.Perm s.log := by
  obtain ⟨hs, hcounted⟩ := Counted.of_run hes htimely.left
  have he : Timely s (.token k) := htimely.last hes
  have hgrows := Grows.step hs he hk
  have hs' := hs.step he hk
  rcases step_cases hk with rfl | ⟨i, hcalm⟩ | ⟨k', i, t, heq, hk', ht⟩
  · exact absurd rfl htaken
  · exact absurd (hs.circulates.calm_hop hcalm) htaken
  · obtain rfl := Event.token.inj heq
    have hage := he t hk'
    rw [← ht.dest] at hage
    obtain ⟨hhop, -⟩ := hs.circulates.fresh ht hage
    obtain ⟨hi, hhold⟩ := hold_of_tokens ht hheld
    obtain ⟨-, hhighest, haru, -⟩ := (hs.takes ht hhop).filled
    simp only [tokenHold, Bool.and_eq_true, decide_eq_true_eq, beq_iff_eq] at hhold
    -- the leader takes all packets for stable, the new ones included
    have hall : (s.daemon i).store.aru = s'.log.length := by
      rw [← haru, hhold.1.2, hhighest, hs.log_taken ht hhop]
    have hsent : (s.daemon i).store.aru ≤ s.log.length :=
      (hs.bounded.sound.bound_le_sent i i).trans (hs.bounded.sound.sent_le_top i)
    have hlog : s'.log = s.log :=
      (hgrows.log.eq_of_length_le (by omega)).symm
    have hstable : s.Stable := by
      refine hcounted.stable ?_ ?_
      · rw [← hi]
        exact hhold.2
      · rw [← hi, ← hlog, ← hall]
        exact (hs.bounded.sound.bound_le_sent i i).trans (hs.bounded.lastAru_le i)
    have hstable' : s'.Stable := fun j => by
      refine le_antisymm ?_ ?_
      · exact (hs'.bounded.sound.bound_le_sent j j).trans (hs'.bounded.sound.sent_le_top j)
      · rw [hlog, ← hstable j]
        exact hgrows.aru j
    exact ⟨hlog, fun j => hlog ▸ (hs'.delivered_of_stable hstable' j).2⟩

theorem held_token_sample : ∃ s s',
    exec (Net.step Sample.conf) Sample.install.init
        (Sample.run ++ Sample.rest ++ [.token 7, .token 8, .token 9]) = some s
      ∧ s.step Sample.conf (.token 10) = some s' ∧ s.log.length = 3
      ∧ (s'.daemon 1).store.deliveries.Perm s.log := by
  obtain ⟨s, hs, h⟩ := exists_of_any (Net.step Sample.conf) Sample.install.init
    (Sample.run ++ Sample.rest ++ [.token 7, .token 8, .token 9])
    (fun s => s.log.length == 3
      && (s.step Sample.conf (.token 10)).any fun s' : Net 2 (List UInt8) =>
        decide (s'.hop ≠ s.hop) && decide (s'.tokens = s.tokens)) (by decide +kernel)
  obtain ⟨hlen, h⟩ := Bool.and_eq_true_iff.mp h
  obtain ⟨s', hs', h⟩ := (Option.any_eq_true _ _).mp h
  obtain ⟨htaken, hheld⟩ := Bool.and_eq_true_iff.mp h
  exact ⟨s, s', hs, hs', beq_iff_eq.mp hlen, (held_token hs hs' (by decide +kernel)
    (of_decide_eq_true htaken) (of_decide_eq_true hheld)).2 1⟩

end

end SpreadAccount.Daemon
