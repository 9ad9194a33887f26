import SpreadAccount.Daemon.Safety

set_option autoImplicit false

/-! # Lost packets are sent again

A daemon that misses packets puts requests for them on the token. A daemon that has such a packet
sends it where the request says: to one daemon, to its segment or to all. A daemon that has not
replaces the requests by its own, and asks for the answers to go to a set of daemons that includes
those that asked before.

* `missing_kept`: a packet that some daemon misses is still in the array of its sender;
* `missing_sent_again`: unless a token is lost, what a daemon misses in its turn is sent again, to
  where it is, before its next turn.
-/

namespace SpreadAccount.Daemon

open Machine

section

variable {n : ℕ} {β : Type} {conf : RingConf n}

/-! ## Whom an answer reaches -/

/-- The answers to the requests reach the daemon `j`. -/
structure RingRtr.Serves (conf : RingConf n) (j : Fin n) (r : RingRtr n) : Prop where
  proc : ∀ i ∈ r.procId, i = j
  seg : ∀ x ∈ r.segIndex, conf.segIndex j = x

theorem RingRtr.Serves.reaches {j : Fin n} {r : RingRtr n} (h : r.Serves conf j) :
    r.dest.reaches conf j = true := by
  rw [RingRtr.dest]
  cases hproc : r.procId with
  | some i => simp [Dest.reaches, h.proc i (by rw [hproc]; rfl)]
  | none =>
      cases hseg : r.segIndex with
      | some x => simp [Dest.reaches, h.seg x (by rw [hseg]; rfl)]
      | none => rfl

/-- The requests with the sequence numbers `seqs` that a daemon makes after its answer. -/
def Answer.request (a : Answer n β) (seqs : List ℕ) : RingRtr n := ⟨a.procId, a.segIndex, seqs⟩

/-- A daemon asks for answers that reach itself. -/
theorem answerRetrans_serves_self (me : Fin n) (t : Token n) (s : Store n β) (seqs : List ℕ) :
    ((answerRetrans conf me t s).request seqs).Serves conf me := by
  refine ⟨fun i hi => ?_, fun x hx => ?_⟩
  · change i ∈ (if _ then some me else none) at hi
    split at hi
    · exact (Option.some.inj hi).symm
    · cases hi
  · change x ∈ (if _ then some (conf.segIndex me) else none) at hx
    split at hx
    · exact Option.some.inj hx
    · cases hx

/-- A daemon that cannot answer a request asks for answers that reach whom that answer was to
reach. -/
theorem answerRetrans_serves {me j : Fin n} {t : Token n} {s : Store n β} {r : RingRtr n} {q : ℕ}
    (hr : r ∈ t.rtr) (hq : q ∈ r.seqs) (hmiss : s.packets (entry q) = none)
    (hserves : r.Serves conf j) (seqs : List ℕ) :
    ((answerRetrans conf me t s).request seqs).Serves conf j := by
  have hmem : (r, q) ∈ t.requests.filter fun req => (s.packets (entry req.2)).isNone :=
    List.mem_filter.mpr ⟨List.mem_flatMap.mpr ⟨r, hr, List.mem_map.mpr ⟨q, hq, rfl⟩⟩,
      by rw [hmiss]; rfl⟩
  refine ⟨fun i hi => ?_, fun x hx => ?_⟩
  · change i ∈ (if List.isEmpty _ then some me else none) at hi
    split at hi
    · rename_i hempty
      rw [List.isEmpty_iff.mp hempty] at hmem
      cases hmem
    · cases hi
  · change x ∈ (if List.all _ _ then some (conf.segIndex me) else none) at hx
    split at hx
    · rename_i hall
      have hseg := beq_iff_eq.mp (List.all_eq_true.mp hall _ hmem)
      rw [← Option.some.inj hx]
      exact hserves.seg _ hseg
    · cases hx

/-- A request that can be answered is. -/
theorem mem_answerRetrans {me : Fin n} {t : Token n} {s : Store n β} {r : RingRtr n} {q : ℕ}
    {slot : Slot n β} (hr : r ∈ t.rtr) (hq : q ∈ r.seqs) (hs : s.packets (entry q) = some slot) :
    .packet r.dest slot.packet ∈ (answerRetrans conf me t s).sends :=
  List.mem_filterMap.mpr ⟨(r, q), List.mem_flatMap.mpr ⟨r, hr, List.mem_map.mpr ⟨q, hq, rfl⟩⟩,
    by rw [hs]; rfl⟩

/-- A daemon requests all packets it misses, as many as there may be. -/
theorem mem_ownRequests {s : Store n β} {a : Answer n β} {maxRtrSeq q : ℕ} (hlow : s.myAru < q)
    (hle : q ≤ maxRtrSeq) (hroom : maxRtrSeq ≤ s.myAru + maxPacketsInStruct)
    (hmiss : s.packets (entry q) = none) :
    ∃ seqs, q ∈ seqs ∧ a.request seqs ∈ ownRequests s a maxRtrSeq := by
  rw [ownRequests, if_pos (hlow.trans_le hle)]
  refine ⟨_, ?_, List.mem_singleton.mpr rfl⟩
  rw [List.take_of_length_le]
  · refine List.mem_filter.mpr ⟨List.mem_range'_1.mpr ⟨hlow, by omega⟩, by rw [hmiss]; rfl⟩
  · refine (List.length_filter_le _ _).trans ?_
    rw [List.length_range']
    simp only [maxPacketsInStruct, retransAllowed] at *
    omega

/-- Creating packets puts only these into the array. -/
theorem creates_packets {s : Store n β} {ps : List (Packet n β)} {e : ℕ} {slot : Slot n β}
    (h : (ps.foldl Store.create s).packets e = some slot) :
    slot.packet ∈ ps ∨ s.packets e = some slot := by
  induction ps generalizing s with
  | nil => exact Or.inr h
  | cons p ps ih =>
      rcases ih h with hmem | hs
      · exact Or.inl (List.mem_cons_of_mem _ hmem)
      · have hput : (s.create p).packets = (s.put (entry p.seq) (some ⟨p, false⟩)).packets := by
          rw [Store.create]
          split <;> rfl
        rw [hput] at hs
        rcases Store.Ok.packets_put hs with ⟨-, rfl⟩ | ⟨-, hs⟩
        · exact Or.inl (by simp)
        · exact Or.inr hs

end

section

variable {n : ℕ} [NeZero n] {β : Type} [Payload β] {conf : RingConf n} {s s' s'' : Net n β}

/-! ## What is missing is kept -/

/-- A daemon has a packet in its entry while a daemon misses it, if it has it at all. -/
theorem Sane.slot_of_has (h : Sane conf s) {i : Fin n} {p : Packet n β} (hp : p ∈ s.log)
    (hlow : (s.daemon i).store.lastDiscarded < p.seq) (hhas : (s.daemon i).store.Has p) :
    ∃ slot, (s.daemon i).store.packets (entry p.seq) = some slot ∧ slot.packet = p :=
  (((h.stored.ok i).has_iff hp).mp hhas).resolve_left (not_le.mpr hlow)

/-- **A packet that some daemon misses is still in the array of its sender.** -/
theorem missing_kept {I : Install n β conf} {es : List (Event n β)}
    (hes : exec (Net.step conf) I.init es = some s)
    (htimely : StepsMeet (Net.step conf) Timely I.init es) {p : Packet n β} (hp : p ∈ s.log)
    {j : Fin n} (hmiss : ¬ (s.daemon j).store.Has p) :
    ∃ slot, (s.daemon p.proc).store.packets (entry p.seq) = some slot ∧ slot.packet = p := by
  have hs : Sane conf s := Sane.of_run hes htimely
  refine hs.slot_of_has hp ?_ (hs.stored.sender p hp)
  by_contra hle
  rw [hs.stored.discarded p.proc, not_lt] at hle
  exact hmiss ((hs.stored.ok j).has_of_le hs.stored.numbered hp
    (hle.trans (hs.bounded.sound.bound_le_own p.proc j)))

theorem missing_kept_sample : ∃ s, ∃ p : Packet 2 (List UInt8), ∃ slot,
    exec (Net.step Sample.conf) Sample.install.init Sample.run = some s ∧ p ∈ s.log
      ∧ ¬ (s.daemon 1).store.Has p
      ∧ (s.daemon p.proc).store.packets (entry p.seq) = some slot ∧ slot.packet = p := by
  obtain ⟨s, hs, h⟩ := exists_of_any (Net.step Sample.conf) Sample.install.init Sample.run
    (fun s => s.log.any fun p => decide ((s.daemon 1).store.lastDiscarded < p.seq)
      && ((s.daemon 1).store.packets (entry p.seq)).isNone) (by decide +kernel)
  have htimely : StepsMeet (Net.step Sample.conf) Timely Sample.install.init Sample.run := by
    decide +kernel
  obtain ⟨p, hp, h⟩ := List.any_eq_true.mp h
  obtain ⟨hlow, hnone⟩ := Bool.and_eq_true_iff.mp h
  have hmiss : ¬ (s.daemon 1).store.Has p := fun hhas => by
    obtain ⟨slot, hslot, -⟩ := (Sane.of_run hs htimely).slot_of_has hp (of_decide_eq_true hlow) hhas
    rw [hslot] at hnone
    cases hnone
  obtain ⟨slot, hslot, hpacket⟩ := missing_kept hs htimely hp hmiss
  exact ⟨s, p, slot, hs, hp, hmiss, hslot, hpacket⟩

/-! ## Requests in a turn -/

/-- The packets that a daemon may request in its turn: in an accelerated ring those up to the
sequence number on the token of the turn before, else all. -/
def Net.MayRequest (conf : RingConf n) (s : Net n β) (q : ℕ) : Prop :=
  conf.accelerated = true → ∀ i, q ≤ (s.daemon i).lastToken.seq

variable {i : Fin n} {t : Token n} {p : Packet n β}

/-- What a daemon misses before it creates packets it misses after it. -/
theorem Sane.filled_eq_none (h : Sane conf s) (ht : Taken conf s s' i t) (hhop : t.hop = s.hop)
    (hp : p ∈ s.log) (hlow : (s.daemon i).store.aru < p.seq)
    (hmiss : (s.daemon i).store.packets (entry p.seq) = none) :
    ((s.daemon i).filled conf i t).packets (entry p.seq) = none := by
  have htakes := h.takes ht hhop
  have hfilled := htakes.filled
  rw [Option.eq_none_iff_forall_ne_some]
  intro slot hslot
  have hlen := (h.stored.numbered.getElem? hp).2.2
  have hseq := hfilled.1.seq_of_entry (q := p.seq) (by rw [hfilled.2.2.2.1]; exact hlow)
    (by rw [List.length_append]; omega) hslot
  rcases creates_packets (e := entry p.seq) hslot with hmem | hold
  · obtain ⟨k, hk⟩ := List.mem_iff_getElem?.mp hmem
    have := (htakes.newPackets k _ hk).2
    omega
  · exact absurd (hold.symm.trans hmiss) (by simp)

/-- **A daemon that misses a packet in its turn requests it.** -/
theorem Sane.requests_missing (h : Sane conf s) (ht : Taken conf s s' i t) (hhop : t.hop = s.hop)
    (hp : p ∈ s'.log) (hlow : (s.daemon i).store.aru < p.seq)
    (hmiss : ((s.daemon i).filled conf i t).packets (entry p.seq) = none)
    (hmay : s.MayRequest conf p.seq) :
    ∃ seqs, p.seq ∈ seqs
      ∧ ((s.daemon i).answer conf i t).request seqs ∈ ((s.daemon i).passOn conf i t).rtr := by
  obtain ⟨hok, hhigh, -, hdiscarded, -⟩ := (h.takes ht hhop).filled
  rw [h.log_taken ht hhop] at hp
  have hlen := ((h.takes ht hhop).numbered_append.getElem? hp).2.2
  have hmyAru : ((s.daemon i).filled conf i t).myAru < p.seq := by
    by_contra hle
    obtain ⟨slot, hslot⟩ := hok.present p.seq (hdiscarded.trans_lt hlow) (not_lt.mp hle)
    rw [hmiss] at hslot
    cases hslot
  have hgap := hok.gap
  have hdelivered := hok.discarded_le.trans hok.delivered_le
  have hseq : (s.daemon i).lastToken.seq ≤ (s.daemon i).store.aru + maxPacketsInStruct / 2 :=
    h.bounded.seq_le i
  refine mem_ownRequests hmyAru ?_ ?_ hmiss
  · split
    · rename_i haccelerated
      exact hmay haccelerated i
    · exact hlen.trans_eq hhigh.symm
  · split
    · simp only [maxPacketsInStruct] at *
      omega
    · rw [hhigh]
      omega

/-! ## A round -/

/-- No token is sent but by a daemon that takes one: none is lost and sent again. -/
def NotAgain (conf : RingConf n) (s : Net n β) (e : Event n β) : Prop :=
  ∀ s' ∈ s.step conf e, s'.hop = s.hop → s'.tokens = s.tokens

instance (s : Net n β) (e : Event n β) : Decidable (NotAgain conf s e) := by
  unfold NotAgain
  infer_instance

/-- The daemon `j` has requested the packet `p` in its turn at the hop `h₀`, has had no turn since,
and the request is on its way. -/
structure Requested (conf : RingConf n) (j : Fin n) (p : Packet n β) (h₀ : ℕ) (s : Net n β) :
    Prop where
  mem : p ∈ s.log
  turn : (s.daemon j).lastToken.hop = h₀
  lastAru : (s.daemon j).lastAru < p.seq
  other : p.proc ≠ j
  may : s.MayRequest conf p.seq
  token : ∀ t ∈ s.tokens, t.hop = s.hop → ∃ r ∈ t.rtr, p.seq ∈ r.seqs ∧ r.Serves conf j
  /-- Whoever has had its turn since could not answer. -/
  waiting : ∀ i, h₀ < (s.daemon i).lastToken.hop → i ≠ p.proc

/-- Since `s₀` the packet `p` was sent to the daemon `j`. -/
def SentAgain (conf : RingConf n) (j : Fin n) (p : Packet n β) (s₀ s : Net n β) : Prop :=
  ∃ d ∈ s.datagrams.drop s₀.datagrams.length, d.2 = p ∧ d.1.reaches conf j = true

omit [NeZero n] [Payload β] in
theorem SentAgain.mono {j : Fin n} {s₀ : Net n β} (h : SentAgain conf j p s₀ s)
    (hgrows : s.datagrams <+: s'.datagrams) : SentAgain conf j p s₀ s' := by
  obtain ⟨d, hd, hp, hreaches⟩ := h
  exact ⟨d, (hgrows.drop _).subset hd, hp, hreaches⟩

theorem Requested.calm {j : Fin n} {h₀ : ℕ} (h : Requested conf j p h₀ s) (hs : Sane conf s)
    (hcalm : Calm conf s s' i) (htokens : s'.tokens = s.tokens) : Requested conf j p h₀ s' where
  mem := by
    rw [hcalm.log]
    exact h.mem
  turn := (hcalm.lastHop j).trans h.turn
  lastAru := by
    rw [hcalm.lastAru]
    exact h.lastAru
  other := h.other
  may haccelerated i := by
    rw [show (s'.daemon i).lastToken.seq = (s.daemon i).lastToken.seq from
      congrArg (·.2.1) (hcalm.core i)]
    exact h.may haccelerated i
  token t ht hhop := by
    rw [htokens] at ht
    exact h.token t ht (hhop.trans (hs.circulates.calm_hop hcalm))
  waiting i hi := by
    rw [hcalm.lastHop] at hi
    exact h.waiting i hi

/-- **The next daemon answers the request or makes it its own.** -/
theorem Requested.taken {j : Fin n} {h₀ : ℕ} (h : Requested conf j p h₀ s) (hs : Sane conf s)
    (ht : Taken conf s s' i t) (hage : (s.daemon i).lastToken.hop ≤ t.hop + 15 * n) :
    SentAgain conf j p s s' ∨ Requested conf j p h₀ s' := by
  obtain ⟨hhop, hturn⟩ := hs.circulates.fresh ht hage
  obtain ⟨hholder, hhop'⟩ := hs.holder_taken ht hhop hturn
  have hs' := hs.taken ht hage
  have hgrows := Grows.taken hs ht hage
  -- the requesting daemon keeps all others from discarding the packet
  have hneeded : ∀ k, (s.daemon k).store.lastDiscarded < p.seq := fun k => by
    rw [hs.stored.discarded k]
    exact (hs.bounded.sound.bound_le_sent k j).trans_lt h.lastAru
  obtain ⟨r, hr, hq, hserves⟩ := h.token t ht.mem hhop
  have hlast : (s'.daemon i).lastToken = (s.daemon i).passOn conf i t := by
    rw [ht.daemon_self]
    rfl
  cases hslot : (s.daemon i).store.packets (entry p.seq) with
  | some slot =>
      -- it has the packet, and sends it
      refine Or.inl ⟨(r.dest, slot.packet), ?_, ?_, hserves.reaches⟩
      · have hsent : .packet r.dest slot.packet ∈ (s.daemon i).sends conf i t := by
          rw [Prot.sends]
          dsimp only
          exact List.mem_append_left _ (List.mem_append_left _ (List.mem_append_left _
            (mem_answerRetrans hr hq hslot)))
        rw [ht.eq]
        show _ ∈ (s.datagrams ++ _).drop s.datagrams.length
        rw [List.drop_left]
        exact List.mem_filterMap.mpr ⟨_, hsent, rfl⟩
      · exact (hs.stored.ok i).eq_of_entry hs.stored.numbered h.mem (hneeded i) hslot
  | none =>
      have hsender : i ≠ p.proc := by
        rintro rfl
        obtain ⟨slot, hs', -⟩ := hs.slot_of_has h.mem (hneeded _) (hs.stored.sender p h.mem)
        rw [hslot] at hs'
        cases hs'
      have haru : (s.daemon i).store.aru < p.seq := by
        rw [← hs.stored.discarded i]
        exact hneeded i
      have hij : i ≠ j := by
        -- the turn of all others, the sender's too, came before that of `j`
        rintro rfl
        refine h.waiting p.proc ?_ rfl
        have := hs.circulates.hop_lt p.proc
        have : (s.daemon p.proc).lastToken.hop ≠ (s.daemon i).lastToken.hop := fun heq =>
          h.other (hs.circulates.turn_inj heq)
        have := h.turn
        omega
      obtain ⟨seqs, hseqs, hrtr⟩ := hs.requests_missing ht hhop (hgrows.log.subset h.mem) haru
        (hs.filled_eq_none ht hhop h.mem haru hslot) h.may
      have hj : s'.daemon j = s.daemon j := ht.daemon_of_ne hij.symm
      refine Or.inr ⟨hgrows.log.subset h.mem, by rw [hj]; exact h.turn,
        by rw [hj]; exact h.lastAru, h.other, fun haccelerated k => ?_, fun t' ht' hthop => ?_,
        fun k hk => ?_⟩
      · by_cases hk : k = i
        · have hseq := hs'.bounded.holder_seq
          rw [hholder] at hseq
          rw [hk, hseq]
          exact (hs'.stored.numbered.getElem? (hgrows.log.subset h.mem)).2.2
        · rw [ht.daemon_of_ne hk]
          exact h.may haccelerated k
      · rcases ht.mem_tokens ht' with ht' | rfl
        · have := hs.circulates.sent t' ht'
          omega
        · exact ⟨_, hrtr, hseqs, answerRetrans_serves hr hq hslot hserves seqs⟩
      · by_cases hki : k = i
        · rw [hki]
          exact hsender
        · rw [ht.daemon_of_ne hki] at hk
          exact h.waiting k hk

/-- **The requests of a daemon in its turn.** -/
theorem Requested.start (hs : Sane conf s) (ht : Taken conf s s' i t)
    (hage : (s.daemon i).lastToken.hop ≤ t.hop + 15 * n) (hp : p ∈ s'.log)
    (hmiss : ¬ (s'.daemon i).store.Has p) (hmay : s.MayRequest conf p.seq) :
    Requested conf i p s'.hop s' := by
  obtain ⟨hhop, hturn⟩ := hs.circulates.fresh ht hage
  obtain ⟨hholder, hhop'⟩ := hs.holder_taken ht hhop hturn
  have hs' := hs.taken ht hage
  have hgrows := Grows.taken hs ht hage
  have hmyAru : (s'.daemon i).store.myAru < p.seq := by
    by_contra hle
    exact hmiss ((hs'.stored.ok i).has_of_le hs'.stored.numbered hp (not_lt.mp hle))
  have haru : (s.daemon i).store.aru < p.seq :=
    ((hgrows.aru i).trans (hs'.bounded.sound.bound_le_own i i)).trans_lt hmyAru
  have hnew : p ∉ ((s.daemon i).sendNewPackets conf i t).1 := fun hmem =>
    hmiss ((hs.daemon_taken ht hhop).2.2.2 p hmem)
  have hold : p ∈ s.log := by
    rw [hs.log_taken ht hhop] at hp
    exact (List.mem_append.mp hp).resolve_right hnew
  have hslot : (s.daemon i).store.packets (entry p.seq) = none := by
    rw [Option.eq_none_iff_forall_ne_some]
    intro slot hslot
    have heq := (hs.stored.ok i).eq_of_entry hs.stored.numbered hold
      (by rw [hs.stored.discarded i]; exact haru) hslot
    exact hmiss ((hgrows.keeps i).has (hs.stored.honest i) p (Or.inr ⟨_, slot, hslot, heq⟩))
  obtain ⟨seqs, hseqs, hrtr⟩ := hs.requests_missing ht hhop hp haru
    (hs.filled_eq_none ht hhop hold haru hslot) hmay
  have hturn' : (s'.daemon i).lastToken.hop = s'.hop := by
    rw [← hs'.circulates.holder_hop, hholder]
  refine ⟨hp, hturn', ?_, ?_, fun haccelerated k => ?_, fun t' ht' hthop => ?_, fun k hk => ?_⟩
  · exact (hs'.bounded.sound.sent_le_own i).trans_lt hmyAru
  · rintro rfl
    exact hmiss (hs'.stored.sender p hp)
  · by_cases hk : k = i
    · have hseq := hs'.bounded.holder_seq
      rw [hholder] at hseq
      rw [hk, hseq]
      exact (hs'.stored.numbered.getElem? hp).2.2
    · rw [ht.daemon_of_ne hk]
      exact hmay haccelerated k
  · rcases ht.mem_tokens ht' with ht' | rfl
    · have := hs.circulates.sent t' ht'
      omega
    · exact ⟨_, hrtr, hseqs, answerRetrans_serves_self i t _ seqs⟩
  · exact absurd (hs'.circulates.le_hop k) (not_le.mpr hk)

/-- **What a daemon misses in its turn is sent again to it before its next turn**, if no token is
lost meanwhile. In an accelerated ring this holds for packets that were sent before the last turn
of every daemon. -/
theorem missing_sent_again {I : Install n β conf} {es fs : List (Event n β)} {k : ℕ}
    (hes : exec (Net.step conf) I.init es = some s) (hk : s.step conf (.token k) = some s')
    (htaken : s'.hop ≠ s.hop) {p : Packet n β} (hp : p ∈ s'.log)
    (hmiss : ¬ (s'.daemon s'.holder).store.Has p) (hmay : s.MayRequest conf p.seq)
    (hfs : exec (Net.step conf) s' fs = some s'')
    (htimely : StepsMeet (Net.step conf) Timely I.init (es ++ .token k :: fs))
    (hagain : StepsMeet (Net.step conf) (NotAgain conf) s' fs)
    (hround : s'.hop + n ≤ s''.hop + 1) : SentAgain conf s'.holder p s' s'' := by
  rw [show es ++ Event.token k :: fs = (es ++ [.token k]) ++ fs by simp] at htimely
  have hs : Sane conf s := Sane.of_run hes htimely.left.left
  have he : Timely s (.token k) := htimely.left.last hes
  have hs' := hs.step he hk
  have hstart : Requested conf s'.holder p s'.hop s' := by
    rcases step_cases hk with rfl | ⟨i, hcalm⟩ | ⟨k', i, t, heq, hk', ht⟩
    · exact absurd rfl htaken
    · exact absurd (hs.circulates.calm_hop hcalm) htaken
    · obtain rfl := Event.token.inj heq
      have hage := he t hk'
      rw [← ht.dest] at hage
      obtain ⟨hhop, hturn⟩ := hs.circulates.fresh ht hage
      have hholder := (hs.holder_taken ht hhop hturn).1
      rw [hholder] at hmiss ⊢
      exact Requested.start hs ht hage hp hmiss hmay
  have hes' : exec (Net.step conf) I.init (es ++ [.token k]) = some s' :=
    exec_snoc_eq_some.mpr ⟨s, hes, hk⟩
  have hrest := htimely.right hes'
  have hrun : Sane conf s'' ∧ Grows s' s''
      ∧ (SentAgain conf s'.holder p s' s'' ∨ Requested conf s'.holder p s'.hop s'') := by
    have hmeet : StepsMeet (Net.step conf) (fun u e => Timely u e ∧ NotAgain conf u e) s' fs :=
      fun pre e post u hfs' hu => ⟨hrest pre e post u hfs' hu, hagain pre e post u hfs' hu⟩
    refine hmeet.induct (P := fun u => Sane conf u ∧ Grows s' u
      ∧ (SentAgain conf s'.holder p s' u ∨ Requested conf s'.holder p s'.hop u)) hfs
      ⟨hs', Grows.refl _, Or.inr hstart⟩ ?_
    rintro u e v - ⟨hu, hgrows, hpending⟩ ⟨he, hnot⟩ hstep
    have hgrows' := Grows.step hu he hstep
    refine ⟨hu.step he hstep, hgrows.trans hgrows', ?_⟩
    rcases hpending with hsent | hrequested
    · exact Or.inl (hsent.mono hgrows'.datagrams)
    · rcases step_cases hstep with rfl | ⟨i, hcalm⟩ | ⟨k', i, t, rfl, hk', ht⟩
      · exact Or.inr hrequested
      · exact Or.inr (hrequested.calm hu hcalm (hnot v hstep (hu.circulates.calm_hop hcalm)))
      · have hage := he t hk'
        rw [← ht.dest] at hage
        rcases hrequested.taken hu ht hage with ⟨d, hd, hdp, hreaches⟩ | hrequested
        · have hle := hgrows.datagrams.length_le
          exact Or.inl ⟨d, List.mem_of_mem_drop (i := u.datagrams.length - s'.datagrams.length)
            (by rwa [List.drop_drop, Nat.add_sub_cancel' hle]), hdp, hreaches⟩
        · exact Or.inr hrequested
  obtain ⟨hs'', -, hsent | hrequested⟩ := hrun
  · exact hsent
  · -- the sender has had its turn in this round
    refine absurd rfl (hrequested.waiting p.proc ?_)
    have := hs''.circulates.hop_lt p.proc
    have : (s''.daemon p.proc).lastToken.hop ≠ (s''.daemon s'.holder).lastToken.hop := fun heq =>
      hrequested.other (hs''.circulates.turn_inj heq)
    have := hrequested.turn
    omega

theorem missing_sent_again_sample : ∃ s s' s'', ∃ p : Packet 2 (List UInt8),
    exec (Net.step Sample.conf) Sample.install.init (Sample.run.take 7) = some s
      ∧ s.step Sample.conf (.token 1) = some s' ∧ p ∈ s'.log
      ∧ exec (Net.step Sample.conf) s' (Sample.run.drop 8) = some s''
      ∧ SentAgain Sample.conf s'.holder p s' s'' := by
  obtain ⟨s, hs, h⟩ := exists_of_any (Net.step Sample.conf) Sample.install.init
    (Sample.run.take 7)
    (fun s => (s.step Sample.conf (.token 1)).any fun s' : Net 2 (List UInt8) =>
      decide (s'.hop ≠ s.hop)
        && decide (StepsMeet (Net.step Sample.conf) (NotAgain Sample.conf) s' (Sample.run.drop 8))
        && ((exec (Net.step Sample.conf) s' (Sample.run.drop 8)).any fun s'' =>
          decide (s'.hop + 2 ≤ s''.hop + 1))
        && s'.log.any fun p => decide ((s'.daemon s'.holder).store.lastDiscarded < p.seq)
          && ((s'.daemon s'.holder).store.packets (entry p.seq)).isNone) (by decide +kernel)
  obtain ⟨s', hs', h⟩ := (Option.any_eq_true _ _).mp h
  obtain ⟨h, hlog⟩ := Bool.and_eq_true_iff.mp h
  obtain ⟨h, hrest⟩ := Bool.and_eq_true_iff.mp h
  obtain ⟨htaken, hagain⟩ := Bool.and_eq_true_iff.mp h
  obtain ⟨s'', hs'', hround⟩ := (Option.any_eq_true _ _).mp hrest
  obtain ⟨p, hp, h⟩ := List.any_eq_true.mp hlog
  obtain ⟨hlow, hnone⟩ := Bool.and_eq_true_iff.mp h
  have htimely : StepsMeet (Net.step Sample.conf) Timely Sample.install.init
      (Sample.run.take 7 ++ .token 1 :: Sample.run.drop 8) := by decide +kernel
  have hsane : Sane Sample.conf s' :=
    (Sane.of_run hs htimely.left).step ((htimely.right hs) [] _ _ s rfl rfl) hs'
  have hmiss : ¬ (s'.daemon s'.holder).store.Has p := fun hhas => by
    obtain ⟨slot, hslot, -⟩ := hsane.slot_of_has hp (of_decide_eq_true hlow) hhas
    rw [hslot] at hnone
    cases hnone
  exact ⟨s, s', s'', p, hs, hs', hp, hs'', missing_sent_again hs hs' (of_decide_eq_true htaken) hp
    hmiss (fun haccelerated => by cases haccelerated) hs'' htimely (of_decide_eq_true hagain)
    (of_decide_eq_true hround)⟩

end

end SpreadAccount.Daemon
