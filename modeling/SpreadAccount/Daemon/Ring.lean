import SpreadAccount.Daemon.Circulation
import SpreadAccount.Lib.TokenBound

set_option autoImplicit false

/-! # The invariant of the ring

What holds in every state of a run without very old tokens and with small windows (`Timely`):

* the packets created so far are numbered without gaps, every daemon's store is tied to them
  (`Store.Ok`), and the array of packets has room for all that are still needed (`Stored`);
* the `aru` on the token and the `Aru` of the daemons are those of a circuit with a lower bound
  (`TokenBound.Sound`): what one daemon takes for stable, every daemon has (`Bounded`);
* the fragments in the packets of a daemon and in its down queue are those of the messages that
  its sessions have sent (`Streams`).

`Sane.of_run` puts them together.
-/

namespace SpreadAccount.Daemon

open Machine

section

variable {n : ℕ} [NeZero n] {β : Type}

/-- The daemons and the token as a circuit that carries a lower bound. -/
def Net.circuit (s : Net n β) : TokenBound.Circuit (Fin n) ℕ where
  turn i := (s.daemon i).lastToken.hop
  own i := (s.daemon i).store.myAru
  sent i := (s.daemon i).lastAru
  bound i := (s.daemon i).store.aru
  started i := (s.daemon i).justInstalled = false
  candidate := (s.daemon s.holder).lastAru
  changedBy := some (s.daemon s.holder).lastToken.aruLastId
  top := s.log.length

/-- **The stores and the packets of the ring.** -/
structure Stored (s : Net n β) : Prop where
  numbered : Numbered s.log
  datagrams : ∀ d ∈ s.datagrams, d.2 ∈ s.log
  ok : ∀ i, (s.daemon i).store.Ok s.log
  discarded : ∀ i, (s.daemon i).store.lastDiscarded = (s.daemon i).store.aru
  honest : ∀ i, (s.daemon i).store.Honest
  /-- A daemon has what it has sent. -/
  sender : ∀ p ∈ s.log, (s.daemon p.proc).store.Has p

/-- **The bounds that the daemons find.** -/
structure Bounded (s : Net n β) : Prop where
  sound : TokenBound.Sound s.circuit
  holder_seq : (s.daemon s.holder).lastToken.seq = s.log.length
  /-- Before the first token is taken, nothing has been sent. -/
  fresh : (s.daemon s.holder).justInstalled = true →
    s.log = [] ∧ 3333 ≤ (s.daemon s.holder).lastToken.aru
  seq_le : ∀ i, (s.daemon i).lastToken.seq ≤ (s.daemon i).store.aru + maxPacketsInStruct / 2
  lastAru_le : ∀ i, (s.daemon i).lastAru ≤ (s.daemon i).lastToken.seq
  requests : ∀ t ∈ s.tokens, t.hop = s.hop → ∀ req ∈ t.requests, ∀ i,
    (s.daemon i).store.aru < req.2
  small : ∀ i, (s.daemon i).flow.Small

variable [Payload β]

/-- **The messages on their way.** -/
structure Streams (conf : RingConf n) (s : Net n β) : Prop where
  down : ∀ i, (s.daemon i).down.Ok
  valid : ∀ i, ∀ l ∈ (s.daemon i).down.links, l.Valid conf.packetBody
  accepted : ∀ i, ∀ l ∈ s.accepted i, l.mess ≠ []
  stream : ∀ i, (s.accepted i).flatMap DownLink.marked
    = streamOf i s.log ++ (s.daemon i).down.marked
  whole : ∀ p ∈ s.log, ∀ f ∈ p.rest, f.index = -1

/-- **The invariant of the ring.** -/
structure Sane (conf : RingConf n) (s : Net n β) : Prop where
  circulates : Circulates s
  stored : Stored s
  bounded : Bounded s
  streams : Streams conf s

variable {conf : RingConf n} {s s' : Net n β}

/-! ## Steps that do not take the token -/

namespace Calm

variable {i : Fin n}

omit [NeZero n] in
theorem lastAru (h : Calm conf s s' i) (j : Fin n) :
    (s'.daemon j).lastAru = (s.daemon j).lastAru := by
  rw [Prot.lastAru, Prot.lastAru, (h.daemon j).2.1,
    show (s'.daemon j).lastToken.aru = (s.daemon j).lastToken.aru from
      congrArg (·.2.2.1) (h.core j)]

theorem circuit (h : Calm conf s s' i) (hhop : s'.hop = s.hop) :
    s'.circuit = s.circuit.grow i (s'.daemon i).store.myAru := by
  have hholder : s'.holder = s.holder := congrArg daemonAt hhop
  have hown : (fun j => (s'.daemon j).store.myAru)
      = Function.update (fun j => (s.daemon j).store.myAru) i (s'.daemon i).store.myAru := by
    funext j
    by_cases hj : j = i
    · rw [hj, Function.update_self]
    · rw [Function.update_of_ne hj, h.others hj]
  rw [Net.circuit, Net.circuit, TokenBound.Circuit.grow, hown, hholder, h.log]
  simp only [h.lastHop, h.lastAru, (h.daemon _).2.1, (h.daemon _).2.2.2.2.2.1,
    show (s'.daemon s.holder).lastToken.aruLastId = (s.daemon s.holder).lastToken.aruLastId from
      congrArg (·.2.2.2.1) (h.core s.holder)]

omit [NeZero n] in
theorem stored (h : Calm conf s s' i) (hs : Stored s) : Stored s' where
  numbered := h.log ▸ hs.numbered
  datagrams d hd := by
    rw [h.datagrams] at hd
    rw [h.log]
    exact hs.datagrams d hd
  ok j := by
    rw [h.log]
    by_cases hj : j = i
    · subst hj
      exact h.store hs.numbered hs.datagrams (hs.ok j)
    · rw [h.others hj]
      exact hs.ok j
  discarded j := by
    rw [(h.daemon j).2.2.2.2.2.1, (h.daemon j).2.2.2.2.2.2.1]
    exact hs.discarded j
  honest j := (h.daemon j).2.2.2.2.2.2.2.2.honest (hs.honest j)
  sender p hp := by
    rw [h.log] at hp
    exact (h.daemon p.proc).2.2.2.2.2.2.2.2.has (hs.honest p.proc) p (hs.sender p hp)

theorem bounded (h : Calm conf s s' i) (hhop : s'.hop = s.hop) (hs : Bounded s)
    (hsmall : ∀ j, (s'.daemon j).flow.Small) : Bounded s' := by
  have hholder : s'.holder = s.holder := congrArg daemonAt hhop
  have hseq : ∀ j, (s'.daemon j).lastToken.seq = (s.daemon j).lastToken.seq := fun j =>
    congrArg (·.2.1) (h.core j)
  have haru : ∀ j, (s'.daemon j).lastToken.aru = (s.daemon j).lastToken.aru := fun j =>
    congrArg (·.2.2.1) (h.core j)
  refine ⟨?_, ?_, fun hinstalled => ?_, fun j => ?_, fun j => ?_, fun t ht hthop req hreq j => ?_,
    hsmall⟩
  · rw [h.circuit hhop]
    exact hs.sound.grow (h.daemon i).2.2.2.2.2.2.2.1
  · rw [hholder, hseq, h.log]
    exact hs.holder_seq
  · rw [hholder, (h.daemon _).2.1] at hinstalled
    rw [hholder, h.log, haru]
    exact hs.fresh hinstalled
  · rw [hseq, (h.daemon j).2.2.2.2.2.1]
    exact hs.seq_le j
  · rw [h.lastAru, hseq]
    exact hs.lastAru_le j
  · rw [(h.daemon j).2.2.2.2.2.1]
    rcases h.mem_tokens ht with ht | ⟨-, -, hrtr⟩
    · exact hs.requests t ht (hthop.trans hhop) req hreq j
    · rw [Token.requests, hrtr] at hreq
      cases hreq

omit [NeZero n] in
theorem streams (h : Calm conf s s' i) (hs : Streams conf s) : Streams conf s' := by
  rcases h.down with ⟨hdown, haccepted⟩ | ⟨l, hvalid, hdown, haccepted⟩
  · have hall : ∀ j, (s'.daemon j).down = (s.daemon j).down := fun j => by
      by_cases hj : j = i
      · rw [hj]
        exact hdown
      · rw [h.others hj]
    refine ⟨fun j => ?_, fun j => ?_, fun j => ?_, fun j => ?_, ?_⟩
    · rw [hall]
      exact hs.down j
    · rw [hall]
      exact hs.valid j
    · rw [haccepted]
      exact hs.accepted j
    · rw [haccepted, hall, h.log]
      exact hs.stream j
    · rw [h.log]
      exact hs.whole
  · refine ⟨fun j => ?_, fun j => ?_, fun j => ?_, fun j => ?_, ?_⟩
    · by_cases hj : j = i
      · subst hj
        rw [hdown]
        exact (hs.down j).snoc hvalid.1
      · rw [h.others hj]
        exact hs.down j
    · by_cases hj : j = i
      · subst hj
        rw [hdown]
        intro l' hl'
        rcases List.mem_append.mp hl' with hl' | hl'
        · exact hs.valid j l' hl'
        · rw [List.mem_singleton.mp hl']
          exact hvalid
      · rw [h.others hj]
        exact hs.valid j
    · rw [haccepted]
      by_cases hj : j = i
      · subst hj
        rw [Function.update_self]
        intro l' hl'
        rcases List.mem_append.mp hl' with hl' | hl'
        · exact hs.accepted j l' hl'
        · rw [List.mem_singleton.mp hl']
          exact hvalid.1
      · rw [Function.update_of_ne hj]
        exact hs.accepted j
    · rw [haccepted, h.log]
      by_cases hj : j = i
      · subst hj
        rw [Function.update_self, hdown, DownQueue.marked_snoc (hs.down j), ← List.append_assoc,
          ← hs.stream j, List.flatMap_append]
        simp
      · rw [Function.update_of_ne hj, h.others hj]
        exact hs.stream j
    · rw [h.log]
      exact hs.whole

theorem sane (h : Calm conf s s' i) (hs : Sane conf s)
    (hsmall : ∀ j, (s'.daemon j).flow.Small) : Sane conf s' where
  circulates := hs.circulates.calm h
  stored := h.stored hs.stored
  bounded := h.bounded (hs.circulates.calm_hop h) hs.bounded hsmall
  streams := h.streams hs.streams

end Calm

/-! ## The log after a token is taken -/

omit [NeZero n] [Payload β] in
theorem extendLog_old {log : List (Packet n β)} (hlog : Numbered log) {ps : List (Packet n β)}
    (hps : ∀ p ∈ ps, p ∈ log) : extendLog log ps = log := by
  induction ps with
  | nil => rfl
  | cons p ps ih =>
      have hlen := (hlog.getElem? (hps p (by simp))).2.2
      rw [extendLog, List.foldl_cons, if_neg (by omega), ← extendLog]
      exact ih fun q hq => hps q (List.mem_cons_of_mem _ hq)

omit [NeZero n] [Payload β] in
theorem extendLog_new {log : List (Packet n β)} {ps : List (Packet n β)}
    (hps : ∀ k p, ps[k]? = some p → p.seq = log.length + k + 1) :
    extendLog log ps = log ++ ps := by
  induction ps generalizing log with
  | nil => simp [extendLog]
  | cons p ps ih =>
      rw [extendLog, List.foldl_cons, if_pos (hps 0 p rfl), ← extendLog, ih, List.append_assoc]
      · rfl
      · intro k q hk
        rw [hps (k + 1) q hk, List.length_append, List.length_singleton]
        omega

omit [NeZero n] [Payload β] in
theorem extendLog_append (log ps qs : List (Packet n β)) :
    extendLog log (ps ++ qs) = extendLog (extendLog log ps) qs := List.foldl_append

/-- What is sent with a token: retransmissions, then the new packets, to all. -/
theorem sends_datagrams (conf : RingConf n) (me : Fin n) (t : Token n) (p : Prot n β) :
    (p.sends conf me t).filterMap Send.datagram?
      = (p.answer conf me t).sends.filterMap Send.datagram?
        ++ (p.sendNewPackets conf me t).1.map fun q => (Dest.all, q) := by
  have hnew := queueBcasts_append conf.accelerated p.flow.acceleratedWindow
    (p.sendNewPackets conf me t).1 []
  have hall : ∀ qs : List (Packet n β),
      (qs.map fun q => Send.packet (Dest.all : Dest n) q).filterMap Send.datagram?
        = qs.map fun q => (Dest.all, q) := fun qs => by
    rw [List.filterMap_map]
    exact congrFun List.filterMap_eq_map' qs
  have htoken : ∀ b : Bool, ((if b then [] else sendToken (p.passOn conf me t)).filterMap
      (Send.datagram? (β := β))) = [] := by
    intro b
    refine List.filterMap_eq_nil_iff.mpr fun x hx => ?_
    cases b with
    | true => cases hx
    | false =>
        rw [mem_sendToken.mp hx]
        rfl
  rw [List.nil_append] at hnew
  rw [Prot.sends]
  dsimp only
  rw [List.filterMap_append, List.filterMap_append, List.filterMap_append, htoken,
    List.append_nil, hall, hall, List.append_assoc, ← List.map_append, hnew]

theorem sends_packets (conf : RingConf n) (me : Fin n) (t : Token n) (p : Prot n β) :
    ((p.sends conf me t).filterMap Send.datagram?).map Prod.snd
      = (((p.answer conf me t).sends).filterMap Send.datagram?).map Prod.snd
        ++ (p.sendNewPackets conf me t).1 := by
  rw [sends_datagrams, List.map_append, List.map_map]
  exact congrArg (_ ++ ·) (List.map_id _)

/-! ## Taking the token -/

namespace Sane

variable {i : Fin n} {t : Token n}

/-- What the token says that is taken. -/
theorem token_eq (h : Sane conf s) (ht : Taken conf s s' i t) (hhop : t.hop = s.hop) :
    t.seq = s.log.length ∧ t.aru = (s.daemon s.holder).lastToken.aru
      ∧ t.aruLastId = (s.daemon s.holder).lastToken.aruLastId
      ∧ t.flowControl = (s.daemon s.holder).lastToken.flowControl := by
  have hcore := h.circulates.copies t ht.mem s.holder (by rw [h.circulates.holder_hop, hhop])
  refine ⟨?_, congrArg (·.2.2.1) hcore, congrArg (·.2.2.2.1) hcore, congrArg (·.2.2.2.2.1) hcore⟩
  rw [← h.bounded.holder_seq]
  exact congrArg (·.2.1) hcore

/-- A daemon that sends new packets is not far behind, and sends no more than it may. -/
theorem allowed (h : Sane conf s) (ht : Taken conf s s' i t) (hhop : t.hop = s.hop)
    (hnew : ((s.daemon i).sendNewPackets conf i t).1 ≠ []) :
    s.log.length ≤ (s.daemon i).store.aru + maxSeqGap
      ∧ (((s.daemon i).sendNewPackets conf i t).1.length : ℤ)
        ≤ min (s.daemon i).flow.window (s.daemon i).flow.personalWindow
      ∧ t.flowControl.toInt + ((s.daemon i).sendNewPackets conf i t).1.length
        ≤ (s.daemon i).flow.window + (s.daemon i).flow.personalWindow := by
  have hlen := (nextPackets_spec conf.packetBody i
    (fcAllowed (s.daemon i).flow ((s.daemon i).store.raise t.seq) t.flowControl.toInt).toNat
    ((s.daemon i).store.raise t.seq).highestSeq (h.streams.down i)).2.2.1
  have hpos := List.length_pos_iff.mpr hnew
  obtain ⟨hmax, hgap⟩ := fcAllowed_spec (s.daemon i).flow ((s.daemon i).store.raise t.seq)
    t.flowControl.toInt
  have hseq := (h.token_eq ht hhop).1
  have hhigh : ((s.daemon i).store.raise t.seq).highestSeq = s.log.length := by
    show max (s.daemon i).store.highestSeq t.seq = _
    rw [hseq]
    exact max_eq_right (h.stored.ok i).highest_le
  change ((s.daemon i).sendNewPackets conf i t).1.length ≤ _ at hlen
  obtain ⟨hbehind, hwindows⟩ := hgap (by omega)
  rw [hhigh] at hbehind
  exact ⟨hbehind, by omega, by omega⟩

/-- A daemon that sends new packets does not send many. -/
theorem burst (h : Sane conf s) (ht : Taken conf s s' i t) (hhop : t.hop = s.hop)
    (hnew : ((s.daemon i).sendNewPackets conf i t).1 ≠ []) :
    (s.log ++ ((s.daemon i).sendNewPackets conf i t).1).length
        ≤ (s.daemon i).store.aru + maxPacketsInStruct / 2
      ∧ ((s.daemon i).sendNewPackets conf i t).1.length ≤ maxBurst := by
  obtain ⟨hbehind, hlen, -⟩ := h.allowed ht hhop hnew
  have hsmall : min (s.daemon i).flow.window (s.daemon i).flow.personalWindow ≤ maxBurst :=
    h.bounded.small i
  rw [List.length_append]
  simp only [maxPacketsInStruct, maxSeqGap, maxBurst] at *
  omega

/-- The array of packets has room for the new ones. -/
theorem takes (h : Sane conf s) (ht : Taken conf s s' i t) (hhop : t.hop = s.hop) :
    Takes conf i t (s.daemon i) s.log where
  numbered := h.stored.numbered
  ok := h.stored.ok i
  discarded := h.stored.discarded i
  seq := (h.token_eq ht hhop).1
  requests req hreq := h.bounded.requests t ht.mem hhop req hreq i
  down := h.streams.down i
  gap := by
    by_cases hnew : ((s.daemon i).sendNewPackets conf i t).1 = []
    · have hgap := (h.stored.ok i).gap
      rw [h.stored.discarded i] at hgap
      rw [hnew, List.append_nil]
      exact hgap
    · have hlen := (h.burst ht hhop hnew).1
      simp only [maxPacketsInStruct] at *
      omega

/-- **The `aru` of the token follows the rule of the circuit.** -/
theorem passOn_aru (h : Sane conf s) (ht : Taken conf s s' i t) (hhop : t.hop = s.hop) :
    ((s.daemon i).passOn conf i t).aru
        = s.circuit.next i ((s.daemon i).filled conf i t).myAru
      ∧ (setsAru i t ((s.daemon i).filled conf i t) = true
        ↔ s.circuit.Sets i ((s.daemon i).filled conf i t).myAru) := by
  obtain ⟨hseq, haru, hlast, -⟩ := h.token_eq ht hhop
  have hpass : ((s.daemon i).passOn conf i t).aru
      = if setsAru i t ((s.daemon i).filled conf i t) then ((s.daemon i).filled conf i t).myAru
        else t.aru := rfl
  have hsets : setsAru i t ((s.daemon i).filled conf i t) = true
      ↔ ((s.daemon i).filled conf i t).myAru < t.aru ∨ t.aruLastId = i ∨ t.aru = t.seq := by
    simp [setsAru, or_assoc]
  rw [hpass, TokenBound.Circuit.next]
  have hcircuit : s.circuit.Sets i ((s.daemon i).filled conf i t).myAru
      ↔ ((s.daemon i).filled conf i t).myAru < (s.daemon s.holder).lastAru
        ∨ some (s.daemon s.holder).lastToken.aruLastId = some i
        ∨ (s.daemon s.holder).lastAru = s.log.length := Iff.rfl
  cases hinstalled : (s.daemon s.holder).justInstalled with
  | true =>
      -- before the first token nothing has been sent: both set the `aru`
      obtain ⟨hlog, hlarge⟩ := h.bounded.fresh hinstalled
      have hzero : (s.daemon s.holder).lastAru = s.log.length := by
        rw [hlog, Prot.lastAru, if_pos hinstalled]
        rfl
      have hboth : s.circuit.Sets i ((s.daemon i).filled conf i t).myAru :=
        hcircuit.mpr (Or.inr (Or.inr hzero))
      have hfilled := (h.takes ht hhop).filled
      have hmyAru : ((s.daemon i).filled conf i t).myAru ≤ maxBurst := by
        refine hfilled.1.myAru_le.trans ?_
        rw [hfilled.2.1, hlog, List.nil_append]
        by_cases hnew : ((s.daemon i).sendNewPackets conf i t).1 = []
        · rw [hnew]
          exact Nat.zero_le _
        · exact (h.burst ht hhop hnew).2
      have hset : setsAru i t ((s.daemon i).filled conf i t) = true := by
        refine hsets.mpr (Or.inl ?_)
        rw [haru]
        simp only [maxBurst, maxPacketsInStruct, maxSeqGap] at hmyAru
        omega
      rw [if_pos hset, if_pos hboth]
      exact ⟨rfl, iff_of_true hset hboth⟩
  | false =>
      have hlastAru : (s.daemon s.holder).lastAru = t.aru := by
        rw [Prot.lastAru, if_neg (by simp [hinstalled]), haru]
      have hiff : setsAru i t ((s.daemon i).filled conf i t) = true
          ↔ s.circuit.Sets i ((s.daemon i).filled conf i t).myAru := by
        rw [hsets, hcircuit, hlastAru, ← hseq, ← hlast, Option.some_inj]
      refine ⟨?_, hiff⟩
      by_cases hset : s.circuit.Sets i ((s.daemon i).filled conf i t).myAru
      · rw [if_pos (hiff.mpr hset), if_pos hset]
      · rw [if_neg (fun h' => hset (hiff.mp h')), if_neg hset]
        exact hlastAru.symm

/-- The new `Aru` is not lower than the old one and no packet up to it is missing. -/
theorem newAru (h : Sane conf s) (ht : Taken conf s s' i t) (hhop : t.hop = s.hop) :
    (s.daemon i).store.aru ≤ min ((s.daemon i).passOn conf i t).aru (s.daemon i).lastAru
      ∧ min ((s.daemon i).passOn conf i t).aru (s.daemon i).lastAru
        ≤ ((s.daemon i).filled conf i t).myAru := by
  have hgrow := (h.takes ht hhop).filled.2.2.2.2.1
  rw [(h.passOn_aru ht hhop).1]
  exact ⟨h.bounded.sound.bound_mono hgrow, (min_le_left _ _).trans (s.circuit.next_le _ _)⟩

/-- **The state of a daemon after it has taken the token.** -/
theorem daemon_taken (h : Sane conf s) (ht : Taken conf s s' i t) (hhop : t.hop = s.hop) :
    (s'.daemon i).store.Ok (s.log ++ ((s.daemon i).sendNewPackets conf i t).1)
      ∧ (s'.daemon i).store.marks
        = ((s.log ++ ((s.daemon i).sendNewPackets conf i t).1).length,
          ((s.daemon i).filled conf i t).myAru,
          min ((s.daemon i).passOn conf i t).aru (s.daemon i).lastAru,
          min ((s.daemon i).passOn conf i t).aru (s.daemon i).lastAru)
      ∧ Keeps (s.daemon i).store (s'.daemon i).store
      ∧ ∀ p ∈ ((s.daemon i).sendNewPackets conf i t).1, (s'.daemon i).store.Has p := by
  obtain ⟨hlow, hhigh⟩ := h.newAru ht hhop
  rw [ht.daemon_self]
  obtain ⟨hok, hmarks, hkeeps, hhas⟩ := (h.takes ht hhop).acceptToken hlow hhigh
  exact ⟨hok, hmarks, hkeeps, hhas (h.stored.honest i)⟩

theorem aru_taken (h : Sane conf s) (ht : Taken conf s s' i t) (hhop : t.hop = s.hop) :
    (s'.daemon i).store.aru
      = min ((s.daemon i).passOn conf i t).aru (s.daemon i).lastAru :=
  congrArg (·.2.2.1) (h.daemon_taken ht hhop).2.1

theorem log_taken (h : Sane conf s) (ht : Taken conf s s' i t) (hhop : t.hop = s.hop) :
    s'.log = s.log ++ ((s.daemon i).sendNewPackets conf i t).1 := by
  rw [ht.eq]
  show extendLog s.log (((s.daemon i).sends conf i t).filterMap Send.datagram? |>.map Prod.snd) = _
  rw [sends_packets, extendLog_append, extendLog_old h.stored.numbered, extendLog_new]
  · exact fun k p hk => ((h.takes ht hhop).newPackets k p hk).2
  · intro p hp
    obtain ⟨d, hd, rfl⟩ := List.mem_map.mp hp
    obtain ⟨x, hx, hxd⟩ := List.mem_filterMap.mp hd
    obtain ⟨req, -, slot, hslot, rfl⟩ := mem_answerRetrans_sends hx
    obtain rfl := Option.some.inj hxd
    exact ((h.stored.ok i).slot _ _ hslot).2.1

theorem holder_taken (h : Sane conf s) (ht : Taken conf s s' i t) (hhop : t.hop = s.hop)
    (hturn : (s.daemon i).lastToken.hop + n = s.hop + 1) : s'.holder = i ∧ s'.hop = s.hop + 1 := by
  have hnext : s'.hop = s.hop + 1 := by
    rw [ht.hop, hhop]
    exact max_eq_right (Nat.le_succ _)
  refine ⟨?_, hnext⟩
  rw [Net.holder, hnext, daemonAt_eq_iff, ← hturn, Nat.add_mod_right]
  exact h.circulates.turn i

theorem lastAru_taken (ht : Taken conf s s' i t) :
    (s'.daemon i).lastAru = ((s.daemon i).passOn conf i t).aru := by
  rw [ht.daemon_self]
  rfl

/-- **Taking the token is a turn of the circuit.** -/
theorem circuit_taken (h : Sane conf s) (ht : Taken conf s s' i t) (hhop : t.hop = s.hop)
    (hturn : (s.daemon i).lastToken.hop + n = s.hop + 1) :
    s'.circuit = s.circuit.pass i (s.hop + 1) ((s.daemon i).filled conf i t).myAru
      s'.log.length := by
  obtain ⟨hholder, -⟩ := h.holder_taken ht hhop hturn
  obtain ⟨hpass, hsets⟩ := h.passOn_aru ht hhop
  have hmarks := (h.daemon_taken ht hhop).2.1
  have hlastAru := lastAru_taken ht
  -- a field of the daemons in which only that of `i` changes
  have hupdate : ∀ {α : Type} (f : Prot n β → α) (a : α), f (s'.daemon i) = a →
      (fun j => f (s'.daemon j)) = Function.update (fun j => f (s.daemon j)) i a := by
    intro α f a ha
    funext j
    by_cases hj : j = i
    · subst hj
      rw [Function.update_self]
      exact ha
    · rw [Function.update_of_ne hj, ht.daemon_of_ne hj]
  have hturn' : (s'.daemon i).lastToken.hop = s.hop + 1 := by
    rw [ht.daemon_self, ← hhop]
    rfl
  have hstarted : (fun j => (s'.daemon j).justInstalled = false)
      = fun j => j = i ∨ (s.daemon j).justInstalled = false := by
    funext j
    by_cases hj : j = i
    · subst hj
      rw [ht.daemon_self]
      exact propext ⟨fun _ => Or.inl rfl, fun _ => rfl⟩
    · rw [ht.daemon_of_ne hj]
      exact propext ⟨Or.inr, fun h' => h'.resolve_left hj⟩
  have hchanged : some (s'.daemon i).lastToken.aruLastId
      = if s.circuit.Sets i ((s.daemon i).filled conf i t).myAru then some i
        else s.circuit.changedBy := by
    have hlast : (s'.daemon i).lastToken.aruLastId
        = if setsAru i t ((s.daemon i).filled conf i t) then i else t.aruLastId := by
      rw [ht.daemon_self]
      rfl
    rw [hlast, (h.token_eq ht hhop).2.2.1]
    by_cases hset : s.circuit.Sets i ((s.daemon i).filled conf i t).myAru
    · rw [if_pos (hsets.mpr hset), if_pos hset]
    · rw [if_neg (fun h' => hset (hsets.mp h')), if_neg hset]
      rfl
  rw [Net.circuit, hholder, hlastAru, hpass, hchanged, hstarted,
    hupdate (fun p => p.lastToken.hop) _ hturn',
    hupdate (fun p => p.store.myAru) _ (congrArg (·.2.1) hmarks),
    hupdate Prot.lastAru _ (hlastAru.trans hpass),
    hupdate (fun p => p.store.aru) _ (congrArg (·.2.2.1) hmarks), hpass]
  rfl

/-- **The circuit stays sound.** -/
theorem sound_taken (h : Sane conf s) (ht : Taken conf s s' i t) (hhop : t.hop = s.hop)
    (hturn : (s.daemon i).lastToken.hop + n = s.hop + 1) : TokenBound.Sound s'.circuit := by
  have hfilled := (h.takes ht hhop).filled
  rw [h.circuit_taken ht hhop hturn]
  refine h.bounded.sound.pass (fun j hj => ?_) (fun j => Nat.lt_succ_of_le (h.circulates.le_hop j))
    hfilled.2.2.2.2.1 ?_ ?_
  · have hne : (s.daemon i).lastToken.hop ≠ (s.daemon j).lastToken.hop := fun heq =>
      hj (h.circulates.turn_inj heq).symm
    have := h.circulates.hop_lt j
    show (s.daemon i).lastToken.hop < (s.daemon j).lastToken.hop
    omega
  · rw [h.log_taken ht hhop, ← hfilled.2.1]
    exact hfilled.1.myAru_le
  · rw [h.log_taken ht hhop, List.length_append]
    exact Nat.le_add_right _ _

/-- After its turn, a daemon is not more than half of the array of packets behind. -/
theorem length_le_taken (h : Sane conf s) (ht : Taken conf s s' i t) (hhop : t.hop = s.hop) :
    s'.log.length ≤ (s'.daemon i).store.aru + maxPacketsInStruct / 2 := by
  rw [h.aru_taken ht hhop, h.log_taken ht hhop]
  by_cases hnew : ((s.daemon i).sendNewPackets conf i t).1 = []
  · -- nothing new: the bound of the daemon that had the token before is still one
    have hholder := h.bounded.seq_le s.holder
    rw [h.bounded.holder_seq] at hholder
    have hbound : (s.daemon s.holder).store.aru
        ≤ min ((s.daemon i).passOn conf i t).aru (s.daemon i).lastAru := by
      rw [(h.passOn_aru ht hhop).1]
      exact le_min (h.bounded.sound.bound_le_next s.holder i
        (h.takes ht hhop).filled.2.2.2.2.1) (h.bounded.sound.bound_le_sent s.holder i)
    rw [hnew, List.append_nil]
    omega
  · have := (h.burst ht hhop hnew).1
    have := (h.newAru ht hhop).1
    omega

theorem seq_le_taken (h : Sane conf s) (ht : Taken conf s s' i t) (hhop : t.hop = s.hop)
    (j : Fin n) :
    (s'.daemon j).lastToken.seq ≤ (s'.daemon j).store.aru + maxPacketsInStruct / 2
      ∧ (s'.daemon j).lastAru ≤ (s'.daemon j).lastToken.seq := by
  by_cases hj : j = i
  · subst hj
    have hfilled := (h.takes ht hhop).filled
    have hseq : (s'.daemon j).lastToken.seq = s'.log.length := by
      rw [h.log_taken ht hhop, ← hfilled.2.1, ht.daemon_self]
      rfl
    rw [hseq]
    refine ⟨h.length_le_taken ht hhop, ?_⟩
    rw [lastAru_taken ht, (h.passOn_aru ht hhop).1, h.log_taken ht hhop, ← hfilled.2.1]
    exact (s.circuit.next_le _ _).trans hfilled.1.myAru_le
  · rw [ht.daemon_of_ne hj]
    exact ⟨h.bounded.seq_le j, h.bounded.lastAru_le j⟩

/-- The array of packets of every daemon has room for all packets. -/
theorem gap_taken (h : Sane conf s) (ht : Taken conf s s' i t) (hhop : t.hop = s.hop)
    (hturn : (s.daemon i).lastToken.hop + n = s.hop + 1) (j : Fin n) :
    s'.log.length ≤ (s'.daemon j).store.aru + maxPacketsInStruct := by
  have hbound : (s'.daemon i).store.aru ≤ (s'.daemon j).lastAru :=
    (h.sound_taken ht hhop hturn).bound_le_sent i j
  have hlen := h.length_le_taken ht hhop
  obtain ⟨hseq, hlast⟩ := h.seq_le_taken ht hhop j
  simp only [maxPacketsInStruct] at *
  omega

/-- No daemon loses a packet when one takes the token. -/
theorem keeps_taken (h : Sane conf s) (ht : Taken conf s s' i t) (hhop : t.hop = s.hop)
    (j : Fin n) : Keeps (s.daemon j).store (s'.daemon j).store := by
  by_cases hj : j = i
  · subst hj
    exact (h.daemon_taken ht hhop).2.2.1
  · rw [ht.daemon_of_ne hj]
    exact Keeps.refl _

theorem stored_taken (h : Sane conf s) (ht : Taken conf s s' i t) (hhop : t.hop = s.hop)
    (hturn : (s.daemon i).lastToken.hop + n = s.hop + 1) : Stored s' := by
  have hlog := h.log_taken ht hhop
  have hnumbered : Numbered s'.log := by
    rw [hlog]
    exact (h.takes ht hhop).numbered_append
  have hmarks := (h.daemon_taken ht hhop).2.1
  have hkeeps := h.keeps_taken ht hhop
  refine ⟨hnumbered, fun d hd => ?_, fun j => ?_, fun j => ?_,
    fun j => (hkeeps j).honest (h.stored.honest j), fun p hp => ?_⟩
  · rw [hlog]
    rw [ht.eq] at hd
    rcases List.mem_append.mp hd with hd | hd
    · exact List.mem_append_left _ (h.stored.datagrams d hd)
    · have hmem : d.2 ∈ (((s.daemon i).sends conf i t).filterMap Send.datagram?).map Prod.snd :=
        List.mem_map_of_mem hd
      rw [sends_packets] at hmem
      rcases List.mem_append.mp hmem with hmem | hmem
      · obtain ⟨d', hd', heq⟩ := List.mem_map.mp hmem
        obtain ⟨x, hx, hxd⟩ := List.mem_filterMap.mp hd'
        obtain ⟨req, -, slot, hslot, rfl⟩ := mem_answerRetrans_sends hx
        obtain rfl := Option.some.inj hxd
        rw [← heq]
        exact List.mem_append_left _ ((h.stored.ok i).slot _ _ hslot).2.1
      · exact List.mem_append_right _ hmem
  · by_cases hj : j = i
    · subst hj
      rw [hlog]
      exact (h.daemon_taken ht hhop).1
    · have hgap := h.gap_taken ht hhop hturn j
      rw [ht.daemon_of_ne hj, ← h.stored.discarded j, hlog] at hgap
      rw [ht.daemon_of_ne hj, hlog]
      exact (h.stored.ok j).extend (hlog ▸ hnumbered) hgap
  · by_cases hj : j = i
    · subst hj
      exact (congrArg (·.2.2.2) hmarks).trans (congrArg (·.2.2.1) hmarks).symm
    · rw [ht.daemon_of_ne hj]
      exact h.stored.discarded j
  · rw [hlog] at hp
    rcases List.mem_append.mp hp with hp | hp
    · exact (hkeeps p.proc).has (h.stored.honest p.proc) p (h.stored.sender p hp)
    · obtain ⟨k, hk⟩ := List.mem_iff_getElem?.mp hp
      obtain ⟨hproc, -⟩ := (h.takes ht hhop).newPackets k p hk
      rw [hproc]
      exact (h.daemon_taken ht hhop).2.2.2 p hp

theorem bounded_taken (h : Sane conf s) (ht : Taken conf s s' i t) (hhop : t.hop = s.hop)
    (hturn : (s.daemon i).lastToken.hop + n = s.hop + 1) : Bounded s' := by
  obtain ⟨hholder, hhop'⟩ := h.holder_taken ht hhop hturn
  have hfilled := (h.takes ht hhop).filled
  have hsound := h.sound_taken ht hhop hturn
  have hmyAru : (s'.daemon i).store.myAru = ((s.daemon i).filled conf i t).myAru :=
    congrArg (·.2.1) (h.daemon_taken ht hhop).2.1
  refine ⟨hsound, ?_, fun hinstalled => ?_, fun j => (h.seq_le_taken ht hhop j).1,
    fun j => (h.seq_le_taken ht hhop j).2, fun t' ht' hthop req hreq j => ?_, fun j => ?_⟩
  · rw [hholder, h.log_taken ht hhop, ← hfilled.2.1, ht.daemon_self]
    rfl
  · rw [hholder, ht.daemon_self] at hinstalled
    cases hinstalled
  · rcases ht.mem_tokens ht' with ht' | rfl
    · have := h.circulates.sent t' ht'
      omega
    · -- the requests are for packets that the daemon itself misses
      obtain ⟨r, hr, hreq⟩ := List.mem_flatMap.mp hreq
      obtain ⟨q, hq, rfl⟩ := List.mem_map.mp hreq
      have hmiss := lt_of_mem_ownRequests hr hq
      have hle : (s'.daemon j).store.aru ≤ (s'.daemon i).store.myAru := hsound.bound_le_own j i
      rw [hmyAru] at hle
      exact hle.trans_lt hmiss
  · by_cases hj : j = i
    · subst hj
      rw [ht.daemon_self]
      exact h.bounded.small j
    · rw [ht.daemon_of_ne hj]
      exact h.bounded.small j

theorem streams_taken (h : Sane conf s) (ht : Taken conf s s' i t) (hhop : t.hop = s.hop) :
    Streams conf s' := by
  obtain ⟨hok, hlinks, -⟩ := nextPackets_spec conf.packetBody i
    (fcAllowed (s.daemon i).flow ((s.daemon i).store.raise t.seq) t.flowControl.toInt).toNat
    ((s.daemon i).store.raise t.seq).highestSeq (h.streams.down i)
  have hdown : (s'.daemon i).down = ((s.daemon i).sendNewPackets conf i t).2 := by
    rw [ht.daemon_self]
    rfl
  have hproc : ∀ p ∈ ((s.daemon i).sendNewPackets conf i t).1, p.proc = i := fun p hp => by
    obtain ⟨k, hk⟩ := List.mem_iff_getElem?.mp hp
    exact ((h.takes ht hhop).newPackets k p hk).1
  refine ⟨fun j => ?_, fun j l hl => ?_, fun j => ?_, fun j => ?_, fun p hp => ?_⟩
  · by_cases hj : j = i
    · subst hj
      rw [hdown]
      exact hok
    · rw [ht.daemon_of_ne hj]
      exact h.streams.down j
  · by_cases hj : j = i
    · subst hj
      rw [hdown] at hl
      exact h.streams.valid j l (hlinks.subset hl)
    · rw [ht.daemon_of_ne hj] at hl
      exact h.streams.valid j l hl
  · rw [ht.accepted]
    exact h.streams.accepted j
  · rw [ht.accepted, h.streams.stream j, h.log_taken ht hhop, streamOf_append, List.append_assoc]
    congr 1
    by_cases hj : j = i
    · subst hj
      rw [hdown, streamOf, List.filter_eq_self.mpr fun p hp => by simpa using hproc p hp]
      exact nextPackets_marked _ _ (h.streams.down j)
    · rw [ht.daemon_of_ne hj, streamOf, List.filter_eq_nil_iff.mpr fun p hp => by
        simpa using fun h' => hj (h'.symm.trans (hproc p hp))]
      rfl
  · rw [h.log_taken ht hhop] at hp
    rcases List.mem_append.mp hp with hp | hp
    · exact h.streams.whole p hp
    · exact nextPackets_rest_whole _ (h.streams.down i)
        (fun l hl => (h.streams.valid i l hl).2) p hp

theorem taken (h : Sane conf s) (ht : Taken conf s s' i t)
    (hage : (s.daemon i).lastToken.hop ≤ t.hop + 15 * n) : Sane conf s' := by
  obtain ⟨hhop, hturn⟩ := h.circulates.fresh ht hage
  exact ⟨h.circulates.taken ht hage, h.stored_taken ht hhop hturn, h.bounded_taken ht hhop hturn,
    h.streams_taken ht hhop⟩

end Sane

/-! ## Every step -/

/-- The windows stay small. -/
theorem flow_small {e : Event n β} (h : s.step conf e = some s') (he : Timely s e)
    (hsmall : ∀ j, (s.daemon j).flow.Small) : ∀ j, (s'.daemon j).flow.Small := by
  have hafter : ∀ (s₀ : Net n β) (i : Fin n) (r : Prot n β × List (Send n β)),
      s₀.daemon = s.daemon → r.1.flow.Small → ∀ j, ((s₀.after i r).daemon j).flow.Small := by
    intro s₀ i r hs₀ hr j
    show (Function.update s₀.daemon i r.1 j).flow.Small
    by_cases hj : j = i
    · rw [hj, Function.update_self]
      exact hr
    · rw [Function.update_of_ne hj, hs₀]
      exact hsmall j
  cases e with
  | message i messType mess =>
      rw [Net.step] at h
      split at h
      · exact Option.some.inj h ▸ hsmall
      split at h
      · obtain rfl := Option.some.inj h
        exact hafter _ i _ rfl (by rw [(newMessage_rest i _ _).2.2]; exact hsmall i)
      · cases h
  | packet i k =>
      rw [Net.step] at h
      split at h
      · cases h
      split at h
      · obtain rfl := Option.some.inj h
        exact hafter _ i _ rfl (hsmall i)
      · cases h
  | token k =>
      rw [Net.step] at h
      split at h
      · cases h
      · rename_i t _
        obtain rfl := Option.some.inj h
        refine hafter _ _ _ rfl ?_
        rcases handleToken_cases conf (next t.transmiterId) t (s.daemon (next t.transmiterId)) with
          heq | ⟨-, -, -, heq⟩ | ⟨-, -, -, heq⟩ <;> (rw [heq]; exact hsmall _)
  | hurry k =>
      rw [Net.step] at h
      split at h
      · cases h
      · obtain rfl := Option.some.inj h
        exact hafter _ _ _ rfl (by rw [(handleHurry_rest leader _).2.2]; exact hsmall _)
  | hurryTimeout =>
      obtain rfl := Option.some.inj h
      exact hafter _ _ _ rfl (hsmall leader)
  | flowControl i window personalWindow acceleratedWindow =>
      obtain rfl := Option.some.inj h
      exact hafter _ i _ rfl he
  | threshold i threshold =>
      rw [Net.step] at h
      split at h
      · obtain rfl := Option.some.inj h
        exact hafter _ i _ rfl (by rw [(setDeliveryThreshold_rest threshold _).2.2]; exact hsmall i)
      · cases h
  | reliableEvent i =>
      rw [Net.step] at h
      split at h
      · obtain rfl := Option.some.inj h
        exact hafter _ i _ rfl (hsmall i)
      · cases h
  | agreedEvent i =>
      rw [Net.step] at h
      split at h
      · obtain rfl := Option.some.inj h
        exact hafter _ i _ rfl (hsmall i)
      · cases h

/-- **One step keeps the invariant.** -/
theorem Sane.step (h : Sane conf s) {e : Event n β} (he : Timely s e)
    (hs : s.step conf e = some s') : Sane conf s' := by
  have hsmall := flow_small hs he h.bounded.small
  rcases step_cases hs with rfl | ⟨i, hcalm⟩ | ⟨k, i, t, rfl, hk, ht⟩
  · exact h
  · exact hcalm.sane h hsmall
  · refine h.taken ht ?_
    rw [ht.dest]
    exact he t hk

/-! ## The start -/

omit [NeZero n] [Payload β] in
theorem Store.Ok.empty : Store.Ok ([] : List (Packet n β)) .empty where
  slot e slot hs := by cases hs
  present q hq hq' := absurd (hq.trans_le hq') (lt_irrefl _)
  discarded_le := le_rfl
  delivered_le := le_rfl
  myAru_le := le_rfl
  highest_le := le_rfl
  gap := Nat.zero_le _
  flagged e slot hs := by cases hs
  early e slot hs := by cases hs
  mem_deliveries p := by simp [Store.empty]
  nodup := List.nodup_nil
  inOrder := rfl
  alarms := rfl

theorem Sane.init (I : Install n β conf) : Sane conf I.init where
  circulates := Circulates.init I
  stored :=
    { numbered := fun k p hk => by cases hk
      datagrams := fun d hd => by cases hd
      ok := fun i => Store.Ok.empty
      discarded := fun i => rfl
      honest := fun i e slot hs => by cases hs
      sender := fun p hp => by cases hp }
  bounded :=
    { sound :=
        { sent_le_own := fun i => le_rfl
          sent_le_top := fun i => le_rfl
          bound_le_candidate := fun i => le_rfl
          bound_le_sent := fun i j => le_rfl
          dip := fun i j _ => min_le_left _ _
          stays := fun i _ j _ hj => by cases hj
          started_later := fun i j hi => by cases hi
          sent_of_not_started := fun i _ => rfl }
      holder_seq := rfl
      fresh := fun _ => ⟨rfl, I.lastSeq_ge⟩
      seq_le := fun i => Nat.zero_le _
      lastAru_le := fun i => le_rfl
      requests := fun t ht _ req hreq => by
        rw [List.mem_singleton.mp ht] at hreq
        cases hreq
      small := I.flow_small }
  streams :=
    { down := fun i =>
        { nonempty := fun l hl => (I.down_valid i l hl).1
          inside := fun l ls hl => by
            have hmem : l ∈ I.down i := by
              rw [show I.down i = l :: ls from hl]
              simp
            exact List.length_pos_iff.mpr (I.down_valid i l hmem).1
          idle := fun _ => rfl }
      valid := I.down_valid
      accepted := fun i l hl => (I.down_valid i l hl).1
      stream := fun i => by
        show (I.down i).flatMap DownLink.marked = [] ++ DownQueue.marked ⟨I.down i, 0⟩
        rw [DownQueue.marked, DownQueue.pending, List.drop_zero, List.map_flatMap, List.nil_append]
        refine congrArg (List.flatMap · _) (funext fun l => ?_)
        simp [DownLink.marked, DownLink.reliable, Function.comp_def]
      whole := fun p hp => by cases hp }

/-- **The invariant holds in every state of a run** in which no token is older than fifteen rounds
and the windows stay small. -/
theorem Sane.of_run {I : Install n β conf} {es : List (Event n β)}
    (hes : exec (Net.step conf) I.init es = some s)
    (htimely : StepsMeet (Net.step conf) Timely I.init es) : Sane conf s :=
  htimely.induct hes (Sane.init I) fun _ _ _ _ hsane he hs => hsane.step he hs

end

end SpreadAccount.Daemon
