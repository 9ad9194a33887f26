import SpreadAccount.Daemon.Store

set_option autoImplicit false

/-! # The ring protocol

The daemons of a ring pass a token around. Who has it sends new packets, which get the next
sequence numbers, answers requests for retransmissions, adds its own requests, and takes part in
finding out which packets all daemons have (`Token->aru`, `Aru`). Tokens carry a number of four
bits by which a daemon tells a new token from one it has had, and a count of how often the leader
has sent this one again.

The functions are those of `protocol.c` and `flow_control.c` for a daemon that has installed its
membership and has not lost the token (the states OP, and GATHER with a token alive). All daemons
of the ring have the same membership, so packets, tokens and requests of other memberships do not
come up. A handler is a function from the state of the daemon to its next state and what it sends.

Left out are the timers, the counters of `GlobalStatus`, the event priorities of the accelerated
ring (any order of events is possible anyway), and the second copy of a token in a wide network.
-/

namespace SpreadAccount.Daemon

/-! ## What is sent -/

/-- Where a packet goes: `Net_ucast`, `Net_scast`, `Net_bcast`. -/
inductive Dest (n : ℕ) where
  | proc (i : Fin n)
  | seg (index : ℕ)
  | all
  deriving DecidableEq

/-- `ring_rtr`: requests for retransmissions. The sequence numbers follow it on the token. -/
structure RingRtr (n : ℕ) where
  /-- `none` for `-1` -/
  procId : Option (Fin n)
  /-- `none` for `-1` -/
  segIndex : Option ℕ
  seqs : List ℕ
  deriving DecidableEq

/-- A token: the fields of its header that the protocol reads, and the requests in its body. -/
structure Token (n : ℕ) where
  /-- `Get_arq( type )` -/
  arq : ℕ
  /-- `Get_retrans( type )` -/
  retrans : ℕ
  transmiterId : Fin n
  seq : ℕ
  aru : ℕ
  aruLastId : Fin n
  flowControl : BitVec 16
  rtr : List (RingRtr n)
  /-- A ghost: how many daemons have passed the token on. Nothing depends on it. -/
  hop : ℕ
  deriving DecidableEq

/-- `Set_retrans`. -/
def Token.setRetrans {n : ℕ} (t : Token n) (val : ℕ) : Token n := { t with retrans := val }

/-- A token as it is sent again, without requests. -/
def Token.again {n : ℕ} (t : Token n) (me : Fin n) (val : ℕ) : Token n :=
  { t with rtr := [], transmiterId := me, retrans := val }

/-- Something a daemon sends. A hurry packet goes to the leader, a token to the next daemon. -/
inductive Send (n : ℕ) (β : Type) where
  | packet (dest : Dest n) (p : Packet n β)
  | token (t : Token n)
  | hurry (procId : Fin n)

/-! ## The state of a daemon -/

/-- What all daemons of a ring know. -/
structure RingConf (n : ℕ) where
  /-- The segment of a daemon. -/
  segIndex : Fin n → ℕ
  /-- `sizeof( packet_body )` -/
  packetBody : ℕ
  /-- `Accelerated_ring` -/
  accelerated : Bool

/-- `Window`, `Personal_window`, `Accelerated_window`. -/
structure Flow where
  window : ℤ
  personalWindow : ℤ
  acceleratedWindow : ℤ
  deriving DecidableEq

/-- The variables of `protocol.c` and `flow_control.c`. -/
structure Prot (n : ℕ) (β : Type) where
  store : Store n β
  lastToken : Token n
  justInstalled : Bool
  lastNumRetrans : ℕ
  lastNumSent : ℕ
  tokenCounter : ℕ
  flow : Flow
  /-- `Prot_delivery_threshold` -/
  threshold : ℕ
  /-- Whether `Deliver_all_reliable_packets_event` is queued. -/
  reliableEvent : Bool
  /-- Whether `Deliver_agreed_packets_event` is queued. -/
  agreedEvent : Bool
  down : DownQueue β

section

variable {n : ℕ} {β : Type}

/-! ## Retransmissions -/

/-- The requests on a token. -/
def Token.requests (t : Token n) : List (RingRtr n × ℕ) :=
  t.rtr.flatMap fun r => r.seqs.map fun req => (r, req)

/-- Where a requested packet is sent. -/
def RingRtr.dest (r : RingRtr n) : Dest n :=
  match r.procId, r.segIndex with
  | some i, _ => .proc i
  | none, some index => .seg index
  | none, none => .all

/-- What `Answer_retrans` finds out: what to send, and the addressee of the own requests. -/
structure Answer (n : ℕ) (β : Type) where
  sends : List (Send n β)
  procId : Option (Fin n)
  segIndex : Option ℕ
  alarms : List Alarm

/-- `Answer_retrans`. The own requests go to this daemon if it could answer all others, else to
its segment if the others came from there, else to all. -/
def answerRetrans (conf : RingConf n) (me : Fin n) (t : Token n) (s : Store n β) : Answer n β :=
  let missing := t.requests.filter fun req => (s.packets (entry req.2)).isNone
  { sends := t.requests.filterMap fun req =>
      (s.packets (entry req.2)).map fun slot => .packet req.1.dest slot.packet
    procId := if missing.isEmpty then some me else none
    segIndex :=
      if missing.all fun req => req.1.segIndex == some (conf.segIndex me) then
        some (conf.segIndex me)
      else none
    alarms := (t.requests.filter fun req => req.2 < s.aru).map fun req =>
      .retransRequested req.2 s.aru }

/-- How many requests fit on a token, `( sizeof( token_body ) - sizeof( ring_rtr ) ) / 4`. -/
def retransAllowed : ℕ := (65467 - 16) / 4

/-- The requests that a daemon puts on the token, for the packets it misses up to `maxRtrSeq`. -/
def ownRequests (s : Store n β) (a : Answer n β) (maxRtrSeq : ℕ) : List (RingRtr n) :=
  if s.myAru < maxRtrSeq then
    [{ procId := a.procId
       segIndex := a.segIndex
       seqs := ((List.range' (s.myAru + 1) (maxRtrSeq - s.myAru)).filter fun i =>
         (s.packets (entry i)).isNone).take retransAllowed }]
  else []

/-! ## Flow control -/

/-- `MAX_SEQ_GAP`. -/
def maxSeqGap : ℕ := 1600

/-- `FC_allowed`, apart from its second argument, which it does not use. -/
def fcAllowed (flow : Flow) (s : Store n β) (flowControl : ℤ) : ℤ :=
  if s.aru + maxSeqGap < s.highestSeq then 0
  else
    let allowed := flow.window + flow.personalWindow - flowControl
    let allowed := if allowed < 0 then 0 else allowed
    let allowed := if flow.window < allowed then flow.window else allowed
    if flow.personalWindow < allowed then flow.personalWindow else allowed

/-- The windows after a message of a monitor that may change them; `-1` leaves one as it is. -/
def Flow.handleMessage (flow : Flow) (window personalWindow acceleratedWindow : ℤ) : Flow where
  window := if window ≠ -1 then window else flow.window
  personalWindow := if personalWindow ≠ -1 then personalWindow else flow.personalWindow
  acceleratedWindow :=
    if acceleratedWindow ≠ -1 then acceleratedWindow else flow.acceleratedWindow

/-! ## Sending packets -/

/-- `Prot_queue_bcast`: a packet is sent, or put at the end of `Send_pack_queue` after packets from
its head were sent. The result is what is sent and the queue. -/
def queueBcast (accelerated : Bool) (window : ℤ) (queue : List (Packet n β)) (p : Packet n β) :
    List (Packet n β) × List (Packet n β) :=
  if accelerated then
    let num : ℤ := queue.length - window + 1
    let num : ℤ := if num < 0 then 0 else num
    let num : ℤ := if queue.length < num then queue.length else num
    if window = 0 then (queue.take num.toNat ++ [p], queue.drop num.toNat)
    else (queue.take num.toNat, queue.drop num.toNat ++ [p])
  else (queue ++ [p], [])

/-- The calls of `Prot_queue_bcast` for the new packets. -/
def queueBcasts (accelerated : Bool) (window : ℤ) :
    List (Packet n β) → List (Packet n β) → List (Packet n β) × List (Packet n β)
  | [], queue => ([], queue)
  | p :: ps, queue =>
      let (sent, queue) := queueBcast accelerated window queue p
      let (sent', queue) := queueBcasts accelerated window ps queue
      (sent ++ sent', queue)

/-- `Net_send_token`, three times for a token that the leader has sent more than once. -/
def sendToken (t : Token n) : List (Send n β) :=
  List.replicate (if 1 < t.retrans then 3 else 1) (.token t)

end

/-! ## The token -/

section

variable {n : ℕ} [NeZero n] {β : Type}

/-- `Conf_leader`. The daemons are numbered in the order of the ring. -/
def leader : Fin n := 0

/-- `Conf_previous`. -/
def previous (me : Fin n) : Fin n := me - 1

/-- Where `Net_send_token` sends the token. -/
def next (me : Fin n) : Fin n := me + 1

/-- `Is_token_hold` and `To_hold_token`: everything is stable, and nobody wants to send. -/
def tokenHold (lastToken : Token n) (s : Store n β) (tokenCounter : ℕ) : Bool :=
  lastToken.retrans ≤ 1 && s.aru == s.highestSeq && 1 < tokenCounter

def Prot.isTokenHold (s : Prot n β) : Bool := tokenHold s.lastToken s.store s.tokenCounter

/-- `Prot_token_hurry`: sends the last token again, without requests. -/
def tokenHurry (me : Fin n) (s : Prot n β) : Prot n β × List (Send n β) :=
  let token := s.lastToken.again me
    (if me = leader then (s.lastToken.retrans + 1) % 0x10 else s.lastToken.retrans)
  ({ s with lastToken := token }, sendToken token)

/-- The `aru` of `Last_token`. That of the token from before the installation does not count. -/
def Prot.lastAru (s : Prot n β) : ℕ := if s.justInstalled then 0 else s.lastToken.aru

/-- Whether a daemon sets the `aru` of the token to its own: it misses packets, or it was the last
to change it, or everyone has everything so far. -/
def setsAru (me : Fin n) (t : Token n) (s : Store n β) : Bool :=
  s.myAru < t.aru || t.aruLastId == me || t.aru == t.seq

/-- The token that a daemon passes on. -/
def nextToken (me : Fin n) (t : Token n) (s : Store n β) (flowControl : ℤ)
    (rtr : List (RingRtr n)) : Token n where
  arq := if me = leader then (t.arq + 1) % 0x10 else t.arq
  retrans := if me = leader then 0 else t.retrans
  transmiterId := me
  seq := s.highestSeq
  aru := if setsAru me t s then s.myAru else t.aru
  aruLastId := if setsAru me t s then me else t.aruLastId
  flowControl := BitVec.ofInt 16 flowControl
  rtr := rtr
  hop := t.hop + 1

/-- `Aru` becomes the smaller of the last two values of `Token->aru`. -/
def Store.updateAru (s : Store n β) (lastAru tokenAru : ℕ) : Store n β :=
  let newAru := if lastAru < tokenAru then lastAru else tokenAru
  let s' := { s with aru := newAru }
  if newAru < s.aru then s'.alarm [.illegallyLoweringAru s.aru newAru] else s'

variable [Payload β]

/-! A daemon takes the token. The next definitions are its state and what it makes on the way. -/

section

variable (conf : RingConf n) (me : Fin n) (t : Token n) (s : Prot n β)

/-- What `Answer_retrans` answers. -/
def Prot.answer : Answer n β := answerRetrans conf me t (s.store.raise t.seq)

/-- The packets that `Send_new_packets` creates, and the queue after them. -/
def Prot.sendNewPackets : List (Packet n β) × DownQueue β :=
  nextPackets conf.packetBody me
    (fcAllowed s.flow (s.store.raise t.seq) t.flowControl.toInt).toNat
    (s.store.raise t.seq).highestSeq s.down

/-- The store with the new packets, and `My_aru` raised. -/
def Prot.filled : Store n β :=
  ((s.sendNewPackets conf me t).1.foldl Store.create
    ((s.store.raise t.seq).alarm (s.answer conf me t).alarms)).advance

/-- The token to be sent. -/
def Prot.passOn : Token n :=
  nextToken me t (s.filled conf me t)
    (t.flowControl.toInt - s.lastNumRetrans - s.lastNumSent
      + (s.answer conf me t).sends.length + (s.sendNewPackets conf me t).1.length)
    (ownRequests (s.filled conf me t) (s.answer conf me t)
      (if conf.accelerated then s.lastToken.seq else (s.filled conf me t).highestSeq))

/-- The store with the new `Aru`. -/
def Prot.settled : Store n β :=
  (s.filled conf me t).updateAru s.lastAru (s.passOn conf me t).aru

/-- What is sent: retransmissions, new packets, the token unless it is held, and the packets that
an accelerated ring sends after the token. -/
def Prot.sends : List (Send n β) :=
  let (sent, queue) := queueBcasts conf.accelerated s.flow.acceleratedWindow
    (s.sendNewPackets conf me t).1 []
  (s.answer conf me t).sends ++ sent.map (.packet .all)
    ++ (if me = leader && tokenHold s.lastToken (s.filled conf me t) s.tokenCounter then []
        else sendToken (s.passOn conf me t))
    ++ queue.map (.packet .all)

/-- `Prot_handle_token` for a token that is taken. -/
def acceptToken : Prot n β × List (Send n β) :=
  let settled := s.settled conf me t
  let numSent := (s.sendNewPackets conf me t).1.length
  ({ s with
      store := (settled.discardPackets.deliverAgreedPackets
        s.threshold).deliverReliablePackets s.threshold (settled.highestSeq - numSent + 1) numSent
      lastToken := s.passOn conf me t
      justInstalled := false
      lastNumRetrans := (s.answer conf me t).sends.length
      lastNumSent := numSent
      tokenCounter := if settled.highestSeq = settled.aru then s.tokenCounter + 1 else 0
      down := (s.sendNewPackets conf me t).2 },
    s.sends conf me t)

/-- `MAX_WRAP_SEQUENCE_VALUE`. -/
def maxWrapSequenceValue : ℕ := 2 ^ 30

/-- `Prot_handle_token`. -/
def handleToken : Prot n β × List (Send n β) :=
  if t.transmiterId ≠ previous me then (s, [])
  else if maxWrapSequenceValue < t.seq then (s, [])
  else if me = leader then
    if t.arq ≠ s.lastToken.arq then (s, []) else acceptToken conf me t s
  else if t.arq = s.lastToken.arq then
    -- asked to send the token again
    if s.lastToken.retrans < t.retrans then
      tokenHurry me { s with lastToken := s.lastToken.setRetrans t.retrans }
    else (s, [])
  else if t.arq ≠ (s.lastToken.arq + 1) % 0x10 then (s, [])
  else acceptToken conf me t s

end

/-! ## Other events -/

/-- `Prot_handle_bcast`. -/
def handleBcast (p : Packet n β) (s : Prot n β) : Prot n β :=
  { s with store := s.store.handleBcast s.threshold p }

/-- `FC_handle_message`. -/
def fcHandleMessage (window personalWindow acceleratedWindow : ℤ) (s : Prot n β) : Prot n β :=
  { s with flow := s.flow.handleMessage window personalWindow acceleratedWindow }

/-- `Handle_hurry`, with a packet of the daemon `procId` of the ring. -/
def handleHurry (me : Fin n) (s : Prot n β) : Prot n β × List (Send n β) :=
  if me = leader && s.isTokenHold then tokenHurry me { s with tokenCounter := 0 } else (s, [])

/-- `Prot_new_message`. -/
def newMessage (me : Fin n) (l : DownLink β) (s : Prot n β) : Prot n β × List (Send n β) :=
  let s' := { s with down := { s.down with links := s.down.links ++ [l] } }
  if s'.down.links.length = 1 && s'.isTokenHold then
    if me = leader then handleHurry me s' else (s', [.hurry me])
  else (s', [])

/-- `UNRELIABLE_TYPE`. -/
def unreliableType : ℕ := 0x01

/-- The arguments that `Prot_set_delivery_threshold` accepts. -/
def legalThresholds : List ℕ :=
  [unreliableType, PacketType.reliable.code, PacketType.fifo.code, PacketType.agreed.code,
    PacketType.safe.code, blockRegularDelivery]

/-- `Prot_set_delivery_threshold`, for a legal argument. -/
def setDeliveryThreshold (threshold : ℕ) (s : Prot n β) : Prot n β :=
  let s' := { s with threshold := threshold }
  if threshold < s.threshold then
    { s' with
      reliableEvent := s.reliableEvent || threshold ≤ PacketType.reliable.code
      agreedEvent := s.agreedEvent || threshold ≤ PacketType.agreed.code }
  else if s.threshold < threshold then
    { s' with
      reliableEvent := s.reliableEvent && threshold < PacketType.fifo.code
      agreedEvent := s.agreedEvent && threshold < PacketType.safe.code }
  else s'

/-- `Deliver_all_reliable_packets_event`. -/
def deliverAllReliablePacketsEvent (s : Prot n β) : Prot n β :=
  { s with
    store := s.store.deliverReliablePackets s.threshold 1 s.store.highestSeq
    reliableEvent := false }

/-- `Deliver_agreed_packets_event`. -/
def deliverAgreedPacketsEvent (s : Prot n β) : Prot n β :=
  { s with
    store := s.store.deliverAgreedPackets s.threshold
    agreedEvent := false }

end

/-! ## The accelerated ring -/

section

variable {n : ℕ} {β : Type}

theorem queueBcast_append (accelerated : Bool) (window : ℤ) (queue : List (Packet n β))
    (p : Packet n β) :
    (queueBcast accelerated window queue p).1 ++ (queueBcast accelerated window queue p).2
      = queue ++ [p] := by
  rw [queueBcast]
  split
  · dsimp only
    split
    · rename_i hzero
      -- a window of no packets lets the whole queue go
      subst hzero
      have hnum : ¬ ((queue.length : ℤ) - 0 + 1 < 0) := by omega
      have hlen : (queue.length : ℤ) < (queue.length : ℤ) - 0 + 1 := by omega
      rw [if_neg hnum, if_pos hlen, Int.toNat_natCast, List.take_length, List.drop_length,
        List.append_nil]
    · rw [← List.append_assoc, List.take_append_drop]
  · rw [List.append_nil]

/-- **The accelerated ring sends the same packets in the same order**, some of them after the
token. -/
theorem queueBcasts_append (accelerated : Bool) (window : ℤ) (ps queue : List (Packet n β)) :
    (queueBcasts accelerated window ps queue).1 ++ (queueBcasts accelerated window ps queue).2
      = queue ++ ps := by
  induction ps generalizing queue with
  | nil => simp [queueBcasts]
  | cons p ps ih =>
      rw [queueBcasts]
      dsimp only
      rw [List.append_assoc, ih, ← List.append_assoc, queueBcast_append, List.append_assoc]
      rfl

/-! ## What taking a token does -/

theorem mem_sendToken {t : Token n} {x : Send n β} : x ∈ sendToken t ↔ x = .token t := by
  rw [sendToken, List.mem_replicate]
  refine and_iff_right ?_
  split <;> omega

theorem Store.Ok.setAru {log : List (Packet n β)} {s : Store n β} (h : s.Ok log) (a : ℕ) :
    Store.Ok log { s with aru := a } :=
  ⟨h.slot, h.present, h.discarded_le, h.delivered_le, h.myAru_le, h.highest_le, h.gap, h.flagged,
    h.early, h.mem_deliveries, h.nodup, h.inOrder, h.alarms⟩

/-- `Aru` is not lowered. -/
theorem Store.updateAru_eq {s : Store n β} {lastAru tokenAru : ℕ}
    (h : s.aru ≤ min tokenAru lastAru) :
    s.updateAru lastAru tokenAru = { s with aru := min tokenAru lastAru } := by
  have hmin : (if lastAru < tokenAru then lastAru else tokenAru) = min tokenAru lastAru := by
    split <;> omega
  rw [Store.updateAru, hmin, if_neg (not_lt.mpr h)]

/-- Many packets are created. -/
theorem Store.Ok.creates {log : List (Packet n β)} {s : Store n β} (h : s.Ok log)
    {ps : List (Packet n β)} (hmem : ∀ p ∈ ps, p ∈ log)
    (hps : ∀ k p, ps[k]? = some p → p.seq = s.highestSeq + k + 1)
    (hlen : s.highestSeq + ps.length ≤ log.length) :
    (ps.foldl Store.create s).Ok log
      ∧ (ps.foldl Store.create s).marks
        = (s.highestSeq + ps.length, s.myAru, s.aru, s.lastDiscarded)
      ∧ Keeps s (ps.foldl Store.create s)
      ∧ (s.Honest → ∀ p ∈ ps, (ps.foldl Store.create s).Has p) := by
  induction ps generalizing s with
  | nil => exact ⟨h, rfl, Keeps.refl s, fun _ p hp => by cases hp⟩
  | cons p ps ih =>
      have hseq : p.seq = s.highestSeq + 1 := hps 0 p rfl
      rw [List.length_cons] at hlen
      obtain ⟨hok, heq, hfree⟩ := h.create (hmem p (by simp)) hseq (by omega)
      have hhigh : (s.create p).highestSeq = s.highestSeq + 1 := by
        rw [heq]
        show max s.highestSeq p.seq = _
        omega
      have hkeeps : Keeps s (s.create p) := by
        rw [heq]
        exact (Keeps.put_new hfree p).trans (Keeps.of_eq rfl rfl)
      obtain ⟨hok', hmarks, hkeeps', hhas⟩ := ih hok
        (fun q hq => hmem q (List.mem_cons_of_mem _ hq))
        (fun k q hk => by rw [hhigh, hps (k + 1) q hk]; omega) (by omega)
      refine ⟨hok', ?_, hkeeps.trans hkeeps', fun hhonest q hq => ?_⟩
      · rw [List.foldl_cons, hmarks, hhigh, heq, List.length_cons, Nat.add_right_comm,
          Nat.add_assoc]
        rfl
      · rcases List.mem_cons.mp hq with rfl | hq
        · refine hkeeps'.has (hkeeps.honest hhonest) q ?_
          rw [heq]
          exact Or.inr ⟨_, _, Function.update_self _ _ _, rfl⟩
        · exact hhas (hkeeps.honest hhonest) q hq

theorem mem_answerRetrans_sends {conf : RingConf n} {me : Fin n} {t : Token n} {s : Store n β}
    {x : Send n β} (hx : x ∈ (answerRetrans conf me t s).sends) :
    ∃ req ∈ t.requests, ∃ slot, s.packets (entry req.2) = some slot
      ∧ x = .packet req.1.dest slot.packet := by
  obtain ⟨req, hreq, hx⟩ := List.mem_filterMap.mp hx
  obtain ⟨slot, hs, rfl⟩ := Option.map_eq_some_iff.mp hx
  exact ⟨req, hreq, slot, hs, rfl⟩

theorem answerRetrans_alarms {conf : RingConf n} {me : Fin n} {t : Token n} {s : Store n β}
    (h : ∀ req ∈ t.requests, s.aru < req.2) : (answerRetrans conf me t s).alarms = [] := by
  refine List.map_eq_nil_iff.mpr (List.filter_eq_nil_iff.mpr fun req hreq => ?_)
  simpa using (h req hreq).le

/-- The own requests are for packets beyond `My_aru`. -/
theorem lt_of_mem_ownRequests {s : Store n β} {a : Answer n β} {maxRtrSeq : ℕ} {r : RingRtr n}
    {q : ℕ} (hr : r ∈ ownRequests s a maxRtrSeq) (hq : q ∈ r.seqs) : s.myAru < q := by
  rw [ownRequests] at hr
  split at hr
  · obtain rfl := List.mem_singleton.mp hr
    have := List.mem_range'_1.mp (List.mem_filter.mp (List.mem_of_mem_take hq)).1
    omega
  · cases hr

/-- No packets may be sent when `Highest_seq` is too far ahead, and never more than the windows
allow. -/
theorem fcAllowed_spec (flow : Flow) (s : Store n β) (flowControl : ℤ) :
    fcAllowed flow s flowControl ≤ max 0 (min flow.window flow.personalWindow)
      ∧ (0 < fcAllowed flow s flowControl → s.highestSeq ≤ s.aru + maxSeqGap
        ∧ flowControl + fcAllowed flow s flowControl ≤ flow.window + flow.personalWindow) := by
  rw [fcAllowed]
  split
  · exact ⟨le_max_left _ _, fun h => absurd h (lt_irrefl _)⟩
  · rename_i hgap
    dsimp only
    refine ⟨by split_ifs <;> omega, fun hpos => ⟨not_lt.mp hgap, ?_⟩⟩
    split_ifs at hpos ⊢ <;> omega

end

section

variable {n : ℕ} [NeZero n] {β : Type}

variable [Payload β] {conf : RingConf n} {me : Fin n} {t : Token n} {s : Prot n β}

/-- **What a daemon does with a token**: it swallows it, sends its last token again, or takes it. -/
theorem handleToken_cases (conf : RingConf n) (me : Fin n) (t : Token n) (s : Prot n β) :
    handleToken conf me t s = (s, [])
      ∨ (me ≠ leader ∧ t.arq = s.lastToken.arq ∧ s.lastToken.retrans < t.retrans
        ∧ handleToken conf me t s
          = tokenHurry me { s with lastToken := s.lastToken.setRetrans t.retrans })
      ∨ (t.transmiterId = previous me ∧ t.seq ≤ maxWrapSequenceValue
        ∧ t.arq = (if me = leader then s.lastToken.arq else (s.lastToken.arq + 1) % 0x10)
        ∧ handleToken conf me t s = acceptToken conf me t s) := by
  rw [handleToken]
  split
  · exact Or.inl rfl
  rename_i hfrom
  split
  · exact Or.inl rfl
  rename_i hwrap
  split
  · rename_i hleader
    split
    · exact Or.inl rfl
    · rename_i harq
      exact Or.inr (Or.inr ⟨not_not.mp hfrom, not_lt.mp hwrap, not_not.mp harq, rfl⟩)
  · rename_i hleader
    split
    · rename_i harq
      split
      · rename_i hretrans
        exact Or.inr (Or.inl ⟨hleader, harq, hretrans, rfl⟩)
      · exact Or.inl rfl
    split
    · exact Or.inl rfl
    · rename_i harq
      exact Or.inr (Or.inr ⟨not_not.mp hfrom, not_lt.mp hwrap, not_not.mp harq, rfl⟩)

/-- Everything that is sent when a token is taken. -/
theorem mem_sends {x : Send n β} (hx : x ∈ s.sends conf me t) :
    x ∈ (s.answer conf me t).sends ∨ (∃ p ∈ (s.sendNewPackets conf me t).1, x = .packet .all p)
      ∨ x = .token (s.passOn conf me t) := by
  have happend := queueBcasts_append conf.accelerated s.flow.acceleratedWindow
    (s.sendNewPackets conf me t).1 []
  rw [List.nil_append] at happend
  rw [Prot.sends] at hx
  dsimp only at hx
  rcases List.mem_append.mp hx with hx | hx
  · rcases List.mem_append.mp hx with hx | hx
    · rcases List.mem_append.mp hx with hx | hx
      · exact Or.inl hx
      · obtain ⟨p, hp, rfl⟩ := List.mem_map.mp hx
        exact Or.inr (Or.inl ⟨p, by rw [← happend]; exact List.mem_append_left _ hp, rfl⟩)
    · split at hx
      · cases hx
      · exact Or.inr (Or.inr (mem_sendToken.mp hx))
  · obtain ⟨p, hp, rfl⟩ := List.mem_map.mp hx
    exact Or.inr (Or.inl ⟨p, by rw [← happend]; exact List.mem_append_right _ hp, rfl⟩)

/-- What is known when a daemon takes the token: the token is behind the packets in `log`, the
requests on it are for packets that are still needed, and the new packets find room. -/
structure Takes (conf : RingConf n) (me : Fin n) (t : Token n) (s : Prot n β)
    (log : List (Packet n β)) : Prop where
  numbered : Numbered log
  ok : s.store.Ok log
  discarded : s.store.lastDiscarded = s.store.aru
  seq : t.seq = log.length
  requests : ∀ req ∈ t.requests, s.store.aru < req.2
  down : s.down.Ok
  gap : (log ++ (s.sendNewPackets conf me t).1).length ≤ s.store.aru + maxPacketsInStruct

namespace Takes

variable {log : List (Packet n β)}

omit [NeZero n] in
theorem highestSeq (h : Takes conf me t s log) : (s.store.raise t.seq).highestSeq = log.length := by
  show max s.store.highestSeq t.seq = _
  rw [h.seq]
  exact max_eq_right h.ok.highest_le

omit [NeZero n] in
theorem newPackets (h : Takes conf me t s log) :
    ∀ k p, (s.sendNewPackets conf me t).1[k]? = some p →
      p.proc = me ∧ p.seq = log.length + k + 1 := by
  intro k p hk
  obtain ⟨hproc, hseq⟩ := (nextPackets_spec _ _ _ _ h.down).2.2.2 k p hk
  exact ⟨hproc, by rw [hseq, h.highestSeq]⟩

omit [NeZero n] in
theorem numbered_append (h : Takes conf me t s log) :
    Numbered (log ++ (s.sendNewPackets conf me t).1) :=
  h.numbered.append fun k p hk => (h.newPackets k p hk).2

omit [NeZero n] in
/-- **The store with the new packets.** -/
theorem filled (h : Takes conf me t s log) :
    (s.filled conf me t).Ok (log ++ (s.sendNewPackets conf me t).1)
      ∧ (s.filled conf me t).highestSeq = (log ++ (s.sendNewPackets conf me t).1).length
      ∧ (s.filled conf me t).aru = s.store.aru
      ∧ (s.filled conf me t).lastDiscarded = s.store.aru
      ∧ s.store.myAru ≤ (s.filled conf me t).myAru
      ∧ Keeps s.store (s.filled conf me t)
      ∧ (s.store.Honest → ∀ p ∈ (s.sendNewPackets conf me t).1, (s.filled conf me t).Has p) := by
  have halarms : (s.answer conf me t).alarms = [] := answerRetrans_alarms h.requests
  have hraised : ((s.store.raise t.seq).alarm (s.answer conf me t).alarms).Ok
      (log ++ (s.sendNewPackets conf me t).1) := by
    rw [halarms, Store.alarm, List.append_nil]
    refine (h.ok.extend h.numbered_append ?_).raise ?_
    · rw [h.discarded]
      exact h.gap
    · rw [h.seq]
      simp
  obtain ⟨hok, hmarks, hkeeps, hhas⟩ := hraised.creates (fun p hp => List.mem_append_right _ hp)
    (fun k p hk => by
      rw [(h.newPackets k p hk).2]
      exact congrArg (· + k + 1) h.highestSeq.symm)
    (by rw [List.length_append]; exact (congrArg (· + _) h.highestSeq).le)
  simp only [Store.marks, Prod.mk.injEq] at hmarks
  obtain ⟨hok', hgrow, -⟩ := hok.advance
  have hraise : Keeps s.store ((s.store.raise t.seq).alarm (s.answer conf me t).alarms) :=
    Keeps.of_eq rfl rfl
  refine ⟨hok', ?_, hmarks.2.2.1, hmarks.2.2.2.trans h.discarded, hmarks.2.1.ge.trans hgrow,
    hraise.trans (hkeeps.trans (Keeps.of_eq rfl rfl)), hhas⟩
  refine hmarks.1.trans ?_
  rw [List.length_append]
  exact congrArg (· + _) h.highestSeq

/-- The new packets find room if there are not more than the windows allow. -/
theorem settled (h : Takes conf me t s log)
    (hlow : s.store.aru ≤ min (s.passOn conf me t).aru s.lastAru) :
    s.settled conf me t
      = { s.filled conf me t with aru := min (s.passOn conf me t).aru s.lastAru } := by
  refine Store.updateAru_eq ?_
  rw [h.filled.2.2.1]
  exact hlow

/-- **The store after the token is taken.** -/
theorem acceptToken (h : Takes conf me t s log)
    (hlow : s.store.aru ≤ min (s.passOn conf me t).aru s.lastAru)
    (hhigh : min (s.passOn conf me t).aru s.lastAru ≤ (s.filled conf me t).myAru) :
    (acceptToken conf me t s).1.store.Ok (log ++ (s.sendNewPackets conf me t).1)
      ∧ (acceptToken conf me t s).1.store.marks
        = ((log ++ (s.sendNewPackets conf me t).1).length, (s.filled conf me t).myAru,
          min (s.passOn conf me t).aru s.lastAru, min (s.passOn conf me t).aru s.lastAru)
      ∧ Keeps s.store (acceptToken conf me t s).1.store
      ∧ (s.store.Honest → ∀ p ∈ (s.sendNewPackets conf me t).1,
        (acceptToken conf me t s).1.store.Has p) := by
  obtain ⟨hok, hhighest, -, hdiscarded, -, hfilled, hnew⟩ := h.filled
  have hsettled := h.settled hlow
  have hok' : (s.settled conf me t).Ok (log ++ (s.sendNewPackets conf me t).1) := by
    rw [hsettled]
    exact hok.setAru _
  have hdiscard := hok'.discardPackets h.numbered_append (by rw [hsettled]; exact hhigh)
  have hdelivers := (Delivers.deliverAgreedPackets s.threshold
    (s.settled conf me t).discardPackets).trans
    (Delivers.deliverReliablePackets s.threshold _ ((s.settled conf me t).highestSeq
      - (s.sendNewPackets conf me t).1.length + 1) (s.sendNewPackets conf me t).1.length)
  have hmarks := (s.settled conf me t).discardPackets_marks (by
    rw [hsettled]
    exact hdiscarded.trans_le hlow)
  have hrest : Keeps (s.filled conf me t) (Daemon.acceptToken conf me t s).1.store := by
    have hsettle : Keeps (s.filled conf me t) (s.settled conf me t) := by
      rw [hsettled]
      exact Keeps.of_eq rfl rfl
    exact hsettle.trans (hmarks.2.trans hdelivers.keeps)
  refine ⟨(hdiscard.deliverAgreedPackets h.numbered_append _).deliverReliablePackets _ _ _, ?_,
    hfilled.trans hrest, fun hhonest p hp => ?_⟩
  · refine hdelivers.marks.trans (hmarks.1.trans ?_)
    rw [hsettled, hhighest]
  · exact hrest.has (hfilled.honest hhonest) p (hnew hhonest p hp)

end Takes

end

end SpreadAccount.Daemon
