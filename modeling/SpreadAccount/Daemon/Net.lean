import SpreadAccount.Daemon.Protocol

set_option autoImplicit false

/-! # The daemons and their network

The system: the daemons of one ring, and a network that may lose, repeat, delay and reorder what
they send. Everything sent stays in an archive, and an event hands any part of it to a daemon it is
meant for, at any time and any number of times; what is lost is never handed over.

A run starts when all daemons have installed the membership and the token that the last of them
sent is on its way (`Install`). `step_cases` says what a step does: nothing to the token but perhaps
a copy of one (`Calm`), or a daemon takes the token (`Taken`).

`log` and `hop` are ghosts: the packets in the order of their sequence numbers, each where it was
first sent, and the number of times the token was taken. `accepted` is what the sessions of a
daemon have handed to it. No daemon reads them.
-/

namespace SpreadAccount.Daemon

/-- The state of the ring and its network. -/
structure Net (n : ℕ) (β : Type) where
  daemon : Fin n → Prot n β
  datagrams : List (Dest n × Packet n β)
  tokens : List (Token n)
  hurries : List (Fin n)
  hop : ℕ
  log : List (Packet n β)
  accepted : Fin n → List (DownLink β)

/-- What happens. Numbers are positions in what was sent. -/
inductive Event (n : ℕ) (β : Type) where
  /-- A session of the daemon `i` sends a message. -/
  | message (i : Fin n) (messType : BitVec 32) (mess : List β)
  /-- A packet arrives at `i`. -/
  | packet (i : Fin n) (k : ℕ)
  /-- A token arrives at the daemon after the one that sent it. -/
  | token (k : ℕ)
  /-- A hurry packet arrives at the leader. -/
  | hurry (k : ℕ)
  /-- `Prot_token_hurry_event` at the leader -/
  | hurryTimeout
  /-- A monitor changes the windows of `i`. -/
  | flowControl (i : Fin n) (window personalWindow acceleratedWindow : ℤ)
  /-- `Prot_set_delivery_threshold` at `i` -/
  | threshold (i : Fin n) (threshold : ℕ)
  | reliableEvent (i : Fin n)
  | agreedEvent (i : Fin n)

section

variable {n : ℕ} {β : Type}

def Send.datagram? : Send n β → Option (Dest n × Packet n β)
  | .packet dest p => some (dest, p)
  | _ => none

def Send.token? : Send n β → Option (Token n)
  | .token t => some t
  | _ => none

def Send.hurry? : Send n β → Option (Fin n)
  | .hurry procId => some procId
  | _ => none

/-- The log after packets were sent: those with the next number are new. -/
def extendLog (log : List (Packet n β)) (ps : List (Packet n β)) : List (Packet n β) :=
  ps.foldl (fun log p => if p.seq = log.length + 1 then log ++ [p] else log) log

/-- The state after the daemon `i` has gone to the state `r.1` and sent `r.2`. -/
def Net.after (s : Net n β) (i : Fin n) (r : Prot n β × List (Send n β)) : Net n β :=
  let datagrams := r.2.filterMap Send.datagram?
  { s with
    daemon := Function.update s.daemon i r.1
    datagrams := s.datagrams ++ datagrams
    tokens := s.tokens ++ r.2.filterMap Send.token?
    hurries := s.hurries ++ r.2.filterMap Send.hurry?
    hop := max s.hop r.1.lastToken.hop
    log := extendLog s.log (datagrams.map Prod.snd) }

/-- Whether a packet sent to `dest` may arrive at `i`. -/
def Dest.reaches (conf : RingConf n) (i : Fin n) : Dest n → Bool
  | .proc j => i == j
  | .seg index => conf.segIndex i == index
  | .all => true

variable [NeZero n] [Payload β]

/-- A message that a session may send: it has elements, and all but the last fill a packet. -/
def DownLink.Valid (body : ℕ) (l : DownLink β) : Prop := l.mess ≠ [] ∧ l.Cut body

instance (body : ℕ) (l : DownLink β) : Decidable (l.Valid body) :=
  have : Decidable (l.mess ≠ []) := decidable_of_iff (l.mess.isEmpty = false) (by simp)
  inferInstanceAs (Decidable (_ ∧ _))

/-- One step. -/
def Net.step (conf : RingConf n) (s : Net n β) : Event n β → Option (Net n β)
  | .message i messType mess =>
      match createDownLink messType mess with
      | none => some s
      | some l =>
          if l.Valid conf.packetBody then
            some ({ s with accepted := Function.update s.accepted i (s.accepted i ++ [l]) }.after i
              (newMessage i l (s.daemon i)))
          else none
  | .packet i k =>
      match s.datagrams[k]? with
      | none => none
      | some (dest, p) =>
          if dest.reaches conf i then
            some (s.after i (handleBcast p (s.daemon i), []))
          else none
  | .token k =>
      match s.tokens[k]? with
      | none => none
      | some t =>
          let i := next t.transmiterId
          some (s.after i (handleToken conf i t (s.daemon i)))
  | .hurry k =>
      match s.hurries[k]? with
      | none => none
      | some _ => some (s.after leader (handleHurry leader (s.daemon leader)))
  | .hurryTimeout => some (s.after leader (tokenHurry leader (s.daemon leader)))
  | .flowControl i window personalWindow acceleratedWindow =>
      some (s.after i
        (fcHandleMessage window personalWindow acceleratedWindow (s.daemon i), []))
  | .threshold i threshold =>
      if threshold ∈ legalThresholds then
        some (s.after i (setDeliveryThreshold threshold (s.daemon i), []))
      else none
  | .reliableEvent i =>
      if (s.daemon i).reliableEvent then
        some (s.after i (deliverAllReliablePacketsEvent (s.daemon i), []))
      else none
  | .agreedEvent i =>
      if (s.daemon i).agreedEvent then
        some (s.after i (deliverAgreedPacketsEvent (s.daemon i), []))
      else none

/-! ## The start -/

/-- The most that the smaller window may allow: with it, half of the array of packets holds what a
daemon may send beyond `Aru`. -/
def maxBurst : ℕ := maxPacketsInStruct / 2 - maxSeqGap

/-- The windows are small enough for the array of packets. -/
def Flow.Small (flow : Flow) : Prop := min flow.window flow.personalWindow ≤ maxBurst

instance (flow : Flow) : Decidable flow.Small := inferInstanceAs (Decidable (_ ≤ _))

/-- How a membership is installed: with the token that was taken `start + n` times before, which
carries the last sequence number `lastSeq` of the state EVS (`Create_form1` starts it at 3333) in
its `aru`. -/
structure Install (n : ℕ) (β : Type) [Payload β] (conf : RingConf n) where
  start : ℕ
  lastSeq : ℕ
  aruLastId : Fin n
  flow : Fin n → Flow
  /-- The messages that wait in the down queues. -/
  down : Fin n → List (DownLink β)
  lastSeq_ge : 3333 ≤ lastSeq
  flow_small : ∀ i, (flow i).Small
  down_valid : ∀ i, ∀ l ∈ down i, l.Valid conf.packetBody

variable {conf : RingConf n}

/-- The hop of the last token that `i` has passed on. -/
def Install.hopOf (I : Install n β conf) (i : Fin n) : ℕ :=
  n * (I.start / n + if I.start % n ≤ i.val then 0 else 1) + i.val

/-- The last token that `i` has passed on. -/
def Install.tokenOf (I : Install n β conf) (i : Fin n) : Token n where
  arq := I.hopOf i / n % 0x10
  retrans := 0
  transmiterId := i
  seq := 0
  aru := I.lastSeq
  aruLastId := I.aruLastId
  flowControl := 0
  rtr := []
  hop := I.hopOf i

/-- The daemon `i` after the installation. -/
def Install.daemon (I : Install n β conf) (i : Fin n) : Prot n β where
  store := .empty
  lastToken := I.tokenOf i
  justInstalled := true
  lastNumRetrans := 0
  lastNumSent := 0
  tokenCounter := 0
  flow := I.flow i
  threshold := blockRegularDelivery
  reliableEvent := false
  agreedEvent := false
  down := ⟨I.down i, 0⟩

/-- The daemon whose turn is the hop `h`. -/
def daemonAt (h : ℕ) : Fin n := Fin.ofNat n h

/-- The ring after the installation. -/
def Install.init (I : Install n β conf) : Net n β where
  daemon := I.daemon
  datagrams := []
  tokens := [I.tokenOf (daemonAt (I.start + n - 1))]
  hurries := []
  hop := I.start + n - 1
  log := []
  accepted := I.down

/-- What is assumed of a step: no token arrives after fifteen rounds, and the windows stay small
enough for the array of packets. -/
def Timely (s : Net n β) : Event n β → Prop
  | .token k => ∀ t ∈ s.tokens[k]?, (s.daemon (next t.transmiterId)).lastToken.hop ≤ t.hop + 15 * n
  | .flowControl i window personalWindow acceleratedWindow =>
      (fcHandleMessage window personalWindow acceleratedWindow (s.daemon i)).flow.Small
  | _ => True

instance (s : Net n β) (e : Event n β) : Decidable (Timely s e) := by
  cases e <;> unfold Timely <;> infer_instance

end

/-! ## A ring of two daemons

A run on which results are tried. The reliable message of the first daemon is lost on its way to
the second, which requests it with the next token. -/

def Sample.conf : RingConf 2 := ⟨fun _ => 0, 64, false⟩

def Sample.install : Install 2 (List UInt8) Sample.conf where
  start := 0
  lastSeq := 3333
  aruLastId := 0
  flow _ := ⟨60, 15, 0⟩
  down _ := []
  lastSeq_ge := le_rfl
  flow_small _ := by decide
  down_valid _ l hl := by cases hl

def Sample.run : List (Event 2 (List UInt8)) :=
  [.threshold 0 unreliableType, .threshold 1 unreliableType, .message 0 agreedMess [[1, 2]],
    .message 1 safeMess [[9]], .message 0 reliableMess [[7]],
    .token 0, .packet 1 0, .token 1, .packet 0 2, .token 2]

/-- The packet is sent again, and the token goes round until all is delivered. -/
def Sample.rest : List (Event 2 (List UInt8)) :=
  [.packet 1 3, .token 3, .token 0, .token 4, .token 5, .token 6]

/-! ## Steps that do not take the token -/

section

variable {n : ℕ} {β : Type}

/-- What is the same in all copies of a token. -/
def Token.core (t : Token n) : ℕ × ℕ × ℕ × Fin n × BitVec 16 × ℕ :=
  (t.arq, t.seq, t.aru, t.aruLastId, t.flowControl, t.hop)

/-- The daemon `me` goes to the state `r.1` and sends `r.2`, but does not take a token. It may send
its last one again. -/
structure Idle (me : Fin n) (s : Prot n β) (r : Prot n β × List (Send n β)) : Prop where
  core : r.1.lastToken.core = s.lastToken.core
  justInstalled : r.1.justInstalled = s.justInstalled
  lastNumRetrans : r.1.lastNumRetrans = s.lastNumRetrans
  lastNumSent : r.1.lastNumSent = s.lastNumSent
  tokenCounter : r.1.tokenCounter = s.tokenCounter ∨ r.1.tokenCounter = 0
  aru : r.1.store.aru = s.store.aru
  lastDiscarded : r.1.store.lastDiscarded = s.store.lastDiscarded
  myAru : s.store.myAru ≤ r.1.store.myAru
  keeps : Keeps s.store r.1.store
  sends : ∀ x ∈ r.2, (∃ procId, x = .hurry procId)
    ∨ ∃ t : Token n, x = .token t ∧ t.core = s.lastToken.core ∧ t.transmiterId = me ∧ t.rtr = []

/-- A daemon delivers packets, or changes variables that no other daemon sees. -/
theorem Idle.of_delivers {me : Fin n} {s s' : Prot n β} (hstore : Delivers s.store s'.store)
    (htoken : s'.lastToken = s.lastToken) (hinstalled : s'.justInstalled = s.justInstalled)
    (hretrans : s'.lastNumRetrans = s.lastNumRetrans) (hsent : s'.lastNumSent = s.lastNumSent)
    (hcounter : s'.tokenCounter = s.tokenCounter) : Idle me s (s', []) where
  core := congrArg Token.core htoken
  justInstalled := hinstalled
  lastNumRetrans := hretrans
  lastNumSent := hsent
  tokenCounter := Or.inl hcounter
  aru := hstore.aru
  lastDiscarded := hstore.lastDiscarded
  myAru := hstore.myAru.ge
  keeps := hstore.keeps
  sends x hx := by cases hx

theorem Idle.refl (me : Fin n) (s : Prot n β) : Idle me s (s, []) :=
  Idle.of_delivers (Delivers.refl _) rfl rfl rfl rfl rfl

theorem setDeliveryThreshold_idle (me : Fin n) (threshold : ℕ) (s : Prot n β) :
    Idle me s (setDeliveryThreshold threshold s, []) := by
  rw [setDeliveryThreshold]
  dsimp only
  split
  · exact Idle.of_delivers (Delivers.refl _) rfl rfl rfl rfl rfl
  · split <;> exact Idle.of_delivers (Delivers.refl _) rfl rfl rfl rfl rfl

theorem setDeliveryThreshold_rest (threshold : ℕ) (s : Prot n β) :
    (setDeliveryThreshold threshold s).store = s.store
      ∧ (setDeliveryThreshold threshold s).down = s.down
      ∧ (setDeliveryThreshold threshold s).flow = s.flow := by
  rw [setDeliveryThreshold]
  dsimp only
  split
  · exact ⟨rfl, rfl, rfl⟩
  · split <;> exact ⟨rfl, rfl, rfl⟩

theorem handleBcast_idle (me : Fin n) (p : Packet n β) (s : Prot n β) :
    Idle me s (handleBcast p s, []) := by
  obtain ⟨haru, hdiscarded, hmyAru, hkeeps⟩ := Store.handleBcast_marks s.threshold s.store p
  exact ⟨rfl, rfl, rfl, rfl, Or.inl rfl, haru, hdiscarded, hmyAru, hkeeps,
    fun x hx => by cases hx⟩

/-- A daemon notes how often it was asked for its last token. -/
theorem setRetrans_idle (me : Fin n) (val : ℕ) (s : Prot n β) :
    Idle me s ({ s with lastToken := s.lastToken.setRetrans val }, []) :=
  ⟨rfl, rfl, rfl, rfl, Or.inl rfl, rfl, rfl, le_rfl, Keeps.refl _, fun x hx => by cases hx⟩

variable [NeZero n]

theorem tokenHurry_idle (me : Fin n) {s s₀ : Prot n β} (h : Idle me s₀ (s, [])) :
    Idle me s₀ (tokenHurry me s) where
  core := h.core
  justInstalled := h.justInstalled
  lastNumRetrans := h.lastNumRetrans
  lastNumSent := h.lastNumSent
  tokenCounter := h.tokenCounter
  aru := h.aru
  lastDiscarded := h.lastDiscarded
  myAru := h.myAru
  keeps := h.keeps
  sends _ hx := Or.inr ⟨_, mem_sendToken.mp hx, h.core, rfl, rfl⟩

theorem handleHurry_idle (me : Fin n) {s s₀ : Prot n β} (h : Idle me s₀ (s, [])) :
    Idle me s₀ (handleHurry me s) := by
  rw [handleHurry]
  split
  · exact tokenHurry_idle me ⟨h.core, h.justInstalled, h.lastNumRetrans, h.lastNumSent, Or.inr rfl,
      h.aru, h.lastDiscarded, h.myAru, h.keeps, h.sends⟩
  · exact h

theorem newMessage_idle (me : Fin n) (l : DownLink β) (s : Prot n β) :
    Idle me s (newMessage me l s) := by
  have hqueued : Idle me s ({ s with down := { s.down with links := s.down.links ++ [l] } }, []) :=
    Idle.of_delivers (Delivers.refl _) rfl rfl rfl rfl rfl
  rw [newMessage]
  dsimp only
  split
  · split
    · exact handleHurry_idle me hqueued
    · refine ⟨hqueued.core, hqueued.justInstalled, hqueued.lastNumRetrans, hqueued.lastNumSent,
        hqueued.tokenCounter, hqueued.aru, hqueued.lastDiscarded, hqueued.myAru,
        hqueued.keeps, fun x hx => Or.inl ⟨me, List.mem_singleton.mp hx⟩⟩
  · exact hqueued

theorem handleHurry_rest (me : Fin n) (s : Prot n β) :
    (handleHurry me s).1.store = s.store ∧ (handleHurry me s).1.down = s.down
      ∧ (handleHurry me s).1.flow = s.flow := by
  rw [handleHurry]
  split <;> exact ⟨rfl, rfl, rfl⟩

theorem newMessage_rest (me : Fin n) (l : DownLink β) (s : Prot n β) :
    (newMessage me l s).1.store = s.store
      ∧ (newMessage me l s).1.down = { s.down with links := s.down.links ++ [l] }
      ∧ (newMessage me l s).1.flow = s.flow := by
  rw [newMessage]
  dsimp only
  split
  · split
    · exact handleHurry_rest me _
    · exact ⟨rfl, rfl, rfl⟩
  · exact ⟨rfl, rfl, rfl⟩

end

/-! ## What a step does -/

section

variable {n : ℕ} [NeZero n] {β : Type} [Payload β] {conf : RingConf n} {s s' : Net n β}

/-- **The daemon `i` does something, but nobody takes the token.** -/
structure Calm (conf : RingConf n) (s s' : Net n β) (i : Fin n) : Prop where
  idle : ∃ r, Idle i (s.daemon i) r ∧ s'.daemon = Function.update s.daemon i r.1
    ∧ s'.tokens = s.tokens ++ r.2.filterMap Send.token?
  hop : s'.hop = max s.hop (s.daemon i).lastToken.hop
  datagrams : s'.datagrams = s.datagrams
  log : s'.log = s.log
  store : ∀ {log : List (Packet n β)}, Numbered log → (∀ d ∈ s.datagrams, d.2 ∈ log) →
    (s.daemon i).store.Ok log → (s'.daemon i).store.Ok log
  down : ((s'.daemon i).down = (s.daemon i).down ∧ s'.accepted = s.accepted)
    ∨ ∃ l : DownLink β, l.Valid conf.packetBody
      ∧ (s'.daemon i).down = { (s.daemon i).down with links := (s.daemon i).down.links ++ [l] }
      ∧ s'.accepted = Function.update s.accepted i (s.accepted i ++ [l])

/-- **The daemon `i` takes the token `t`.** -/
structure Taken (conf : RingConf n) (s s' : Net n β) (i : Fin n) (t : Token n) : Prop where
  mem : t ∈ s.tokens
  dest : i = next t.transmiterId
  wrap : t.seq ≤ maxWrapSequenceValue
  arq : t.arq = if i = leader then (s.daemon i).lastToken.arq
    else ((s.daemon i).lastToken.arq + 1) % 0x10
  eq : s' = s.after i (acceptToken conf i t (s.daemon i))

omit [NeZero n] [Payload β] in
/-- A daemon that does not take a token sends no packets. -/
theorem Idle.datagrams {me : Fin n} {p : Prot n β} {r : Prot n β × List (Send n β)}
    (h : Idle me p r) : r.2.filterMap Send.datagram? = [] := by
  refine List.filterMap_eq_nil_iff.mpr fun x hx => ?_
  rcases h.sends x hx with ⟨procId, rfl⟩ | ⟨t, rfl, -⟩ <;> rfl

omit [NeZero n] in
theorem Calm.of_idle {s₀ : Net n β} {i : Fin n} {r : Prot n β × List (Send n β)}
    (h : Idle i (s.daemon i) r) (hdaemon : s₀.daemon = s.daemon) (htokens : s₀.tokens = s.tokens)
    (hhop : s₀.hop = s.hop) (hdatagrams : s₀.datagrams = s.datagrams) (hlog : s₀.log = s.log)
    (hstore : ∀ {log : List (Packet n β)}, Numbered log → (∀ d ∈ s.datagrams, d.2 ∈ log) →
      (s.daemon i).store.Ok log → r.1.store.Ok log)
    (hdown : (r.1.down = (s.daemon i).down ∧ s₀.accepted = s.accepted)
      ∨ ∃ l : DownLink β, l.Valid conf.packetBody
        ∧ r.1.down = { (s.daemon i).down with links := (s.daemon i).down.links ++ [l] }
        ∧ s₀.accepted = Function.update s.accepted i (s.accepted i ++ [l])) :
    Calm conf s (s₀.after i r) i := by
  have hr : (s₀.after i r).daemon i = r.1 := Function.update_self _ _ _
  refine ⟨⟨r, h, ?_, ?_⟩, ?_, ?_, ?_, ?_, ?_⟩
  · rw [← hdaemon]
    rfl
  · rw [← htokens]
    rfl
  · have hcore : r.1.lastToken.hop = (s.daemon i).lastToken.hop :=
      congrArg (·.2.2.2.2.2) h.core
    rw [← hhop, ← hcore]
    rfl
  · show s₀.datagrams ++ _ = _
    rw [h.datagrams, List.append_nil, hdatagrams]
  · show extendLog s₀.log _ = _
    rw [h.datagrams, hlog]
    rfl
  · rw [hr]
    exact hstore
  · rw [hr]
    exact hdown

omit [NeZero n] in
/-- A step that leaves the store and the down queue of `i` alone. -/
theorem Calm.of_rest {i : Fin n} {r : Prot n β × List (Send n β)} (h : Idle i (s.daemon i) r)
    (hrest : r.1.store = (s.daemon i).store ∧ r.1.down = (s.daemon i).down) :
    Calm conf s (s.after i r) i :=
  Calm.of_idle h rfl rfl rfl rfl rfl (fun _ _ hok => by rw [hrest.1]; exact hok)
    (Or.inl ⟨hrest.2, rfl⟩)

/-- **What a step does.** -/
theorem step_cases {e : Event n β} (h : s.step conf e = some s') :
    s' = s ∨ (∃ i, Calm conf s s' i) ∨ ∃ k i t, e = .token k ∧ s.tokens[k]? = some t
      ∧ Taken conf s s' i t := by
  cases e with
  | message i messType mess =>
      rw [Net.step] at h
      split at h
      · exact Or.inl (Option.some.inj h).symm
      split at h
      · rename_i l _ hvalid
        obtain rfl := Option.some.inj h
        obtain ⟨hstore, hdown, -⟩ := newMessage_rest i l (s.daemon i)
        refine Or.inr (Or.inl ⟨i, Calm.of_idle (newMessage_idle i l _) rfl rfl rfl rfl rfl
          (fun _ _ hok => by rw [hstore]; exact hok) (Or.inr ⟨l, hvalid, hdown, rfl⟩)⟩)
      · cases h
  | packet i k =>
      rw [Net.step] at h
      split at h
      · cases h
      split at h
      · rename_i dest p hp _
        obtain rfl := Option.some.inj h
        have hmem := List.mem_of_getElem? hp
        refine Or.inr (Or.inl ⟨i, Calm.of_idle (handleBcast_idle i p _) rfl rfl rfl rfl rfl
          (fun hlog hall hok => hok.handleBcast hlog _ (hall _ hmem)) (Or.inl ⟨rfl, rfl⟩)⟩)
      · cases h
  | token k =>
      rw [Net.step] at h
      split at h
      · cases h
      · rename_i t ht
        obtain rfl := Option.some.inj h
        rcases handleToken_cases conf (next t.transmiterId) t (s.daemon (next t.transmiterId)) with
          heq | ⟨-, -, -, heq⟩ | ⟨-, hwrap, harq, heq⟩
        · rw [heq]
          exact Or.inr (Or.inl ⟨_, Calm.of_rest (Idle.refl _ _) ⟨rfl, rfl⟩⟩)
        · rw [heq]
          exact Or.inr (Or.inl ⟨_, Calm.of_rest (tokenHurry_idle _ (setRetrans_idle _ _ _))
            ⟨rfl, rfl⟩⟩)
        · rw [heq]
          exact Or.inr (Or.inr ⟨k, _, t, rfl, ht, List.mem_of_getElem? ht, rfl, hwrap, harq, rfl⟩)
  | hurry k =>
      rw [Net.step] at h
      split at h
      · cases h
      · obtain rfl := Option.some.inj h
        obtain ⟨hstore, hdown, -⟩ := handleHurry_rest leader (s.daemon leader)
        exact Or.inr (Or.inl ⟨_, Calm.of_rest (handleHurry_idle _ (Idle.refl _ _))
          ⟨hstore, hdown⟩⟩)
  | hurryTimeout =>
      obtain rfl := Option.some.inj h
      exact Or.inr (Or.inl ⟨_, Calm.of_rest (tokenHurry_idle _ (Idle.refl _ _)) ⟨rfl, rfl⟩⟩)
  | flowControl i window personalWindow acceleratedWindow =>
      obtain rfl := Option.some.inj h
      exact Or.inr (Or.inl ⟨_, Calm.of_rest
        (Idle.of_delivers (Delivers.refl _) rfl rfl rfl rfl rfl) ⟨rfl, rfl⟩⟩)
  | threshold i threshold =>
      rw [Net.step] at h
      split at h
      · obtain rfl := Option.some.inj h
        obtain ⟨hstore, hdown, -⟩ := setDeliveryThreshold_rest threshold (s.daemon i)
        exact Or.inr (Or.inl ⟨_, Calm.of_rest (setDeliveryThreshold_idle i threshold _)
          ⟨hstore, hdown⟩⟩)
      · cases h
  | reliableEvent i =>
      rw [Net.step] at h
      split at h
      · obtain rfl := Option.some.inj h
        have hidle : Idle i (s.daemon i) (deliverAllReliablePacketsEvent (s.daemon i), []) :=
          Idle.of_delivers (Delivers.deliverReliablePackets ..) rfl rfl rfl rfl rfl
        exact Or.inr (Or.inl ⟨i, Calm.of_idle hidle rfl rfl rfl rfl rfl
          (fun _ _ hok => hok.deliverReliablePackets _ _ _) (Or.inl ⟨rfl, rfl⟩)⟩)
      · cases h
  | agreedEvent i =>
      rw [Net.step] at h
      split at h
      · obtain rfl := Option.some.inj h
        have hidle : Idle i (s.daemon i) (deliverAgreedPacketsEvent (s.daemon i), []) :=
          Idle.of_delivers (Delivers.deliverAgreedPackets ..) rfl rfl rfl rfl rfl
        exact Or.inr (Or.inl ⟨i, Calm.of_idle hidle rfl rfl rfl rfl rfl
          (fun hlog _ hok => hok.deliverAgreedPackets hlog _) (Or.inl ⟨rfl, rfl⟩)⟩)
      · cases h

end

end SpreadAccount.Daemon
