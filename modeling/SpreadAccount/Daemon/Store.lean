import SpreadAccount.Daemon.Delivery
import Mathlib.Data.List.Nodup

set_option autoImplicit false

/-! # The packets a daemon keeps

`Packets` is an array of 8192 entries in which a packet has the entry of its sequence number
modulo 8192. A packet stays from its arrival (`exist` is 1) over its delivery (`exist` is 2) until
every daemon has it and `Discard_packets` frees the entry. `My_aru` is the number up to which no
packet is missing, `Aru` the number up to which no daemon misses any.

All packets of a ring are numbered in the order in which they were created; `log` is the list of
them. `Store.Ok` is what ties a daemon's store to that list. Every operation keeps it:

* `Ok.handleBcast`, `Ok.create`, `Ok.advance`: packets arrive and are created;
* `Ok.deliverReliablePackets`, `Ok.deliverAgreedPackets`, `Ok.discardPackets`: they are delivered.
-/

namespace SpreadAccount.Daemon

/-! ## The array of packets -/

/-- `MAX_PACKETS_IN_STRUCT`. -/
def maxPacketsInStruct : ℕ := 8192

/-- `PACKET_MASK`. -/
def packetMask : ℕ := 0x00001fff

/-- `pack_entry`. -/
def entry (seq : ℕ) : ℕ := seq &&& packetMask

theorem entry_eq_mod (seq : ℕ) : entry seq = seq % maxPacketsInStruct :=
  Nat.and_two_pow_sub_one_eq_mod seq 13

/-- Numbers in a window of the size of the array have different entries. -/
theorem entry_inj {a q r : ℕ} (hq : a < q) (hq' : q ≤ a + maxPacketsInStruct) (hr : a < r)
    (hr' : r ≤ a + maxPacketsInStruct) (h : entry q = entry r) : q = r := by
  rw [entry_eq_mod, entry_eq_mod] at h
  simp only [maxPacketsInStruct] at *
  omega

/-- `packet_info` of an entry with `exist` 1 or 2. -/
structure Slot (n : ℕ) (β : Type) where
  packet : Packet n β
  /-- `exist` is 2. -/
  delivered : Bool
  deriving DecidableEq

/-- The fatal alarms of `protocol.c`, with the numbers they print. -/
inductive Alarm where
  /-- `Answer_retrans: retrans of %d requested while Aru is %d` -/
  | retransRequested (req aru : ℕ)
  /-- `Send_new_packets: created packet %d already exist %d` -/
  | createdAlreadyExist (seq : ℕ)
  /-- `Prot_handle_token: illegally lowering Aru from ...: Aru %d -> %d` -/
  | illegallyLoweringAru (aru newAru : ℕ)
  /-- `Deliver_agreed_packets: Error, packet %d; exist is %d` -/
  | agreedNotExist (seq : ℕ)
  /-- `Deliver_agreed_packets: packet %d already delivered but had wrong type` -/
  | wrongType (seq : ℕ)
  /-- `Discard_packets: (NOT EVS) packet %d not exist` -/
  | discardNotExist (seq : ℕ)
  deriving DecidableEq

/-- What a daemon knows of the packets. `deliveries` are the packets that `Deliver_packet` was
called with, in order; its up queues are those after these calls (`deliverPacket`). A fatal alarm
ends the daemon; here it is recorded. -/
structure Store (n : ℕ) (β : Type) where
  packets : ℕ → Option (Slot n β)
  highestSeq : ℕ
  myAru : ℕ
  aru : ℕ
  lastDiscarded : ℕ
  lastDelivered : ℕ
  deliveries : List (Packet n β)
  alarms : List Alarm

section

variable {n : ℕ} {β : Type}

/-- The store after a new membership is installed. -/
def Store.empty : Store n β := ⟨fun _ => none, 0, 0, 0, 0, 0, [], []⟩

def Store.put (s : Store n β) (e : ℕ) (slot : Option (Slot n β)) : Store n β :=
  { s with packets := Function.update s.packets e slot }

/-- `Last_delivered = i`. -/
def Store.deliveredTo (s : Store n β) (i : ℕ) : Store n β := { s with lastDelivered := i }

/-- `Last_discarded = i`. -/
def Store.discardedTo (s : Store n β) (i : ℕ) : Store n β := { s with lastDiscarded := i }

/-- `if ( Highest_seq < i ) Highest_seq = i`. -/
def Store.raise (s : Store n β) (i : ℕ) : Store n β := { s with highestSeq := max s.highestSeq i }

def Store.alarm (s : Store n β) (as : List Alarm) : Store n β :=
  { s with alarms := s.alarms ++ as }

/-- The loop that raises `My_aru` over the packets that are there, `rounds` at most. -/
def raiseAru (packets : ℕ → Option (Slot n β)) : ℕ → ℕ → ℕ
  | 0, myAru => myAru
  | rounds + 1, myAru =>
      match packets (entry (myAru + 1)) with
      | none => myAru
      | some _ => raiseAru packets rounds (myAru + 1)

def Store.advance (s : Store n β) : Store n β :=
  { s with myAru := raiseAru s.packets (s.highestSeq - s.myAru) s.myAru }

/-- `Deliver_packet( pack_entry, .. )`. -/
def Store.deliverPacket (s : Store n β) (e : ℕ) (slot : Slot n β) : Store n β :=
  { s with
    packets := Function.update s.packets e (some { slot with delivered := true })
    deliveries := s.deliveries ++ [slot.packet] }

/-- The body of the loop of `Deliver_reliable_packets`. -/
def Store.deliverReliable (s : Store n β) (i : ℕ) : Store n β :=
  match s.packets (entry i) with
  | none => s
  | some slot =>
      if !slot.delivered && slot.packet.early then s.deliverPacket (entry i) slot else s

def deliverReliableLoop : ℕ → ℕ → Store n β → Store n β
  | 0, _, s => s
  | rounds + 1, i, s => deliverReliableLoop rounds (i + 1) (s.deliverReliable i)

/-- `Deliver_reliable_packets( startSeq, numPackets )`. -/
def Store.deliverReliablePackets (threshold : ℕ) (s : Store n β) (startSeq numPackets : ℕ) :
    Store n β :=
  if PacketType.reliable.code < threshold then s
  else
    let start := if startSeq ≤ s.lastDelivered then s.lastDelivered + 1 else startSeq
    deliverReliableLoop (startSeq + numPackets - start) start s

def deliverAgreedLoop : ℕ → Store n β → Store n β
  | 0, s => s
  | rounds + 1, s =>
      let i := s.lastDelivered + 1
      match s.packets (entry i) with
      | none => s.alarm [.agreedNotExist i]
      | some slot =>
          if !slot.delivered then
            if slot.packet.type != .safe then
              deliverAgreedLoop rounds ((s.deliverPacket (entry i) slot).deliveredTo i)
            else s
          else if PacketType.agreed.code ≤ slot.packet.type.code then s.alarm [.wrongType i]
          else deliverAgreedLoop rounds (s.deliveredTo i)

/-- `Deliver_agreed_packets()`. -/
def Store.deliverAgreedPackets (threshold : ℕ) (s : Store n β) : Store n β :=
  if s.myAru ≤ s.lastDelivered then s
  else if PacketType.agreed.code < threshold then s
  else deliverAgreedLoop (s.myAru - s.lastDelivered) s

def discardLoop : ℕ → ℕ → Store n β → Store n β
  | 0, _, s => s
  | rounds + 1, i, s =>
      match s.packets (entry i) with
      | none => s.alarm [.discardNotExist i]
      | some slot =>
          let s := if slot.delivered then s else s.deliverPacket (entry i) slot
          discardLoop rounds (i + 1) (s.put (entry i) none)

/-- `Discard_packets()` outside the state EVS. -/
def Store.discardPackets (s : Store n β) : Store n β :=
  if s.aru ≤ s.lastDiscarded then s
  else
    ((discardLoop (s.aru - s.lastDiscarded) (s.lastDiscarded + 1) s).discardedTo
      s.aru).deliveredTo (max s.lastDelivered s.aru)

/-- `Prot_handle_bcast` for a packet of the own membership. -/
def Store.handleBcast (threshold : ℕ) (s : Store n β) (p : Packet n β) : Store n β :=
  if p.seq ≤ s.lastDiscarded then s
  else
    match s.packets (entry p.seq) with
    | some _ => s
    | none =>
        let s' := (s.put (entry p.seq) (some ⟨p, false⟩)).raise p.seq
        if p.seq = s.myAru + 1 then s'.advance.deliverAgreedPackets threshold
        else s'.deliverReliablePackets threshold p.seq 1

/-- `Send_new_packets` puts a packet it has created into its entry. -/
def Store.create (s : Store n β) (p : Packet n β) : Store n β :=
  let s' := (s.put (entry p.seq) (some ⟨p, false⟩)).raise (s.highestSeq + 1)
  match s.packets (entry p.seq) with
  | none => s'
  | some _ => s'.alarm [.createdAlreadyExist p.seq]

end

/-! ## The numbered packets of a ring -/

section

variable {n : ℕ} {β : Type}

/-- The packets have the numbers `1, 2, ...`. -/
def Numbered (log : List (Packet n β)) : Prop := ∀ k p, log[k]? = some p → p.seq = k + 1

variable {log : List (Packet n β)}

theorem Numbered.getElem? (h : Numbered log) {p : Packet n β} (hp : p ∈ log) :
    log[p.seq - 1]? = some p ∧ 0 < p.seq ∧ p.seq ≤ log.length := by
  obtain ⟨k, hk⟩ := List.mem_iff_getElem?.mp hp
  have hseq := h k p hk
  have hlt := (List.getElem?_eq_some_iff.mp hk).1
  refine ⟨?_, by omega, by omega⟩
  rwa [hseq, Nat.add_sub_cancel]

theorem Numbered.inj (h : Numbered log) {p q : Packet n β} (hp : p ∈ log) (hq : q ∈ log)
    (hseq : p.seq = q.seq) : p = q := by
  have hp' := (h.getElem? hp).1
  rw [hseq, (h.getElem? hq).1] at hp'
  exact (Option.some.inj hp').symm

/-- The packets up to the number `q`. -/
theorem Numbered.mem_take (h : Numbered log) {p : Packet n β} {q : ℕ} :
    p ∈ log.take q ↔ p ∈ log ∧ p.seq ≤ q := by
  constructor
  · intro hp
    obtain ⟨k, hk⟩ := List.mem_iff_getElem?.mp hp
    rw [List.getElem?_take] at hk
    split at hk
    · rename_i hlt
      exact ⟨List.mem_iff_getElem?.mpr ⟨k, hk⟩, by rw [h k p hk]; omega⟩
    · cases hk
  · rintro ⟨hp, hle⟩
    obtain ⟨hget, hpos, -⟩ := h.getElem? hp
    refine List.mem_iff_getElem?.mpr ⟨p.seq - 1, ?_⟩
    rw [List.getElem?_take, if_pos (by omega), hget]

theorem Numbered.take_succ (h : Numbered log) {p : Packet n β} (hp : p ∈ log) {q : ℕ}
    (hq : p.seq = q + 1) : log.take (q + 1) = log.take q ++ [p] := by
  have hget := (h.getElem? hp).1
  rw [hq, Nat.add_sub_cancel] at hget
  rw [List.take_add_one, hget]
  rfl

theorem Numbered.nodup (h : Numbered log) : log.Nodup := by
  refine List.nodup_iff_getElem?_ne_getElem?.mpr fun i j hij hj heq => ?_
  have hi := h i _ (heq.trans (List.getElem?_eq_getElem hj))
  have hj' := h j _ (List.getElem?_eq_getElem hj)
  omega

theorem Numbered.append (h : Numbered log) {ps : List (Packet n β)}
    (hps : ∀ k p, ps[k]? = some p → p.seq = log.length + k + 1) : Numbered (log ++ ps) := by
  intro k p hk
  rcases Nat.lt_or_ge k log.length with hlt | hge
  · rw [List.getElem?_append_left hlt] at hk
    exact h k p hk
  · rw [List.getElem?_append_right hge] at hk
    rw [hps _ p hk]
    omega

/-! ## The invariant of a store -/

/-- **What ties a daemon's store to the packets of the ring.** -/
structure Store.Ok (log : List (Packet n β)) (s : Store n β) : Prop where
  slot : ∀ e slot, s.packets e = some slot → entry slot.packet.seq = e ∧ slot.packet ∈ log
    ∧ s.lastDiscarded < slot.packet.seq ∧ slot.packet.seq ≤ s.highestSeq
  present : ∀ q, s.lastDiscarded < q → q ≤ s.myAru → ∃ slot, s.packets (entry q) = some slot
  discarded_le : s.lastDiscarded ≤ s.lastDelivered
  delivered_le : s.lastDelivered ≤ s.myAru
  myAru_le : s.myAru ≤ s.highestSeq
  highest_le : s.highestSeq ≤ log.length
  /-- No two packets that are still needed share an entry. -/
  gap : log.length ≤ s.lastDiscarded + maxPacketsInStruct
  flagged : ∀ e slot, s.packets e = some slot → slot.packet.seq ≤ s.lastDelivered →
    slot.delivered = true
  early : ∀ e slot, s.packets e = some slot → slot.delivered = true →
    s.lastDelivered < slot.packet.seq → slot.packet.early = true
  mem_deliveries : ∀ p, p ∈ s.deliveries ↔ p ∈ log ∧ (p.seq ≤ s.lastDiscarded
    ∨ ∃ slot, s.packets (entry p.seq) = some slot ∧ slot.packet = p ∧ slot.delivered = true)
  nodup : s.deliveries.Nodup
  inOrder : ordered s.deliveries = ordered (log.take s.lastDelivered)
  alarms : s.alarms = []

/-- What the loop that raises `My_aru` does. -/
theorem raiseAru_spec (packets : ℕ → Option (Slot n β)) (rounds a : ℕ) :
    a ≤ raiseAru packets rounds a ∧ raiseAru packets rounds a ≤ a + rounds
      ∧ (∀ q, a < q → q ≤ raiseAru packets rounds a → ∃ slot, packets (entry q) = some slot)
      ∧ (raiseAru packets rounds a < a + rounds →
        packets (entry (raiseAru packets rounds a + 1)) = none) := by
  induction rounds generalizing a with
  | zero => exact ⟨le_rfl, le_rfl, fun q hq hq' => absurd (hq.trans_le hq') (lt_irrefl _),
      fun h => absurd h (lt_irrefl _)⟩
  | succ rounds ih =>
      rw [raiseAru]
      split
      · rename_i hnone
        exact ⟨le_rfl, Nat.le_add_right _ _, fun q hq hq' => absurd (hq.trans_le hq')
          (lt_irrefl _), fun _ => hnone⟩
      · rename_i slot hs
        obtain ⟨hge, hle, hall, hstop⟩ := ih (a + 1)
        refine ⟨by omega, by omega, fun q hq hq' => ?_, fun hlt => hstop (by omega)⟩
        rcases Nat.lt_or_ge (a + 1) q with hlt | hge'
        · exact hall q hlt hq'
        · obtain rfl : q = a + 1 := by omega
          exact ⟨slot, hs⟩

namespace Store.Ok

variable {s : Store n β}

/-- An entry of a number in the window holds the packet with this number. -/
theorem seq_of_entry (h : s.Ok log) {q : ℕ} {slot : Slot n β} (hq : s.lastDiscarded < q)
    (hq' : q ≤ log.length) (hs : s.packets (entry q) = some slot) : slot.packet.seq = q := by
  obtain ⟨he, -, hlow, hhigh⟩ := h.slot _ _ hs
  have := h.gap
  have := h.highest_le
  exact entry_inj hlow (by omega) hq (by omega) he

/-- A slot that is not the one of the packet `p` holds another number. -/
theorem seq_ne (h : s.Ok log) {e : ℕ} {q : ℕ} {slot : Slot n β} (hs : s.packets e = some slot)
    (he : e ≠ entry q) : slot.packet.seq ≠ q := by
  rintro rfl
  exact he (h.slot _ _ hs).1.symm

/-- The slots after one of them is replaced by one with the same packet. -/
theorem packets_put {e : ℕ} {slot slot' : Slot n β} {e' : ℕ}
    (hs : (s.put e (some slot)).packets e' = some slot') :
    (e' = e ∧ slot' = slot) ∨ (e' ≠ e ∧ s.packets e' = some slot') := by
  by_cases he : e' = e
  · subst he
    rw [show (s.put e' (some slot)).packets e' = some slot from Function.update_self _ _ _] at hs
    exact Or.inl ⟨rfl, (Option.some.inj hs).symm⟩
  · rw [show (s.put e (some slot)).packets e' = s.packets e' from
      Function.update_of_ne he _ _] at hs
    exact Or.inr ⟨he, hs⟩

theorem put_isSome {e : ℕ} {slot : Slot n β} {e' : ℕ} (hs : ∃ slot', s.packets e' = some slot') :
    ∃ slot', (s.put e (some slot)).packets e' = some slot' := by
  by_cases he : e' = e
  · exact ⟨slot, by rw [he]; exact Function.update_self _ _ _⟩
  · obtain ⟨slot', hs⟩ := hs
    exact ⟨slot', (Function.update_of_ne he _ _).trans hs⟩

/-! ### Delivering -/

/-- A packet whose entry is not marked is not delivered yet. -/
theorem not_mem_deliveries (h : s.Ok log) {e : ℕ} {slot : Slot n β} (hs : s.packets e = some slot)
    (hnew : slot.delivered = false) : slot.packet ∉ s.deliveries := by
  intro hmem
  obtain ⟨he, -, hlow, -⟩ := h.slot _ _ hs
  rcases ((h.mem_deliveries _).mp hmem).2 with hle | ⟨slot', hs', -, hdelivered⟩
  · omega
  · rw [he, hs] at hs'
    obtain rfl := Option.some.inj hs'
    rw [hnew] at hdelivered
    cases hdelivered

/-- What holds of the deliveries after one more. -/
theorem mem_deliveries_deliver (h : s.Ok log) {e : ℕ} {slot : Slot n β}
    (hs : s.packets e = some slot) (p : Packet n β) :
    p ∈ (s.deliverPacket e slot).deliveries ↔ p ∈ log ∧ (p.seq ≤ s.lastDiscarded
      ∨ ∃ slot', (s.deliverPacket e slot).packets (entry p.seq) = some slot' ∧ slot'.packet = p
        ∧ slot'.delivered = true) := by
  obtain ⟨he, hlog, hlow, -⟩ := h.slot _ _ hs
  show p ∈ s.deliveries ++ [slot.packet] ↔ _
  rw [List.mem_append, List.mem_singleton, h.mem_deliveries]
  constructor
  · rintro (⟨hp, hle | ⟨slot', hs', rfl, hdelivered⟩⟩ | rfl)
    · exact ⟨hp, Or.inl hle⟩
    · refine ⟨hp, Or.inr ?_⟩
      by_cases hsame : entry slot'.packet.seq = e
      · rw [hsame, hs] at hs'
        obtain rfl := Option.some.inj hs'
        exact ⟨_, (congrArg _ hsame).trans (Function.update_self _ _ _), rfl, rfl⟩
      · exact ⟨slot', (Function.update_of_ne hsame _ _).trans hs', rfl, hdelivered⟩
    · exact ⟨hlog, Or.inr ⟨_, (congrArg _ he).trans (Function.update_self _ _ _), rfl, rfl⟩⟩
  · rintro ⟨hp, hle | ⟨slot', hs', rfl, hdelivered⟩⟩
    · exact Or.inl ⟨hp, Or.inl hle⟩
    · rcases packets_put hs' with ⟨-, rfl⟩ | ⟨-, hs'⟩
      · exact Or.inr rfl
      · exact Or.inl ⟨hp, Or.inr ⟨slot', hs', rfl, hdelivered⟩⟩

theorem nodup_deliver (h : s.Ok log) {e : ℕ} {slot : Slot n β} (hs : s.packets e = some slot)
    (hnew : slot.delivered = false) : (s.deliverPacket e slot).deliveries.Nodup :=
  List.nodup_append.mpr ⟨h.nodup, List.nodup_singleton _, fun p hp q hq => by
    rw [List.mem_singleton.mp hq]
    rintro rfl
    exact h.not_mem_deliveries hs hnew hp⟩

/-- A packet is delivered early. -/
theorem deliver_early (h : s.Ok log) {e : ℕ} {slot : Slot n β} (hs : s.packets e = some slot)
    (hnew : slot.delivered = false) (hearly : slot.packet.early = true) :
    (s.deliverPacket e slot).Ok log where
  slot e' slot' hs' := by
    have hslot := h.slot _ _ hs
    rcases packets_put hs' with ⟨rfl, rfl⟩ | ⟨-, hs'⟩
    · exact hslot
    · exact h.slot _ _ hs'
  present q hq hq' := put_isSome (h.present q hq hq')
  discarded_le := h.discarded_le
  delivered_le := h.delivered_le
  myAru_le := h.myAru_le
  highest_le := h.highest_le
  gap := h.gap
  flagged e' slot' hs' hle := by
    rcases packets_put hs' with ⟨-, rfl⟩ | ⟨-, hs'⟩
    · rfl
    · exact h.flagged _ _ hs' hle
  early e' slot' hs' hdelivered hlt := by
    rcases packets_put hs' with ⟨-, rfl⟩ | ⟨-, hs'⟩
    · exact hearly
    · exact h.early _ _ hs' hdelivered hlt
  mem_deliveries := h.mem_deliveries_deliver hs
  nodup := h.nodup_deliver hs hnew
  inOrder := by
    show ordered (s.deliveries ++ [slot.packet]) = _
    rw [ordered_snoc_early hearly, h.inOrder]
    rfl
  alarms := h.alarms

/-- The packet after `Last_delivered` is delivered. -/
theorem deliver_next (hlog : Numbered log) (h : s.Ok log) {slot : Slot n β}
    (hs : s.packets (entry (s.lastDelivered + 1)) = some slot) (hnew : slot.delivered = false)
    (hle : s.lastDelivered + 1 ≤ s.myAru) :
    ((s.deliverPacket (entry (s.lastDelivered + 1)) slot).deliveredTo
      (s.lastDelivered + 1)).Ok log := by
  have hseq : slot.packet.seq = s.lastDelivered + 1 :=
    h.seq_of_entry (by have := h.discarded_le; omega)
      (by have := h.myAru_le; have := h.highest_le; omega) hs
  obtain ⟨-, hmem, -, -⟩ := h.slot _ _ hs
  refine ⟨fun e' slot' hs' => ?_, fun q hq hq' => put_isSome (h.present q hq hq'), ?_, hle,
    h.myAru_le, h.highest_le, h.gap, fun e' slot' hs' hle' => ?_,
    fun e' slot' hs' hdelivered hlt => ?_, h.mem_deliveries_deliver hs, h.nodup_deliver hs hnew,
    ?_, h.alarms⟩
  · have hslot := h.slot _ _ hs
    rcases packets_put hs' with ⟨rfl, rfl⟩ | ⟨-, hs'⟩
    · exact hslot
    · exact h.slot _ _ hs'
  · have := h.discarded_le
    show s.lastDiscarded ≤ s.lastDelivered + 1
    omega
  · rcases packets_put hs' with ⟨-, rfl⟩ | ⟨hne, hs'⟩
    · rfl
    · refine h.flagged _ _ hs' ?_
      have := h.seq_ne hs' hne
      change slot'.packet.seq ≤ s.lastDelivered + 1 at hle'
      omega
  · change s.lastDelivered + 1 < slot'.packet.seq at hlt
    rcases packets_put hs' with ⟨-, rfl⟩ | ⟨-, hs'⟩
    · rw [hseq] at hlt
      exact absurd hlt (lt_irrefl _)
    · exact h.early _ _ hs' hdelivered (by omega)
  · show ordered (s.deliveries ++ [slot.packet]) = ordered (log.take (s.lastDelivered + 1))
    rw [hlog.take_succ hmem hseq, ordered_append, ordered_append, h.inOrder]

/-- The packet after `Last_delivered` was delivered early. -/
theorem skip_next (hlog : Numbered log) (h : s.Ok log) {slot : Slot n β}
    (hs : s.packets (entry (s.lastDelivered + 1)) = some slot) (hdone : slot.delivered = true)
    (hle : s.lastDelivered + 1 ≤ s.myAru) :
    slot.packet.early = true ∧ (s.deliveredTo (s.lastDelivered + 1)).Ok log := by
  have hseq : slot.packet.seq = s.lastDelivered + 1 :=
    h.seq_of_entry (by have := h.discarded_le; omega)
      (by have := h.myAru_le; have := h.highest_le; omega) hs
  obtain ⟨-, hmem, -, -⟩ := h.slot _ _ hs
  have hearly := h.early _ _ hs hdone (by omega)
  refine ⟨hearly, h.slot, h.present, ?_, hle, h.myAru_le, h.highest_le, h.gap,
    fun e slot' hs' hle' => ?_, fun e slot' hs' hdelivered hlt => ?_, h.mem_deliveries, h.nodup,
    ?_, h.alarms⟩
  · have := h.discarded_le
    show s.lastDiscarded ≤ s.lastDelivered + 1
    omega
  · change slot'.packet.seq ≤ s.lastDelivered + 1 at hle'
    rcases Nat.lt_or_ge s.lastDelivered slot'.packet.seq with hlt | hge
    · have hsame : slot'.packet.seq = s.lastDelivered + 1 := by omega
      obtain ⟨he, -, -, -⟩ := h.slot _ _ hs'
      rw [← he, hsame] at hs'
      obtain rfl := Option.some.inj (hs.symm.trans hs')
      exact hdone
    · exact h.flagged _ _ hs' hge
  · change s.lastDelivered + 1 < slot'.packet.seq at hlt
    exact h.early _ _ hs' hdelivered (by omega)
  · show ordered s.deliveries = ordered (log.take (s.lastDelivered + 1))
    rw [hlog.take_succ hmem hseq, ordered_snoc_early hearly, h.inOrder]

/-- The packet after `Last_discarded` is discarded, after its delivery. -/
theorem discard_next (hlog : Numbered log) (h : s.Ok log) (slot : Slot n β)
    (hs : s.packets (entry (s.lastDiscarded + 1)) = some slot)
    (hle : s.lastDiscarded + 1 ≤ s.lastDelivered) :
    ((s.put (entry (s.lastDiscarded + 1)) none).discardedTo (s.lastDiscarded + 1)).Ok log := by
  have hseq : slot.packet.seq = s.lastDiscarded + 1 :=
    h.seq_of_entry (by omega) (by have := h.delivered_le; have := h.myAru_le
                                  have := h.highest_le; omega) hs
  obtain ⟨-, hmem, -, -⟩ := h.slot _ _ hs
  have hput : ∀ {e slot'}, (s.put (entry (s.lastDiscarded + 1)) none).packets e = some slot' →
      e ≠ entry (s.lastDiscarded + 1) ∧ s.packets e = some slot' := by
    intro e slot' hs'
    by_cases he : e = entry (s.lastDiscarded + 1)
    · subst he
      cases (Function.update_self (f := s.packets) _ _).symm.trans hs'
    · exact ⟨he, (Function.update_of_ne he _ _).symm.trans hs'⟩
  refine ⟨fun e slot' hs' => ?_, fun q hq hq' => ?_, hle, h.delivered_le, h.myAru_le,
    h.highest_le, ?_, fun e slot' hs' => h.flagged _ _ (hput hs').2,
    fun e slot' hs' => h.early _ _ (hput hs').2, fun p => ?_, h.nodup, h.inOrder, h.alarms⟩
  · obtain ⟨hne, hs'⟩ := hput hs'
    obtain ⟨he, hlog, hlow, hhigh⟩ := h.slot _ _ hs'
    have := h.seq_ne hs' hne
    refine ⟨he, hlog, ?_, hhigh⟩
    show s.lastDiscarded + 1 < slot'.packet.seq
    omega
  · change s.lastDiscarded + 1 < q at hq
    obtain ⟨slot', hs'⟩ := h.present q (by omega) hq'
    refine ⟨slot', (Function.update_of_ne (fun he => ?_) _ _).trans hs'⟩
    have hgap := h.gap
    have := h.myAru_le
    have := h.highest_le
    change q ≤ s.myAru at hq'
    have := entry_inj (a := s.lastDiscarded) (by omega) (by omega) (by omega) (by omega) he
    omega
  · have := h.gap
    show log.length ≤ s.lastDiscarded + 1 + maxPacketsInStruct
    omega
  · show p ∈ s.deliveries ↔ _
    rw [h.mem_deliveries]
    refine and_congr_right fun hp => ?_
    constructor
    · rintro (hlow | ⟨slot', hs', rfl, hdelivered⟩)
      · exact Or.inl (Nat.le_succ_of_le hlow)
      · by_cases he : entry slot'.packet.seq = entry (s.lastDiscarded + 1)
        · rw [he, hs] at hs'
          obtain rfl := Option.some.inj hs'
          exact Or.inl hseq.le
        · exact Or.inr ⟨slot', (Function.update_of_ne he _ _).trans hs', rfl, hdelivered⟩
    · rintro (hlow | ⟨slot', hs', rfl, hdelivered⟩)
      · change p.seq ≤ s.lastDiscarded + 1 at hlow
        rcases Nat.lt_or_ge s.lastDiscarded p.seq with hlt | hge
        · have hsame : p.seq = slot.packet.seq := by omega
          refine Or.inr ⟨slot, by rw [hsame, hseq]; exact hs, ?_, h.flagged _ _ hs (by omega)⟩
          exact hlog.inj hmem hp hsame.symm
        · exact Or.inl hge
      · exact Or.inr ⟨slot', (hput hs').2, rfl, hdelivered⟩

/-- The packet after `Last_discarded` is delivered if it was not, and discarded. -/
theorem discard_step (hlog : Numbered log) (h : s.Ok log) {slot : Slot n β}
    (hs : s.packets (entry (s.lastDiscarded + 1)) = some slot)
    (hle : s.lastDiscarded + 1 ≤ s.myAru) :
    ((((if slot.delivered then s
        else s.deliverPacket (entry (s.lastDiscarded + 1)) slot).put
          (entry (s.lastDiscarded + 1)) none).discardedTo
        (s.lastDiscarded + 1)).deliveredTo (max s.lastDelivered (s.lastDiscarded + 1))).Ok
      log := by
  rcases Nat.lt_or_ge s.lastDiscarded s.lastDelivered with hlt | hge
  · -- it was delivered with the agreed packets
    have hseq : slot.packet.seq = s.lastDiscarded + 1 :=
      h.seq_of_entry (by omega) (by have := h.myAru_le; have := h.highest_le; omega) hs
    rw [if_pos (h.flagged _ _ hs (by omega)), max_eq_left (by omega)]
    exact h.discard_next hlog _ hs hlt
  · have hsame : s.lastDelivered = s.lastDiscarded := le_antisymm hge h.discarded_le
    rw [max_eq_right (by omega)]
    rw [← hsame] at hs hle ⊢
    cases hdone : slot.delivered with
    | true =>
        have hnext := (h.skip_next hlog hs hdone hle).2
        have hdiscard := hnext.discard_next hlog slot
          (hsame ▸ hs) (Nat.succ_le_succ hsame.ge)
        rw [show (s.deliveredTo (s.lastDelivered + 1)).lastDiscarded = s.lastDelivered from
          hsame.symm] at hdiscard
        exact hdiscard
    | false =>
        have hnext := h.deliver_next hlog hs hdone hle
        have hdiscard := hnext.discard_next hlog { slot with delivered := true }
          (hsame ▸ Function.update_self _ _ _) (Nat.succ_le_succ hsame.ge)
        rw [show ((s.deliverPacket (entry (s.lastDelivered + 1)) slot).deliveredTo
          (s.lastDelivered + 1)).lastDiscarded = s.lastDelivered from hsame.symm] at hdiscard
        exact hdiscard

/-! ### The loops that deliver -/

theorem deliverReliable (h : s.Ok log) (i : ℕ) : (s.deliverReliable i).Ok log := by
  rw [Store.deliverReliable]
  split
  · exact h
  · rename_i slot hs
    split
    · rename_i hcond
      rw [Bool.and_eq_true, Bool.not_eq_true'] at hcond
      exact h.deliver_early hs hcond.1 hcond.2
    · exact h

theorem deliverReliableLoop (h : s.Ok log) (rounds i : ℕ) :
    (deliverReliableLoop rounds i s).Ok log := by
  induction rounds generalizing i s with
  | zero => exact h
  | succ rounds ih => exact ih (h.deliverReliable i) (i + 1)

theorem deliverReliablePackets (h : s.Ok log) (threshold startSeq numPackets : ℕ) :
    (s.deliverReliablePackets threshold startSeq numPackets).Ok log := by
  rw [Store.deliverReliablePackets]
  split
  · exact h
  · exact h.deliverReliableLoop _ _

theorem deliverAgreedLoop (hlog : Numbered log) (h : s.Ok log) {rounds : ℕ}
    (hrounds : s.lastDelivered + rounds ≤ s.myAru) : (deliverAgreedLoop rounds s).Ok log := by
  induction rounds generalizing s with
  | zero => exact h
  | succ rounds ih =>
      have hle : s.lastDelivered + 1 ≤ s.myAru := by omega
      obtain ⟨slot, hs⟩ := h.present (s.lastDelivered + 1)
        (Nat.lt_succ_of_le h.discarded_le) hle
      rw [Daemon.deliverAgreedLoop, hs]
      dsimp only
      split
      · rename_i hnew
        split
        · refine ih (h.deliver_next hlog hs (by simpa using hnew) hle) ?_
          show s.lastDelivered + 1 + rounds ≤ s.myAru
          omega
        · exact h
      · rename_i hdone
        obtain ⟨hearly, hnext⟩ := h.skip_next hlog hs (by simpa using hdone) hle
        rw [if_neg (by simp [Packet.type_of_early hearly, PacketType.code])]
        refine ih hnext ?_
        show s.lastDelivered + 1 + rounds ≤ s.myAru
        omega

theorem deliverAgreedPackets (hlog : Numbered log) (h : s.Ok log) (threshold : ℕ) :
    (s.deliverAgreedPackets threshold).Ok log := by
  rw [Store.deliverAgreedPackets]
  split
  · exact h
  split
  · exact h
  · exact h.deliverAgreedLoop hlog (by have := h.delivered_le; omega)

/-- The store when the loop of `Discard_packets` has come to `i`. -/
private def upTo (s : Store n β) (i : ℕ) : Store n β :=
  (s.discardedTo i).deliveredTo (max s.lastDelivered i)

private theorem upTo_step (s : Store n β) (slot : Slot n β) (e i : ℕ) :
    (((if slot.delivered then upTo s i else (upTo s i).deliverPacket e slot).put e
        none).discardedTo (i + 1)).deliveredTo (max (max s.lastDelivered i) (i + 1))
      = upTo ((if slot.delivered then s else s.deliverPacket e slot).put e none) (i + 1) := by
  rw [max_assoc, max_eq_right (Nat.le_succ i)]
  cases slot.delivered <;> rfl

theorem discardLoop (hlog : Numbered log) (rounds : ℕ) {i : ℕ} (h : (upTo s i).Ok log)
    (hrounds : i + rounds ≤ s.myAru) :
    (upTo (discardLoop rounds (i + 1) s) (i + rounds)).Ok log := by
  induction rounds generalizing s i with
  | zero => exact h
  | succ rounds ih =>
      have hle : i + 1 ≤ s.myAru := by omega
      obtain ⟨slot, hs⟩ := h.present (i + 1) (Nat.lt_succ_self i) hle
      have hstep := h.discard_step hlog hs hle
      rw [show (upTo s i).lastDiscarded = i from rfl,
        show (upTo s i).lastDelivered = max s.lastDelivered i from rfl, upTo_step] at hstep
      change s.packets (entry (i + 1)) = some slot at hs
      rw [Daemon.discardLoop, hs, show i + (rounds + 1) = i + 1 + rounds by omega]
      refine ih hstep ?_
      cases slot.delivered <;> (show i + 1 + rounds ≤ s.myAru; omega)

theorem discardLoop_lastDelivered (rounds i : ℕ) (s : Store n β) :
    (Daemon.discardLoop rounds i s).lastDelivered = s.lastDelivered := by
  induction rounds generalizing i s with
  | zero => rfl
  | succ rounds ih =>
      rw [Daemon.discardLoop]
      split
      · rfl
      · rw [ih]
        split <;> rfl

theorem discardPackets (hlog : Numbered log) (h : s.Ok log) (haru : s.aru ≤ s.myAru) :
    s.discardPackets.Ok log := by
  rw [Store.discardPackets]
  split
  · exact h
  · rename_i hlt
    have hself : upTo s s.lastDiscarded = s := by
      rw [upTo, max_eq_left h.discarded_le]
      rfl
    have hloop := discardLoop hlog (s := s) (i := s.lastDiscarded)
      (s.aru - s.lastDiscarded) (by rw [hself]; exact h) (by omega)
    rw [Nat.add_sub_cancel' (by omega), upTo, discardLoop_lastDelivered] at hloop
    exact hloop

/-! ### Packets arrive and are created -/

theorem insert (h : s.Ok log) {p : Packet n β} (hp : p ∈ log) (hlow : s.lastDiscarded < p.seq)
    (hfree : s.packets (entry p.seq) = none) (hlen : p.seq ≤ log.length) :
    ((s.put (entry p.seq) (some ⟨p, false⟩)).raise p.seq).Ok log := by
  refine ⟨fun e slot hs => ?_, fun q hq hq' => put_isSome (h.present q hq hq'), h.discarded_le,
    h.delivered_le, h.myAru_le.trans (le_max_left _ _), max_le h.highest_le hlen, h.gap,
    fun e slot hs hle => ?_, fun e slot hs hdelivered hlt => ?_, fun q => ?_, h.nodup, h.inOrder,
    h.alarms⟩
  · rcases packets_put hs with ⟨rfl, rfl⟩ | ⟨-, hs⟩
    · exact ⟨rfl, hp, hlow, le_max_right _ _⟩
    · obtain ⟨he, hlog, hlow', hhigh⟩ := h.slot _ _ hs
      exact ⟨he, hlog, hlow', hhigh.trans (le_max_left _ _)⟩
  · rcases packets_put hs with ⟨-, rfl⟩ | ⟨-, hs⟩
    · -- up to `My_aru` no packet is missing
      obtain ⟨slot, hslot⟩ := h.present p.seq hlow (le_trans hle h.delivered_le)
      rw [hfree] at hslot
      cases hslot
    · exact h.flagged _ _ hs hle
  · rcases packets_put hs with ⟨-, rfl⟩ | ⟨-, hs⟩
    · cases hdelivered
    · exact h.early _ _ hs hdelivered hlt
  · refine (h.mem_deliveries q).trans (and_congr_right fun _ => or_congr Iff.rfl ?_)
    constructor
    · rintro ⟨slot, hs, hslot⟩
      refine ⟨slot, (Function.update_of_ne (fun he => ?_) _ _).trans hs, hslot⟩
      rw [he, hfree] at hs
      cases hs
    · rintro ⟨slot, hs, hslot, hdelivered⟩
      rcases packets_put hs with ⟨-, rfl⟩ | ⟨-, hs⟩
      · cases hdelivered
      · exact ⟨slot, hs, hslot, hdelivered⟩

theorem raise (h : s.Ok log) {k : ℕ} (hk : k ≤ log.length) : (s.raise k).Ok log where
  slot e slot hs := by
    obtain ⟨he, hlog, hlow, hhigh⟩ := h.slot e slot hs
    exact ⟨he, hlog, hlow, hhigh.trans (le_max_left _ _)⟩
  present := h.present
  discarded_le := h.discarded_le
  delivered_le := h.delivered_le
  myAru_le := h.myAru_le.trans (le_max_left _ _)
  highest_le := max_le h.highest_le hk
  gap := h.gap
  flagged := h.flagged
  early := h.early
  mem_deliveries := h.mem_deliveries
  nodup := h.nodup
  inOrder := h.inOrder
  alarms := h.alarms

theorem advance (h : s.Ok log) : s.advance.Ok log ∧ s.myAru ≤ s.advance.myAru
    ∧ (s.advance.myAru < s.highestSeq → s.packets (entry (s.advance.myAru + 1)) = none) := by
  obtain ⟨hge, hle, hall, hstop⟩ := raiseAru_spec s.packets (s.highestSeq - s.myAru) s.myAru
  have hmyAru := h.myAru_le
  refine ⟨⟨h.slot, fun q hq hq' => ?_, h.discarded_le, h.delivered_le.trans hge, ?_, h.highest_le,
    h.gap, h.flagged, h.early, h.mem_deliveries, h.nodup, h.inOrder, h.alarms⟩, hge,
    fun hlt => hstop (hlt.trans_eq (Nat.add_sub_cancel' hmyAru).symm)⟩
  · rcases Nat.lt_or_ge s.myAru q with hlt | hge'
    · exact hall q hlt hq'
    · exact h.present q hq hge'
  · show raiseAru s.packets (s.highestSeq - s.myAru) s.myAru ≤ s.highestSeq
    omega

/-- More packets are created by others. -/
theorem extend (h : s.Ok log) {ps : List (Packet n β)} (hlog : Numbered (log ++ ps))
    (hgap : (log ++ ps).length ≤ s.lastDiscarded + maxPacketsInStruct) : s.Ok (log ++ ps) where
  slot e slot hs := by
    obtain ⟨he, hmem, hlow, hhigh⟩ := h.slot e slot hs
    exact ⟨he, List.mem_append_left _ hmem, hlow, hhigh⟩
  present := h.present
  discarded_le := h.discarded_le
  delivered_le := h.delivered_le
  myAru_le := h.myAru_le
  highest_le := h.highest_le.trans (by simp)
  gap := hgap
  flagged := h.flagged
  early := h.early
  mem_deliveries p := by
    rw [h.mem_deliveries]
    have hbound : s.lastDiscarded ≤ log.length :=
      h.discarded_le.trans (h.delivered_le.trans (h.myAru_le.trans h.highest_le))
    constructor
    · rintro ⟨hp, hdone⟩
      exact ⟨List.mem_append_left _ hp, hdone⟩
    · rintro ⟨hp, hle | ⟨slot, hs, rfl, hdelivered⟩⟩
      · have hmem := hlog.mem_take.mpr ⟨hp, hle.trans hbound⟩
        rw [List.take_left] at hmem
        exact ⟨hmem, Or.inl hle⟩
      · exact ⟨(h.slot _ _ hs).2.1, Or.inr ⟨slot, hs, rfl, hdelivered⟩⟩
  nodup := h.nodup
  inOrder := by
    have hbound : s.lastDelivered ≤ log.length :=
      h.delivered_le.trans (h.myAru_le.trans h.highest_le)
    rw [List.take_append_of_le_length hbound]
    exact h.inOrder
  alarms := h.alarms

/-- A packet is created. Its entry is free. -/
theorem create (h : s.Ok log) {p : Packet n β} (hp : p ∈ log) (hseq : p.seq = s.highestSeq + 1)
    (hlen : p.seq ≤ log.length) :
    (s.create p).Ok log ∧ s.create p = (s.put (entry p.seq) (some ⟨p, false⟩)).raise p.seq
      ∧ s.packets (entry p.seq) = none := by
  have hlow : s.lastDiscarded < p.seq := by
    have := h.discarded_le
    have := h.delivered_le
    have := h.myAru_le
    omega
  have hfree : s.packets (entry p.seq) = none := by
    rw [Option.eq_none_iff_forall_ne_some]
    intro slot hs
    have := h.seq_of_entry hlow hlen hs
    have := (h.slot _ _ hs).2.2.2
    omega
  have heq : s.create p = (s.put (entry p.seq) (some ⟨p, false⟩)).raise p.seq := by
    rw [Store.create, hfree, ← hseq]
  rw [heq]
  exact ⟨h.insert hp hlow hfree hlen, rfl, hfree⟩

end Store.Ok

/-! ## What the operations leave alone -/

/-- `Highest_seq`, `My_aru`, `Aru` and `Last_discarded`. -/
def Store.marks (s : Store n β) : ℕ × ℕ × ℕ × ℕ :=
  (s.highestSeq, s.myAru, s.aru, s.lastDiscarded)

/-- A packet that is marked as delivered was delivered, and is not safe: a safe packet is delivered
when it is discarded. -/
def Store.Honest (s : Store n β) : Prop :=
  ∀ e slot, s.packets e = some slot → slot.delivered = true →
    slot.packet ∈ s.deliveries ∧ slot.packet.type ≠ .safe

/-- The daemon has the packet, or has delivered it. -/
def Store.Has (s : Store n β) (p : Packet n β) : Prop :=
  p ∈ s.deliveries ∨ ∃ e slot, s.packets e = some slot ∧ slot.packet = p

/-- From `s` to `s'` no packet is lost. -/
structure Keeps (s s' : Store n β) : Prop where
  deliveries : s.deliveries <+: s'.deliveries
  honest : s.Honest → s'.Honest
  has : s.Honest → ∀ p, s.Has p → s'.Has p

namespace Keeps

variable {s s' s'' : Store n β}

theorem trans (h : Keeps s s') (h' : Keeps s' s'') : Keeps s s'' :=
  ⟨h.deliveries.trans h'.deliveries, h'.honest ∘ h.honest,
    fun hs p hp => h'.has (h.honest hs) p (h.has hs p hp)⟩

/-- The packets and the deliveries stay as they are. -/
theorem of_eq (hpackets : s'.packets = s.packets) (hdeliveries : s'.deliveries = s.deliveries) :
    Keeps s s' := by
  refine ⟨by rw [hdeliveries], fun h => ?_, fun _ p hp => ?_⟩
  · rw [Store.Honest, hpackets, hdeliveries]
    exact h
  · rw [Store.Has, hpackets, hdeliveries]
    exact hp

theorem refl (s : Store n β) : Keeps s s := of_eq rfl rfl

/-- A packet is put into a free entry. -/
theorem put_new {e : ℕ} (hfree : s.packets e = none) (p : Packet n β) :
    Keeps s (s.put e (some ⟨p, false⟩)) := by
  refine ⟨List.prefix_rfl, fun h e' slot hs hdelivered => ?_, fun _ q hq => ?_⟩
  · rcases Store.Ok.packets_put hs with ⟨-, rfl⟩ | ⟨-, hs⟩
    · cases hdelivered
    · exact h e' slot hs hdelivered
  · rcases hq with hq | ⟨e', slot, hs, rfl⟩
    · exact Or.inl hq
    · refine Or.inr ⟨e', slot, (Function.update_of_ne (fun he => ?_) _ _).trans hs, rfl⟩
      rw [he, hfree] at hs
      cases hs

theorem deliverPacket {e : ℕ} {slot : Slot n β} (hs : s.packets e = some slot)
    (htype : slot.packet.type ≠ .safe) : Keeps s (s.deliverPacket e slot) := by
  refine ⟨List.prefix_append _ _, fun h e' slot' hs' hdelivered => ?_, fun _ p hp => ?_⟩
  · rcases Store.Ok.packets_put hs' with ⟨-, rfl⟩ | ⟨-, hs'⟩
    · exact ⟨List.mem_append_right _ (by simp), htype⟩
    · obtain ⟨hmem, htype'⟩ := h e' slot' hs' hdelivered
      exact ⟨List.mem_append_left _ hmem, htype'⟩
  · rcases hp with hp | ⟨e', slot', hs', rfl⟩
    · exact Or.inl (List.mem_append_left _ hp)
    · by_cases he : e' = e
      · subst he
        obtain rfl := Option.some.inj (hs.symm.trans hs')
        exact Or.inl (List.mem_append_right _ (by simp))
      · exact Or.inr ⟨e', slot', (Function.update_of_ne he _ _).trans hs', rfl⟩

/-- A packet is discarded, after its delivery. -/
theorem discard {e : ℕ} {slot : Slot n β} (hs : s.packets e = some slot) :
    Keeps s ((if slot.delivered then s else s.deliverPacket e slot).put e none) := by
  -- the other entries stay
  have hothers : ∀ e', e' ≠ e →
      ((if slot.delivered then s else s.deliverPacket e slot).put e none).packets e'
        = s.packets e' := by
    intro e' he
    refine (Function.update_of_ne he _ _).trans ?_
    split
    · rfl
    · exact Function.update_of_ne he _ _
  have hfreed : ((if slot.delivered then s else s.deliverPacket e slot).put e none).packets e
      = none := Function.update_self _ _ _
  have hinitial : s.deliveries
      <+: ((if slot.delivered then s else s.deliverPacket e slot).put e none).deliveries := by
    split
    · exact List.prefix_rfl
    · exact List.prefix_append _ _
  refine ⟨hinitial, fun h e' slot' hs' hdelivered => ?_, fun h p hp => ?_⟩
  · have he : e' ≠ e := by
      rintro rfl
      rw [hfreed] at hs'
      cases hs'
    rw [hothers e' he] at hs'
    obtain ⟨hmem, htype⟩ := h e' slot' hs' hdelivered
    exact ⟨hinitial.subset hmem, htype⟩
  · rcases hp with hp | ⟨e', slot', hs', rfl⟩
    · exact Or.inl (hinitial.subset hp)
    · by_cases he : e' = e
      · subst he
        obtain rfl := Option.some.inj (hs.symm.trans hs')
        refine Or.inl ?_
        split
        · rename_i hdelivered
          exact (h e' slot hs hdelivered).1
        · exact List.mem_append_right _ (by simp)
      · exact Or.inr ⟨e', slot', (hothers e' he).trans hs', rfl⟩

end Keeps

/-- From `s` to `s'` packets are delivered and nothing else is done. -/
structure Delivers (s s' : Store n β) : Prop where
  marks : s'.marks = s.marks
  keeps : Keeps s s'

namespace Delivers

variable {s s' s'' : Store n β}

theorem refl (s : Store n β) : Delivers s s := ⟨rfl, Keeps.refl s⟩

theorem trans (h : Delivers s s') (h' : Delivers s' s'') : Delivers s s'' :=
  ⟨h'.marks.trans h.marks, h.keeps.trans h'.keeps⟩

theorem highestSeq (h : Delivers s s') : s'.highestSeq = s.highestSeq := congrArg (·.1) h.marks

theorem myAru (h : Delivers s s') : s'.myAru = s.myAru := congrArg (·.2.1) h.marks

theorem aru (h : Delivers s s') : s'.aru = s.aru := congrArg (·.2.2.1) h.marks

theorem lastDiscarded (h : Delivers s s') : s'.lastDiscarded = s.lastDiscarded :=
  congrArg (·.2.2.2) h.marks

theorem deliverPacket {e : ℕ} {slot : Slot n β} (hs : s.packets e = some slot)
    (htype : slot.packet.type ≠ .safe) : Delivers s (s.deliverPacket e slot) :=
  ⟨rfl, Keeps.deliverPacket hs htype⟩

theorem deliveredTo (s : Store n β) (i : ℕ) : Delivers s (s.deliveredTo i) :=
  ⟨rfl, Keeps.of_eq rfl rfl⟩

theorem alarm (s : Store n β) (as : List Alarm) : Delivers s (s.alarm as) :=
  ⟨rfl, Keeps.of_eq rfl rfl⟩

theorem discard {e : ℕ} {slot : Slot n β} (hs : s.packets e = some slot) :
    Delivers s ((if slot.delivered then s else s.deliverPacket e slot).put e none) := by
  refine ⟨?_, Keeps.discard hs⟩
  split <;> rfl

theorem deliverReliable (s : Store n β) (i : ℕ) : Delivers s (s.deliverReliable i) := by
  rw [Store.deliverReliable]
  split
  · exact refl s
  · rename_i slot hs
    split
    · rename_i hcond
      exact deliverPacket hs (by simp [Packet.type_of_early (Bool.and_eq_true_iff.mp hcond).2])
    · exact refl s

theorem deliverReliablePackets (threshold : ℕ) (s : Store n β) (startSeq numPackets : ℕ) :
    Delivers s (s.deliverReliablePackets threshold startSeq numPackets) := by
  have hloop : ∀ rounds i (s : Store n β), Delivers s (deliverReliableLoop rounds i s) := by
    intro rounds
    induction rounds with
    | zero => exact fun i s => refl s
    | succ rounds ih => exact fun i s => (deliverReliable s i).trans (ih (i + 1) _)
  rw [Store.deliverReliablePackets]
  split
  · exact refl s
  · exact hloop _ _ s

theorem deliverAgreedLoop (rounds : ℕ) (s : Store n β) :
    Delivers s (deliverAgreedLoop rounds s) := by
  induction rounds generalizing s with
  | zero => exact refl s
  | succ rounds ih =>
      rw [Daemon.deliverAgreedLoop]
      split
      · exact alarm s _
      · rename_i slot hs
        split
        · split
          · rename_i htype
            exact (deliverPacket hs (by simpa using htype)).trans ((deliveredTo _ _).trans (ih _))
          · exact refl s
        · split
          · exact alarm s _
          · exact (deliveredTo s _).trans (ih _)

theorem deliverAgreedPackets (threshold : ℕ) (s : Store n β) :
    Delivers s (s.deliverAgreedPackets threshold) := by
  rw [Store.deliverAgreedPackets]
  split
  · exact refl s
  split
  · exact refl s
  · exact deliverAgreedLoop _ s

theorem discardLoop (rounds i : ℕ) (s : Store n β) : Delivers s (discardLoop rounds i s) := by
  induction rounds generalizing i s with
  | zero => exact refl s
  | succ rounds ih =>
      rw [Daemon.discardLoop]
      split
      · exact alarm s _
      · rename_i slot hs
        exact (discard hs).trans (ih _ _)

end Delivers

/-- `Discard_packets` frees the entries up to `Aru`. -/
theorem Store.discardPackets_marks (s : Store n β) (haru : s.lastDiscarded ≤ s.aru) :
    s.discardPackets.marks = (s.highestSeq, s.myAru, s.aru, s.aru)
      ∧ Keeps s s.discardPackets := by
  rw [Store.discardPackets]
  split
  · rw [Store.marks, le_antisymm haru ‹_›]
    exact ⟨rfl, Keeps.refl s⟩
  · have hloop := Delivers.discardLoop (s.aru - s.lastDiscarded) (s.lastDiscarded + 1) s
    refine ⟨?_, hloop.keeps.trans (Keeps.of_eq rfl rfl)⟩
    simp only [Store.marks, Prod.mk.injEq]
    exact ⟨hloop.highestSeq, hloop.myAru, hloop.aru, rfl⟩

variable {s : Store n β}

/-- **A packet arrives.** -/
theorem Store.Ok.handleBcast (hlog : Numbered log) (h : s.Ok log) (threshold : ℕ) {p : Packet n β}
    (hp : p ∈ log) : (s.handleBcast threshold p).Ok log := by
  rw [Store.handleBcast]
  split
  · exact h
  · rename_i hlow
    split
    · exact h
    · rename_i hfree
      have hput := h.insert hp (not_le.mp hlow) hfree (hlog.getElem? hp).2.2
      dsimp only
      split
      · exact hput.advance.1.deliverAgreedPackets hlog threshold
      · exact hput.deliverReliablePackets ..

/-- A packet that arrives changes neither `Aru` nor `Last_discarded`, and may raise `My_aru`. -/
theorem Store.handleBcast_marks (threshold : ℕ) (s : Store n β) (p : Packet n β) :
    (s.handleBcast threshold p).aru = s.aru
      ∧ (s.handleBcast threshold p).lastDiscarded = s.lastDiscarded
      ∧ s.myAru ≤ (s.handleBcast threshold p).myAru
      ∧ Keeps s (s.handleBcast threshold p) := by
  rw [Store.handleBcast]
  split
  · exact ⟨rfl, rfl, le_rfl, Keeps.refl s⟩
  split
  · exact ⟨rfl, rfl, le_rfl, Keeps.refl s⟩
  rename_i hfree
  have hput : Keeps s ((s.put (entry p.seq) (some ⟨p, false⟩)).raise p.seq) :=
    (Keeps.put_new hfree p).trans (Keeps.of_eq rfl rfl)
  dsimp only
  split
  · have h := Delivers.deliverAgreedPackets threshold
      ((s.put (entry p.seq) (some ⟨p, false⟩)).raise p.seq).advance
    have hadvance : Keeps s ((s.put (entry p.seq) (some ⟨p, false⟩)).raise p.seq).advance :=
      hput.trans (Keeps.of_eq rfl rfl)
    exact ⟨h.aru, h.lastDiscarded, (raiseAru_spec _ _ _).1.trans_eq h.myAru.symm,
      hadvance.trans h.keeps⟩
  · have h := Delivers.deliverReliablePackets threshold
      ((s.put (entry p.seq) (some ⟨p, false⟩)).raise p.seq) p.seq 1
    exact ⟨h.aru, h.lastDiscarded, h.myAru.ge, hput.trans h.keeps⟩

/-- A packet of the ring that a daemon has is in its entry until it is discarded. -/
theorem Store.Ok.has_iff (h : s.Ok log) {p : Packet n β} (hp : p ∈ log) :
    s.Has p ↔ p.seq ≤ s.lastDiscarded ∨ ∃ slot, s.packets (entry p.seq) = some slot
      ∧ slot.packet = p := by
  constructor
  · rintro (hdelivered | ⟨e, slot, hs, rfl⟩)
    · rcases ((h.mem_deliveries p).mp hdelivered).2 with hle | ⟨slot, hs, hslot, -⟩
      · exact Or.inl hle
      · exact Or.inr ⟨slot, hs, hslot⟩
    · obtain ⟨rfl, -⟩ := h.slot e slot hs
      exact Or.inr ⟨slot, hs, rfl⟩
  · rintro (hle | ⟨slot, hs, hslot⟩)
    · exact Or.inl ((h.mem_deliveries p).mpr ⟨hp, Or.inl hle⟩)
    · exact Or.inr ⟨_, slot, hs, hslot⟩

/-- Whatever is in the entry of a packet that is still needed is this packet. -/
theorem Store.Ok.eq_of_entry (hlog : Numbered log) (h : s.Ok log) {p : Packet n β} (hp : p ∈ log)
    (hlow : s.lastDiscarded < p.seq) {slot : Slot n β} (hs : s.packets (entry p.seq) = some slot) :
    slot.packet = p :=
  hlog.inj (h.slot _ _ hs).2.1 hp (h.seq_of_entry hlow (hlog.getElem? hp).2.2 hs)

/-- Up to `My_aru` no packet is missing. -/
theorem Store.Ok.has_of_le (hlog : Numbered log) (h : s.Ok log) {p : Packet n β} (hp : p ∈ log)
    (hle : p.seq ≤ s.myAru) : s.Has p := by
  refine (h.has_iff hp).mpr ?_
  rcases Nat.lt_or_ge s.lastDiscarded p.seq with hlow | hge
  · obtain ⟨slot, hs⟩ := h.present p.seq hlow hle
    exact Or.inr ⟨slot, hs, h.eq_of_entry hlog hp hlow hs⟩
  · exact Or.inl hge

/-- **A packet that has arrived is there.** -/
theorem Store.Ok.has_handleBcast (hlog : Numbered log) (h : s.Ok log) (hhonest : s.Honest)
    (threshold : ℕ) {p : Packet n β} (hp : p ∈ log) : (s.handleBcast threshold p).Has p := by
  rw [Store.handleBcast]
  split
  · rename_i hle
    exact (h.has_iff hp).mpr (Or.inl hle)
  rename_i hlow
  split
  · rename_i slot hs
    exact (h.has_iff hp).mpr (Or.inr ⟨slot, hs, h.eq_of_entry hlog hp (not_le.mp hlow) hs⟩)
  · rename_i hfree
    have hput : Store.Has ((s.put (entry p.seq) (some ⟨p, false⟩)).raise p.seq) p :=
      Or.inr ⟨entry p.seq, _, Function.update_self _ _ _, rfl⟩
    have hhonest' : Store.Honest ((s.put (entry p.seq) (some ⟨p, false⟩)).raise p.seq) :=
      (Keeps.put_new hfree p).honest hhonest
    dsimp only
    split
    · exact (Delivers.deliverAgreedPackets threshold
        ((s.put (entry p.seq) (some ⟨p, false⟩)).raise p.seq).advance).keeps.has hhonest' p hput
    · exact (Delivers.deliverReliablePackets threshold _ _ _).keeps.has hhonest' p hput

end

end SpreadAccount.Daemon
