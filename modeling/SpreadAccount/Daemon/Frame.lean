import SpreadAccount.Lib.ByteOrder
import SpreadAccount.Daemon.Ring

set_option autoImplicit false

/-! # Packets on the wire

A packet travels as the bytes of its header and of its body. `Send_new_packets` builds both in
memory, `Net_bcast` completes the header and sends them, in the byte order of the sender. A
receiver of the other byte order reverses the bytes of the fields of the header (`Flip_pack`) and
of the fragment headers, which it finds one after the other (`Prot_handle_bcast`); on delivery
`Deliver_packet` goes through the fragments once more. Between segments packets are routed: the
leader of a segment sends on what it gets, in the byte order it came in.

The first part is the code; `none` stands for an access outside of the bytes of the packet, which
only a malformed packet causes.

* `Fitting.of_run`: every packet of a run fits into the buffer it is laid out in;
* `packets_arrive`: it is read back unchanged, whatever the byte orders and on whichever way.
-/

namespace SpreadAccount.Daemon

open ByteOrder Machine

/-! ## The type of a packet -/

/-- `ENDIAN_TYPE` -/
def endianType : BitVec 32 := 0x80000080

/-- `ARCH_ENDIAN` of a machine. -/
def archEndian : Endian → BitVec 32
  | .little => 0x80000080
  | .big => 0x00000000

def setEndian (e : Endian) (t : BitVec 32) : BitVec 32 := (t &&& ~~~endianType) ||| archEndian e

def sameEndian (e : Endian) (t : BitVec 32) : Bool := t &&& endianType == archEndian e

def routedType : BitVec 32 := 0x00000020

def isRouted (t : BitVec 32) : Bool := t &&& routedType != 0

def setRouted (t : BitVec 32) : BitVec 32 := t ||| routedType

def clearRouted (t : BitVec 32) : BitVec 32 := t &&& ~~~routedType

def controlType : BitVec 32 := 0x0f000000

def isControl (t : BitVec 32) : Bool := t &&& controlType != 0

def membershipType : BitVec 32 := 0x00000700

def isMembership (t : BitVec 32) : Bool := t &&& membershipType != 0

def hurryType : BitVec 32 := 0x00000040

def isHurry (t : BitVec 32) : Bool := t &&& hurryType != 0

def regularType : BitVec 32 := 0x0000001f

def isRegular (t : BitVec 32) : Bool := t &&& regularType != 0

/-! ## Headers -/

structure MembershipId where
  procId : BitVec 32
  time : BitVec 32
  deriving DecidableEq

structure FragmentHeader where
  fragmentIndex : BitVec 16
  fragmentLen : BitVec 16
  deriving DecidableEq

structure PacketHeader where
  type : BitVec 32
  transmiterId : BitVec 32
  procId : BitVec 32
  membId : MembershipId
  seq : BitVec 32
  tokenRound : BitVec 32
  confHash : BitVec 32
  dataLen : BitVec 16
  padding : BitVec 16
  firstFragHeader : FragmentHeader
  deriving DecidableEq

/-- The bytes of the header in the memory of a machine. -/
def FragmentHeader.store (e : Endian) (f : FragmentHeader) : List UInt8 :=
  e.store16 f.fragmentIndex ++ e.store16 f.fragmentLen

/-- The header in the bytes of memory, and what follows it. -/
def FragmentHeader.read (e : Endian) (bytes : List UInt8) :
    Option (FragmentHeader × List UInt8) := do
  let (fragmentIndex, bytes) ← e.read16 bytes
  let (fragmentLen, bytes) ← e.read16 bytes
  return (⟨fragmentIndex, fragmentLen⟩, bytes)

/-- The bytes of the header in the memory of a machine. -/
def PacketHeader.store (e : Endian) (h : PacketHeader) : List UInt8 :=
  e.store32 h.type ++ e.store32 h.transmiterId ++ e.store32 h.procId
    ++ e.store32 h.membId.procId ++ e.store32 h.membId.time ++ e.store32 h.seq
    ++ e.store32 h.tokenRound ++ e.store32 h.confHash ++ e.store16 h.dataLen
    ++ e.store16 h.padding ++ h.firstFragHeader.store e

/-- The header in the bytes of memory, and what follows it. -/
def PacketHeader.read (e : Endian) (bytes : List UInt8) :
    Option (PacketHeader × List UInt8) := do
  let (type, bytes) ← e.read32 bytes
  let (transmiterId, bytes) ← e.read32 bytes
  let (procId, bytes) ← e.read32 bytes
  let (membProcId, bytes) ← e.read32 bytes
  let (membTime, bytes) ← e.read32 bytes
  let (seq, bytes) ← e.read32 bytes
  let (tokenRound, bytes) ← e.read32 bytes
  let (confHash, bytes) ← e.read32 bytes
  let (dataLen, bytes) ← e.read16 bytes
  let (padding, bytes) ← e.read16 bytes
  let (firstFragHeader, bytes) ← FragmentHeader.read e bytes
  return (⟨type, transmiterId, procId, ⟨membProcId, membTime⟩, seq, tokenRound, confHash, dataLen,
    padding, firstFragHeader⟩, bytes)

/-- `sizeof( packet_header )` -/
def packetHeaderSize : ℕ := 40

/-- `Flip_frag`. -/
def flipFrag (f : FragmentHeader) : FragmentHeader :=
  ⟨flip16 f.fragmentIndex, flip16 f.fragmentLen⟩

/-- `Flip_pack`: the first fragment header is not flipped here. -/
def flipPack (h : PacketHeader) : PacketHeader :=
  { h with
    type := flip32 h.type
    transmiterId := flip32 h.transmiterId
    procId := flip32 h.procId
    membId := ⟨flip32 h.membId.procId, flip32 h.membId.time⟩
    seq := flip32 h.seq
    tokenRound := flip32 h.tokenRound
    confHash := flip32 h.confHash
    dataLen := flip16 h.dataLen }

/-! ## Sending -/

/-- The header of a fragment. -/
def Fragment.header (f : Fragment (List UInt8)) : FragmentHeader :=
  ⟨BitVec.ofInt 16 f.index, BitVec.ofNat 16 f.data.length⟩

/-- Writes bytes into a buffer. -/
def writeAt (buf : List UInt8) (offset : ℕ) (bytes : List UInt8) : List UInt8 :=
  buf.take offset ++ bytes ++ buf.drop (offset + bytes.length)

/-- The fragments after the first as the loop of `Send_new_packets` writes them into the body of
the packet, of which `dataLen` bytes are used. The padding is not written. -/
def writeFragments (e : Endian) : ℕ → List UInt8 → List (Fragment (List UInt8)) → ℕ × List UInt8
  | dataLen, buf, [] => (dataLen, buf)
  | dataLen, buf, f :: fs =>
      let start := dataLen + paddingBytes dataLen
      writeFragments e (start + fragmentHeaderSize + f.data.length)
        (writeAt (writeAt buf start (f.header.store e)) (start + fragmentHeaderSize) f.data) fs

/-- A daemon as the network layer sees it. -/
structure Station where
  endian : Endian
  /-- `My.id` -/
  id : BitVec 32
  /-- `Cn->hash_code` -/
  confHash : BitVec 32
  /-- Whether the configuration has the daemon, and the datagram comes from its address. -/
  accepts : BitVec 32 → Bool
  /-- `In_my_component` -/
  inMyComponent : BitVec 32 → Bool
  /-- `Bcast_needed` -/
  bcastNeeded : Bool

/-- The header that `Send_new_packets` makes; `new` is what its memory held before. -/
def Packet.header {n : ℕ} (ids : Fin n → BitVec 32) (membId : MembershipId) (new : PacketHeader)
    (dataLen : ℕ) (p : Packet n (List UInt8)) : PacketHeader :=
  { new with
    type := BitVec.ofNat 32 p.type.code
    procId := ids p.proc
    membId := membId
    seq := BitVec.ofNat 32 p.seq
    dataLen := BitVec.ofNat 16 dataLen
    firstFragHeader := p.first.header }

/-- The header and the body that `Send_new_packets` makes of a packet: the body is the buffer with
the first element, of which `rest` is not used yet. -/
def makePacket {n : ℕ} (e : Endian) (ids : Fin n → BitVec 32) (membId : MembershipId)
    (new : PacketHeader) (rest : List UInt8) (p : Packet n (List UInt8)) :
    PacketHeader × List UInt8 :=
  let (dataLen, body) := writeFragments e p.first.data.length (p.first.data ++ rest) p.rest
  (p.header ids membId new dataLen, body)

def PacketHeader.unrouted (h : PacketHeader) : PacketHeader :=
  { h with type := clearRouted h.type }

/-- The header as `Net_bcast` completes it. -/
def PacketHeader.sentBy (s : Station) (h : PacketHeader) : PacketHeader :=
  { h with
    type := setEndian s.endian (setRouted h.type)
    confHash := s.confHash
    transmiterId := s.id }

/-- `Net_bcast`: the datagram to the leaders of the other segments and the one to the own
segment. -/
def netBcast (s : Station) (h : PacketHeader) (body : List UInt8) : List UInt8 × List UInt8 :=
  let h' := h.sentBy s
  let sent := body.take h.dataLen.toNat
  (h'.store s.endian ++ sent, h'.unrouted.store s.endian ++ sent)

/-! ## Receiving -/

/-- What `Net_recv` makes of a datagram. -/
structure Received where
  /-- The packet for the protocol, unless the datagram is dropped. -/
  packet : Option (PacketHeader × List UInt8)
  /-- The datagram that is sent on to the own segment. -/
  relayed : Option (List UInt8)
  deriving DecidableEq

/-- `Flip_pack`, if the packet is from a machine of the other byte order. -/
def PacketHeader.toLocal (e : Endian) (h : PacketHeader) : PacketHeader :=
  if sameEndian e h.type then h else flipPack h

def PacketHeader.routedBy (id : BitVec 32) (h : PacketHeader) : PacketHeader :=
  { h with type := clearRouted h.type, transmiterId := id }

/-- `Net_recv`, with a buffer for a body of `size` bytes. Control messages go to the monitor. -/
def netRecv (size : ℕ) (r : Station) (datagram : List UInt8) : Received :=
  match PacketHeader.read r.endian (datagram.take (packetHeaderSize + size)) with
  | none => ⟨none, none⟩
  | some (raw, body) =>
      let h := raw.toLocal r.endian
      if body.length ≠ h.dataLen.toNat then ⟨none, none⟩
      else if h.confHash ≠ r.confHash then ⟨none, none⟩
      else if !r.accepts h.transmiterId then ⟨none, none⟩
      else if isControl h.type then ⟨none, none⟩
      else if h.transmiterId = r.id then ⟨none, none⟩
      else if !r.inMyComponent h.transmiterId then ⟨none, none⟩
      else if isRouted h.type && r.bcastNeeded then
        -- the header keeps the new transmitter
        let h' := h.routedBy r.id
        ⟨some (h', body), some ((h'.toLocal r.endian).store r.endian ++ body)⟩
      else ⟨some (h.unrouted, body), none⟩

/-- The loop of `Prot_handle_bcast` over the fragment headers of a packet from a machine of the
other byte order, after `processed` bytes. -/
def flipFragments (e : Endian) (dataLen : ℕ) : ℕ → ℤ → List UInt8 → Option (List UInt8)
  | _, .negSucc _, _ => none
  | 0, .ofNat processed, body => if processed < dataLen then none else some body
  | rounds + 1, .ofNat processed, body =>
      if processed < dataLen then
        let start := processed + paddingBytes processed
        -- a malformed packet is kept
        if dataLen < start + fragmentHeaderSize then some body
        else
          match FragmentHeader.read e (body.drop start) with
          | none => none
          | some (f, _) =>
              flipFragments e dataLen rounds
                (start + fragmentHeaderSize + (flipFrag f).fragmentLen.toInt)
                (writeAt body start ((flipFrag f).store e))
      else some body

/-- `Prot_handle_bcast` on the headers of the fragments. -/
def flipPacket (e : Endian) (h : PacketHeader) (body : List UInt8) :
    Option (PacketHeader × List UInt8) :=
  if sameEndian e h.type then some (h, body)
  else
    let first := flipFrag h.firstFragHeader
    (flipFragments e h.dataLen.toNat h.dataLen.toNat first.fragmentLen.toInt body).map
      fun body => ({ h with firstFragHeader := first }, body)

/-- The part of a buffer from `offset` on, of the length `len`. -/
def copyFrom (buf : List UInt8) (offset : ℕ) (len : ℤ) : Option (List UInt8) :=
  match len with
  | .negSucc _ => none
  | .ofNat len =>
      if offset + len ≤ buf.length then some ((buf.drop offset).take len) else none

/-- The loop of `Deliver_packet` over the fragments after the first. -/
def parseFragments (e : Endian) (dataLen : ℕ) : ℕ → ℤ → List UInt8 → Option (List (List UInt8))
  | _, .negSucc _, _ => none
  | 0, .ofNat processed, _ => if processed < dataLen then none else some []
  | rounds + 1, .ofNat processed, body =>
      if processed < dataLen then
        let start := processed + paddingBytes processed
        match FragmentHeader.read e (body.drop start) with
        | none => none
        | some (f, _) =>
            -- the fragments exceed the packet
            if (dataLen : ℤ) < start + fragmentHeaderSize + f.fragmentLen.toInt then some []
            else do
              let data ← copyFrom body (start + fragmentHeaderSize) f.fragmentLen.toInt
              let more ← parseFragments e dataLen rounds
                (start + fragmentHeaderSize + f.fragmentLen.toInt) body
              return data :: more
      else some []

/-- The type of a packet, by its bits. -/
def packetType (t : BitVec 32) : Option PacketType :=
  [PacketType.reliable, .fifo, .agreed, .safe].find? fun type =>
    t &&& BitVec.ofNat 32 type.code != 0

/-- The daemon with an id (`Conf_proc_by_id`). -/
def procById {n : ℕ} (ids : Fin n → BitVec 32) (id : BitVec 32) : Option (Fin n) :=
  (List.finRange n).find? fun i => ids i = id

/-- The packet that the protocol works with: `Deliver_packet` takes the fragments after the first
for whole messages, without reading their indices. -/
def readPacket {n : ℕ} (e : Endian) (ids : Fin n → BitVec 32) (membId : MembershipId)
    (h : PacketHeader) (body : List UInt8) : Option (Packet n (List UInt8)) := do
  guard (h.membId = membId)
  let type ← packetType h.type
  let proc ← procById ids h.procId
  let data ← copyFrom body 0 h.firstFragHeader.fragmentLen.toInt
  let rest ← parseFragments e h.dataLen.toNat h.dataLen.toNat
    h.firstFragHeader.fragmentLen.toInt body
  return ⟨type, proc, h.seq.toNat, ⟨h.firstFragHeader.fragmentIndex.toInt, data⟩,
    rest.map (⟨-1, ·⟩)⟩

/-- `Prot_handle_bcast`: a datagram from the network to the packet that the protocol works with.
Membership and hurry packets are for other handlers. -/
def receivePacket {n : ℕ} (size : ℕ) (r : Station) (ids : Fin n → BitVec 32)
    (membId : MembershipId) (datagram : List UInt8) : Option (Packet n (List UInt8)) := do
  let (h, body) ← (netRecv size r datagram).packet
  guard (!isMembership h.type && !isHurry h.type && isRegular h.type)
  let (h, body) ← flipPacket r.endian h body
  readPacket r.endian ids membId h body

/-! ## Headers survive the change of byte order -/

theorem FragmentHeader.length_store (e : Endian) (f : FragmentHeader) :
    (f.store e).length = fragmentHeaderSize := by
  rw [FragmentHeader.store, List.length_append, e.length_store16, e.length_store16]
  rfl

theorem flipFrag_flipFrag (f : FragmentHeader) : flipFrag (flipFrag f) = f := by
  rw [flipFrag, flipFrag, flip16_flip16, flip16_flip16]

theorem FragmentHeader.read_store (e e' : Endian) (f : FragmentHeader) (rest : List UInt8) :
    FragmentHeader.read e' (f.store e ++ rest)
      = some (if e = e' then f else flipFrag f, rest) := by
  rw [FragmentHeader.read, FragmentHeader.store, List.append_assoc, e.read16_store16 e']
  simp only [Option.bind_eq_bind, Option.bind_some, e.read16_store16 e']
  by_cases h : e = e'
  · simp only [if_pos h]
    rfl
  · simp only [if_neg h]
    rfl

theorem PacketHeader.length_store (e : Endian) (h : PacketHeader) :
    (h.store e).length = packetHeaderSize := by
  simp only [PacketHeader.store, List.length_append, e.length_store16, e.length_store32,
    h.firstFragHeader.length_store e]
  rfl

/-- The fields that `Flip_pack` leaves. -/
def PacketHeader.flipRest (h : PacketHeader) : PacketHeader :=
  { h with padding := flip16 h.padding, firstFragHeader := flipFrag h.firstFragHeader }

/-- A machine of the other byte order reads all fields flipped. `Flip_pack` flips those back that
the protocol needs at once. -/
theorem PacketHeader.read_store (e e' : Endian) (h : PacketHeader) (rest : List UInt8) :
    PacketHeader.read e' (h.store e ++ rest)
      = some (if e = e' then h else (flipPack h).flipRest, rest) := by
  simp only [PacketHeader.read, PacketHeader.store, List.append_assoc, e.read32_store32 e',
    e.read16_store16 e', FragmentHeader.read_store e e', Option.bind_eq_bind, Option.bind_some]
  by_cases he : e = e'
  · simp only [if_pos he]
    rfl
  · simp only [if_neg he]
    rfl

theorem flipPack_flipPack (h : PacketHeader) : flipPack (flipPack h) = h := by
  simp only [flipPack, flip32_flip32, flip16_flip16]

theorem flipPack_store {e e' : Endian} (he : e ≠ e') (h : PacketHeader) :
    (flipPack h).flipRest.store e' = h.store e := by
  simp only [PacketHeader.store, FragmentHeader.store, PacketHeader.flipRest, flipPack, flipFrag,
    Endian.store32_flip32 he, Endian.store16_flip16 he]

/-! ## Whose byte order -/

/-- The type says that the packet is from a machine with the byte order `e`. -/
def HasEndian (e : Endian) (t : BitVec 32) : Prop := t &&& endianType = archEndian e

theorem hasEndian_setEndian (e : Endian) (t : BitVec 32) : HasEndian e (setEndian e t) := by
  have h : (t &&& ~~~endianType) &&& endianType = 0#32 := by
    rw [BitVec.and_assoc, show ~~~endianType &&& endianType = 0#32 by decide, BitVec.and_zero]
  rw [HasEndian, setEndian, BitVec.and_or_distrib_right, h]
  cases e <;> decide

theorem HasEndian.clearRouted {e : Endian} {t : BitVec 32} (h : HasEndian e t) :
    HasEndian e (clearRouted t) := by
  rw [HasEndian, Daemon.clearRouted, BitVec.and_assoc,
    show ~~~routedType &&& endianType = endianType by decide]
  exact h

/-- The two bits of the byte order stay in place when the bytes are reversed. -/
theorem HasEndian.flip {e : Endian} {t : BitVec 32} (h : HasEndian e t) :
    HasEndian e (flip32 t) := by
  have hsym : flip32 endianType = endianType := by decide
  have harch : flip32 (archEndian e) = archEndian e := by cases e <;> decide
  rw [HasEndian, ← hsym, ← flip32_and, h, harch]

theorem HasEndian.sameEndian {e : Endian} {t : BitVec 32} (h : HasEndian e t) (e' : Endian) :
    sameEndian e' t = decide (e = e') := by
  rw [Daemon.sameEndian, h]
  cases e <;> cases e' <;> decide

/-! ## From one daemon to another -/

/-- A header from a machine with the byte order `e` as `Net_recv` hands it on at one with the byte
order `e'`. -/
def PacketHeader.received (e e' : Endian) (h : PacketHeader) : PacketHeader :=
  if e = e' then h
  else h.flipRest

theorem PacketHeader.toLocal_read {e e' : Endian} {h : PacketHeader} (hh : HasEndian e h.type) :
    PacketHeader.toLocal e' (if e = e' then h else (flipPack h).flipRest) = h.received e e' := by
  by_cases he : e = e'
  · rw [if_pos he, PacketHeader.toLocal, hh.sameEndian, PacketHeader.received, if_pos he,
      if_pos (by simpa using he)]
  · have hflip : HasEndian e (flipPack h).flipRest.type := hh.flip
    rw [if_neg he, PacketHeader.received, if_neg he, PacketHeader.toLocal, hflip.sameEndian,
      if_neg (by simpa using he)]
    exact congrArg PacketHeader.flipRest (flipPack_flipPack h)

/-- What is sent on has the byte order of its first sender again. -/
theorem PacketHeader.store_toLocal_received {e e' : Endian} {h : PacketHeader}
    (hh : HasEndian e h.type) : ((h.received e e').toLocal e').store e' = h.store e := by
  by_cases he : e = e'
  · rw [PacketHeader.received, if_pos he, PacketHeader.toLocal, hh.sameEndian,
      if_pos (by simpa using he), he]
  · have hrest : HasEndian e h.flipRest.type := hh
    rw [PacketHeader.received, if_neg he, PacketHeader.toLocal, hrest.sameEndian,
      if_neg (by simpa using he)]
    exact flipPack_store he h

/-- `r` takes packets of `s`: both have the same configuration, and are in the same component. -/
structure Station.Hears (r s : Station) : Prop where
  confHash : s.confHash = r.confHash
  accepts : r.accepts s.id = true
  other : s.id ≠ r.id
  inMyComponent : r.inMyComponent s.id = true

theorem PacketHeader.received_eq (e e' : Endian) (h : PacketHeader) :
    (h.received e e').type = h.type ∧ (h.received e e').confHash = h.confHash
      ∧ (h.received e e').transmiterId = h.transmiterId ∧ (h.received e e').dataLen = h.dataLen
      ∧ (h.received e e').unrouted = h.unrouted.received e e'
      ∧ ∀ id, (h.received e e').routedBy id = (h.routedBy id).received e e' := by
  rw [PacketHeader.received]
  split
  · rename_i he
    subst he
    refine ⟨rfl, rfl, rfl, rfl, ?_, fun id => ?_⟩ <;> rw [PacketHeader.received, if_pos rfl]
  · rename_i he
    refine ⟨rfl, rfl, rfl, rfl, ?_, fun id => ?_⟩ <;>
    · rw [PacketHeader.received, if_neg he]
      rfl

/-- **What `Net_recv` does with a packet of a daemon that it hears**: it hands it on without the
mark for routing, and a routed packet is sent on to the own segment in the byte order it came
in. -/
theorem netRecv_store {size : ℕ} {r s : Station} (hr : r.Hears s) {e : Endian} {h : PacketHeader}
    {body : List UInt8} (he : HasEndian e h.type) (hcontrol : isControl h.type = false)
    (hfrom : h.transmiterId = s.id) (hhash : h.confHash = s.confHash)
    (hlen : body.length = h.dataLen.toNat) (hsize : body.length ≤ size) :
    netRecv size r (h.store e ++ body)
      = if isRouted h.type && r.bcastNeeded then
          ⟨some ((h.routedBy r.id).received e r.endian, body),
            some ((h.routedBy r.id).store e ++ body)⟩
        else ⟨some (h.unrouted.received e r.endian, body), none⟩ := by
  obtain ⟨htype, hhash', hfrom', hlen', hunrouted, hrouted⟩ := h.received_eq e r.endian
  have htake : (h.store e ++ body).take (packetHeaderSize + size) = h.store e ++ body := by
    refine List.take_of_length_le ?_
    rw [List.length_append, h.length_store]
    omega
  have hback : (((h.routedBy r.id).received e r.endian).toLocal r.endian).store r.endian
      = (h.routedBy r.id).store e := PacketHeader.store_toLocal_received he.clearRouted
  rw [netRecv, htake, PacketHeader.read_store e r.endian]
  dsimp only
  rw [PacketHeader.toLocal_read he, htype, hhash', hfrom', hlen', hunrouted, hrouted, hback,
    if_neg (by simpa using hlen), if_neg (by rw [hhash, hr.confHash]; simp),
    if_neg (by rw [hfrom, hr.accepts]; simp), if_neg (by rw [hcontrol]; simp),
    if_neg (by rw [hfrom]; exact hr.other), if_neg (by rw [hfrom, hr.inMyComponent]; simp)]

/-! ## The fragments in a body

`Frames e k fs bytes`: the bytes of a body from the offset `k` on hold the fragments `fs`, with
their headers in the byte order `e`. Nothing is said of the padding. -/

inductive Frames (e : Endian) : ℕ → List (Fragment (List UInt8)) → List UInt8 → Prop
  | nil (k : ℕ) : Frames e k [] []
  | cons {k : ℕ} {pad : List UInt8} {f : Fragment (List UInt8)}
      {fs : List (Fragment (List UInt8))} {bytes : List UInt8}
      (hpad : pad.length = paddingBytes k)
      (hbytes : Frames e (k + paddingBytes k + fragmentHeaderSize + f.data.length) fs bytes) :
      Frames e k (f :: fs) (pad ++ f.header.store e ++ f.data ++ bytes)

/-- Where a body with the fragments `fs` after the offset `k` ends. -/
def framesEnd : ℕ → List (Fragment (List UInt8)) → ℕ
  | k, [] => k
  | k, f :: fs => framesEnd (k + paddingBytes k + fragmentHeaderSize + f.data.length) fs

theorem le_framesEnd (k : ℕ) (fs : List (Fragment (List UInt8))) : k ≤ framesEnd k fs := by
  induction fs generalizing k with
  | nil => exact le_rfl
  | cons f fs ih =>
      have := ih (k + paddingBytes k + fragmentHeaderSize + f.data.length)
      rw [framesEnd]
      omega

theorem Frames.length {e : Endian} {k : ℕ} {fs : List (Fragment (List UInt8))}
    {bytes : List UInt8} (h : Frames e k fs bytes) : k + bytes.length = framesEnd k fs := by
  induction h with
  | nil k => rfl
  | cons hpad hbytes ih =>
      rw [framesEnd, ← ih]
      simp only [List.length_append, FragmentHeader.length_store, hpad]
      omega

theorem writeAt_append (pre old rest bytes : List UInt8) (offset : ℕ)
    (hoffset : pre.length = offset) (hlen : old.length = bytes.length) :
    writeAt (pre ++ old ++ rest) offset bytes = pre ++ bytes ++ rest := by
  rw [writeAt, List.append_assoc pre old, List.take_left' hoffset, ← List.append_assoc pre old,
    List.drop_left' (by rw [List.length_append, hoffset, hlen])]

theorem exists_append_of_le_length {α : Type} {l : List α} {k : ℕ} (h : k ≤ l.length) :
    ∃ a b, l = a ++ b ∧ a.length = k :=
  ⟨l.take k, l.drop k, (List.take_append_drop k l).symm, List.length_take_of_le h⟩

/-- What `Send_new_packets` writes are the fragments, one after the other. The rest of the buffer
stays as it was. -/
theorem writeFragments_frames {e : Endian} (fs : List (Fragment (List UInt8))) {k : ℕ}
    (pre tail : List UInt8) (hpre : pre.length = k)
    (hroom : framesEnd k fs ≤ (pre ++ tail).length) :
    ∃ bytes tail', writeFragments e k (pre ++ tail) fs = (framesEnd k fs, pre ++ bytes ++ tail')
      ∧ Frames e k fs bytes ∧ tail'.length + framesEnd k fs = (pre ++ tail).length := by
  induction fs generalizing k pre tail with
  | nil =>
      refine ⟨[], tail, by rw [List.append_nil]; rfl, Frames.nil k, ?_⟩
      rw [List.length_append, hpre, framesEnd, Nat.add_comm]
  | cons f fs ih =>
      have hend := le_framesEnd (k + paddingBytes k + fragmentHeaderSize + f.data.length) fs
      rw [framesEnd] at hroom ⊢
      rw [List.length_append, hpre] at hroom
      -- the padding, the header and the data of the fragment are written over what was there
      obtain ⟨pad, tail, rfl, hpad⟩ :=
        exists_append_of_le_length (l := tail) (k := paddingBytes k) (by omega)
      rw [List.length_append, hpad] at hroom
      obtain ⟨header, tail, rfl, hheader⟩ :=
        exists_append_of_le_length (l := tail) (k := fragmentHeaderSize) (by omega)
      rw [List.length_append, hheader] at hroom
      obtain ⟨data, tail, rfl, hdata⟩ :=
        exists_append_of_le_length (l := tail) (k := f.data.length) (by omega)
      have hwrite : writeAt (writeAt (pre ++ (pad ++ (header ++ (data ++ tail))))
            (k + paddingBytes k) (f.header.store e))
          (k + paddingBytes k + fragmentHeaderSize) f.data
          = pre ++ pad ++ f.header.store e ++ f.data ++ tail := by
        have h₁ := writeAt_append (pre ++ pad) header (data ++ tail) (f.header.store e)
          (k + paddingBytes k)
          (by rw [List.length_append, hpre, hpad]) (by rw [hheader, FragmentHeader.length_store])
        have h₂ := writeAt_append (pre ++ pad ++ f.header.store e) data tail f.data
          (k + paddingBytes k + fragmentHeaderSize)
          (by simp only [List.length_append, hpre, hpad, FragmentHeader.length_store]) hdata
        simp only [List.append_assoc] at h₁ h₂ ⊢
        rw [h₁, h₂]
      obtain ⟨bytes, tail', hbytes, hframes, htail⟩ := ih
        (k := k + paddingBytes k + fragmentHeaderSize + f.data.length)
        (pre ++ pad ++ f.header.store e ++ f.data) tail
        (by simp only [List.length_append, hpre, hpad, FragmentHeader.length_store])
        (by
          simp only [List.length_append, hpre, hpad, FragmentHeader.length_store] at hroom ⊢
          omega)
      refine ⟨pad ++ f.header.store e ++ f.data ++ bytes, tail', ?_, Frames.cons hpad hframes, ?_⟩
      · rw [writeFragments, hwrite, hbytes]
        simp only [List.append_assoc]
      · rw [htail]
        simp only [List.length_append, FragmentHeader.length_store, hheader, hdata]
        omega

theorem Fragment.toInt_header_len {f : Fragment (List UInt8)} (h : f.data.length < 2 ^ 15) :
    f.header.fragmentLen.toInt = (f.data.length : ℤ) := by
  rw [Fragment.header, BitVec.toInt_eq_toNat_of_lt] <;> rw [BitVec.toNat_ofNat] <;> omega

theorem drop_fragment {pre pad header data bytes tail : List UInt8} {k : ℕ}
    (hpre : pre.length = k) (hpad : pad.length = paddingBytes k) :
    (pre ++ (pad ++ header ++ data ++ bytes) ++ tail).drop (k + paddingBytes k)
      = header ++ (data ++ bytes ++ tail) := by
  have hsplit : pre ++ (pad ++ header ++ data ++ bytes) ++ tail
      = (pre ++ pad) ++ (header ++ (data ++ bytes ++ tail)) := by
    simp only [List.append_assoc]
  rw [hsplit, List.drop_left' (by rw [List.length_append, hpre, hpad])]

theorem copyFrom_append (pre data rest : List UInt8) (offset : ℕ) (hpre : pre.length = offset) :
    copyFrom (pre ++ data ++ rest) offset data.length = some data := by
  show (if offset + data.length ≤ (pre ++ data ++ rest).length then _ else none) = _
  rw [if_pos (by rw [List.length_append, List.length_append, hpre]; omega), List.append_assoc,
    List.drop_left' hpre, List.take_left' rfl]

/-- The loop of `Prot_handle_bcast` finds the headers and reverses their bytes. -/
theorem flipFragments_frames {e e' : Endian} (he : e ≠ e') {k : ℕ}
    {fs : List (Fragment (List UInt8))} {bytes : List UInt8} (h : Frames e k fs bytes)
    (rounds : ℕ) (pre tail : List UInt8) (hpre : pre.length = k)
    (hbound : framesEnd k fs < 2 ^ 15) (hrounds : bytes.length ≤ rounds) :
    ∃ bytes', flipFragments e' (framesEnd k fs) rounds k (pre ++ bytes ++ tail)
        = some (pre ++ bytes' ++ tail) ∧ Frames e' k fs bytes' := by
  induction h generalizing rounds pre with
  | nil k =>
      refine ⟨[], ?_, Frames.nil k⟩
      cases rounds with
      | zero => exact if_neg (lt_irrefl _)
      | succ rounds => exact if_neg (lt_irrefl _)
  | @cons k pad f fs bytes hpad hbytes ih =>
      have hend := le_framesEnd (k + paddingBytes k + fragmentHeaderSize + f.data.length) fs
      rw [framesEnd] at hbound ⊢
      have hlen : f.data.length < 2 ^ 15 := by omega
      have hsize : fragmentHeaderSize = 4 := rfl
      simp only [List.length_append, FragmentHeader.length_store] at hrounds
      obtain ⟨rounds, rfl⟩ : ∃ r, rounds = r + 1 := ⟨rounds - 1, by omega⟩
      obtain ⟨bytes', hflip, hframes⟩ := ih rounds (pre ++ pad ++ f.header.store e' ++ f.data)
        (by simp only [List.length_append, hpre, hpad, FragmentHeader.length_store]) hbound
        (by omega)
      refine ⟨pad ++ f.header.store e' ++ f.data ++ bytes', ?_, Frames.cons hpad hframes⟩
      have hwrite : writeAt (pre ++ (pad ++ f.header.store e ++ f.data ++ bytes) ++ tail)
          (k + paddingBytes k) (f.header.store e')
          = pre ++ pad ++ f.header.store e' ++ f.data ++ bytes ++ tail := by
        have hw := writeAt_append (pre ++ pad) (f.header.store e) (f.data ++ bytes ++ tail)
          (f.header.store e') (k + paddingBytes k) (by rw [List.length_append, hpre, hpad])
          (by rw [FragmentHeader.length_store, FragmentHeader.length_store])
        simp only [List.append_assoc] at hw ⊢
        rw [hw]
      show (if k < framesEnd (k + paddingBytes k + fragmentHeaderSize + f.data.length) fs then _
        else _) = _
      rw [if_pos (by omega), if_neg (by omega), drop_fragment hpre hpad,
        FragmentHeader.read_store e e', if_neg he]
      dsimp only
      rw [flipFrag_flipFrag, hwrite, Fragment.toInt_header_len hlen]
      refine Eq.trans ?_ (hflip.trans (by simp only [List.append_assoc]))
      push_cast
      rfl

/-- `Deliver_packet` gets the data of the fragments back. -/
theorem parseFragments_frames {e : Endian} {k : ℕ} {fs : List (Fragment (List UInt8))}
    {bytes : List UInt8} (h : Frames e k fs bytes) (rounds : ℕ) (pre tail : List UInt8)
    (hpre : pre.length = k) (hbound : framesEnd k fs < 2 ^ 15) (hrounds : bytes.length ≤ rounds) :
    parseFragments e (framesEnd k fs) rounds k (pre ++ bytes ++ tail)
      = some (fs.map (·.data)) := by
  induction h generalizing rounds pre with
  | nil k =>
      cases rounds with
      | zero => exact if_neg (lt_irrefl _)
      | succ rounds => exact if_neg (lt_irrefl _)
  | @cons k pad f fs bytes hpad hbytes ih =>
      have hend := le_framesEnd (k + paddingBytes k + fragmentHeaderSize + f.data.length) fs
      rw [framesEnd] at hbound ⊢
      have hlen : f.data.length < 2 ^ 15 := by omega
      have hsize : fragmentHeaderSize = 4 := rfl
      simp only [List.length_append, FragmentHeader.length_store] at hrounds
      obtain ⟨rounds, rfl⟩ : ∃ r, rounds = r + 1 := ⟨rounds - 1, by omega⟩
      have hmore := ih rounds (pre ++ pad ++ f.header.store e ++ f.data)
        (by simp only [List.length_append, hpre, hpad, FragmentHeader.length_store]) hbound
        (by omega)
      have hcopy := copyFrom_append (pre ++ pad ++ f.header.store e) f.data (bytes ++ tail)
        (k + paddingBytes k + fragmentHeaderSize)
        (by simp only [List.length_append, hpre, hpad, FragmentHeader.length_store])
      simp only [List.append_assoc] at hcopy hmore
      show (if k < framesEnd (k + paddingBytes k + fragmentHeaderSize + f.data.length) fs then _
        else _) = _
      dsimp only
      rw [if_pos (by omega), drop_fragment hpre hpad, FragmentHeader.read_store e e, if_pos rfl]
      dsimp only
      rw [Fragment.toInt_header_len hlen, if_neg (by omega)]
      simp only [List.append_assoc]
      have hnext : ((k + paddingBytes k : ℕ) : ℤ) + fragmentHeaderSize + f.data.length
          = ((k + paddingBytes k + fragmentHeaderSize + f.data.length : ℕ) : ℤ) := by
        push_cast
        rfl
      rw [hcopy, hnext]
      simp only [Option.bind_eq_bind, Option.bind_some, hmore]
      rfl

/-! ## Packets fit -/

/-- `MAX_SCATTER_ELEMENTS` -/
def maxScatterElements : ℕ := 100

/-- A message as the session cuts it. -/
structure DownLink.WellCut (body : ℕ) (l : DownLink (List UInt8)) : Prop where
  cut : l.Cut body
  few : l.mess.length ≤ maxScatterElements
  short : ∀ e ∈ l.mess, e.length ≤ body

/-- The packet fits into its bytes. -/
structure Packet.Fits {n : ℕ} (body : ℕ) (p : Packet n (List UInt8)) : Prop where
  room : framesEnd p.first.data.length p.rest ≤ body
  index : -2 ^ 15 ≤ p.first.index ∧ p.first.index < 2 ^ 15
  whole : ∀ f ∈ p.rest, f.index = -1

theorem Packet.Fits.first_lt {n body : ℕ} {p : Packet n (List UInt8)} (h : p.Fits body)
    (hbody : body < 2 ^ 15) : p.first.data.length < 2 ^ 15 := by
  have hroom := h.room
  have hle := le_framesEnd p.first.data.length p.rest
  omega

theorem fillPacket_room {body : ℕ} {type : PacketType} (rounds : ℕ) {dataLen : ℕ}
    (q : DownQueue (List UInt8)) (h : dataLen ≤ body) :
    framesEnd dataLen (fillPacket body type rounds dataLen q).1 ≤ body := by
  induction rounds generalizing dataLen q with
  | zero => exact h
  | succ rounds ih =>
      rw [fillPacket]
      split
      · exact h
      split
      · exact h
      rename_i l ls hlinks e he
      dsimp only
      split
      · exact h
      split
      · exact h
      · rename_i hfits htype
        exact ih _ (not_lt.mp hfits)

theorem nextPacket_fits {n body seq : ℕ} {me : Fin n} {q q' : DownQueue (List UInt8)}
    {p : Packet n (List UInt8)} (hq : q.Ok) (hwell : ∀ l ∈ q.links, l.WellCut body)
    (h : nextPacket body me seq q = some (p, q')) : p.Fits body := by
  have hwhole := nextPacket_rest_whole hq (fun l hl => (hwell l hl).cut) h
  rw [nextPacket] at h
  cases hlinks : q.links with
  | nil =>
      rw [hlinks] at h
      cases h
  | cons l ls =>
      obtain ⟨e, he⟩ := hq.links_of_getElem? hlinks
      have hl := hwell l (by rw [hlinks]; exact List.mem_cons_self)
      have hcur := hq.inside l ls hlinks
      have hfew : l.mess.length ≤ 100 := hl.few
      rw [hlinks] at h
      dsimp only at h
      rw [he] at h
      obtain ⟨rfl, rfl⟩ := Prod.mk.inj (Option.some.inj h)
      refine ⟨fillPacket_room _ _ (hl.short e (List.mem_of_getElem? he)), ?_, hwhole⟩
      rw [DownQueue.advance]
      split
      · dsimp only
        omega
      · dsimp only
        omega

theorem nextPackets_fit {n body : ℕ} {me : Fin n} (allowed seq : ℕ)
    {q : DownQueue (List UInt8)} (hq : q.Ok) (hwell : ∀ l ∈ q.links, l.WellCut body) :
    ∀ p ∈ (nextPackets body me allowed seq q).1, p.Fits body := by
  induction allowed generalizing seq q with
  | zero => simp [nextPackets]
  | succ allowed ih =>
      rw [nextPackets]
      split
      · simp
      · rename_i p q' hp
        intro r hr
        rcases List.mem_cons.mp hr with rfl | hr
        · exact nextPacket_fits hq hwell hp
        · exact ih (seq + 1) (nextPacket_pending hq hp).1
            (fun l hl => hwell l ((nextPacket_links hp).subset hl)) r hr

/-! ## The packets of a ring fit -/

section

variable {n : ℕ} [NeZero n] {conf : RingConf n} {s s' : Net n (List UInt8)}

/-- All messages that the daemons have got are cut as the session does it. -/
def Net.WellCut (conf : RingConf n) (s : Net n (List UInt8)) : Prop :=
  ∀ i, ∀ l ∈ s.accepted i, l.WellCut conf.packetBody

/-- What waits is cut well, what was sent fits, and no more was sent than the check for a wrapped
sequence number lets pass. -/
structure Fitting (conf : RingConf n) (s : Net n (List UInt8)) : Prop where
  down : ∀ i, ∀ l ∈ (s.daemon i).down.links, l.WellCut conf.packetBody
  log : ∀ p ∈ s.log, p.Fits conf.packetBody
  short : s.log.length ≤ maxWrapSequenceValue + maxBurst

omit [NeZero n] in
theorem Calm.fitting {i : Fin n} (h : Calm conf s s' i) (hs : Fitting conf s)
    (hwell : s'.WellCut conf) : Fitting conf s' := by
  refine ⟨fun j l hl => ?_, fun p hp => hs.log p (by rwa [h.log] at hp),
    by rw [h.log]; exact hs.short⟩
  by_cases hj : j = i
  · subst hj
    rcases h.down with ⟨hdown, -⟩ | ⟨l', -, hdown, haccepted⟩
    · rw [hdown] at hl
      exact hs.down j l hl
    · rw [hdown] at hl
      rcases List.mem_append.mp hl with hl | hl
      · exact hs.down j l hl
      · -- the new message is one of those the daemon has got
        refine hwell j l ?_
        rw [haccepted, Function.update_self]
        exact List.mem_append_right _ hl
  · rw [h.others hj] at hl
    exact hs.down j l hl

theorem Taken.fitting {i : Fin n} {t : Token n} (h : Sane conf s) (ht : Taken conf s s' i t)
    (hhop : t.hop = s.hop) (hs : Fitting conf s) : Fitting conf s' := by
  obtain ⟨-, hlinks, -⟩ := nextPackets_spec conf.packetBody i
    (fcAllowed (s.daemon i).flow ((s.daemon i).store.raise t.seq) t.flowControl.toInt).toNat
    ((s.daemon i).store.raise t.seq).highestSeq (h.streams.down i)
  refine ⟨fun j l hl => ?_, fun p hp => ?_, ?_⟩
  · by_cases hj : j = i
    · subst hj
      rw [ht.daemon_self] at hl
      exact hs.down j l (hlinks.subset hl)
    · rw [ht.daemon_of_ne hj] at hl
      exact hs.down j l hl
  · rw [h.log_taken ht hhop] at hp
    rcases List.mem_append.mp hp with hp | hp
    · exact hs.log p hp
    · exact nextPackets_fit _ _ (h.streams.down i) (hs.down i) p hp
  · -- the token has passed the check
    have hwrap := ht.wrap
    rw [(h.token_eq ht hhop).1] at hwrap
    rw [h.log_taken ht hhop, List.length_append]
    by_cases hnew : ((s.daemon i).sendNewPackets conf i t).1 = []
    · rw [hnew, List.length_nil]
      omega
    · have hburst := (h.burst ht hhop hnew).2
      omega

theorem accepted_grows {e : Event n (List UInt8)} (h : s.step conf e = some s') {i : Fin n}
    {l : DownLink (List UInt8)} (hl : l ∈ s.accepted i) : l ∈ s'.accepted i := by
  rcases step_cases h with rfl | ⟨j, hcalm⟩ | ⟨k, j, t, -, -, ht⟩
  · exact hl
  · rcases hcalm.down with ⟨-, haccepted⟩ | ⟨l', -, -, haccepted⟩
    · rwa [haccepted]
    · rw [haccepted]
      by_cases hi : i = j
      · subst hi
        rw [Function.update_self]
        exact List.mem_append_left _ hl
      · rwa [Function.update_of_ne hi]
  · rwa [ht.accepted]

/-- **Every packet of a run fits into its bytes**, when the messages are cut as the session does
it. -/
theorem Fitting.of_run {I : Install n (List UInt8) conf} {es : List (Event n (List UInt8))}
    (hes : exec (Net.step conf) I.init es = some s)
    (htimely : StepsMeet (Net.step conf) Timely I.init es) (hwell : s.WellCut conf) :
    Fitting conf s := by
  refine (htimely.induct (P := fun u => Sane conf u ∧ (u.WellCut conf → Fitting conf u)) hes
    ⟨Sane.init I, fun hinit => ⟨hinit, fun p hp => (by cases hp), Nat.zero_le _⟩⟩ ?_).2 hwell
  intro u e u' _ ⟨hs, ih⟩ he hstep
  refine ⟨hs.step he hstep, fun hwell' => ?_⟩
  have hfit := ih fun i l hl => hwell' i l (accepted_grows hstep hl)
  rcases step_cases hstep with rfl | ⟨i, hcalm⟩ | ⟨k, i, t, rfl, hk, ht⟩
  · exact hfit
  · exact hcalm.fitting hfit hwell'
  · have hage := he t hk
    rw [← ht.dest] at hage
    exact ht.fitting hs (hs.circulates.fresh ht hage).1 hfit

end

/-! ## The way of a packet -/

/-- `Net_bcast` and `Net_recv` leave the other bits of the type. -/
theorem sent_and (e : Endian) (t : BitVec 32) {m : BitVec 32} (hm : m &&& endianType = 0#32)
    (hm' : m &&& routedType = 0#32) :
    setEndian e (setRouted t) &&& m = t &&& m ∧ clearRouted t &&& m = t &&& m := by
  have harch : archEndian e &&& m = 0#32 := by
    cases e with
    | little => rw [BitVec.and_comm]; exact hm
    | big => exact BitVec.zero_and
  have hnot : ∀ b : BitVec 32, m &&& b = 0#32 → ~~~b &&& m = m := by
    intro b hb
    refine BitVec.eq_of_getLsbD_eq fun i hi => ?_
    have hbit := congrArg (fun v => v.getLsbD i) hb
    simp only [BitVec.getLsbD_and, BitVec.getLsbD_zero] at hbit
    simp only [BitVec.getLsbD_and, BitVec.getLsbD_not, hi, decide_true, Bool.true_and]
    revert hbit
    cases m.getLsbD i <;> cases b.getLsbD i <;> simp
  refine ⟨?_, by rw [clearRouted, BitVec.and_assoc, hnot _ hm']⟩
  rw [setEndian, setRouted, BitVec.and_or_distrib_right, harch, BitVec.or_zero,
    BitVec.and_assoc, hnot _ hm, BitVec.and_or_distrib_right, BitVec.and_comm routedType, hm',
    BitVec.or_zero]

theorem isRouted_sent (e : Endian) (t : BitVec 32) :
    isRouted (setEndian e (setRouted t)) = true := by
  have hbit : (setEndian e (setRouted t) &&& routedType).getLsbD 5 = true := by
    have hmask : (~~~endianType).getLsbD 5 = true ∧ routedType.getLsbD 5 = true := by decide
    simp only [setEndian, setRouted, BitVec.getLsbD_and, BitVec.getLsbD_or, hmask.1, hmask.2,
      Bool.or_true, Bool.true_or, Bool.and_true]
  rw [isRouted, bne_iff_ne]
  intro hzero
  rw [hzero] at hbit
  cases hbit

theorem isRouted_clearRouted (t : BitVec 32) : isRouted (clearRouted t) = false := by
  rw [isRouted, clearRouted, BitVec.and_assoc, show ~~~routedType &&& routedType = 0#32 by decide,
    BitVec.and_zero]
  rfl

/-- The packet is for the ring protocol. -/
def Ordinary (t : BitVec 32) : Prop :=
  isControl t = false ∧ isMembership t = false ∧ isHurry t = false ∧ isRegular t = true

theorem ordinary_sent (e : Endian) (t : BitVec 32) :
    (Ordinary (setEndian e (setRouted t)) ↔ Ordinary t)
      ∧ (Ordinary (clearRouted t) ↔ Ordinary t) := by
  obtain ⟨hcontrol, hcontrol'⟩ := sent_and e t (m := controlType) (by decide) (by decide)
  obtain ⟨hmemb, hmemb'⟩ := sent_and e t (m := membershipType) (by decide) (by decide)
  obtain ⟨hhurry, hhurry'⟩ := sent_and e t (m := hurryType) (by decide) (by decide)
  obtain ⟨hregular, hregular'⟩ := sent_and e t (m := regularType) (by decide) (by decide)
  simp only [Ordinary, isControl, isMembership, isHurry, isRegular]
  rw [hcontrol, hmemb, hhurry, hregular, hcontrol', hmemb', hhurry', hregular']
  exact ⟨Iff.rfl, Iff.rfl⟩

theorem packetType_sent (e : Endian) (t : BitVec 32) :
    packetType (setEndian e (setRouted t)) = packetType t
      ∧ packetType (clearRouted t) = packetType t := by
  have h : ∀ type : PacketType, _ := fun type =>
    sent_and e t (m := BitVec.ofNat 32 type.code) (by cases type <;> decide)
      (by cases type <;> decide)
  refine ⟨?_, ?_⟩
  · simp only [packetType, (h _).1]
  · simp only [packetType, (h _).2]

section

variable {n : ℕ} {ids : Fin n → BitVec 32} {membId : MembershipId}

theorem procById_self (hids : Function.Injective ids) (i : Fin n) :
    procById ids (ids i) = some i := by
  rw [procById, List.find?_eq_some_iff_append]
  obtain ⟨as, bs, hsplit⟩ := List.append_of_mem (List.mem_finRange i)
  refine ⟨by simp, as, bs, hsplit, fun j hj => ?_⟩
  have hnodup := List.nodup_finRange n
  rw [hsplit, List.nodup_append] at hnodup
  have hne : j ≠ i := hnodup.2.2 j hj i List.mem_cons_self
  simpa using fun h => hne (hids h)

/-- The header `h` and the bytes `sent` of the body carry the packet `p`, with the headers of the
fragments after the first in the byte order `e`. -/
structure Carries (ids : Fin n → BitVec 32) (membId : MembershipId) (e : Endian)
    (h : PacketHeader) (sent : List UInt8) (p : Packet n (List UInt8)) : Prop where
  ordinary : Ordinary h.type
  type : packetType h.type = some p.type
  procId : h.procId = ids p.proc
  membId : h.membId = membId
  seq : h.seq.toNat = p.seq
  dataLen : h.dataLen.toNat = framesEnd p.first.data.length p.rest
  first : h.firstFragHeader = p.first.header
  body : ∃ bytes tail, sent = p.first.data ++ bytes ++ tail
    ∧ Frames e p.first.data.length p.rest bytes

theorem Carries.unrouted {e : Endian} {h : PacketHeader} {sent : List UInt8}
    {p : Packet n (List UInt8)} (hc : Carries ids membId e h sent p) :
    Carries ids membId e h.unrouted sent p :=
  { hc with
    ordinary := (ordinary_sent .little h.type).2.mpr hc.ordinary
    type := (packetType_sent .little h.type).2.trans hc.type }

theorem Carries.routedBy {e : Endian} {h : PacketHeader} {sent : List UInt8}
    {p : Packet n (List UInt8)} (hc : Carries ids membId e h sent p) (id : BitVec 32) :
    Carries ids membId e (h.routedBy id) sent p :=
  { hc.unrouted with }

/-- A daemon reads the packet out of the header and the body in its own byte order. -/
theorem Carries.readPacket (hids : Function.Injective ids) {e : Endian} {h : PacketHeader}
    {sent : List UInt8} {p : Packet n (List UInt8)} (hc : Carries ids membId e h sent p)
    {size : ℕ} (hfits : p.Fits size) (hsize : size < 2 ^ 15) :
    readPacket e ids membId h sent = some p := by
  obtain ⟨bytes, tail, rfl, hframes⟩ := hc.body
  have hroom := hfits.room
  have hlen := hfits.first_lt hsize
  have hindex : p.first.header.fragmentIndex.toInt = p.first.index := by
    have hrange := hfits.index
    rw [Fragment.header, BitVec.toInt_ofInt_eq_self (by omega) hrange.1 hrange.2]
  have hfirst := copyFrom_append [] p.first.data (bytes ++ tail) 0 rfl
  have hrest := parseFragments_frames hframes h.dataLen.toNat p.first.data tail rfl (by omega)
    (by
      have := hframes.length
      have := hc.dataLen
      omega)
  rw [List.nil_append, ← List.append_assoc] at hfirst
  rw [Daemon.readPacket, hc.procId, hc.type, hc.first, Fragment.toInt_header_len hlen, hindex,
    hc.seq, hfirst, procById_self hids, hc.dataLen]
  rw [hc.dataLen] at hrest
  rw [hrest]
  have hwhole : (p.rest.map (·.data)).map (fun data => (⟨-1, data⟩ : Fragment (List UInt8)))
      = p.rest := by
    rw [List.map_map]
    calc p.rest.map _ = p.rest.map id :=
          List.map_congr_left fun f hf => by rw [← hfits.whole f hf]; rfl
      _ = p.rest := List.map_id _
  simp only [hc.membId, guard_true, Option.bind_eq_bind, Option.bind_some, hwhole]
  rfl

/-- A daemon of the other byte order goes through the headers first. -/
theorem Carries.flipPacket {e : Endian} {h : PacketHeader} {sent : List UInt8}
    {p : Packet n (List UInt8)} (hc : Carries ids membId e h sent p) (he : HasEndian e h.type)
    {size : ℕ} (hfits : p.Fits size) (hsize : size < 2 ^ 15) (e' : Endian) :
    ∃ h' sent', flipPacket e' (h.received e e') sent = some (h', sent')
      ∧ Carries ids membId e' h' sent' p := by
  rw [Daemon.flipPacket, (h.received_eq e e').1, he.sameEndian]
  by_cases hsame : e = e'
  · subst hsame
    rw [if_pos (by simp), PacketHeader.received, if_pos rfl]
    exact ⟨h, sent, rfl, hc⟩
  · obtain ⟨bytes, tail, rfl, hframes⟩ := hc.body
    have hroom := hfits.room
    have hlen := hfits.first_lt hsize
    obtain ⟨bytes', hflip, hframes'⟩ := flipFragments_frames hsame hframes
      h.dataLen.toNat p.first.data tail rfl (by omega)
      (by
        have := hframes.length
        have := hc.dataLen
        omega)
    rw [if_neg (by simpa using hsame), PacketHeader.received, if_neg hsame]
    dsimp only [PacketHeader.flipRest]
    rw [flipFrag_flipFrag, hc.first, Fragment.toInt_header_len hlen, hc.dataLen]
    rw [hc.dataLen] at hflip
    rw [hflip]
    refine ⟨_, _, rfl, { hc with first := rfl, body := ⟨bytes', tail, rfl, hframes'⟩ }⟩

variable (ids membId) in
/-- What `Send_new_packets` makes carries the packet, and fits into the buffer. -/
theorem makePacket_carries {e : Endian} (new : PacketHeader) {rest : List UInt8}
    {p : Packet n (List UInt8)} {size : ℕ} (hfits : p.Fits size) (hsize : size < 2 ^ 15)
    (hseq : p.seq < 2 ^ 31) (hbuf : (p.first.data ++ rest).length = size) :
    ∃ dataLen bytes tail, makePacket e ids membId new rest p
        = (p.header ids membId new dataLen, p.first.data ++ bytes ++ tail)
      ∧ dataLen < 2 ^ 15 ∧ (p.first.data ++ bytes).length = dataLen
      ∧ (p.first.data ++ bytes ++ tail).length = size
      ∧ ∀ tail, Carries ids membId e (p.header ids membId new dataLen)
          (p.first.data ++ bytes ++ tail) p := by
  have hroom := hfits.room
  obtain ⟨bytes, tail, hwrite, hframes, htail⟩ := writeFragments_frames (e := e) p.rest
    p.first.data rest rfl (by rw [hbuf]; exact hroom)
  have hlen := hframes.length
  refine ⟨framesEnd p.first.data.length p.rest, bytes, tail, by rw [makePacket, hwrite], by omega,
    by rw [List.length_append, hlen], ?_, fun tail => ?_⟩
  · rw [List.length_append, List.length_append]
    omega
  · have htype : packetType (BitVec.ofNat 32 p.type.code) = some p.type
        ∧ Ordinary (BitVec.ofNat 32 p.type.code) := by
      cases p.type <;> unfold Ordinary <;> decide
    refine ⟨htype.2, htype.1, rfl, rfl, ?_, ?_, rfl, bytes, tail, rfl, hframes⟩
    · show (BitVec.ofNat 32 p.seq).toNat = p.seq
      rw [BitVec.toNat_ofNat]
      omega
    · show (BitVec.ofNat 16 (framesEnd p.first.data.length p.rest)).toNat = _
      rw [BitVec.toNat_ofNat]
      omega

theorem Carries.sentBy {e : Endian} {h : PacketHeader} {sent : List UInt8}
    {p : Packet n (List UInt8)} (hc : Carries ids membId e h sent p) (s : Station) :
    Carries ids membId e (h.sentBy s) sent p :=
  { hc with
    ordinary := (ordinary_sent s.endian h.type).1.mpr hc.ordinary
    type := (packetType_sent s.endian h.type).1.trans hc.type }

/-- A daemon that hears the transmitter of a datagram receives the packet that it carries. If the
datagram is marked for routing and the segment of the daemon needs it, the daemon sends on a
datagram that carries the packet in the same byte order; it sends on no other. -/
theorem Carries.receivePacket (hids : Function.Injective ids) {s r : Station} (hr : r.Hears s)
    {e : Endian} {h : PacketHeader} {sent : List UInt8} {p : Packet n (List UInt8)}
    (hc : Carries ids membId e h sent p) (he : HasEndian e h.type)
    (hfrom : h.transmiterId = s.id) (hhash : h.confHash = s.confHash)
    (hlen : sent.length = h.dataLen.toNat) {size : ℕ} (hfits : p.Fits size)
    (hsize : size < 2 ^ 15) (hsent : sent.length ≤ size) :
    receivePacket size r ids membId (h.store e ++ sent) = some p
      ∧ (isRouted h.type = true → r.bcastNeeded = true →
          (netRecv size r (h.store e ++ sent)).relayed
            = some ((h.routedBy r.id).store e ++ sent))
      ∧ (isRouted h.type = false → (netRecv size r (h.store e ++ sent)).relayed = none) := by
  have hrecv := netRecv_store hr he hc.ordinary.1 hfrom hhash hlen hsent
  refine ⟨?_, fun hrouted hneeded => by rw [hrecv, hrouted, hneeded]; rfl,
    fun hrouted => by rw [hrecv, hrouted]; rfl⟩
  rw [Daemon.receivePacket, hrecv]
  -- either way the header carries the packet
  obtain ⟨h', hpacket, he', hc'⟩ : ∃ h' : PacketHeader,
      (if isRouted h.type && r.bcastNeeded then
          (⟨some ((h.routedBy r.id).received e r.endian, sent),
            some ((h.routedBy r.id).store e ++ sent)⟩ : Received)
        else ⟨some (h.unrouted.received e r.endian, sent), none⟩).packet
        = some (h'.received e r.endian, sent)
      ∧ HasEndian e h'.type ∧ Carries ids membId e h' sent p := by
    split
    · exact ⟨h.routedBy r.id, rfl, he.clearRouted, hc.routedBy r.id⟩
    · exact ⟨h.unrouted, rfl, he.clearRouted, hc.unrouted⟩
  obtain ⟨h'', sent'', hflip, hc''⟩ := hc'.flipPacket he' hfits hsize r.endian
  obtain ⟨-, hmemb, hhurry, hregular⟩ := hc'.ordinary
  rw [hpacket]
  simp only [Option.bind_eq_bind, Option.bind_some, (h'.received_eq e r.endian).1, hmemb, hhurry,
    hregular, Bool.not_false, Bool.and_self, guard_true, hflip]
  exact hc''.readPacket hids hfits hsize

variable (membId) in
/-- **Packets survive the wire.** Take a packet that was sent in a run whose messages are cut as
the session does it. `Send_new_packets` lays it out in the buffer of its first element without
writing beyond it. What the sender delivers itself from that buffer is the packet. So is what any
daemon in its segment gets, what the leaders of other segments get, and what these send on, for
every combination of byte orders. What was sent on is not sent on again. -/
theorem packets_arrive [NeZero n] {conf : RingConf n} {I : Install n (List UInt8) conf}
    {es : List (Event n (List UInt8))} {u : Net n (List UInt8)}
    (hes : exec (Net.step conf) I.init es = some u)
    (htimely : StepsMeet (Net.step conf) Timely I.init es) (hwell : u.WellCut conf)
    (hids : Function.Injective ids) (hsize : conf.packetBody < 2 ^ 15)
    {p : Packet n (List UInt8)} (hp : p ∈ u.log) {s : Station}
    (new : PacketHeader) (rest : List UInt8)
    (hbuf : (p.first.data ++ rest).length = conf.packetBody) :
    ∃ h body routed direct, makePacket s.endian ids membId new rest p = (h, body)
      ∧ netBcast s h body = (routed, direct)
      ∧ body.length = conf.packetBody ∧ readPacket s.endian ids membId h body = some p
      ∧ ∀ r : Station, r.Hears s →
          receivePacket conf.packetBody r ids membId direct = some p
          ∧ receivePacket conf.packetBody r ids membId routed = some p
          ∧ (r.bcastNeeded = true →
              ∃ relayed, (netRecv conf.packetBody r routed).relayed = some relayed
              ∧ ∀ r' : Station, r'.Hears r →
                  receivePacket conf.packetBody r' ids membId relayed = some p
                  ∧ (netRecv conf.packetBody r' relayed).relayed = none) := by
  have hfitting := Fitting.of_run hes htimely hwell
  have hfits := hfitting.log p hp
  have hseq : p.seq < 2 ^ 31 := by
    have hle := ((Sane.of_run hes htimely).stored.numbered.getElem? hp).2.2
    have hshort := hfitting.short
    simp only [maxWrapSequenceValue, maxBurst, maxPacketsInStruct, maxSeqGap] at hshort
    omega
  obtain ⟨dataLen, bytes, tail, hmake, hlt, hlen, htotal, hcarries⟩ :=
    makePacket_carries ids membId (e := s.endian) new hfits hsize hseq hbuf
  have hdata : (p.header ids membId new dataLen).dataLen.toNat = dataLen := by
    show (BitVec.ofNat 16 dataLen).toNat = dataLen
    rw [BitVec.toNat_ofNat]
    omega
  have htake : (p.first.data ++ bytes ++ tail).take (p.header ids membId new dataLen).dataLen.toNat
      = p.first.data ++ bytes := by
    rw [hdata, List.take_left' hlen]
  have hsent := (hcarries []).sentBy s
  rw [List.append_nil] at hsent
  have hendian : HasEndian s.endian ((p.header ids membId new dataLen).sentBy s).type :=
    hasEndian_setEndian _ _
  have hsize' : (p.first.data ++ bytes).length ≤ conf.packetBody := by
    rw [List.length_append] at htotal
    omega
  refine ⟨_, _, _, _, hmake, rfl, htotal, (hcarries tail).readPacket hids hfits hsize,
    fun r hr => ?_⟩
  rw [htake]
  have hlen' := hlen.trans hdata.symm
  obtain ⟨hrouted, hrelay, -⟩ :=
    hsent.receivePacket hids hr hendian rfl rfl hlen' hfits hsize hsize'
  obtain ⟨hdirect, -⟩ :=
    hsent.unrouted.receivePacket hids hr hendian.clearRouted rfl rfl hlen' hfits hsize hsize'
  refine ⟨hdirect, hrouted, fun hneeded => ?_⟩
  refine ⟨_, hrelay ?_ hneeded, fun r' hr' => ?_⟩
  · exact isRouted_sent _ _
  · obtain ⟨harrive, -, hlast⟩ := (hsent.routedBy r.id).receivePacket hids hr'
      hendian.clearRouted rfl hr.confHash hlen' hfits hsize hsize'
    exact ⟨harrive, hlast (isRouted_clearRouted _)⟩

end

/-- A daemon on a little-endian machine and one on a big-endian machine. -/
def Sample.station (e : Endian) (id : BitVec 32) : Station :=
  ⟨e, id, 7, fun _ => true, fun _ => true, true⟩

/-- The ids of the two daemons. -/
def Sample.ids (i : Fin 2) : BitVec 32 := BitVec.ofNat 32 i

/-- A header object that has not been used. -/
def Sample.header : PacketHeader := ⟨0, 0, 0, ⟨0, 0⟩, 0, 0, 0, 0, 0, ⟨0, 0⟩⟩

theorem Sample.station_hears {e e' : Endian} {i j : BitVec 32} (h : i ≠ j) :
    (Sample.station e j).Hears (Sample.station e' i) :=
  ⟨rfl, rfl, h, rfl⟩

instance (body : ℕ) (l : DownLink (List UInt8)) : Decidable (l.WellCut body) :=
  decidable_of_iff (l.Cut body ∧ l.mess.length ≤ maxScatterElements
      ∧ ∀ e ∈ l.mess, e.length ≤ body)
    ⟨fun h => ⟨h.1, h.2.1, h.2.2⟩, fun h => ⟨h.cut, h.few, h.short⟩⟩

instance {n : ℕ} (conf : RingConf n) (s : Net n (List UInt8)) : Decidable (s.WellCut conf) :=
  inferInstanceAs (Decidable (∀ i, ∀ l ∈ s.accepted i, l.WellCut conf.packetBody))

theorem packets_arrive_sample : ∃ (u : Net 2 (List UInt8)) (p : Packet 2 (List UInt8)),
    exec (Net.step Sample.conf) Sample.install.init Sample.run = some u ∧ p ∈ u.log
      ∧ (Sample.station .big 1).Hears (Sample.station .little 0)
      ∧ ∃ h body routed direct,
        makePacket .little Sample.ids ⟨0, 5⟩ Sample.header
            (List.replicate (64 - p.first.data.length) 0) p = (h, body)
        ∧ netBcast (Sample.station .little 0) h body = (routed, direct)
        ∧ body.length = 64 ∧ readPacket .little Sample.ids ⟨0, 5⟩ h body = some p
        ∧ ∀ r : Station, r.Hears (Sample.station .little 0) →
            receivePacket 64 r Sample.ids ⟨0, 5⟩ direct = some p
            ∧ receivePacket 64 r Sample.ids ⟨0, 5⟩ routed = some p
            ∧ (r.bcastNeeded = true →
                ∃ relayed, (netRecv 64 r routed).relayed = some relayed
                ∧ ∀ r' : Station, r'.Hears r →
                    receivePacket 64 r' Sample.ids ⟨0, 5⟩ relayed = some p
                    ∧ (netRecv 64 r' relayed).relayed = none) := by
  obtain ⟨u, hu, h⟩ := exists_of_any (Net.step Sample.conf) Sample.install.init Sample.run
    (fun u => decide (u.WellCut Sample.conf)
      && u.log[0]?.any fun p : Packet 2 (List UInt8) => decide (p.first.data.length ≤ 64))
    (by decide +kernel)
  obtain ⟨hwell, h⟩ := Bool.and_eq_true_iff.mp h
  obtain ⟨p, hp, h⟩ := (Option.any_eq_true _ _).mp h
  have hids : Function.Injective Sample.ids := by decide
  have hbuf : (p.first.data ++ List.replicate (64 - p.first.data.length) 0).length = 64 := by
    rw [List.length_append, List.length_replicate, Nat.add_sub_cancel' (of_decide_eq_true h)]
  exact ⟨u, p, hu, List.mem_of_getElem? hp, Sample.station_hears (by decide),
    packets_arrive ⟨0, 5⟩ hu (by decide +kernel) (of_decide_eq_true hwell) hids (by decide)
      (List.mem_of_getElem? hp) (s := Sample.station .little 0) Sample.header
      (List.replicate (64 - p.first.data.length) 0) hbuf⟩

end SpreadAccount.Daemon
