import SpreadAccount.Daemon.Frame

set_option autoImplicit false

/-! # The header of a client's message

A client sends a message in its own byte order, with a header in front of it. `Sess_read` turns the
header into the byte order of the daemon (`Flip_mess`) and has it checked
(`Sess_validate_read_header`); a client that sends a bad one is disconnected.

* `toLocal_read`: the daemon reads the header that the client has sent, apart from the hint, which
  is not flipped;
* `validateReadHeader_packetType`: a header that passes the check has the type of a message.
-/

namespace SpreadAccount.Daemon

open ByteOrder

/-! ## The code -/

def maxPrivateName : ℕ := 10

def maxProcName : ℕ := 20

def maxGroupName : ℕ := 1 + maxPrivateName + 1 + maxProcName

def maxGroupsPerMessage : ℤ := 100

structure MessageHeader where
  type : BitVec 32
  /-- an array of `MAX_GROUP_NAME` characters -/
  privateGroupName : List UInt8
  numGroups : BitVec 32
  hint : BitVec 32
  dataLen : BitVec 32
  deriving DecidableEq

/-- The bytes of the header in the memory of a machine. -/
def MessageHeader.store (e : Endian) (h : MessageHeader) : List UInt8 :=
  e.store32 h.type ++ h.privateGroupName ++ e.store32 h.numGroups ++ e.store32 h.hint
    ++ e.store32 h.dataLen

/-- The header in the bytes of memory. -/
def MessageHeader.read (e : Endian) (bytes : List UInt8) : Option MessageHeader := do
  let (type, bytes) ← e.read32 bytes
  let (numGroups, rest) ← e.read32 (bytes.drop maxGroupName)
  let (hint, rest) ← e.read32 rest
  let (dataLen, _) ← e.read32 rest
  return ⟨type, bytes.take maxGroupName, numGroups, hint, dataLen⟩

/-- `sizeof( message_header )` -/
def messageHeaderSize : ℕ := 48

/-- `Flip_mess`: the hint is not flipped here. -/
def flipMess (h : MessageHeader) : MessageHeader :=
  { h with type := flip32 h.type, numGroups := flip32 h.numGroups, dataLen := flip32 h.dataLen }

/-- The header in the byte order of the daemon, as its type says then. -/
def MessageHeader.toLocal (e : Endian) (h : MessageHeader) : MessageHeader :=
  let h := if sameEndian e h.type then h else flipMess h
  { h with type := setEndian e h.type }

/-- The groups and the data that follow the header. -/
def MessageHeader.bodyLen (h : MessageHeader) : ℕ :=
  (h.dataLen.toInt + maxGroupName * h.numGroups.toInt).toNat

/-- `count_bits_set`. -/
def countBitsSet (field : BitVec 32) (firstIndex lastIndex : ℕ) : ℕ :=
  ((List.range (lastIndex - firstIndex)).filter fun i =>
    hasBits field (1#32 <<< (firstIndex + i))).length

/-- `G_private_to_names`: the name of the session and that of its daemon in `#session#daemon`. -/
def privateToNames (name : List UInt8) : Option (List UInt8 × List UInt8) :=
  let hash : UInt8 := 0x23
  let chars := (name.drop 1).takeWhile (· ≠ 0)
  let privateName := chars.takeWhile (· ≠ hash)
  let procName := chars.drop (privateName.length + 1)
  if hash ∉ chars ∨ name.head? ≠ some hash ∨ maxPrivateName < privateName.length
      ∨ privateName.length < 1 ∨ maxProcName ≤ procName.length ∨ procName.length < 1 then
    none
  else if (privateName ++ procName).any fun c => c ≤ hash || 0x7e < c then none
  else some (privateName, procName)

/-- `MAX_MESSAGE_BODY_LEN`, for packet bodies of `size` bytes: the size of a packet header is taken
for 32. -/
def maxMessageBodyLen (size : ℕ) : ℤ := maxScatterElements * (size + packetHeaderSize - 32)

/-- `Sess_validate_read_header` at the daemon `procName`, for its session `sessionName`. -/
def validateReadHeader (size : ℕ) (procName sessionName : List UInt8) (h : MessageHeader) :
    Option MessageHeader := do
  let typeBits := countBitsSet h.type 0 6
  let membBits := countBitsSet h.type 16 19
  guard (typeBits ≤ 1 ∧ membBits ≤ 1 ∧ typeBits + membBits = 1)
  let h := { h with privateGroupName := h.privateGroupName.set (maxGroupName - 1) 0 }
  let names ← privateToNames h.privateGroupName
  guard (names.2 = procName)
  guard (names.1 = sessionName)
  guard (0 ≤ h.numGroups.toInt ∧ h.numGroups.toInt ≤ maxGroupsPerMessage)
  guard (h.hint &&& ~~~(0x80000080#32 ||| 0x00ffff00#32) = 0#32)
  guard (0 ≤ h.dataLen.toInt ∧ h.dataLen.toInt ≤ maxMessageBodyLen size)
  guard (h.dataLen.toInt + maxGroupName * h.numGroups.toInt
    ≤ maxMessageBodyLen size - messageHeaderSize)
  return h

/-! ## The byte order -/

/-- A header from a machine with the byte order `e`, as one with the byte order `e'` has it. -/
def MessageHeader.received (e e' : Endian) (h : MessageHeader) : MessageHeader :=
  { h with type := setEndian e' h.type, hint := if e = e' then h.hint else flip32 h.hint }

theorem MessageHeader.length_store (e : Endian) {h : MessageHeader}
    (hname : h.privateGroupName.length = maxGroupName) :
    (h.store e).length = messageHeaderSize := by
  simp only [MessageHeader.store, List.length_append, e.length_store32, hname]
  rfl

theorem MessageHeader.read_store (e e' : Endian) {h : MessageHeader}
    (hname : h.privateGroupName.length = maxGroupName) :
    MessageHeader.read e' (h.store e)
      = some (if e = e' then h else { flipMess h with hint := flip32 h.hint }) := by
  have hlast := e.read32_store32 e' h.dataLen []
  rw [List.append_nil] at hlast
  simp only [MessageHeader.read, MessageHeader.store, List.append_assoc, e.read32_store32 e',
    Option.bind_eq_bind, Option.bind_some, List.drop_left' hname, List.take_left' hname, hlast]
  by_cases he : e = e'
  · simp only [if_pos he]
    rfl
  · simp only [if_neg he]
    rfl

/-- **The daemon reads the header that the client has sent**, whatever their byte orders, apart
from the hint. -/
theorem MessageHeader.toLocal_read {e : Endian} {h : MessageHeader} (hh : HasEndian e h.type)
    (e' : Endian) :
    MessageHeader.toLocal e' (if e = e' then h else { flipMess h with hint := flip32 h.hint })
      = h.received e e' := by
  by_cases he : e = e'
  · rw [if_pos he, MessageHeader.toLocal, hh.sameEndian, if_pos (by simpa using he),
      MessageHeader.received, if_pos he]
  · have hflip : HasEndian e (flip32 h.type) := hh.flip
    have hother : sameEndian e' (flip32 h.type) = false := by
      rw [hflip.sameEndian]
      simpa using he
    simp only [if_neg he, MessageHeader.toLocal, MessageHeader.received, flipMess, hother,
      Bool.false_eq_true, if_false, flip32_flip32]

/-! ## What passes the check -/

theorem exists_of_countBitsSet {field : BitVec 32} {firstIndex lastIndex : ℕ}
    (h : countBitsSet field firstIndex lastIndex ≠ 0) :
    ∃ i < lastIndex - firstIndex, hasBits field (1#32 <<< (firstIndex + i)) = true := by
  obtain ⟨i, hi⟩ := List.exists_mem_of_length_pos (Nat.pos_of_ne_zero h)
  obtain ⟨hrange, hbit⟩ := List.mem_filter.mp hi
  exact ⟨i, List.mem_range.mp hrange, hbit⟩

/-- What is known of a header that has passed. -/
theorem validateReadHeader_spec {size : ℕ} {procName sessionName : List UInt8}
    {h h' : MessageHeader} (hv : validateReadHeader size procName sessionName h = some h') :
    h' = { h with privateGroupName := h.privateGroupName.set (maxGroupName - 1) 0 }
      ∧ countBitsSet h.type 0 6 + countBitsSet h.type 16 19 = 1
      ∧ (h'.bodyLen : ℤ) = h'.dataLen.toInt + maxGroupName * h'.numGroups.toInt
      ∧ (h'.bodyLen : ℤ) + messageHeaderSize ≤ maxMessageBodyLen size := by
  simp only [validateReadHeader, Option.bind_eq_bind, Option.bind_eq_some_iff,
    Option.guard_eq_some', exists_const, Option.pure_def, Option.some.injEq] at hv
  obtain ⟨⟨-, -, hbits⟩, -, -, -, -, hgroups, -, hdata, hlen, rfl⟩ := hv
  have hbody : (MessageHeader.bodyLen { h with
      privateGroupName := h.privateGroupName.set (maxGroupName - 1) 0 } : ℤ)
      = h.dataLen.toInt + maxGroupName * h.numGroups.toInt :=
    Int.toNat_of_nonneg (by
      have := mul_nonneg (Int.natCast_nonneg maxGroupName) hgroups.1
      exact add_nonneg hdata.1 this)
  refine ⟨rfl, hbits, hbody, ?_⟩
  rw [hbody]
  omega

/-- **A header that passes the check has the type of a message**: the daemon does not fail to find
a packet type for it. -/
theorem validateReadHeader_packetType {size : ℕ} {procName sessionName : List UInt8}
    {h h' : MessageHeader} (hv : validateReadHeader size procName sessionName h = some h') :
    (messageGetPacketType h'.type).isSome = true := by
  obtain ⟨rfl, hbits, -, -⟩ := validateReadHeader_spec hv
  -- every bit that is counted is that of a type
  have htype : ∀ m ∈ [unreliableMess, reliableMess, fifoMess, causalMess, agreedMess, safeMess,
      joinMess, leaveMess, killMess], hasBits h.type m = true →
        (messageGetPacketType h.type).isSome = true := by
    intro m hm hbit
    rw [messageGetPacketType]
    split_ifs
    all_goals try rfl
    simp only [List.mem_cons, List.not_mem_nil, or_false] at hm
    rcases hm with rfl | rfl | rfl | rfl | rfl | rfl | rfl | rfl | rfl <;> simp_all
  have hone : countBitsSet h.type 0 6 ≠ 0 ∨ countBitsSet h.type 16 19 ≠ 0 := by omega
  rcases hone with hone | hone
  · obtain ⟨i, hi, hbit⟩ := exists_of_countBitsSet hone
    refine htype _ ?_ hbit
    interval_cases i <;> decide
  · obtain ⟨i, hi, hbit⟩ := exists_of_countBitsSet hone
    refine htype _ ?_ hbit
    interval_cases i <;> decide

end SpreadAccount.Daemon
