import SpreadAccount.Daemon.Header

set_option autoImplicit false

/-! # Reading a message from a client

`Sess_read` is called whenever bytes of a client have arrived. It first reads the header of a
message, into its first element, and checks it when it is complete. The rest is read into elements
of the size of a packet body, as many bytes at a time as there are. When the message is complete,
`Message_element_len_fixup` sets the lengths of the elements, and the message goes to the down
queue. `none` stands for the failure of an assertion or an access beyond the array of elements.

* `message_cut`: however the bytes arrive, the message is cut as the ring expects it, and its
  elements hold the header and the body.
-/

namespace SpreadAccount.Daemon

open ByteOrder Machine

/-! ## The code -/

/-- `scat_element`: its length and the bytes that have been put into its buffer. -/
structure ScatElement where
  len : ℕ
  buf : List UInt8
  deriving DecidableEq

/-- `read_mess` and `read` of a session. -/
structure ReadMess where
  elements : List ScatElement
  /-- The header that `head_ptr` points to; `none` while `in_mess_head` is `1`. -/
  head : Option MessageHeader
  curElement : ℕ
  curByte : ℕ
  totalBytes : ℕ
  deriving DecidableEq

/-- What becomes of the message of a client: it is read, it has been read and goes to the down
queue, or the session has been killed. -/
inductive ReadState where
  | reading (m : ReadMess)
  | complete (elements : List ScatElement)
  | killed
  deriving DecidableEq

/-- `Message_new_message`. -/
def ReadMess.new : ReadMess := ⟨[⟨messageHeaderSize, []⟩], none, 0, 0, 0⟩

/-- `Message_add_scat_element`. -/
def addScatElement (size : ℕ) (elements : List ScatElement) : Option (List ScatElement) :=
  if elements.length < maxScatterElements then some (elements ++ [⟨size, []⟩]) else none

/-- The start of a round of the loop of `Sess_read`: a new element, if one is begun. -/
def ReadMess.begin (size : ℕ) (m : ReadMess) : Option ReadMess :=
  if m.elements.length ≤ m.curElement then
    -- `assert(byte_index == 0)`
    if m.curByte = 0 then
      (addScatElement size m.elements).map fun elements => { m with elements := elements }
    else none
  else some m

/-- How many bytes `recv` is asked for. -/
def ReadMess.toRead (size : ℕ) (m : ReadMess) : ℕ :=
  match m.head with
  | none => messageHeaderSize - m.curByte
  | some h => min (size - m.curByte) (h.bodyLen - m.totalBytes)

/-- The rest of the round, when `recv` has got `bytes`. -/
def ReadMess.put (size : ℕ) (m : ReadMess) (bytes : List UInt8) : ReadMess :=
  { m with
    elements := m.elements.modify m.curElement fun e =>
      { e with buf := e.buf.take m.curByte ++ bytes }
    curElement := if bytes.length = m.toRead size then m.curElement + 1 else m.curElement
    curByte := if bytes.length = m.toRead size then 0 else m.curByte + bytes.length
    totalBytes := m.totalBytes + bytes.length }

/-- `Message_element_len_fixup` for a header of the size `head`. If the last element is full, the
length behind it is set. -/
def elementLenFixup (size head total : ℕ) (elements : List ScatElement) :
    Option (List ScatElement) :=
  let totalSize := total + head
  let sumSize := size * (elements.length - 1)
  let last := totalSize / size
  if totalSize < size then
    -- `assert(last == 0)`
    if last = 0 then some (elements.modify last fun e => { e with len := totalSize }) else none
  else if last < maxScatterElements then
    some ((elements.modify 0 fun e => { e with len := size }).modify last
      fun e => { e with len := totalSize - sumSize })
  else none

/-- The end of a round: a message of which nothing remains is complete. -/
def ReadMess.finish (size : ℕ) (h : MessageHeader) (m : ReadMess) : Option ReadState :=
  if h.bodyLen ≤ m.totalBytes then
    (elementLenFixup size messageHeaderSize h.bodyLen m.elements).map .complete
  else some (.reading m)

/-- A message of which the header has been read. -/
def ReadMess.start (e : Endian) (h : MessageHeader) : ReadMess :=
  ⟨[⟨messageHeaderSize, h.store e⟩], some h, 0, messageHeaderSize, 0⟩

/-- The daemon and the session, as far as `Sess_read` knows them: the byte order, `My.name` and the
name of the session, and `sizeof( packet_body )`. -/
structure SessConf where
  endian : Endian
  procName : List UInt8
  sessionName : List UInt8
  size : ℕ

/-- When the header is complete, it is brought into the byte order of the daemon and checked. -/
def headRead (c : SessConf) (bytes : List UInt8) : Option ReadState :=
  match (MessageHeader.read c.endian bytes).bind fun h =>
      validateReadHeader c.size c.procName c.sessionName (h.toLocal c.endian) with
  | none => some .killed
  | some h => (ReadMess.start c.endian h).finish c.size h

/-- What `Sess_read` does with the `bytes` that `recv` has got: with a part of the header, or with a
part of the body. -/
def ReadMess.receive (c : SessConf) (m : ReadMess) (bytes : List UInt8) : Option ReadState :=
  match m.head with
  | none =>
      let elements := m.elements.modify 0 fun e => { e with buf := e.buf.take m.curByte ++ bytes }
      if bytes.length = m.toRead c.size then headRead c (elements.flatMap ScatElement.buf)
      else some (.reading { m with elements := elements, curByte := m.curByte + bytes.length })
  | some h =>
      (m.begin c.size).bind fun m =>
        if bytes = [] then some (.reading m) else (m.put c.size bytes).finish c.size h

/-- One `recv`, when `available` bytes of the stream of the client have arrived. With none of them
`Sess_read` returns. -/
def readStep (c : SessConf) (s : ReadState × List UInt8) (available : ℕ) :
    Option (ReadState × List UInt8) :=
  match s.1 with
  | .reading m =>
      let bytes := s.2.take (min available (m.toRead c.size))
      (m.receive c bytes).map fun state => (state, s.2.drop bytes.length)
  | _ => some s

/-! ## What has been read -/

/-- The bytes in the elements. -/
def ScatElement.bytesOf (elements : List ScatElement) : List UInt8 :=
  elements.flatMap ScatElement.buf

/-- **While a message is read**: the elements hold what came first in the stream. All but the last
are full, and while the message is not complete, the position is where the next byte goes. -/
structure Reading (size : ℕ) (header data more : List UInt8) (m : ReadMess)
    (stream : List UInt8) : Prop where
  bytes : ScatElement.bytesOf m.elements ++ stream = header ++ data ++ more
  total : m.totalBytes + stream.length = data.length + more.length
  le : m.totalBytes ≤ data.length
  len : ∀ e ∈ m.elements.tail, e.len = size
  cut : ∃ done : List ScatElement, (∀ e ∈ done, e.buf.length = size)
    ∧ ((m.elements = done ∧ done ≠ [] ∧ m.curElement = done.length ∧ m.curByte = 0)
      ∨ ∃ e, m.elements = done ++ [e] ∧ e.buf.length < size
        ∧ (e.buf ≠ [] ∨ m.totalBytes < data.length)
        ∧ (m.totalBytes < data.length →
          m.curElement = done.length ∧ m.curByte = e.buf.length))

theorem length_bytesOf_full {size : ℕ} {done : List ScatElement}
    (h : ∀ e ∈ done, e.buf.length = size) :
    (ScatElement.bytesOf done).length = done.length * size := by
  induction done with
  | nil => simp [ScatElement.bytesOf]
  | cons e done ih =>
      have he := h e List.mem_cons_self
      have hdone := ih fun e' he' => h e' (List.mem_cons_of_mem _ he')
      rw [ScatElement.bytesOf, List.flatMap_cons, List.length_append, he, ← ScatElement.bytesOf,
        hdone, List.length_cons, Nat.succ_mul, Nat.add_comm]

theorem modify_snoc {α : Type} (xs : List α) (x : α) (f : α → α) :
    (xs ++ [x]).modify xs.length f = xs ++ [f x] := by
  induction xs with
  | nil => rfl
  | cons y ys ih => exact congrArg (y :: ·) ih

theorem bytesOf_append (es es' : List ScatElement) :
    ScatElement.bytesOf (es ++ es') = ScatElement.bytesOf es ++ ScatElement.bytesOf es' :=
  List.flatMap_append

theorem bytesOf_singleton (e : ScatElement) : ScatElement.bytesOf [e] = e.buf := by
  simp [ScatElement.bytesOf]

section

variable {size : ℕ} {header data more stream : List UInt8} {m : ReadMess}

theorem Reading.start {e : Endian} {h : MessageHeader}
    (hlen : (h.store e).length = messageHeaderSize) (hsize : messageHeaderSize < size) :
    Reading size (h.store e) data more (ReadMess.start e h) (data ++ more) where
  bytes := by
    show ScatElement.bytesOf [⟨messageHeaderSize, h.store e⟩] ++ (data ++ more) = _
    rw [bytesOf_singleton, List.append_assoc]
  total := by
    show 0 + (data ++ more).length = _
    rw [List.length_append, Nat.zero_add]
  le := Nat.zero_le _
  len := by simp [ReadMess.start]
  cut := by
    have hne : h.store e ≠ [] := List.ne_nil_of_length_pos (by rw [hlen]; exact Nat.succ_pos _)
    exact ⟨[], by simp, Or.inr ⟨⟨messageHeaderSize, h.store e⟩, rfl, hlen.trans_lt hsize,
      Or.inl hne, fun _ => ⟨rfl, hlen.symm⟩⟩⟩

/-- The bytes in the elements are the header and what was read of the body. -/
theorem Reading.length_bytesOf (h : Reading size header data more m stream) :
    (ScatElement.bytesOf m.elements).length = header.length + m.totalBytes := by
  have hbytes := congrArg List.length h.bytes
  have htotal := h.total
  simp only [List.length_append] at hbytes
  omega

/-- A round begins with an element in which there is room. -/
theorem Reading.begin (h : Reading size header data more m stream) (hsize : 0 < size)
    (hlen : header.length + data.length < maxScatterElements * size)
    (hmore : m.totalBytes < data.length) :
    ∃ m' done e, m.begin size = some m' ∧ Reading size header data more m' stream
      ∧ (∀ e ∈ done, e.buf.length = size) ∧ m'.elements = done ++ [e] ∧ e.buf.length < size
      ∧ m'.curElement = done.length ∧ m'.curByte = e.buf.length
      ∧ m'.totalBytes = m.totalBytes ∧ m'.head = m.head ∧ m'.toRead size = m.toRead size := by
  obtain ⟨done, hfull, ⟨helements, hne, helement, hbyte⟩ | ⟨e, helements, he, hnonempty, hpos⟩⟩ :=
    h.cut
  · -- a new element
    have hfew : done.length < maxScatterElements := by
      have hbytes := h.length_bytesOf
      rw [helements, length_bytesOf_full hfull] at hbytes
      by_contra hle
      have := Nat.mul_le_mul_right size (not_lt.mp hle)
      omega
    refine ⟨{ m with elements := done ++ [⟨size, []⟩] }, done, (⟨size, []⟩ : ScatElement), ?_, ?_,
      hfull, rfl, hsize, helement, hbyte, rfl, rfl, rfl⟩
    · rw [ReadMess.begin, if_pos (by rw [helements, helement]), if_pos hbyte, addScatElement,
        helements, if_pos hfew]
      rfl
    · refine ⟨?_, h.total, h.le, ?_, done, hfull, Or.inr ⟨_, rfl, hsize, Or.inr hmore,
        fun _ => ⟨helement, hbyte⟩⟩⟩
      · have hbytes := h.bytes
        rw [helements] at hbytes
        show ScatElement.bytesOf (done ++ [(⟨size, []⟩ : ScatElement)]) ++ stream = _
        rw [bytesOf_append, bytesOf_singleton, List.append_nil, hbytes]
      · intro e he
        have htail := h.len
        rw [helements] at htail
        change e ∈ (done ++ [(⟨size, []⟩ : ScatElement)]).tail at he
        rw [List.tail_append_of_ne_nil hne] at he
        rcases List.mem_append.mp he with he | he
        · exact htail e he
        · rw [List.mem_singleton.mp he]
  · obtain ⟨helement, hbyte⟩ := hpos hmore
    refine ⟨m, done, e, ?_, h, hfull, helements, he, helement, hbyte, rfl, rfl, rfl⟩
    rw [ReadMess.begin, if_neg]
    rw [helements, helement, List.length_append, List.length_singleton]
    omega

/-- What is put behind the last element comes from the stream. -/
theorem Reading.put (h : Reading size header data more m stream) {done : List ScatElement}
    {e : ScatElement} (hfull : ∀ e ∈ done, e.buf.length = size)
    (helements : m.elements = done ++ [e]) (he : e.buf.length < size)
    (helement : m.curElement = done.length)
    (hbyte : m.curByte = e.buf.length) {bytes : List UInt8} (hne : bytes ≠ [])
    (htoRead : m.toRead size = min (size - e.buf.length) (data.length - m.totalBytes))
    (hle : bytes.length ≤ m.toRead size) (hsplit : stream = bytes ++ stream.drop bytes.length) :
    Reading size header data more (m.put size bytes) (stream.drop bytes.length) := by
  have hpos : 0 < bytes.length := List.length_pos_iff.mpr hne
  have hput : (m.put size bytes).elements = done ++ [{ e with buf := e.buf ++ bytes }] := by
    show m.elements.modify m.curElement _ = _
    rw [helements, helement, modify_snoc, hbyte, List.take_length]
  have htotal := congrArg List.length hsplit
  rw [List.length_append] at htotal
  refine ⟨?_, ?_, ?_, ?_, ?_⟩
  · have hbytes := h.bytes
    rw [helements, bytesOf_append, bytesOf_singleton, hsplit] at hbytes
    rw [hput, bytesOf_append, bytesOf_singleton]
    simpa using hbytes
  · show m.totalBytes + bytes.length + (stream.drop bytes.length).length = _
    have := h.total
    omega
  · show m.totalBytes + bytes.length ≤ data.length
    have := h.le
    omega
  · intro e' he'
    have htail := h.len
    rw [helements] at htail
    rw [hput] at he'
    cases done with
    | nil => cases he'
    | cons d ds =>
        rcases List.mem_append.mp he' with he' | he'
        · exact htail e' (List.mem_append_left _ he')
        · rw [List.mem_singleton.mp he']
          exact htail e (List.mem_append_right _ (List.mem_singleton_self e))
  · have hlen' : ({ e with buf := e.buf ++ bytes } : ScatElement).buf.length
        = e.buf.length + bytes.length := List.length_append
    by_cases hfill : e.buf.length + bytes.length = size
    · -- the element is full, and the position goes to the next one
      have hall : bytes.length = m.toRead size := by omega
      refine ⟨done ++ [{ e with buf := e.buf ++ bytes }], ?_, Or.inl ⟨hput, by simp, ?_, ?_⟩⟩
      · intro e' he'
        rcases List.mem_append.mp he' with he' | he'
        · exact hfull e' he'
        · rw [List.mem_singleton.mp he', hlen', hfill]
      · show (if _ then _ else _) = _
        rw [if_pos hall, helement, List.length_append, List.length_singleton]
      · exact if_pos hall
    · refine ⟨done, hfull, Or.inr ⟨{ e with buf := e.buf ++ bytes }, hput, ?_, ?_, ?_⟩⟩
      · rw [hlen']
        omega
      · exact Or.inl (by simp [hne])
      · intro hlt
        change m.totalBytes + bytes.length < data.length at hlt
        have hpart : bytes.length ≠ m.toRead size := by omega
        refine ⟨?_, ?_⟩
        · show (if _ then _ else _) = _
          rw [if_neg hpart, helement]
        · show (if _ then _ else _) = _
          rw [if_neg hpart, hbyte, hlen']

/-- **A round of the loop keeps the invariant**, and reads something if anything has arrived. -/
theorem Reading.step {c : SessConf} (h : Reading c.size header data more m stream)
    {head : MessageHeader} (hhead : m.head = some head) (hbody : head.bodyLen = data.length)
    (hsize : 0 < c.size) (hlen : header.length + data.length < maxScatterElements * c.size)
    (hmore : m.totalBytes < data.length) (available : ℕ) :
    ∃ m' stream', readStep c (.reading m, stream) available
        = (m'.finish c.size head).map (fun state => (state, stream'))
      ∧ m'.head = some head ∧ Reading c.size header data more m' stream'
      ∧ m.totalBytes + min 1 available ≤ m'.totalBytes := by
  obtain ⟨m₁, done, e, hbegin, h₁, hfull, helements, he, helement, hbyte, htotal, hhead₁, hsame⟩ :=
    h.begin hsize hlen hmore
  rw [hhead] at hhead₁
  have htoRead : m₁.toRead c.size = min (c.size - e.buf.length) (data.length - m₁.totalBytes) := by
    rw [ReadMess.toRead, hhead₁, ← hbody, hbyte]
  have hstep : readStep c (.reading m, stream) available
      = (if stream.take (min available (m₁.toRead c.size)) = [] then some (.reading m₁)
          else (m₁.put c.size (stream.take (min available (m₁.toRead c.size)))).finish c.size
            head).map fun state =>
        (state, stream.drop (stream.take (min available (m₁.toRead c.size))).length) := by
    rw [readStep]
    dsimp only
    rw [ReadMess.receive, hhead, ← hsame]
    dsimp only
    rw [hbegin]
    rfl
  generalize hb : stream.take (min available (m₁.toRead c.size)) = bytes at hstep
  -- the stream holds the rest of the message, so `recv` gets all it may
  have hblen : bytes.length = min available (m₁.toRead c.size) := by
    have := h.total
    rw [← hb, List.length_take, htoRead]
    omega
  by_cases hnone : bytes = []
  · rw [if_pos hnone] at hstep
    refine ⟨m₁, stream, ?_, hhead₁, h₁, ?_⟩
    · rw [hstep, ReadMess.finish, if_neg (by omega), hnone]
      rfl
    · rw [hnone, List.length_nil, htoRead] at hblen
      omega
  · rw [if_neg hnone] at hstep
    refine ⟨m₁.put c.size bytes, stream.drop bytes.length, hstep, hhead₁, ?_, ?_⟩
    · refine h₁.put hfull helements he helement hbyte hnone htoRead (by omega) ?_
      rw [hblen, ← hb, List.take_append_drop]
    · show m.totalBytes + min 1 available ≤ m₁.totalBytes + bytes.length
      rw [htoRead] at hblen
      omega

/-- The lengths of a complete message are those of what was read. -/
theorem Reading.fixup (h : Reading size header data more m stream) (hsize : 0 < size)
    (hlen : header.length + data.length < maxScatterElements * size)
    (hall : m.totalBytes = data.length) :
    ∃ elements, elementLenFixup size header.length data.length m.elements = some elements
      ∧ elements.map ScatElement.buf = m.elements.map ScatElement.buf
      ∧ ∀ e ∈ elements, e.len = e.buf.length := by
  have htotal := h.length_bytesOf
  have htail := h.len
  obtain ⟨done, hfull, ⟨helements, hne, -⟩ | ⟨e, helements, he, hnonempty, -⟩⟩ := h.cut
  · -- all elements are full, and the length behind the last one is set
    rw [helements] at htotal htail ⊢
    rw [length_bytesOf_full hfull, hall] at htotal
    have hlast : (data.length + header.length) / size = done.length := by
      rw [Nat.add_comm, ← htotal, Nat.mul_div_cancel _ hsize]
    obtain ⟨d, ds, rfl⟩ := List.exists_cons_of_ne_nil hne
    have hge : size ≤ data.length + header.length := by
      rw [Nat.add_comm, ← htotal]
      exact Nat.le_mul_of_pos_left size (Nat.succ_pos _)
    have hfew : (d :: ds).length < maxScatterElements :=
      Nat.lt_of_mul_lt_mul_right (htotal.trans_lt hlen)
    refine ⟨{ d with len := size } :: ds, ?_, rfl, ?_⟩
    · rw [elementLenFixup, if_neg (not_lt.mpr hge), hlast, if_pos hfew, List.modify_eq_self]
      · rfl
      · exact le_rfl
    · intro e he
      rcases List.mem_cons.mp he with rfl | he
      · exact (hfull d List.mem_cons_self).symm
      · rw [htail e he, hfull e (List.mem_cons_of_mem _ he)]
  · -- the last element is not full
    have hpos : 0 < e.buf.length :=
      List.length_pos_iff.mpr (hnonempty.resolve_right (by omega))
    rw [helements] at htotal htail ⊢
    rw [bytesOf_append, bytesOf_singleton, List.length_append, length_bytesOf_full hfull, hall]
      at htotal
    have hlast : (data.length + header.length) / size = done.length := by
      rw [Nat.add_comm, ← htotal, Nat.add_comm, Nat.add_mul_div_right _ _ hsize,
        Nat.div_eq_of_lt he, Nat.zero_add]
    have hfew : done.length < maxScatterElements := by
      by_contra hle
      have := Nat.mul_le_mul_right size (not_lt.mp hle)
      omega
    cases done with
    | nil =>
        refine ⟨[{ e with len := data.length + header.length }], ?_, rfl, ?_⟩
        · rw [elementLenFixup, if_pos, hlast, if_pos List.length_nil]
          · rfl
          · simp only [List.length_nil, Nat.zero_mul] at htotal
            omega
        · intro e' he'
          rw [List.mem_singleton.mp he']
          simp only [List.length_nil, Nat.zero_mul] at htotal
          show data.length + header.length = e.buf.length
          omega
    | cons d ds =>
        have hge : size ≤ data.length + header.length := by
          have := Nat.le_mul_of_pos_left size (Nat.succ_pos ds.length)
          rw [List.length_cons, ← Nat.succ_eq_add_one] at htotal
          omega
        have hrest : data.length + header.length - size * ((d :: ds ++ [e]).length - 1)
            = e.buf.length := by
          rw [List.length_append, List.length_singleton, Nat.add_sub_cancel, Nat.mul_comm]
          omega
        refine ⟨{ d with len := size } :: ds ++ [{ e with len := e.buf.length }], ?_, ?_, ?_⟩
        · rw [elementLenFixup, if_neg (not_lt.mpr hge), hlast, if_pos hfew, hrest]
          exact congrArg some (modify_snoc ((⟨size, d.buf⟩ : ScatElement) :: ds) e
            fun e' => { e' with len := e.buf.length })
        · simp
        · intro e' he'
          rcases List.mem_append.mp he' with he' | he'
          · rcases List.mem_cons.mp he' with rfl | he'
            · exact (hfull d List.mem_cons_self).symm
            · rw [htail e' (List.mem_append_left _ he'), hfull e' (List.mem_cons_of_mem _ he')]
          · rw [List.mem_singleton.mp he']

/-- A complete message has a last element, and full ones before it. -/
theorem Reading.shape (h : Reading size header data more m stream) (hsize : 0 < size)
    (hall : m.totalBytes = data.length) :
    ∃ init last, m.elements = init ++ [last] ∧ (∀ e ∈ init, e.buf.length = size)
      ∧ 0 < last.buf.length ∧ last.buf.length ≤ size := by
  obtain ⟨done, hfull, ⟨helements, hne, -⟩ | ⟨e, helements, he, hnonempty, -⟩⟩ := h.cut
  · obtain ⟨init, last, rfl⟩ : ∃ init last, done = init ++ [last] :=
      ⟨_, _, (List.dropLast_append_getLast hne).symm⟩
    have hlast := hfull last (List.mem_append_right _ (List.mem_singleton_self last))
    exact ⟨init, last, helements, fun e he => hfull e (List.mem_append_left _ he), by omega,
      hlast.le⟩
  · exact ⟨done, e, helements, hfull,
      List.length_pos_iff.mpr (hnonempty.resolve_right (by omega)), he.le⟩

/-- The elements that have been read make a message that the ring takes. -/
theorem Reading.wellCut (h : Reading size header data more m stream) (hsize : 0 < size)
    (hlen : header.length + data.length < maxScatterElements * size)
    (hall : m.totalBytes = data.length) (type : PacketType) :
    (DownLink.mk type (m.elements.map ScatElement.buf)).WellCut size
      ∧ (DownLink.mk type (m.elements.map ScatElement.buf)).Valid size := by
  obtain ⟨init, last, helements, hfull, hle⟩ := h.shape hsize hall
  have hfew : init.length < maxScatterElements := by
    have htotal := h.length_bytesOf
    rw [helements, bytesOf_append, List.length_append, length_bytesOf_full hfull, hall] at htotal
    by_contra hmany
    have := Nat.mul_le_mul_right size (not_lt.mp hmany)
    omega
  have hcut : (DownLink.mk type (m.elements.map ScatElement.buf)).Cut size := by
    intro i e hi hlt
    rw [helements, List.map_append, List.length_append, List.map_singleton,
      List.length_singleton, List.length_map] at hlt
    rw [helements, List.map_append,
      List.getElem?_append_left (by rw [List.length_map]; omega)] at hi
    obtain ⟨e', he', rfl⟩ := List.mem_map.mp (List.mem_of_getElem? hi)
    exact hfull e' he'
  refine ⟨⟨hcut, ?_, ?_⟩, by simp [helements], hcut⟩
  · show (m.elements.map ScatElement.buf).length ≤ maxScatterElements
    rw [List.length_map, helements, List.length_append, List.length_singleton]
    exact hfew
  · intro b hb
    obtain ⟨e, he, rfl⟩ := List.mem_map.mp hb
    rw [helements] at he
    rcases List.mem_append.mp he with he | he
    · exact (hfull e he).le
    · rw [List.mem_singleton.mp he]
      exact hle.2

/-- The elements of a message that has been read completely. -/
structure Complete (size : ℕ) (header data : List UInt8) (elements : List ScatElement) :
    Prop where
  len : ∀ e ∈ elements, e.len = e.buf.length
  bytes : elements.flatMap ScatElement.buf = header ++ data
  cut : ∀ type, (DownLink.mk type (elements.map ScatElement.buf)).WellCut size
    ∧ (DownLink.mk type (elements.map ScatElement.buf)).Valid size

theorem Reading.complete (h : Reading size header data more m stream) (hsize : 0 < size)
    (hlen : header.length + data.length < maxScatterElements * size)
    (hall : m.totalBytes = data.length) :
    stream = more ∧ ∃ elements,
      elementLenFixup size header.length data.length m.elements = some elements
      ∧ Complete size header data elements := by
  have htotal := h.total
  have hstream : stream.length = more.length := by omega
  obtain ⟨hbytes, hrest⟩ := List.append_inj' h.bytes hstream
  obtain ⟨elements, hfixup, hbuf, hlens⟩ := h.fixup hsize hlen hall
  refine ⟨hrest, elements, hfixup, hlens, ?_, fun type => ?_⟩
  · rw [← hbytes, ScatElement.bytesOf, List.flatMap_def, List.flatMap_def, hbuf]
  · rw [hbuf]
    exact h.wellCut hsize hlen hall type

end

/-! ## What a session does with what arrives -/

section

variable {c : SessConf} {head : MessageHeader} {header data more : List UInt8}

/-- What becomes of a message with a good header, once that has been read. -/
inductive Follows (c : SessConf) (head : MessageHeader) (header data more : List UInt8) :
    ReadState × List UInt8 → Prop where
  | reading {m : ReadMess} {stream : List UInt8} (hhead : m.head = some head)
      (h : Reading c.size header data more m stream) (hmore : m.totalBytes < data.length) :
      Follows c head header data more (.reading m, stream)
  | complete {elements : List ScatElement} (h : Complete c.size header data elements) :
      Follows c head header data more (.complete elements, more)

/-- How much of the body has been read. -/
theorem Follows.total {state : ReadState} {stream : List UInt8}
    (h : Follows c head header data more (state, stream)) :
    stream.length ≤ data.length + more.length ∧ more.length ≤ stream.length
      ∧ (stream.length ≤ more.length → ∃ elements, state = .complete elements) := by
  cases h with
  | reading hhead h hmore =>
      have := h.total
      exact ⟨by omega, by omega, fun _ => by omega⟩
  | complete h => exact ⟨by omega, le_rfl, fun _ => ⟨_, rfl⟩⟩

/-- The end of a round. -/
theorem Reading.finish {m : ReadMess} {stream : List UInt8}
    (h : Reading c.size header data more m stream) (hhead : m.head = some head)
    (hbody : head.bodyLen = data.length) (hheader : header.length = messageHeaderSize)
    (hsize : 0 < c.size) (hlen : header.length + data.length < maxScatterElements * c.size) :
    ∃ state, m.finish c.size head = some state
      ∧ Follows c head header data more (state, stream) := by
  rw [ReadMess.finish, hbody]
  have hle := h.le
  by_cases hall : data.length ≤ m.totalBytes
  · obtain ⟨rfl, elements, hfixup, hcomplete⟩ := h.complete hsize hlen (by omega)
    rw [if_pos hall, ← hheader, hfixup]
    exact ⟨_, rfl, .complete hcomplete⟩
  · rw [if_neg hall]
    exact ⟨_, rfl, .reading hhead h (not_le.mp hall)⟩

/-- An arrival counts if it brings something. -/
theorem length_arrived_cons (available : ℕ) (arrivals : List ℕ) :
    ((available :: arrivals).filter (0 < ·)).length
      = min 1 available + (arrivals.filter (0 < ·)).length := by
  by_cases hpos : 0 < available
  · rw [List.filter_cons_of_pos (by simpa using hpos), List.length_cons]
    omega
  · rw [List.filter_cons_of_neg (by simpa using hpos)]
    omega

/-- Whatever arrives, the body is read on, with every arrival at least a byte of it. -/
theorem Follows.run (hbody : head.bodyLen = data.length)
    (hheader : header.length = messageHeaderSize) (hsize : 0 < c.size)
    (hlen : header.length + data.length < maxScatterElements * c.size) {state : ReadState}
    {stream : List UInt8} (h : Follows c head header data more (state, stream))
    (arrivals : List ℕ) :
    ∃ state' stream', exec (readStep c) (state, stream) arrivals = some (state', stream')
      ∧ Follows c head header data more (state', stream')
      ∧ (stream.length ≤ more.length + (arrivals.filter (0 < ·)).length →
        stream'.length ≤ more.length) := by
  induction arrivals generalizing state stream with
  | nil => exact ⟨state, stream, rfl, h, fun hle => hle⟩
  | cons available arrivals ih =>
      obtain ⟨state₁, stream₁, hstep, h₁, hless⟩ : ∃ state₁ stream₁,
          readStep c (state, stream) available = some (state₁, stream₁)
            ∧ Follows c head header data more (state₁, stream₁)
            ∧ (stream₁.length ≤ more.length
              ∨ stream₁.length + min 1 available ≤ stream.length) := by
        cases h with
        | complete h => exact ⟨_, _, rfl, .complete h, Or.inl le_rfl⟩
        | reading hhead h hmore =>
            obtain ⟨m', stream', hstep, hhead', h', hread⟩ :=
              h.step hhead hbody hsize hlen hmore available
            obtain ⟨state', hfinish, hfollows⟩ :=
              h'.finish hhead' hbody hheader hsize hlen
            refine ⟨state', stream', by rw [hstep, hfinish]; rfl, hfollows, Or.inr ?_⟩
            have := h.total
            have := h'.total
            omega
      obtain ⟨state', stream', hrun, h', hdone⟩ := ih h₁
      refine ⟨state', stream', exec_cons_eq_some.mpr ⟨_, hstep, hrun⟩, h', fun hle => hdone ?_⟩
      rw [length_arrived_cons] at hle
      omega

/-- The message when the bytes `got` of its header have been read. -/
def ReadMess.heading (got : List UInt8) : ReadMess :=
  ⟨[⟨messageHeaderSize, got⟩], none, 0, got.length, 0⟩

/-- One `recv` while the header is read. -/
theorem readStep_heading {got stream raw rest : List UInt8}
    (hraw : raw.length = messageHeaderSize) (hsplit : got ++ stream = raw ++ rest)
    (hgot : got.length < messageHeaderSize) (available : ℕ) :
    (∃ got' stream', readStep c (.reading (.heading got), stream) available
          = some (.reading (.heading got'), stream')
        ∧ got' ++ stream' = raw ++ rest ∧ got'.length < messageHeaderSize
        ∧ got.length + min 1 available ≤ got'.length)
      ∨ readStep c (.reading (.heading got), stream) available
        = (headRead c raw).map fun state => (state, rest) := by
  have hlen := congrArg List.length hsplit
  rw [List.length_append, List.length_append, hraw] at hlen
  obtain ⟨bytes, hb⟩ : ∃ bytes,
      stream.take (min available (messageHeaderSize - got.length)) = bytes := ⟨_, rfl⟩
  have hblen : bytes.length = min available (messageHeaderSize - got.length) := by
    rw [← hb, List.length_take]
    omega
  have hstream : bytes ++ stream.drop bytes.length = stream := by
    rw [hblen, ← hb, List.take_append_drop]
  rw [← hstream, ← List.append_assoc] at hsplit
  have hstep : readStep c (.reading (.heading got), stream) available
      = (if bytes.length = messageHeaderSize - got.length then headRead c (got ++ bytes)
          else some (.reading (.heading (got ++ bytes)))).map fun state =>
        (state, stream.drop bytes.length) := by
    have htake : stream.take (min available ((ReadMess.heading got).toRead c.size)) = bytes := hb
    have hput : (ReadMess.heading got).elements.modify 0
        (fun e => { e with buf := e.buf.take (ReadMess.heading got).curByte ++ bytes })
        = (ReadMess.heading (got ++ bytes)).elements := by
      simp [ReadMess.heading]
    have hbytes : (ReadMess.heading (got ++ bytes)).elements.flatMap ScatElement.buf
        = got ++ bytes := bytesOf_singleton _
    have hcur : (ReadMess.heading got).curByte + bytes.length
        = (ReadMess.heading (got ++ bytes)).curByte := List.length_append.symm
    rw [readStep]
    dsimp only
    rw [htake, ReadMess.receive]
    show Option.map _ (if bytes.length = messageHeaderSize - got.length then _ else _) = _
    rw [hput, hbytes, hcur]
    rfl
  rw [hstep]
  by_cases hall : bytes.length = messageHeaderSize - got.length
  · right
    obtain ⟨hgot', hrest⟩ := List.append_inj hsplit (by rw [List.length_append, hraw]; omega)
    rw [if_pos hall, hgot', hrest]
  · left
    rw [if_neg hall]
    refine ⟨got ++ bytes, stream.drop bytes.length, rfl, hsplit, ?_, ?_⟩
    · rw [List.length_append]
      omega
    · rw [List.length_append]
      omega

/-- Whatever arrives, the header is read on until it is complete. -/
theorem exec_heading {got stream raw rest : List UInt8} (hraw : raw.length = messageHeaderSize)
    (hsplit : got ++ stream = raw ++ rest) (hgot : got.length < messageHeaderSize)
    (arrivals : List ℕ) :
    (∃ got' stream', exec (readStep c) (.reading (.heading got), stream) arrivals
          = some (.reading (.heading got'), stream')
        ∧ got.length + (arrivals.filter (0 < ·)).length ≤ got'.length
        ∧ got'.length < messageHeaderSize)
      ∨ ∃ later, exec (readStep c) (.reading (.heading got), stream) arrivals
          = (headRead c raw).bind (fun state => exec (readStep c) (state, rest) later)
        ∧ got.length + (arrivals.filter (0 < ·)).length
          ≤ messageHeaderSize + (later.filter (0 < ·)).length := by
  induction arrivals generalizing got stream with
  | nil => exact Or.inl ⟨got, stream, rfl, le_rfl, hgot⟩
  | cons available arrivals ih =>
      rw [length_arrived_cons]
      rcases readStep_heading (c := c) hraw hsplit hgot available with
        ⟨got₁, stream₁, hstep, hsplit₁, hgot₁, hmore⟩ | hstep
      · have hexec : exec (readStep c) (.reading (.heading got), stream) (available :: arrivals)
            = exec (readStep c) (.reading (.heading got₁), stream₁) arrivals := by
          rw [exec_cons, hstep, Option.bind_some]
        rw [hexec]
        rcases ih hsplit₁ hgot₁ with ⟨got', stream', hrun, hle, hlt⟩ | ⟨later, hrun, hle⟩
        · exact Or.inl ⟨got', stream', hrun, by omega, hlt⟩
        · exact Or.inr ⟨later, hrun, by omega⟩
      · refine Or.inr ⟨arrivals, ?_, by omega⟩
        rw [exec_cons, hstep, Option.bind_map]
        rfl

/-! ## A message that is too long -/

theorem elementLenFixup_of_long {size head total : ℕ} (hsize : 0 < size)
    (hlong : maxScatterElements * size ≤ head + total) (elements : List ScatElement) :
    elementLenFixup size head total elements = none := by
  have hlast : maxScatterElements ≤ (total + head) / size := by
    rw [Nat.le_div_iff_mul_le hsize, Nat.add_comm]
    exact hlong
  have hge : size ≤ total + head := by
    simp only [maxScatterElements] at hlong
    omega
  rw [elementLenFixup, if_neg (not_lt.mpr hge), if_neg (not_lt.mpr hlast)]

theorem ReadMess.begin_head {size : ℕ} {m m' : ReadMess} (h : m.begin size = some m') :
    m'.head = m.head := by
  rw [ReadMess.begin] at h
  split at h
  · split at h
    · obtain ⟨elements, -, rfl⟩ := Option.map_eq_some_iff.mp h
      rfl
    · cases h
  · obtain rfl := Option.some.inj h
    rfl

/-- The body of a message that is too long is read on and on. -/
theorem reading_of_long (hsize : 0 < c.size)
    (hlong : maxScatterElements * c.size ≤ messageHeaderSize + head.bodyLen) {m : ReadMess}
    (hhead : m.head = some head) {stream : List UInt8} {arrivals : List ℕ}
    {s : ReadState × List UInt8}
    (hrun : exec (readStep c) (.reading m, stream) arrivals = some s) :
    ∃ m', s.1 = .reading m' := by
  have hfinish : ∀ {m state}, ReadMess.finish c.size head m = some state → state = .reading m := by
    intro m state h
    rw [ReadMess.finish, elementLenFixup_of_long hsize hlong] at h
    split at h
    · cases h
    · exact (Option.some.inj h).symm
  induction arrivals generalizing m stream with
  | nil =>
      obtain rfl := Option.some.inj hrun
      exact ⟨m, rfl⟩
  | cons available arrivals ih =>
      obtain ⟨s₁, hstep, hrest⟩ := exec_cons_eq_some.mp hrun
      rw [readStep] at hstep
      dsimp only at hstep
      obtain ⟨state, hreceive, rfl⟩ := Option.map_eq_some_iff.mp hstep
      rw [ReadMess.receive, hhead] at hreceive
      dsimp only at hreceive
      obtain ⟨m₁, hbegin, hreceive⟩ := Option.bind_eq_some_iff.mp hreceive
      have hhead₁ := (ReadMess.begin_head hbegin).trans hhead
      split at hreceive
      · obtain rfl := Option.some.inj hreceive
        exact ih hhead₁ hrest
      · obtain rfl := hfinish hreceive
        exact ih (show ReadMess.head (ReadMess.put _ _ _) = some head from hhead₁) hrest

/-! ## From the client to the down queue -/

/-- Nothing is read from a client that has been disconnected. -/
theorem exec_killed (stream : List UInt8) (arrivals : List ℕ) :
    exec (readStep c) (.killed, stream) arrivals = some (.killed, stream) := by
  induction arrivals with
  | nil => rfl
  | cons available arrivals ih => exact ih

section

variable {e : Endian} {raw : MessageHeader}

/-- A complete header is checked as the client has sent it. -/
theorem headRead_store (hendian : HasEndian e raw.type)
    (hname : raw.privateGroupName.length = maxGroupName) :
    headRead c (raw.store e)
      = match validateReadHeader c.size c.procName c.sessionName (raw.received e c.endian) with
        | none => some .killed
        | some h => (ReadMess.start c.endian h).finish c.size h := by
  rw [headRead, MessageHeader.read_store e c.endian hname, Option.bind_some,
    MessageHeader.toLocal_read hendian]

/-- Either the header is still being read, or it has been read and what it says is done. -/
theorem exec_new (hname : raw.privateGroupName.length = maxGroupName) (rest : List UInt8)
    (arrivals : List ℕ) :
    (∃ m stream, exec (readStep c) (.reading .new, raw.store e ++ rest) arrivals
          = some (.reading m, stream)
        ∧ (arrivals.filter (0 < ·)).length < messageHeaderSize)
      ∨ ∃ later, exec (readStep c) (.reading .new, raw.store e ++ rest) arrivals
          = (headRead c (raw.store e)).bind (fun state => exec (readStep c) (state, rest) later)
        ∧ (arrivals.filter (0 < ·)).length
          ≤ messageHeaderSize + (later.filter (0 < ·)).length := by
  have hraw := MessageHeader.length_store e hname
  have hsplit : [] ++ (raw.store e ++ rest) = raw.store e ++ rest := rfl
  have hphase := exec_heading (c := c) hraw hsplit (Nat.succ_pos _) arrivals
  rw [List.length_nil, Nat.zero_add] at hphase
  rcases hphase with ⟨got, stream, hrun, hle, hlt⟩ | ⟨later, hrun, hle⟩
  · exact Or.inl ⟨_, stream, hrun, hle.trans_lt hlt⟩
  · exact Or.inr ⟨later, hrun, hle⟩

/-- A message with a good header that is not too long is read completely. -/
theorem message_read (hsize : messageHeaderSize < c.size) (hendian : HasEndian e raw.type)
    (hname : raw.privateGroupName.length = maxGroupName)
    (hchecked : validateReadHeader c.size c.procName c.sessionName (raw.received e c.endian)
      = some head)
    (hbody : head.bodyLen = data.length)
    (hlen : messageHeaderSize + data.length < maxScatterElements * c.size)
    (more : List UInt8) (arrivals : List ℕ) :
    ∃ state stream, exec (readStep c) (.reading .new, raw.store e ++ (data ++ more)) arrivals
        = some (state, stream)
      ∧ (messageHeaderSize + data.length ≤ (arrivals.filter (0 < ·)).length →
        ∃ elements, state = .complete elements)
      ∧ ∀ elements, state = .complete elements → stream = more
        ∧ Complete c.size (head.store c.endian) data elements := by
  have hpos : 0 < c.size := by omega
  have hstore : (head.store c.endian).length = messageHeaderSize := by
    refine MessageHeader.length_store _ ?_
    rw [(validateReadHeader_spec hchecked).1]
    exact List.length_set.trans hname
  have hlen' : (head.store c.endian).length + data.length < maxScatterElements * c.size := by
    rw [hstore]
    exact hlen
  have hstart : Reading c.size (head.store c.endian) data more (ReadMess.start c.endian head)
      (data ++ more) := Reading.start hstore hsize
  obtain ⟨state₁, hfinish, hfollows⟩ := hstart.finish rfl hbody hstore hpos hlen'
  rcases exec_new (c := c) (e := e) hname (data ++ more) arrivals with
    ⟨m, stream, hrun, hlt⟩ | ⟨later, hrun, hle⟩
  · exact ⟨_, stream, hrun, fun hall => by omega, fun elements h => by cases h⟩
  · obtain ⟨state, stream, hrest, hafter, hdone⟩ := hfollows.run hbody hstore hpos hlen' later
    rw [headRead_store hendian hname, hchecked] at hrun
    dsimp only at hrun
    rw [hfinish, Option.bind_some, hrest] at hrun
    refine ⟨state, stream, hrun, fun hall => ?_, fun elements h => ?_⟩
    · refine hafter.total.2.2 (hdone ?_)
      rw [List.length_append]
      omega
    · subst h
      cases hafter with
      | complete h => exact ⟨rfl, h⟩

/-- A message with a good header that is too long is never complete. -/
theorem message_too_long (hsize : 0 < c.size) (hendian : HasEndian e raw.type)
    (hname : raw.privateGroupName.length = maxGroupName)
    (hchecked : validateReadHeader c.size c.procName c.sessionName (raw.received e c.endian)
      = some head)
    (hlong : maxScatterElements * c.size ≤ messageHeaderSize + head.bodyLen)
    {rest : List UInt8} {arrivals : List ℕ} {s : ReadState × List UInt8}
    (hrun : exec (readStep c) (.reading .new, raw.store e ++ rest) arrivals = some s) :
    ∃ m, s.1 = .reading m := by
  rcases exec_new (c := c) (e := e) hname rest arrivals with
    ⟨m, stream, hexec, -⟩ | ⟨later, hexec, -⟩
  · rw [hexec] at hrun
    obtain rfl := Option.some.inj hrun
    exact ⟨m, rfl⟩
  · rw [hexec, headRead_store hendian hname, hchecked] at hrun
    dsimp only at hrun
    rw [ReadMess.finish, elementLenFixup_of_long hsize hlong] at hrun
    split at hrun
    · cases hrun
    · exact reading_of_long hsize hlong (m := ReadMess.start c.endian head) rfl hrun

/-- A client whose header is bad is disconnected. -/
theorem client_killed (hendian : HasEndian e raw.type)
    (hname : raw.privateGroupName.length = maxGroupName)
    (hchecked : validateReadHeader c.size c.procName c.sessionName (raw.received e c.endian)
      = none) (rest : List UInt8) (arrivals : List ℕ) :
    ∃ state stream, exec (readStep c) (.reading .new, raw.store e ++ rest) arrivals
        = some (state, stream)
      ∧ (messageHeaderSize ≤ (arrivals.filter (0 < ·)).length → state = .killed)
      ∧ ∀ elements, state ≠ .complete elements := by
  rcases exec_new (c := c) (e := e) hname rest arrivals with
    ⟨m, stream, hrun, hlt⟩ | ⟨later, hrun, -⟩
  · exact ⟨_, stream, hrun, fun hall => by omega, fun elements h => by cases h⟩
  · rw [headRead_store hendian hname, hchecked] at hrun
    exact ⟨_, _, hrun.trans (exec_killed rest later), fun _ => rfl, fun elements h => by cases h⟩

end

/-- **A message is cut as the ring expects it, however its bytes arrive.** A client sends a header,
a body `data` of the length that the header says, and `more`. If the header passes the check, and
header and body are together shorter than the elements of a scatter, no assertion fails, and after
as many arrivals as there are bytes the message is complete, with nothing read of what follows.
When it is complete, the lengths of the elements are right, the elements hold the header in the
byte order of the daemon and the body, all but the last fill a packet, and the message gets a type
for the ring. A longer message is never passed on, although the check lets some pass:
`MAX_MESSAGE_BODY_LEN` takes a packet header for smaller than it is. A client whose header does not
pass is disconnected. -/
theorem message_cut (c : SessConf) (hsize : messageHeaderSize < c.size) {e : Endian}
    {raw : MessageHeader} (hendian : HasEndian e raw.type)
    (hname : raw.privateGroupName.length = maxGroupName) (data more : List UInt8)
    (arrivals : List ℕ) :
    let run := exec (readStep c) (.reading .new, raw.store e ++ (data ++ more)) arrivals
    let checked := validateReadHeader c.size c.procName c.sessionName (raw.received e c.endian)
    let arrived := (arrivals.filter (0 < ·)).length
    (∀ head, checked = some head → head.bodyLen = data.length →
        (messageHeaderSize + data.length < maxScatterElements * c.size →
          ∃ state stream, run = some (state, stream)
            ∧ (messageHeaderSize + data.length ≤ arrived → ∃ elements, state = .complete elements)
            ∧ ∀ elements, state = .complete elements → stream = more
              ∧ Complete c.size (head.store c.endian) data elements
              ∧ ∃ l, createDownLink head.type (elements.map ScatElement.buf) = some l
                ∧ l.WellCut c.size ∧ l.Valid c.size)
        ∧ (maxScatterElements * c.size ≤ messageHeaderSize + data.length →
          ∀ state stream, run = some (state, stream) → ∀ elements, state ≠ .complete elements))
      ∧ (checked = none → ∃ state stream, run = some (state, stream)
          ∧ (messageHeaderSize ≤ arrived → state = .killed)
          ∧ ∀ elements, state ≠ .complete elements) := by
  intro run checked arrived
  have hpos : 0 < c.size := by omega
  refine ⟨fun head hchecked hbody => ⟨fun hlen => ?_, fun hlong state stream hrun => ?_⟩,
    fun hchecked => client_killed hendian hname hchecked (data ++ more) arrivals⟩
  · obtain ⟨state, stream, hrun, hall, hcomplete⟩ :=
      message_read hsize hendian hname hchecked hbody hlen more arrivals
    refine ⟨state, stream, hrun, hall, fun elements h => ?_⟩
    obtain ⟨hrest, hread⟩ := hcomplete elements h
    obtain ⟨type, htype⟩ := Option.isSome_iff_exists.mp (validateReadHeader_packetType hchecked)
    refine ⟨hrest, hread, ⟨type, _⟩, ?_, hread.cut type⟩
    rw [createDownLink, htype]
    rfl
  · rw [← hbody] at hlong
    obtain ⟨m, hm⟩ := message_too_long hpos hendian hname hchecked hlong hrun
    intro elements h
    rw [h] at hm
    cases hm

end

/-- The session `a` of the daemon `d`, on a big-endian machine. -/
def Sample.sess : SessConf := ⟨.big, [100], [97], 64⟩

/-- The header of a message from a little-endian machine, with twenty bytes to follow. -/
def Sample.request : MessageHeader :=
  ⟨0x80000090, [0x23, 97, 0x23, 100] ++ List.replicate 28 0, 0, 0, 20⟩

def Sample.body : List UInt8 := (List.range 20).map UInt8.ofNat

/-- Four, no, sixty and twice thirty bytes arrive, with the beginning of the next message. -/
theorem message_cut_sample : ∃ head elements,
    validateReadHeader 64 [100] [97] (Sample.request.received .little .big) = some head
      ∧ head.bodyLen = 20
      ∧ exec (readStep Sample.sess)
          (.reading .new, Sample.request.store .little ++ (Sample.body ++ [14])) [4, 0, 60, 30, 30]
        = some (.complete elements, [14])
      ∧ Complete 64 (head.store .big) Sample.body elements
      ∧ ∃ l, createDownLink head.type (elements.map ScatElement.buf) = some l
        ∧ l.WellCut 64 ∧ l.Valid 64 := by
  obtain ⟨head, hchecked, hbody⟩ : ∃ head,
      validateReadHeader 64 [100] [97] (Sample.request.received .little .big) = some head
        ∧ head.bodyLen = 20 := by
    have h : (validateReadHeader 64 [100] [97] (Sample.request.received .little .big)).any
        fun head => head.bodyLen == 20 := by decide +kernel
    obtain ⟨head, hchecked, hbody⟩ := (Option.any_eq_true _ _).mp h
    exact ⟨head, hchecked, beq_iff_eq.mp hbody⟩
  have hendian : HasEndian .little Sample.request.type := by
    unfold HasEndian
    decide
  have hread := (message_cut Sample.sess (by decide) hendian (by decide) Sample.body [14]
    [4, 0, 60, 30, 30]).1 head hchecked hbody
  obtain ⟨state, stream, hrun, -, hcomplete⟩ := hread.1 (by decide)
  obtain ⟨elements, rfl⟩ : ∃ elements, state = .complete elements := by
    have h : (exec (readStep Sample.sess)
        (.reading .new, Sample.request.store .little ++ (Sample.body ++ [14]))
        [4, 0, 60, 30, 30]).any fun s => match s.1 with
          | .complete _ => true
          | _ => false := by decide +kernel
    rw [show exec (readStep Sample.sess) _ _ = _ from hrun] at h
    cases state with
    | complete elements => exact ⟨elements, rfl⟩
    | _ => cases h
  obtain ⟨rfl, hrest⟩ := hcomplete elements rfl
  exact ⟨head, elements, hchecked, hbody, hrun, hrest⟩

end SpreadAccount.Daemon
