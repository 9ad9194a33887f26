import SpreadAccount.Lib.Machine
import Mathlib.Data.List.Basic
import Mathlib.Data.BitVec
import Mathlib.Logic.Function.Basic
import Mathlib.Tactic.Linarith

set_option autoImplicit false

/-! # Messages, packets and their fragments

The daemon takes messages from its clients, each a scatter of elements that fit into a packet
body, and puts them on its down queue (`Prot_new_message`). `Send_new_packets` fills packets from
that queue: one element of a long message, or several short messages packed together. On delivery,
`Deliver_packet` chains the elements of a message in `Up_queue` until it is complete and hands it
to the session.

* `nextPacket_pending`: packing takes the waiting fragments from the head of the queue, without
  dropping, repeating or reordering any;
* `nextPacket_rest_whole`: every fragment after the first is a whole message.

The daemon does not look into the elements. They are of a type `β` of which only the length in
bytes is known (`Payload`).
-/

namespace SpreadAccount.Daemon

/-! ## Types of packets and messages -/

/-- `RELIABLE_TYPE`, `FIFO_TYPE`, `AGREED_TYPE`, `SAFE_TYPE`. -/
inductive PacketType where
  | reliable
  | fifo
  | agreed
  | safe
  deriving DecidableEq

/-- The bit of the type in `type` of a packet header. -/
def PacketType.code : PacketType → ℕ
  | .reliable => 0x02
  | .fifo => 0x04
  | .agreed => 0x08
  | .safe => 0x10

/-- `BLOCK_REGULAR_DELIVERY`, `REGULAR_TYPE + 1`. -/
def blockRegularDelivery : ℕ := 0x1f + 1

def unreliableMess : BitVec 32 := 0x00000001
def reliableMess : BitVec 32 := 0x00000002
def fifoMess : BitVec 32 := 0x00000004
def causalMess : BitVec 32 := 0x00000008
def agreedMess : BitVec 32 := 0x00000010
def safeMess : BitVec 32 := 0x00000020
def joinMess : BitVec 32 := 0x00010000
def leaveMess : BitVec 32 := 0x00020000
def killMess : BitVec 32 := 0x00040000

/-- `Is_..._mess( type )`. -/
def hasBits (messType bits : BitVec 32) : Bool := messType &&& bits != 0

/-- `Message_get_packet_type`; `none` is `-1`. An unreliable message is sent as a reliable one. -/
def messageGetPacketType (messType : BitVec 32) : Option PacketType :=
  if hasBits messType unreliableMess then some .reliable
  else if hasBits messType reliableMess then some .reliable
  else if hasBits messType fifoMess then some .fifo
  else if hasBits messType causalMess || hasBits messType agreedMess then some .agreed
  else if hasBits messType safeMess then some .safe
  else if hasBits messType joinMess then some .agreed
  else if hasBits messType leaveMess then some .agreed
  else if hasBits messType killMess then some .agreed
  else none

/-- What the daemon knows of the contents of an element of a message: its length in bytes. -/
class Payload (β : Type) where
  size : β → ℕ

/-- Plain bytes. -/
instance : Payload (List UInt8) where
  size := List.length

/-- A fragment of a message in a packet. In a message of several fragments they have the indices
`1, 2, ...`, and the last one has the negated number of fragments. -/
structure Fragment (β : Type) where
  index : ℤ
  data : β
  deriving DecidableEq

/-- A packet: the fields of its header that the protocol reads, and the fragments in its body. -/
structure Packet (n : ℕ) (β : Type) where
  type : PacketType
  proc : Fin n
  seq : ℕ
  first : Fragment β
  rest : List (Fragment β)
  deriving DecidableEq

/-! ## The down queue -/

/-- `down_link`: a message waiting to be sent. -/
structure DownLink (β : Type) where
  type : PacketType
  mess : List β
  deriving DecidableEq

/-- `Prot_Create_Down_Link( msg, Message_get_packet_type( type ), .. )`. -/
def createDownLink {β : Type} (messType : BitVec 32) (mess : List β) : Option (DownLink β) :=
  (messageGetPacketType messType).map fun type => ⟨type, mess⟩

/-- `down_queue`: the messages waiting, and how many elements of the first one have been sent. -/
structure DownQueue (β : Type) where
  links : List (DownLink β)
  curElement : ℕ
  deriving DecidableEq

section

variable {β : Type}

/-- Advances the queue past the element at its head. The first component is the index of the
fragment with that element. -/
def DownQueue.advance (q : DownQueue β) (l : DownLink β) (ls : List (DownLink β)) :
    ℤ × DownQueue β :=
  if q.curElement + 1 < l.mess.length then
    (q.curElement + 1, { q with curElement := q.curElement + 1 })
  else (-l.mess.length, ⟨ls, 0⟩)

/-- The padding to the next multiple of four. -/
def paddingBytes (dataLen : ℕ) : ℕ :=
  match dataLen % 4 with
  | 1 => 3
  | 2 => 2
  | 3 => 1
  | _ => 0

/-- `sizeof( fragment_header )`. -/
def fragmentHeaderSize : ℕ := 4

/-- Whether a message of the type `t` may follow in a packet of the type `type`. -/
def compatible (type t : PacketType) : Bool :=
  type == t || ((type == .fifo || type == .agreed) && (t == .fifo || t == .agreed))

variable [Payload β]

/-- The loop of `Send_new_packets` that fills a packet, after its first fragment: `body` is
`sizeof( packet_body )`, `dataLen` the bytes used so far. The first argument bounds the number of
rounds; there is one for each waiting element. -/
def fillPacket (body : ℕ) (type : PacketType) : ℕ → ℕ → DownQueue β →
    List (Fragment β) × DownQueue β
  | 0, _, q => ([], q)
  | rounds + 1, dataLen, q =>
      match q.links with
      | [] => ([], q)
      | l :: ls =>
          match l.mess[q.curElement]? with
          | none => ([], q)
          | some e =>
              let start := dataLen + paddingBytes dataLen + fragmentHeaderSize
              if body < start + Payload.size e then ([], q)
              else if !compatible type l.type then ([], q)
              else
                let (index, q') := q.advance l ls
                let (frags, q'') := fillPacket body type rounds (start + Payload.size e) q'
                (⟨index, e⟩ :: frags, q'')

/-- The elements that wait. -/
def DownQueue.remaining (q : DownQueue β) : ℕ :=
  (q.links.map (fun l => l.mess.length)).sum - q.curElement

/-- The next packet from the queue, with the sequence number `seq`. -/
def nextPacket {n : ℕ} (body : ℕ) (me : Fin n) (seq : ℕ) (q : DownQueue β) :
    Option (Packet n β × DownQueue β) :=
  match q.links with
  | [] => none
  | l :: ls =>
      match l.mess[q.curElement]? with
      | none => none
      | some e =>
          let (index, q') := q.advance l ls
          let (rest, q'') := fillPacket body l.type q'.remaining (Payload.size e) q'
          some (⟨l.type, me, seq, ⟨index, e⟩, rest⟩, q'')

/-- The packets that `Send_new_packets` makes, at most `allowed` of them, after the sequence
number `seq`. -/
def nextPackets {n : ℕ} (body : ℕ) (me : Fin n) : ℕ → ℕ → DownQueue β →
    List (Packet n β) × DownQueue β
  | 0, _, q => ([], q)
  | allowed + 1, seq, q =>
      match nextPacket body me (seq + 1) q with
      | none => ([], q)
      | some (p, q') =>
          let (ps, q'') := nextPackets body me allowed (seq + 1) q'
          (p :: ps, q'')

end

/-! ## The fragments that wait -/

section

variable {β : Type}

/-- The fragment with the `i`-th element of a message, counted from zero. -/
def DownLink.fragment (l : DownLink β) (i : ℕ) (e : β) : Fragment β :=
  ⟨if i + 1 < l.mess.length then i + 1 else -l.mess.length, e⟩

/-- The fragments of a message. -/
def DownLink.fragments (l : DownLink β) : List (Fragment β) := l.mess.mapIdx l.fragment

/-- The fragments that wait, each with the type of its message. -/
def DownQueue.pending (q : DownQueue β) : List (PacketType × Fragment β) :=
  (q.links.flatMap fun l => l.fragments.map fun f => (l.type, f)).drop q.curElement

/-- No message is empty, and the position is inside the first message. -/
structure DownQueue.Ok (q : DownQueue β) : Prop where
  nonempty : ∀ l ∈ q.links, l.mess ≠ []
  inside : ∀ l ls, q.links = l :: ls → q.curElement < l.mess.length
  idle : q.links = [] → q.curElement = 0

theorem DownLink.fragments_length (l : DownLink β) : l.fragments.length = l.mess.length :=
  List.length_mapIdx

theorem DownQueue.pending_cons {q : DownQueue β} {l : DownLink β} {ls : List (DownLink β)}
    (hq : q.links = l :: ls) (hcur : q.curElement ≤ l.mess.length) :
    q.pending = (l.fragments.drop q.curElement).map (fun f => (l.type, f))
      ++ ls.flatMap fun l => l.fragments.map fun f => (l.type, f) := by
  rw [DownQueue.pending, hq, List.flatMap_cons, List.drop_append_of_le_length, ← List.map_drop]
  rwa [List.length_map, DownLink.fragments_length]

theorem DownQueue.Ok.links_of_getElem? {q : DownQueue β} (hq : q.Ok) {l : DownLink β}
    {ls : List (DownLink β)} (hlinks : q.links = l :: ls) : ∃ e, l.mess[q.curElement]? = some e :=
  ⟨_, List.getElem?_eq_getElem (hq.inside l ls hlinks)⟩

/-- Advancing the queue takes one fragment from its head. -/
theorem DownQueue.Ok.advance {q : DownQueue β} (hq : q.Ok) {l : DownLink β}
    {ls : List (DownLink β)} {e : β} (hlinks : q.links = l :: ls)
    (he : l.mess[q.curElement]? = some e) :
    (q.advance l ls).2.Ok
      ∧ q.pending = (l.type, ⟨(q.advance l ls).1, e⟩) :: (q.advance l ls).2.pending := by
  have hcur := hq.inside l ls hlinks
  have hdrop : l.fragments.drop q.curElement
      = l.fragment q.curElement e :: l.fragments.drop (q.curElement + 1) := by
    have hlen : q.curElement < l.fragments.length := by rwa [l.fragments_length]
    rw [List.drop_eq_getElem_cons hlen]
    obtain ⟨hlt, hget⟩ := List.getElem?_eq_some_iff.mp he
    congr 1
    rw [show l.fragments[q.curElement] = l.fragment q.curElement l.mess[q.curElement] from
      List.getElem_mapIdx, hget]
  rw [DownQueue.pending_cons hlinks hcur.le, hdrop, List.map_cons, List.cons_append]
  by_cases hmore : q.curElement + 1 < l.mess.length
  · rw [DownQueue.advance, if_pos hmore]
    refine ⟨⟨hq.nonempty, fun l' ls' h => ?_, fun h => ?_⟩, ?_⟩
    · rw [hlinks] at h
      obtain ⟨rfl, -⟩ := List.cons.inj h
      exact hmore
    · rw [hlinks] at h
      cases h
    · have hrest : (DownQueue.mk q.links (q.curElement + 1)).links = l :: ls := hlinks
      rw [DownLink.fragment, if_pos hmore, DownQueue.pending_cons hrest hmore.le]
  · rw [DownQueue.advance, if_neg hmore]
    have hlast : l.fragments.drop (q.curElement + 1) = [] :=
      List.drop_eq_nil_of_le (by rw [l.fragments_length]; omega)
    refine ⟨⟨fun l' h => ?_, fun l' ls' h => ?_, fun _ => rfl⟩, ?_⟩
    · exact hq.nonempty l' (by rw [hlinks]; exact List.mem_cons_of_mem _ h)
    · have hl' : l' ∈ q.links := by
        rw [hlinks, show ls = l' :: ls' from h]
        simp
      exact List.length_pos_iff.mpr (hq.nonempty l' hl')
    · rw [hlast, DownLink.fragment, if_neg hmore]
      rfl

/-- A message is put at the end of the queue. -/
theorem DownQueue.Ok.snoc {q : DownQueue β} (hq : q.Ok) {l : DownLink β} (hl : l.mess ≠ []) :
    DownQueue.Ok { q with links := q.links ++ [l] } where
  nonempty l' hl' := by
    rcases List.mem_append.mp hl' with hl' | hl'
    · exact hq.nonempty l' hl'
    · rwa [List.mem_singleton.mp hl']
  inside l' ls h := by
    change q.links ++ [l] = l' :: ls at h
    show q.curElement < l'.mess.length
    cases hlinks : q.links with
    | nil =>
        rw [hlinks] at h
        obtain ⟨rfl, -⟩ := List.cons.inj h
        rw [hq.idle hlinks]
        exact List.length_pos_iff.mpr hl
    | cons l'' ls' =>
        rw [hlinks] at h
        obtain ⟨rfl, -⟩ := List.cons.inj h
        exact hq.inside _ _ hlinks
  idle h := by
    change q.links ++ [l] = [] at h
    simp at h

variable [Payload β]

/-- The fragments that filling a packet takes are the first that wait. -/
theorem fillPacket_pending (body : ℕ) (type : PacketType) (rounds dataLen : ℕ)
    {q : DownQueue β} (hq : q.Ok) :
    (fillPacket body type rounds dataLen q).2.Ok
      ∧ ∃ taken, q.pending = taken ++ (fillPacket body type rounds dataLen q).2.pending
        ∧ taken.map (·.2) = (fillPacket body type rounds dataLen q).1
        ∧ ∀ t ∈ taken, compatible type t.1 = true := by
  induction rounds generalizing dataLen q with
  | zero => exact ⟨hq, [], rfl, rfl, by simp⟩
  | succ rounds ih =>
      have hnone : q.Ok ∧ ∃ taken : List (PacketType × Fragment β), q.pending = taken ++ q.pending
          ∧ taken.map (·.2) = [] ∧ ∀ t ∈ taken, compatible type t.1 = true :=
        ⟨hq, [], rfl, rfl, by simp⟩
      rw [fillPacket]
      cases hlinks : q.links with
      | nil => exact hnone
      | cons l ls =>
          obtain ⟨e, he⟩ := hq.links_of_getElem? hlinks
          dsimp only
          rw [he]
          dsimp only
          split
          · exact hnone
          split
          · exact hnone
          rename_i hfits htype
          obtain ⟨hok, hpending⟩ := hq.advance hlinks he
          obtain ⟨hok', taken, htaken, hmap, hcompatible⟩ :=
            ih (dataLen + paddingBytes dataLen + fragmentHeaderSize + Payload.size e) hok
          refine ⟨hok', (l.type, ⟨(q.advance l ls).1, e⟩) :: taken, ?_, ?_, ?_⟩
          · rw [hpending, htaken, List.cons_append]
          · rw [List.map_cons, hmap]
          · intro t ht
            rcases List.mem_cons.mp ht with rfl | ht
            · simpa using htype
            · exact hcompatible t ht

/-- **Packing takes the waiting fragments from the head of the queue**, without dropping,
repeating or reordering any. -/
theorem nextPacket_pending {n body seq : ℕ} {me : Fin n} {q q' : DownQueue β} {p : Packet n β}
    (hq : q.Ok) (h : nextPacket body me seq q = some (p, q')) :
    q'.Ok ∧ p.proc = me ∧ p.seq = seq
      ∧ ∃ taken, q.pending = (p.type, p.first) :: taken ++ q'.pending
        ∧ taken.map (·.2) = p.rest ∧ ∀ t ∈ taken, compatible p.type t.1 = true := by
  rw [nextPacket] at h
  cases hlinks : q.links with
  | nil =>
      rw [hlinks] at h
      cases h
  | cons l ls =>
      obtain ⟨e, he⟩ := hq.links_of_getElem? hlinks
      rw [hlinks] at h
      dsimp only at h
      rw [he] at h
      obtain ⟨rfl, rfl⟩ := Prod.mk.inj (Option.some.inj h)
      obtain ⟨hok, hpending⟩ := hq.advance hlinks he
      obtain ⟨hok', taken, htaken, hmap, hcompatible⟩ := fillPacket_pending body
        l.type (q.advance l ls).2.remaining (Payload.size e) hok
      refine ⟨hok', rfl, rfl, taken, ?_, hmap, hcompatible⟩
      rw [hpending, htaken]
      rfl

/-! ## Fragments that follow in a packet

The session cuts a message into elements of which all but the last fill a packet
(`Message_add_scat_element`, `Message_element_len_fixup`). -/

/-- All elements of the message but the last fill a packet. -/
def DownLink.Cut (body : ℕ) (l : DownLink β) : Prop :=
  ∀ i e, l.mess[i]? = some e → i + 1 < l.mess.length → Payload.size e = body

instance (body : ℕ) (l : DownLink β) : Decidable (l.Cut body) :=
  decidable_of_iff (∀ i, ∀ h : i < l.mess.length, i + 1 < l.mess.length →
      Payload.size l.mess[i] = body) (by
    constructor
    · intro h i e hi hlt
      obtain ⟨hi', rfl⟩ := List.getElem?_eq_some_iff.mp hi
      exact h i hi' hlt
    · exact fun h i hi hlt => h i _ (List.getElem?_eq_getElem hi) hlt)

theorem fillPacket_whole {body : ℕ} {type : PacketType} (rounds : ℕ) {dataLen : ℕ}
    {q : DownQueue β} (hq : q.Ok) (hcut : ∀ l ∈ q.links, l.Cut body)
    (hfull : q.curElement = 0 ∨ body ≤ dataLen) :
    ∀ f ∈ (fillPacket body type rounds dataLen q).1, f.index = -1 := by
  induction rounds generalizing dataLen q with
  | zero => simp [fillPacket]
  | succ rounds ih =>
      rw [fillPacket]
      cases hlinks : q.links with
      | nil => simp
      | cons l ls =>
          obtain ⟨e, he⟩ := hq.links_of_getElem? hlinks
          dsimp only
          rw [he]
          dsimp only
          split
          · simp
          split
          · simp
          rename_i hfits htype
          -- after a full element there is no room, so this one starts its message
          have hcur : q.curElement = 0 := by
            rcases hfull with h | h
            · exact h
            · have : fragmentHeaderSize = 4 := rfl
              omega
          -- and a first element of several would be full itself
          have hone : ¬ q.curElement + 1 < l.mess.length := by
            intro hmore
            have := hcut l (by rw [hlinks]; simp) _ e he hmore
            have : fragmentHeaderSize = 4 := rfl
            omega
          have hadvance : q.advance l ls = (-1, ⟨ls, 0⟩) := by
            rw [DownQueue.advance, if_neg hone]
            have := hq.inside l ls hlinks
            rw [show l.mess.length = 1 by omega]
            rfl
          obtain ⟨hok, -⟩ := hq.advance hlinks he
          rw [hadvance] at hok ⊢
          intro f hf
          rcases List.mem_cons.mp hf with rfl | hf
          · rfl
          · refine ih hok (fun l' hl' => hcut l' ?_) (Or.inl rfl) f hf
            rw [hlinks]
            exact List.mem_cons_of_mem _ hl'

/-- **Every fragment after the first is a whole message.** -/
theorem nextPacket_rest_whole {n body seq : ℕ} {me : Fin n} {q q' : DownQueue β} {p : Packet n β}
    (hq : q.Ok) (hcut : ∀ l ∈ q.links, l.Cut body)
    (h : nextPacket body me seq q = some (p, q')) : ∀ f ∈ p.rest, f.index = -1 := by
  rw [nextPacket] at h
  cases hlinks : q.links with
  | nil =>
      rw [hlinks] at h
      cases h
  | cons l ls =>
      obtain ⟨e, he⟩ := hq.links_of_getElem? hlinks
      rw [hlinks] at h
      dsimp only at h
      rw [he] at h
      obtain ⟨rfl, rfl⟩ := Prod.mk.inj (Option.some.inj h)
      obtain ⟨hok, -⟩ := hq.advance hlinks he
      refine fillPacket_whole _ hok ?_ ?_
      · intro l' hl'
        refine hcut l' ?_
        rw [DownQueue.advance] at hl'
        split at hl'
        · exact hl'
        · rw [hlinks]
          exact List.mem_cons_of_mem _ hl'
      · rw [DownQueue.advance]
        split
        · rename_i hmore
          exact Or.inr (hcut l (by rw [hlinks]; simp) _ e he hmore).ge
        · exact Or.inl rfl

/-! ## Several packets -/

omit [Payload β] in
theorem DownQueue.advance_links {q : DownQueue β} {l : DownLink β} {ls : List (DownLink β)}
    (hlinks : q.links = l :: ls) : (q.advance l ls).2.links <:+ q.links := by
  rw [DownQueue.advance]
  split
  · exact List.suffix_rfl
  · rw [hlinks]
    exact List.suffix_cons l ls

theorem fillPacket_links {body : ℕ} {type : PacketType} (rounds dataLen : ℕ) (q : DownQueue β) :
    (fillPacket body type rounds dataLen q).2.links <:+ q.links := by
  induction rounds generalizing dataLen q with
  | zero => exact List.suffix_rfl
  | succ rounds ih =>
      rw [fillPacket]
      split
      · exact List.suffix_rfl
      · rename_i l ls hlinks
        split
        · exact List.suffix_rfl
        · dsimp only
          split
          · exact List.suffix_rfl
          split
          · exact List.suffix_rfl
          · exact (ih _ _).trans (DownQueue.advance_links hlinks)

theorem nextPacket_links {n body seq : ℕ} {me : Fin n} {q q' : DownQueue β} {p : Packet n β}
    (h : nextPacket body me seq q = some (p, q')) : q'.links <:+ q.links := by
  rw [nextPacket] at h
  split at h
  · cases h
  · rename_i l ls hlinks
    split at h
    · cases h
    · obtain ⟨-, rfl⟩ := Prod.mk.inj (Option.some.inj h)
      exact (fillPacket_links _ _ _).trans (DownQueue.advance_links hlinks)

/-- The packets that are made have consecutive numbers, and there are at most as many as are
allowed. -/
theorem nextPackets_spec {n : ℕ} (body : ℕ) (me : Fin n) (allowed seq : ℕ) {q : DownQueue β}
    (hq : q.Ok) :
    (nextPackets body me allowed seq q).2.Ok
      ∧ (nextPackets body me allowed seq q).2.links <:+ q.links
      ∧ (nextPackets body me allowed seq q).1.length ≤ allowed
      ∧ ∀ k p, (nextPackets body me allowed seq q).1[k]? = some p →
          p.proc = me ∧ p.seq = seq + k + 1 := by
  induction allowed generalizing seq q with
  | zero => exact ⟨hq, List.suffix_rfl, le_rfl, fun k p hk => by simp [nextPackets] at hk⟩
  | succ allowed ih =>
      rw [nextPackets]
      split
      · exact ⟨hq, List.suffix_rfl, Nat.zero_le _, fun k p hk => by simp at hk⟩
      · rename_i p q' hp
        obtain ⟨hq', hproc, hseq, -⟩ := nextPacket_pending hq hp
        obtain ⟨hok, hlinks, hlen, hall⟩ := ih (seq + 1) hq'
        refine ⟨hok, hlinks.trans (nextPacket_links hp), Nat.succ_le_succ hlen, fun k r hk => ?_⟩
        cases k with
        | zero =>
            obtain rfl : p = r := by simpa using hk
            exact ⟨hproc, by omega⟩
        | succ k =>
            rw [List.getElem?_cons_succ] at hk
            obtain ⟨hproc', hseq'⟩ := hall k r hk
            exact ⟨hproc', by omega⟩

theorem nextPackets_rest_whole {n body : ℕ} {me : Fin n} (allowed : ℕ) {seq : ℕ}
    {q : DownQueue β} (hq : q.Ok) (hcut : ∀ l ∈ q.links, l.Cut body) :
    ∀ p ∈ (nextPackets body me allowed seq q).1, ∀ f ∈ p.rest, f.index = -1 := by
  induction allowed generalizing seq q with
  | zero => simp [nextPackets]
  | succ allowed ih =>
      rw [nextPackets]
      split
      · simp
      · rename_i p q' hp
        intro r hr
        rcases List.mem_cons.mp hr with rfl | hr
        · exact nextPacket_rest_whole hq hcut hp
        · exact ih (nextPacket_pending hq hp).1
            (fun l hl => hcut l ((nextPacket_links hp).subset hl)) r hr

end

end SpreadAccount.Daemon
