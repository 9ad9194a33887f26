import SpreadAccount.Daemon.Packet
import Mathlib.Data.List.Perm.Subperm

set_option autoImplicit false

/-! # Putting messages together again

`Deliver_packet` chains the first fragments of packets in `Up_queue`, one queue for each daemon of
the ring, and hands a message to the session when its last fragment has come. The other fragments
of a packet are whole messages. A packet that starts with a whole reliable message (`early`) may
come out of order, and has a queue of its own.

* `reassemble_accepted`: chaining all fragments of a list of messages gives these messages;
* `exec_deliverPacket_of_stream`: packets in the order in which their senders made them are
  delivered without a sequence error, and put each sender's messages together;
* `exec_deliverPacket_ordered`: whenever the early packets come, the others are delivered as
  without them.
-/

namespace SpreadAccount.Daemon

open Machine

/-- A message handed to the session, with the daemon it is from and the type of its last packet. -/
structure Delivered (n : ℕ) (β : Type) where
  proc : Fin n
  type : PacketType
  mess : List β
  deriving DecidableEq

/-- `Up_queue`, with `none` for the index `MAX_PROCS_RING`, and what `Sess_deliver_message` was
given so far. -/
structure UpState (n : ℕ) (β : Type) where
  upQueue : Option (Fin n) → Option (List β)
  out : List (Delivered n β)

section

variable {n : ℕ} {β : Type}

def Packet.fragments (p : Packet n β) : List (Fragment β) := p.first :: p.rest

/-- Whether a packet is delivered regardless of what is already in the queue. -/
def Packet.early (p : Packet n β) : Bool := p.type == .reliable && p.first.index == -1

def UpState.empty : UpState n β := ⟨fun _ => none, []⟩

/-- The messages in the fragments of a packet after its first. -/
def Packet.others (p : Packet n β) : List (Delivered n β) :=
  p.rest.map fun f => ⟨p.proc, p.type, [f.data]⟩

/-- `Deliver_packet`; `none` is the fatal "sequence error". -/
def deliverPacket (u : UpState n β) (p : Packet n β) : Option (UpState n β) :=
  let procIndex := if p.early then none else some p.proc
  let mess := (u.upQueue procIndex).getD []
  if mess.length + 1 ≠ p.first.index.natAbs then none
  else if p.first.index < 0 then
    some { upQueue := Function.update u.upQueue procIndex none
           out := u.out ++ ⟨p.proc, p.type, mess ++ [p.first.data]⟩ :: p.others }
  else
    some { upQueue := Function.update u.upQueue procIndex (some (mess ++ [p.first.data]))
           out := u.out ++ p.others }

end

/-! ## Streams of fragments -/

section

variable {n : ℕ} {β : Type}

/-- What the messages of a daemon look like on the way: the fragments in order, each marked
whether it is of a reliable message. -/
abbrev Marked (β : Type) : Type := Bool × Fragment β

def DownLink.reliable (l : DownLink β) : Bool := l.type == .reliable

def DownLink.marked (l : DownLink β) : List (Marked β) := l.fragments.map fun f => (l.reliable, f)

def Packet.marked (p : Packet n β) : List (Marked β) :=
  p.fragments.map fun f => (p.type == .reliable, f)

def Delivered.marked (d : Delivered n β) : Bool × List β := (d.type == .reliable, d.mess)

/-- The messages complete so far, and the elements of the next one. -/
abbrev Chain (β : Type) : Type := List (Bool × List β) × List β

/-- Chains the next fragment of a stream. -/
def chainFragment (c : Chain β) (f : Marked β) : Option (Chain β) :=
  if c.2.length + 1 ≠ f.2.index.natAbs then none
  else if f.2.index < 0 then some (c.1 ++ [(f.1, c.2 ++ [f.2.data])], [])
  else some (c.1, c.2 ++ [f.2.data])

/-- The messages in a stream of fragments. -/
abbrev reassemble (fs : List (Marked β)) : Option (Chain β) := exec chainFragment ([], []) fs

theorem chainFragment_whole {c : Chain β} {b : Bool} {f : Fragment β} (hf : f.index = -1)
    (hc : c.2 = []) : chainFragment c (b, f) = some (c.1 ++ [(b, [f.data])], []) := by
  rw [chainFragment, if_neg (by simp [hf, hc]), if_pos (by simp [hf]), hc]
  rfl

/-- Only a stream in the middle of no message continues with a whole message. -/
theorem eq_nil_of_chainFragment_whole {c c' : Chain β} {b : Bool} {f : Fragment β}
    (hf : f.index = -1) (h : chainFragment c (b, f) = some c') : c.2 = [] := by
  rw [chainFragment] at h
  split at h
  · cases h
  · rename_i hlen
    rw [not_not, hf] at hlen
    exact List.length_eq_zero_iff.mp (by simpa using hlen)

/-- Chaining whole messages. -/
theorem exec_chainFragment_whole {b : Bool} (fs : List (Fragment β)) (hfs : ∀ f ∈ fs, f.index = -1)
    (out : List (Bool × List β)) :
    exec chainFragment (out, []) (fs.map fun f => (b, f))
      = some (out ++ fs.map fun f => (b, [f.data]), []) := by
  induction fs generalizing out with
  | nil => simp
  | cons f fs ih =>
      rw [List.map_cons, List.map_cons]
      refine exec_cons_eq_some.mpr ⟨_, chainFragment_whole (hfs f (by simp)) rfl, ?_⟩
      rw [ih fun f' hf' => hfs f' (List.mem_cons_of_mem _ hf')]
      simp

/-- Chaining the fragments of a message from its `i`-th element on. -/
theorem exec_chainFragment_drop (l : DownLink β) (out : List (Bool × List β)) (k : ℕ) :
    ∀ i, l.mess.length = i + (k + 1) →
      exec chainFragment (out, l.mess.take i)
          ((l.fragments.drop i).map fun f => (l.reliable, f))
        = some (out ++ [(l.reliable, l.mess)], []) := by
  induction k with
  | zero =>
      intro i hi
      have hlt : i < l.mess.length := by omega
      have hlast : l.fragments.drop i = [l.fragment i l.mess[i]] := by
        rw [List.drop_eq_getElem_cons (by rwa [l.fragments_length]),
          List.drop_eq_nil_of_le (by rw [l.fragments_length]; omega)]
        exact congrArg (fun f => [f]) List.getElem_mapIdx
      rw [hlast, List.map_singleton]
      refine exec_cons_eq_some.mpr ⟨_, ?_, exec_nil _⟩
      have hmore : ¬ i + 1 < l.mess.length := by omega
      rw [chainFragment, DownLink.fragment, if_neg hmore, if_neg (by simp; omega),
        if_pos (by simp; omega)]
      simp only [List.take_append_getElem hlt, List.take_of_length_le (show l.mess.length ≤ i + 1
        by omega)]
  | succ k ih =>
      intro i hi
      have hlt : i < l.mess.length := by omega
      have hfirst : l.fragments.drop i = l.fragment i l.mess[i] :: l.fragments.drop (i + 1) := by
        rw [List.drop_eq_getElem_cons (by rwa [l.fragments_length])]
        exact congrArg (fun f => f :: _) List.getElem_mapIdx
      rw [hfirst, List.map_cons]
      refine exec_cons_eq_some.mpr ⟨_, ?_, ih (i + 1) (by omega)⟩
      have hmore : i + 1 < l.mess.length := by omega
      rw [chainFragment, DownLink.fragment, if_pos hmore, if_neg (by simp; omega),
        if_neg (by simp; omega)]
      simp only [List.take_append_getElem hlt]

/-- **Chaining all fragments of a list of messages gives these messages.** -/
theorem reassemble_accepted (ls : List (DownLink β)) (hls : ∀ l ∈ ls, l.mess ≠ []) :
    reassemble (ls.flatMap DownLink.marked)
      = some (ls.map fun l => (l.reliable, l.mess), []) := by
  suffices h : ∀ out, exec chainFragment (out, []) (ls.flatMap DownLink.marked)
      = some (out ++ ls.map fun l => (l.reliable, l.mess), []) from h []
  induction ls with
  | nil => simp
  | cons l ls ih =>
      intro out
      rw [List.flatMap_cons]
      refine exec_append_eq_some.mpr ⟨(out ++ [(l.reliable, l.mess)], []), ?_, ?_⟩
      · have hpos := List.length_pos_iff.mpr (hls l (by simp))
        exact exec_chainFragment_drop l out (l.mess.length - 1) 0 (by omega)
      · rw [ih (fun l' hl' => hls l' (List.mem_cons_of_mem _ hl'))]
        simp

/-- The messages complete so far stay. -/
theorem chainFragment_prefix {c c' : Chain β} {fs : List (Marked β)}
    (h : exec chainFragment c fs = some c') : c.1 <+: c'.1 := by
  refine exec_induct (P := fun _ c' => c.1 <+: c'.1) h List.prefix_rfl ?_
  intro _ f d d' _ ih hd
  rw [chainFragment] at hd
  split at hd
  · cases hd
  split at hd <;> obtain rfl := Option.some.inj hd
  · exact ih.trans (List.prefix_append _ _)
  · exact ih

/-- A stream that goes on well has been well so far. -/
theorem reassemble_of_append {fs gs : List (Marked β)} {c : Chain β}
    (h : reassemble (fs ++ gs) = some c) :
    ∃ c', reassemble fs = some c' ∧ c'.1 <+: c.1 ∧ exec chainFragment c' gs = some c := by
  obtain ⟨c', hc', hc⟩ := exec_append_eq_some.mp h
  exact ⟨c', hc', chainFragment_prefix hc, hc⟩

/-- A packet whose fragments can be chained after `c`. If it has several fragments, the first one
is the last of its message. -/
theorem exec_chainFragment_packet {c c' : Chain β} {p : Packet n β}
    (hrest : ∀ f ∈ p.rest, f.index = -1) (h : exec chainFragment c p.marked = some c') :
    c.2.length + 1 = p.first.index.natAbs
      ∧ (p.first.index < 0 → c' = (c.1 ++ (p.type == .reliable, c.2 ++ [p.first.data])
          :: p.others.map Delivered.marked, []))
      ∧ (¬ p.first.index < 0 → p.rest = [] ∧ c' = (c.1, c.2 ++ [p.first.data])) := by
  rw [Packet.marked, Packet.fragments, List.map_cons] at h
  obtain ⟨d, hd, hc'⟩ := exec_cons_eq_some.mp h
  rw [chainFragment] at hd
  split at hd
  · cases hd
  rename_i hlen
  refine ⟨not_not.mp hlen, fun hneg => ?_, fun hpos => ?_⟩
  · rw [if_pos hneg] at hd
    obtain rfl := Option.some.inj hd
    rw [exec_chainFragment_whole _ hrest] at hc'
    obtain rfl := Option.some.inj hc'
    simp [Packet.others, Delivered.marked, Function.comp_def]
  · rw [if_neg hpos] at hd
    obtain rfl := Option.some.inj hd
    cases hp : p.rest with
    | nil =>
        rw [hp, List.map_nil, exec_nil] at hc'
        exact ⟨rfl, (Option.some.inj hc').symm⟩
    | cons f fs =>
        rw [hp, List.map_cons] at hc'
        obtain ⟨e, he, -⟩ := exec_cons_eq_some.mp hc'
        have := eq_nil_of_chainFragment_whole (hrest f (by simp [hp])) he
        simp at this

end

/-! ## The stream that is still in the down queue -/

section

variable {n : ℕ} {β : Type}

/-- The fragments that wait to be sent. -/
def DownQueue.marked (q : DownQueue β) : List (Marked β) :=
  q.pending.map fun t => (t.1 == .reliable, t.2)

theorem reliable_of_compatible {type t : PacketType} (h : compatible type t = true) :
    (t == .reliable) = (type == .reliable) := by
  cases type <;> cases t <;> first | rfl | cases h

variable [Payload β]

/-- **Packing a packet takes its fragments from the stream of the sender.** -/
theorem nextPacket_marked {body seq : ℕ} {me : Fin n} {q q' : DownQueue β} {p : Packet n β}
    (hq : q.Ok) (h : nextPacket body me seq q = some (p, q')) :
    q.marked = p.marked ++ q'.marked := by
  obtain ⟨-, -, -, taken, hpending, hrest, hcompatible⟩ := nextPacket_pending hq h
  have htaken : taken.map (fun t => (t.1 == PacketType.reliable, t.2))
      = p.rest.map fun f => (p.type == .reliable, f) := by
    rw [← hrest, List.map_map]
    refine List.map_congr_left fun t ht => ?_
    rw [reliable_of_compatible (hcompatible t ht)]
    rfl
  rw [DownQueue.marked, hpending, List.map_append, List.map_cons, htaken]
  rfl

theorem nextPackets_marked {body : ℕ} {me : Fin n} (allowed seq : ℕ) {q : DownQueue β}
    (hq : q.Ok) :
    q.marked = (nextPackets body me allowed seq q).1.flatMap Packet.marked
      ++ (nextPackets body me allowed seq q).2.marked := by
  induction allowed generalizing seq q with
  | zero => rfl
  | succ allowed ih =>
      rw [nextPackets]
      split
      · rfl
      · rename_i p q' hp
        rw [nextPacket_marked hq hp, ih (seq + 1) (nextPacket_pending hq hp).1]
        simp

omit [Payload β] in
/-- A message that is put at the end of the queue. -/
theorem DownQueue.marked_snoc {q : DownQueue β} (hq : q.Ok) (l : DownLink β) :
    DownQueue.marked { q with links := q.links ++ [l] } = q.marked ++ l.marked := by
  have hcur : q.curElement
      ≤ (q.links.flatMap fun l => l.fragments.map fun f => (l.type, f)).length := by
    cases hlinks : q.links with
    | nil => simp [hq.idle hlinks]
    | cons l' ls =>
        have := hq.inside l' ls hlinks
        rw [List.flatMap_cons, List.length_append, List.length_map, l'.fragments_length]
        omega
  rw [DownQueue.marked, DownQueue.pending, List.flatMap_append, List.drop_append_of_le_length hcur,
    List.map_append, ← DownQueue.pending, ← DownQueue.marked]
  simp [DownLink.marked, DownLink.reliable, Function.comp_def]

end

/-! ## The up queues -/

section

variable {n : ℕ} {β : Type}

/-- The fragments of the daemon `i` in a list of packets. -/
def streamOf (i : Fin n) (ps : List (Packet n β)) : List (Marked β) :=
  (ps.filter fun p => p.proc = i).flatMap Packet.marked

/-- The messages of the daemon `i` that were handed to the session. -/
def UpState.messagesOf (u : UpState n β) (i : Fin n) : List (Bool × List β) :=
  (u.out.filter fun d => d.proc = i).map Delivered.marked

/-- The elements of the message of the daemon `i` that is not complete. -/
def UpState.waitingOf (u : UpState n β) (i : Fin n) : List β := (u.upQueue (some i)).getD []

/-- The messages of a packet all of whose fragments are whole messages. -/
def Packet.messages (p : Packet n β) : List (Delivered n β) :=
  ⟨p.proc, p.type, [p.first.data]⟩ :: p.others

theorem streamOf_append (i : Fin n) (ps qs : List (Packet n β)) :
    streamOf i (ps ++ qs) = streamOf i ps ++ streamOf i qs := by
  rw [streamOf, List.filter_append, List.flatMap_append]
  rfl

theorem streamOf_snoc (i : Fin n) (ps : List (Packet n β)) (p : Packet n β) :
    streamOf i (ps ++ [p]) = streamOf i ps ++ if p.proc = i then p.marked else [] := by
  rw [streamOf_append]
  by_cases hi : p.proc = i <;> simp [streamOf, hi]

theorem Packet.proc_of_mem_others {p : Packet n β} {d : Delivered n β} (h : d ∈ p.others) :
    d.proc = p.proc ∧ d.type = p.type := by
  obtain ⟨f, -, rfl⟩ := List.mem_map.mp h
  exact ⟨rfl, rfl⟩

/-- What comes from one daemon adds to the messages of that daemon only. -/
theorem messagesOf_append {u v : UpState n β} {ds : List (Delivered n β)} {k : Fin n}
    (hv : v.out = u.out ++ ds) (hds : ∀ d ∈ ds, d.proc = k) (i : Fin n) :
    v.messagesOf i = u.messagesOf i ++ if k = i then ds.map Delivered.marked else [] := by
  rw [UpState.messagesOf, hv, List.filter_append, List.map_append, ← UpState.messagesOf]
  by_cases hi : k = i
  · rw [if_pos hi, List.filter_eq_self.mpr fun d hd => by simp [hds d hd, hi]]
  · rw [if_neg hi, List.filter_eq_nil_iff.mpr fun d hd => by simp [hds d hd, hi], List.map_nil]

theorem Packet.index_of_early {p : Packet n β} (hp : p.early = true) : p.first.index = -1 := by
  simpa using (Bool.and_eq_true_iff.mp hp).2

theorem Packet.type_of_early {p : Packet n β} (hp : p.early = true) : p.type = .reliable := by
  simpa using (Bool.and_eq_true_iff.mp hp).1

/-- An early packet is delivered whatever waits. -/
theorem deliverPacket_early {u : UpState n β} {p : Packet n β} (hp : p.early = true)
    (hu : u.upQueue none = none) :
    deliverPacket u p = some { u with out := u.out ++ p.messages } := by
  have hindex := p.index_of_early hp
  have hsame : Function.update u.upQueue none none = u.upQueue := by
    rw [Function.update_eq_self_iff, hu]
  unfold deliverPacket
  dsimp only
  rw [if_pos hp, if_neg (by simp [hu, hindex]), if_pos (by simp [hindex]), hsame, hu]
  rfl

/-- Any other packet is chained in the queue of its daemon. -/
theorem deliverPacket_ordered {u : UpState n β} {p : Packet n β} (hp : p.early = false) :
    deliverPacket u p =
      if (u.waitingOf p.proc).length + 1 ≠ p.first.index.natAbs then none
      else if p.first.index < 0 then
        some { upQueue := Function.update u.upQueue (some p.proc) none
               out := u.out ++ ⟨p.proc, p.type, u.waitingOf p.proc ++ [p.first.data]⟩ :: p.others }
      else
        some { upQueue := Function.update u.upQueue (some p.proc)
                 (some (u.waitingOf p.proc ++ [p.first.data]))
               out := u.out ++ p.others } := by
  unfold deliverPacket
  dsimp only
  rw [if_neg (show ¬ p.early = true by simp [hp])]
  rfl

theorem waitingOf_update (u : UpState n β) (k : Fin n) (m : Option (List β))
    (out : List (Delivered n β)) (i : Fin n) :
    (UpState.mk (Function.update u.upQueue (some k) m) out).waitingOf i
      = if k = i then m.getD [] else u.waitingOf i := by
  show (Function.update u.upQueue (some k) m (some i)).getD [] = _
  by_cases hi : k = i
  · rw [if_pos hi, hi, Function.update_self]
  · rw [if_neg hi, Function.update_of_ne fun h => hi (Option.some.inj h).symm]
    rfl

/-- The queue of the early packets stays empty. -/
theorem idle_update {u v : UpState n β} {k : Fin n} {m : Option (List β)}
    (hu : u.upQueue none = none) (hv : v.upQueue = Function.update u.upQueue (some k) m) :
    v.upQueue none = none := by
  rw [hv, Function.update_of_ne (Option.some_ne_none k).symm]
  exact hu

/-- **Packets in the order in which their senders made them** are delivered without a sequence
error, and put each sender's messages together. -/
theorem exec_deliverPacket_of_stream {ps : List (Packet n β)}
    (hrest : ∀ p ∈ ps, ∀ f ∈ p.rest, f.index = -1)
    (hstream : ∀ i, ∃ c, reassemble (streamOf i ps) = some c) :
    ∃ u, exec deliverPacket .empty ps = some u ∧ u.upQueue none = none
      ∧ ∀ i, reassemble (streamOf i ps) = some (u.messagesOf i, u.waitingOf i) := by
  induction ps using List.reverseRecOn with
  | nil => exact ⟨.empty, rfl, rfl, fun i => rfl⟩
  | append_singleton ps p ih =>
      obtain ⟨u, hu, hnone, hchain⟩ := ih (fun p' hp' => hrest p' (by simp [hp'])) fun i => by
        obtain ⟨c, hc⟩ := hstream i
        rw [streamOf_snoc] at hc
        obtain ⟨c', hc', -, -⟩ := reassemble_of_append hc
        exact ⟨c', hc'⟩
      -- what the next packet adds to the stream of its sender
      obtain ⟨c, hc⟩ := hstream p.proc
      rw [streamOf_snoc, if_pos rfl] at hc
      obtain ⟨c', hc', -, hpacket⟩ := reassemble_of_append hc
      obtain rfl := Option.some.inj ((hchain p.proc).symm.trans hc')
      obtain ⟨hlen, hneg, hpos⟩ := exec_chainFragment_packet (hrest p (by simp)) hpacket
      -- the chains after a step that serves the sender of the packet
      have hstep : ∀ (v : UpState n β) (ds : List (Delivered n β)), v.out = u.out ++ ds →
          (∀ d ∈ ds, d.proc = p.proc) → (∀ i, p.proc ≠ i → v.waitingOf i = u.waitingOf i) →
          c = (u.messagesOf p.proc ++ ds.map Delivered.marked, v.waitingOf p.proc) →
          ∀ i, reassemble (streamOf i (ps ++ [p])) = some (v.messagesOf i, v.waitingOf i) := by
        intro v ds hout hds hwait hv i
        rw [messagesOf_append hout hds]
        by_cases hi : p.proc = i
        · obtain rfl := hi
          rw [streamOf_snoc, if_pos rfl, if_pos rfl, hc, hv]
        · rw [streamOf_snoc, if_neg hi, if_neg hi, List.append_nil, List.append_nil, hwait i hi]
          exact hchain i
      have hothers : ∀ d ∈ p.others, d.proc = p.proc := fun d hd => (p.proc_of_mem_others hd).1
      cases hearly : p.early with
      | true =>
          have hwait : u.waitingOf p.proc = [] := by
            rw [p.index_of_early hearly] at hlen
            exact List.length_eq_zero_iff.mp (by simpa using hlen)
          refine ⟨_, exec_snoc_eq_some.mpr ⟨u, hu, deliverPacket_early hearly hnone⟩, hnone, ?_⟩
          refine hstep _ p.messages rfl ?_ (fun i _ => rfl) ?_
          · exact List.forall_mem_cons.mpr ⟨rfl, hothers⟩
          · rw [hneg (by simp [p.index_of_early hearly])]
            show (_, _) = (_, u.waitingOf p.proc)
            rw [hwait]
            rfl
      | false =>
          have hdeliver := deliverPacket_ordered (u := u) hearly
          rw [if_neg (not_not.mpr hlen)] at hdeliver
          by_cases hindex : p.first.index < 0
          · rw [if_pos hindex] at hdeliver
            refine ⟨_, exec_snoc_eq_some.mpr ⟨u, hu, hdeliver⟩, idle_update hnone rfl, ?_⟩
            · refine hstep _ _ rfl ?_ (fun i hi => ?_) ?_
              · exact List.forall_mem_cons.mpr ⟨rfl, hothers⟩
              · rw [waitingOf_update, if_neg hi]
              · rw [hneg hindex, waitingOf_update, if_pos rfl]
                rfl
          · rw [if_neg hindex] at hdeliver
            obtain ⟨hnil, hcur⟩ := hpos hindex
            refine ⟨_, exec_snoc_eq_some.mpr ⟨u, hu, hdeliver⟩, idle_update hnone rfl, ?_⟩
            · refine hstep _ _ rfl hothers (fun i hi => ?_) ?_
              · rw [waitingOf_update, if_neg hi]
              · rw [hcur, waitingOf_update, if_pos rfl, Packet.others, hnil]
                simp

/-- What was handed to the session stays. -/
theorem out_extends {u v : UpState n β} {ps : List (Packet n β)}
    (h : exec deliverPacket u ps = some v) : u.out <+: v.out := by
  refine exec_induct (P := fun _ v => u.out <+: v.out) h List.prefix_rfl ?_
  intro _ p v w _ ih hw
  unfold deliverPacket at hw
  dsimp only at hw
  generalize (if p.early then none else some p.proc) = procIndex at hw
  split at hw
  · cases hw
  split at hw <;> obtain rfl := Option.some.inj hw <;> exact ih.trans (List.prefix_append _ _)

/-- The packets that are delivered in order. -/
def ordered (ps : List (Packet n β)) : List (Packet n β) := ps.filter fun p => !p.early

/-- The messages in `out` that are not of a reliable type. -/
def UpState.inOrder (u : UpState n β) : List (Delivered n β) :=
  u.out.filter fun d => d.type ≠ .reliable

/-- How the up queues after a list of packets compare with those after its ordered packets. -/
structure AgreesWithout (ps : List (Packet n β)) (u u' : UpState n β) : Prop where
  all : exec deliverPacket .empty ps = some u
  without : exec deliverPacket .empty (ordered ps) = some u'
  upQueue : u.upQueue = u'.upQueue
  idle : u.upQueue none = none
  inOrder : u.inOrder = u'.inOrder
  out : u.out.Perm (u'.out ++ (ps.filter Packet.early).flatMap Packet.messages)

theorem ordered_append (ps qs : List (Packet n β)) :
    ordered (ps ++ qs) = ordered ps ++ ordered qs := List.filter_append ..

theorem ordered_snoc {ps : List (Packet n β)} {p : Packet n β} (hp : p.early = false) :
    ordered (ps ++ [p]) = ordered ps ++ [p] := by
  rw [ordered_append]
  simp [ordered, hp]

theorem ordered_snoc_early {ps : List (Packet n β)} {p : Packet n β} (hp : p.early = true) :
    ordered (ps ++ [p]) = ordered ps := by
  rw [ordered_append]
  simp [ordered, hp]

/-- Both go on with a packet that is delivered in order. -/
theorem AgreesWithout.snoc {ps : List (Packet n β)} {p : Packet n β} {u u' v v' : UpState n β}
    {ds : List (Delivered n β)} (h : AgreesWithout ps u u') (hp : p.early = false)
    (hv : deliverPacket u p = some v) (hv' : deliverPacket u' p = some v')
    (hqueue : v.upQueue = v'.upQueue) (hidle : v.upQueue none = none) (hout : v.out = u.out ++ ds)
    (hout' : v'.out = u'.out ++ ds) : AgreesWithout (ps ++ [p]) v v' where
  all := exec_snoc_eq_some.mpr ⟨u, h.all, hv⟩
  without := by
    rw [ordered_snoc hp]
    exact exec_snoc_eq_some.mpr ⟨u', h.without, hv'⟩
  upQueue := hqueue
  idle := hidle
  inOrder := by
    rw [UpState.inOrder, hout, UpState.inOrder, hout', List.filter_append, List.filter_append]
    exact congrArg (· ++ _) h.inOrder
  out := by
    have hsame : (ps ++ [p]).filter Packet.early = ps.filter Packet.early := by
      rw [List.filter_append]
      simp [hp]
    rw [hout, hout', hsame]
    refine (h.out.append_right ds).trans ?_
    rw [List.append_assoc, List.append_assoc]
    exact List.perm_append_comm.append_left _

/-- **Whenever the early packets come, the others are delivered as without them.** -/
theorem exec_deliverPacket_ordered (ps : List (Packet n β)) :
    (exec deliverPacket .empty ps = none ∧ exec deliverPacket .empty (ordered ps) = none)
      ∨ ∃ u u', AgreesWithout ps u u' := by
  induction ps using List.reverseRecOn with
  | nil => exact Or.inr ⟨.empty, .empty, rfl, rfl, rfl, rfl, rfl, List.Perm.refl _⟩
  | append_singleton ps p ih =>
      rcases ih with ⟨hall, hwithout⟩ | ⟨u, u', hagree⟩
      · refine Or.inl ⟨by rw [exec_append, hall]; rfl, ?_⟩
        rw [ordered, List.filter_append, exec_append, ← ordered, hwithout]
        rfl
      cases hearly : p.early with
      | true =>
          refine Or.inr ⟨{ u with out := u.out ++ p.messages }, u', ?_, ?_, hagree.upQueue,
            hagree.idle, ?_, ?_⟩
          · exact exec_snoc_eq_some.mpr ⟨u, hagree.all, deliverPacket_early hearly hagree.idle⟩
          · rw [ordered_snoc_early hearly]
            exact hagree.without
          · have hnone : p.messages.filter (fun d => decide (d.type ≠ .reliable)) = [] := by
              refine List.filter_eq_nil_iff.mpr fun d hd => ?_
              rcases List.mem_cons.mp hd with rfl | hd
              · simp [p.type_of_early hearly]
              · simp [(p.proc_of_mem_others hd).2, p.type_of_early hearly]
            rw [← hagree.inOrder, UpState.inOrder, List.filter_append, hnone, List.append_nil]
            rfl
          · rw [List.filter_append, List.flatMap_append, ← List.append_assoc]
            refine (hagree.out.append_right _).trans ?_
            rw [List.filter_singleton, hearly]
            simp
      | false =>
          have hwaiting : u'.waitingOf p.proc = u.waitingOf p.proc := by
            rw [UpState.waitingOf, ← hagree.upQueue]
            rfl
          have hu := deliverPacket_ordered (u := u) hearly
          have hu' := deliverPacket_ordered (u := u') hearly
          rw [hwaiting, ← hagree.upQueue] at hu'
          by_cases hlen : (u.waitingOf p.proc).length + 1 ≠ p.first.index.natAbs
          · rw [if_pos hlen] at hu hu'
            refine Or.inl ⟨?_, ?_⟩
            · rw [exec_append, hagree.all]
              show (deliverPacket u p).bind _ = none
              rw [hu]
              rfl
            · rw [ordered_snoc hearly, exec_append, hagree.without]
              show (deliverPacket u' p).bind _ = none
              rw [hu']
              rfl
          rw [if_neg hlen] at hu hu'
          by_cases hindex : p.first.index < 0
          · rw [if_pos hindex] at hu hu'
            exact Or.inr ⟨_, _, hagree.snoc hearly hu hu' rfl (idle_update hagree.idle rfl) rfl rfl⟩
          · rw [if_neg hindex] at hu hu'
            exact Or.inr ⟨_, _, hagree.snoc hearly hu hu' rfl (idle_update hagree.idle rfl) rfl rfl⟩

end

end SpreadAccount.Daemon
