import SpreadAccount.Daemon.Safety
import Mathlib.Data.List.Flatten

set_option autoImplicit false

/-! # The messages that the sessions get

What the sessions on a daemon are handed is what `Deliver_packet` makes of the packets that the
daemon delivers (`Prot.up`). In every run of the ring:

* `no_fatal_alarm`: no daemon ends with a fatal alarm;
* `messages_in_order`: of the messages of a daemon, those that are not reliable ones are handed to
  every session in the order in which they were sent, without loss, repetition or change;
* `messages_agree`: all sessions are handed them in one common order;
* `messages_at_most_once`: no message is handed over more often than it was sent.
-/

namespace SpreadAccount.Daemon

open Machine

/-- What the sessions on a daemon have been handed; `none` after a sequence error. -/
def Prot.up {n : ℕ} {β : Type} (s : Prot n β) : Option (UpState n β) :=
  exec deliverPacket .empty s.store.deliveries

section

variable {n : ℕ} [NeZero n] {β : Type} [Payload β] {conf : RingConf n} {s s' : Net n β}

/-! ## The first packets of the ring -/

omit [NeZero n] in
/-- **The first packets of the ring are delivered without a sequence error**, and what comes out
are messages that were sent. -/
theorem Streams.exec_take (h : Streams conf s) (k : ℕ) :
    ∃ w, exec deliverPacket .empty (s.log.take k) = some w
      ∧ ∀ i, w.messagesOf i <+: (s.accepted i).map fun l => (l.reliable, l.mess) := by
  have hstream : ∀ i, ∃ c, reassemble (streamOf i (s.log.take k)) = some c
      ∧ c.1 <+: (s.accepted i).map fun l => (l.reliable, l.mess) := by
    intro i
    have hall := reassemble_accepted (s.accepted i) (h.accepted i)
    have hsplit : (s.accepted i).flatMap DownLink.marked
        = streamOf i (s.log.take k)
          ++ (streamOf i (s.log.drop k) ++ (s.daemon i).down.marked) := by
      rw [h.stream i, ← List.append_assoc, ← streamOf_append, List.take_append_drop]
    rw [hsplit] at hall
    obtain ⟨c, hc, hinitial, -⟩ := reassemble_of_append hall
    exact ⟨c, hc, hinitial⟩
  obtain ⟨w, hw, -, hchain⟩ := exec_deliverPacket_of_stream
    (fun p hp => h.whole p (List.mem_of_mem_take hp)) fun i =>
      ⟨(hstream i).choose, (hstream i).choose_spec.1⟩
  refine ⟨w, hw, fun i => ?_⟩
  obtain ⟨c, hc, hinitial⟩ := hstream i
  obtain rfl := Option.some.inj ((hchain i).symm.trans hc)
  exact hinitial

omit [NeZero n] [Payload β] in
/-- Two lists of packets with the same ordered ones. -/
theorem agrees_of_ordered_eq {ps qs : List (Packet n β)} {w : UpState n β}
    (h : ordered ps = ordered qs) (hw : exec deliverPacket .empty qs = some w) :
    ∃ u w', AgreesWithout ps u w' ∧ AgreesWithout qs w w' := by
  rcases exec_deliverPacket_ordered qs with ⟨hnone, -⟩ | ⟨v, w', hqs⟩
  · rw [hw] at hnone
    cases hnone
  obtain rfl := Option.some.inj (hw.symm.trans hqs.all)
  rcases exec_deliverPacket_ordered ps with ⟨-, hnone⟩ | ⟨u, u', hps⟩
  · rw [h, hqs.without] at hnone
    cases hnone
  have hsame := hps.without
  rw [h, hqs.without] at hsame
  obtain rfl := Option.some.inj hsame
  exact ⟨u, w', hps, hqs⟩

/-- What a session is handed, compared with the packets up to `Last_delivered`. -/
theorem Sane.up_spec (h : Sane conf s) (j : Fin n) :
    ∃ u w w', (s.daemon j).up = some u
      ∧ exec deliverPacket .empty (s.log.take (s.daemon j).store.lastDelivered) = some w
      ∧ AgreesWithout (s.daemon j).store.deliveries u w'
      ∧ u.inOrder = w.inOrder
      ∧ ∀ i, w.messagesOf i <+: (s.accepted i).map fun l => (l.reliable, l.mess) := by
  obtain ⟨w, hw, hmessages⟩ := h.streams.exec_take (s.daemon j).store.lastDelivered
  obtain ⟨u, w', hu, hw'⟩ := agrees_of_ordered_eq (h.stored.ok j).inOrder hw
  exact ⟨u, w, w', hu.all, hw, hu, hu.inOrder.trans hw'.inOrder.symm, hmessages⟩

/-! ## Alarms -/

/-- **No daemon ends with a fatal alarm**: neither one of `protocol.c` nor the sequence error of
`Deliver_packet`. -/
theorem no_fatal_alarm {I : Install n β conf} {es : List (Event n β)}
    (hes : exec (Net.step conf) I.init es = some s)
    (htimely : StepsMeet (Net.step conf) Timely I.init es) (i : Fin n) :
    (s.daemon i).store.alarms = [] ∧ (s.daemon i).up.isSome := by
  have hs : Sane conf s := Sane.of_run hes htimely
  obtain ⟨u, -, -, hu, -⟩ := hs.up_spec i
  exact ⟨(hs.stored.ok i).alarms, by rw [hu]; rfl⟩

theorem no_fatal_alarm_sample : ∃ s,
    exec (Net.step Sample.conf) Sample.install.init (Sample.run ++ Sample.rest) = some s
      ∧ (s.daemon 1).store.deliveries.length = 3 ∧ (s.daemon 1).store.alarms = []
      ∧ (s.daemon 1).up.isSome := by
  obtain ⟨s, hs, h⟩ := exists_of_any (Net.step Sample.conf) Sample.install.init
    (Sample.run ++ Sample.rest)
    (fun s => (s.daemon 1).store.deliveries.length == 3) (by decide +kernel)
  exact ⟨s, hs, by simpa using h, no_fatal_alarm hs (by decide +kernel) 1⟩

/-! ## Messages that are not reliable ones -/

omit [NeZero n] [Payload β] in
/-- The messages of a daemon that are not reliable ones, among those handed over. -/
theorem inOrder_eq (u : UpState n β) (i : Fin n) :
    (u.inOrder.filter fun d => d.proc = i).map Delivered.mess
      = ((u.messagesOf i).filter fun m => !m.1).map Prod.snd := by
  rw [UpState.messagesOf, UpState.inOrder, List.filter_map, List.map_map, List.filter_filter,
    List.filter_filter]
  refine congrArg (List.map _) (List.filter_congr fun d _ => ?_)
  cases htype : d.type <;> simp [Delivered.marked, htype]

/-- **The messages of a daemon are handed over in the order in which they were sent**: at any
moment, what a session was handed of them are the first ones, whole and unchanged. -/
theorem messages_in_order {I : Install n β conf} {es : List (Event n β)}
    (hes : exec (Net.step conf) I.init es = some s)
    (htimely : StepsMeet (Net.step conf) Timely I.init es) (i j : Fin n) :
    ∃ u, (s.daemon j).up = some u
      ∧ (u.inOrder.filter fun d => d.proc = i).map Delivered.mess
        <+: ((s.accepted i).filter fun l => !l.reliable).map DownLink.mess := by
  have hs : Sane conf s := Sane.of_run hes htimely
  obtain ⟨u, w, -, hu, -, -, horder, hmessages⟩ := hs.up_spec j
  refine ⟨u, hu, ?_⟩
  have hinitial := ((hmessages i).filter fun m => !m.1).map Prod.snd
  rw [← inOrder_eq, ← horder, List.filter_map, List.map_map] at hinitial
  exact hinitial

theorem messages_in_order_sample : ∃ s u,
    exec (Net.step Sample.conf) Sample.install.init (Sample.run ++ Sample.rest) = some s
      ∧ (s.daemon 1).up = some u ∧ u.inOrder.length = 2
      ∧ (u.inOrder.filter fun d => d.proc = 0).map Delivered.mess
        <+: ((s.accepted 0).filter fun l => !l.reliable).map DownLink.mess := by
  obtain ⟨s, hs, h⟩ := exists_of_any (Net.step Sample.conf) Sample.install.init
    (Sample.run ++ Sample.rest)
    (fun s => (s.daemon 1).up.any fun u => u.inOrder.length == 2) (by decide +kernel)
  obtain ⟨u, hu, hinitial⟩ := messages_in_order hs (by decide +kernel) 0 1
  rw [hu] at h
  exact ⟨s, u, hs, hu, by simpa using h, hinitial⟩

/-- **All sessions are handed the messages that are not reliable ones in one order**: of what two
of them were handed, at any two moments of a run, one is the beginning of the other. -/
theorem messages_agree {I : Install n β conf} {es fs : List (Event n β)}
    (hes : exec (Net.step conf) I.init es = some s) (hfs : exec (Net.step conf) s fs = some s')
    (htimely : StepsMeet (Net.step conf) Timely I.init (es ++ fs)) (i j : Fin n) :
    ∃ u u', (s.daemon i).up = some u ∧ (s'.daemon j).up = some u'
      ∧ (u.inOrder <+: u'.inOrder ∨ u'.inOrder <+: u.inOrder) := by
  have hs : Sane conf s := Sane.of_run hes htimely.left
  obtain ⟨hs', hgrows⟩ := Grows.of_run hs hfs (htimely.right hes)
  obtain ⟨u, w, -, hu, hw, -, horder, -⟩ := hs.up_spec i
  obtain ⟨u', w', -, hu', hw', -, horder', -⟩ := hs'.up_spec j
  refine ⟨u, u', hu, hu', ?_⟩
  rw [horder, horder']
  -- both are made from the first packets of the later log
  have hsame : s.log.take (s.daemon i).store.lastDelivered
      = s'.log.take (s.daemon i).store.lastDelivered := by
    obtain ⟨ps, hps⟩ := hgrows.log
    have hok := hs.stored.ok i
    rw [← hps, List.take_append_of_le_length
      (hok.delivered_le.trans (hok.myAru_le.trans hok.highest_le))]
  rw [hsame] at hw
  have hinitial : ∀ {a b : ℕ} {v v' : UpState n β}, a ≤ b →
      exec deliverPacket .empty (s'.log.take a) = some v →
      exec deliverPacket .empty (s'.log.take b) = some v' → v.inOrder <+: v'.inOrder := by
    intro a b v v' hab hv hv'
    obtain ⟨ps, hps⟩ := List.take_prefix_take_left (l := s'.log) hab
    rw [← hps] at hv'
    obtain ⟨x, hx, hxv⟩ := exec_append_eq_some.mp hv'
    obtain rfl := Option.some.inj (hv.symm.trans hx)
    exact (out_extends hxv).filter _
  rcases Nat.le_total (s.daemon i).store.lastDelivered (s'.daemon j).store.lastDelivered with
    hle | hge
  · exact Or.inl (hinitial hle hw hw')
  · exact Or.inr (hinitial hge hw' hw)

theorem messages_agree_sample : ∃ s s' u u',
    exec (Net.step Sample.conf) Sample.install.init Sample.run = some s
      ∧ exec (Net.step Sample.conf) s Sample.rest = some s'
      ∧ (s.daemon 0).up = some u ∧ (s'.daemon 1).up = some u' ∧ u.inOrder.length = 1
      ∧ u'.inOrder.length = 2 ∧ (u.inOrder <+: u'.inOrder ∨ u'.inOrder <+: u.inOrder) := by
  obtain ⟨s, hs, h⟩ := exists_of_any (Net.step Sample.conf) Sample.install.init Sample.run
    (fun s => ((s.daemon 0).up.any fun u => u.inOrder.length == 1)
      && (exec (Net.step Sample.conf) s Sample.rest).any fun s' =>
        (s'.daemon 1).up.any fun u' => u'.inOrder.length == 2) (by decide +kernel)
  obtain ⟨hlen, h⟩ := Bool.and_eq_true_iff.mp h
  obtain ⟨s', hs', hlen'⟩ := (Option.any_eq_true _ _).mp h
  obtain ⟨u, u', hu, hu', hagree⟩ := messages_agree hs hs' (by decide +kernel) 0 1
  rw [hu] at hlen
  rw [hu'] at hlen'
  exact ⟨s, s', u, u', hs, hs', hu, hu', by simpa using hlen, by simpa using hlen', hagree⟩

/-! ## All messages -/

omit [NeZero n] [Payload β] in
theorem flatMap_subperm {α γ : Type} {xs ys : List α} (f : α → List γ) (h : xs.Subperm ys) :
    (xs.flatMap f).Subperm (ys.flatMap f) := by
  obtain ⟨zs, hperm, hsub⟩ := h
  exact ⟨zs.flatMap f, hperm.flatMap_right f, hsub.flatMap f⟩

omit [NeZero n] [Payload β] in
theorem map_subperm {α γ : Type} {xs ys : List α} (f : α → γ) (h : xs.Subperm ys) :
    (xs.map f).Subperm (ys.map f) := by
  obtain ⟨zs, hperm, hsub⟩ := h
  exact ⟨zs.map f, hperm.map f, hsub.map f⟩

/-- **No message is handed over more often than it was sent**, reliable ones included, and none
that was not sent. -/
theorem messages_at_most_once {I : Install n β conf} {es : List (Event n β)}
    (hes : exec (Net.step conf) I.init es = some s)
    (htimely : StepsMeet (Net.step conf) Timely I.init es) (i j : Fin n) :
    ∃ u, (s.daemon j).up = some u
      ∧ (u.messagesOf i).Subperm ((s.accepted i).map fun l => (l.reliable, l.mess)) := by
  have hs : Sane conf s := Sane.of_run hes htimely
  have hok := hs.stored.ok j
  obtain ⟨u, w, w', hu, hw, hagree, -⟩ := hs.up_spec j
  -- what a daemon would have delivered that has all packets
  obtain ⟨v, hv, hmessages⟩ := hs.streams.exec_take s.log.length
  rw [List.take_length] at hv
  rcases exec_deliverPacket_ordered s.log with ⟨hnone, -⟩ | ⟨v₀, v', hall⟩
  · rw [hv] at hnone
    cases hnone
  obtain rfl := Option.some.inj (hv.symm.trans hall.all)
  refine ⟨u, hu, List.Subperm.trans ?_ (hmessages i).sublist.subperm⟩
  have hordered : w'.out.Subperm v'.out := by
    have hwithout := hagree.without
    have hinitial : ordered (s.daemon j).store.deliveries <+: ordered s.log := by
      rw [hok.inOrder]
      exact (List.take_prefix _ _).filter _
    obtain ⟨ps, hps⟩ := hinitial
    have hlong := hall.without
    rw [← hps] at hlong
    obtain ⟨x, hx, hxv⟩ := exec_append_eq_some.mp hlong
    obtain rfl := Option.some.inj (hwithout.symm.trans hx)
    exact (out_extends hxv).sublist.subperm
  have hearly : ((s.daemon j).store.deliveries.filter Packet.early).Subperm
      (s.log.filter Packet.early) :=
    List.subperm_of_subset (hok.nodup.filter _) fun p hp => by
      obtain ⟨hp, hpe⟩ := List.mem_filter.mp hp
      exact List.mem_filter.mpr ⟨((hok.mem_deliveries p).mp hp).1, hpe⟩
  have hout : u.out.Subperm v.out :=
    hagree.out.subperm.trans ((hordered.append (flatMap_subperm _ hearly)).trans
      hall.out.symm.subperm)
  exact map_subperm _ (hout.filter _)

theorem messages_at_most_once_sample : ∃ s u,
    exec (Net.step Sample.conf) Sample.install.init (Sample.run ++ Sample.rest) = some s
      ∧ (s.daemon 1).up = some u ∧ (u.messagesOf 0).length = 2
      ∧ (u.messagesOf 0).Subperm ((s.accepted 0).map fun l => (l.reliable, l.mess)) := by
  obtain ⟨s, hs, h⟩ := exists_of_any (Net.step Sample.conf) Sample.install.init
    (Sample.run ++ Sample.rest)
    (fun s => (s.daemon 1).up.any fun u => (u.messagesOf 0).length == 2) (by decide +kernel)
  obtain ⟨u, hu, honce⟩ := messages_at_most_once hs (by decide +kernel) 0 1
  rw [hu] at h
  exact ⟨s, u, hs, hu, by simpa using h, honce⟩

end

end SpreadAccount.Daemon
