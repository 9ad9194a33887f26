import SpreadAccount.Daemon.Ring

set_option autoImplicit false

/-! # What the ring never does wrong

Every result here is about the runs of `Net.step` from an installed membership, whatever the
network loses, repeats, delays or reorders (`Timely` excludes tokens that are older than fifteen
rounds and windows that are too large for the array of packets).

* `token_taken_in_turn`: only the token that was sent last is taken, by the next daemon of the ring;
* `aru_stable`: what a daemon takes for stable, every daemon has, now and later;
* `safe_stable`: a safe packet is delivered only when every daemon has it;
* `arrived_kept`: a packet that has reached a daemon is not lost there;
* `delivered_once`: a daemon delivers each packet once, and leaves no gap.
-/

namespace SpreadAccount.Daemon

open Machine

section

variable {n : ℕ} [NeZero n] {β : Type} [Payload β] {conf : RingConf n} {s s' s'' : Net n β}

/-! ## What only grows -/

/-- From `s` to `s'` nothing is forgotten. -/
structure Grows (s s' : Net n β) : Prop where
  log : s.log <+: s'.log
  datagrams : s.datagrams <+: s'.datagrams
  hop : s.hop ≤ s'.hop
  keeps : ∀ i, Keeps (s.daemon i).store (s'.daemon i).store
  myAru : ∀ i, (s.daemon i).store.myAru ≤ (s'.daemon i).store.myAru
  aru : ∀ i, (s.daemon i).store.aru ≤ (s'.daemon i).store.aru

namespace Grows

omit [NeZero n] [Payload β] in
theorem refl (s : Net n β) : Grows s s :=
  ⟨List.prefix_rfl, List.prefix_rfl, le_rfl, fun _ => Keeps.refl _, fun _ => le_rfl,
    fun _ => le_rfl⟩

omit [NeZero n] [Payload β] in
theorem trans (h : Grows s s') (h' : Grows s' s'') : Grows s s'' :=
  ⟨h.log.trans h'.log, h.datagrams.trans h'.datagrams, h.hop.trans h'.hop,
    fun i => (h.keeps i).trans (h'.keeps i), fun i => (h.myAru i).trans (h'.myAru i),
    fun i => (h.aru i).trans (h'.aru i)⟩

theorem calm (hs : Sane conf s) {i : Fin n} (h : Calm conf s s' i) : Grows s s' where
  log := by rw [h.log]
  datagrams := by rw [h.datagrams]
  hop := (hs.circulates.calm_hop h).ge
  keeps j := (h.daemon j).2.2.2.2.2.2.2.2
  myAru j := (h.daemon j).2.2.2.2.2.2.2.1
  aru j := (h.daemon j).2.2.2.2.2.1.ge

theorem taken (hs : Sane conf s) {i : Fin n} {t : Token n} (h : Taken conf s s' i t)
    (hage : (s.daemon i).lastToken.hop ≤ t.hop + 15 * n) : Grows s s' := by
  obtain ⟨hhop, hturn⟩ := hs.circulates.fresh h hage
  have hmarks := (hs.daemon_taken h hhop).2.1
  refine ⟨?_, ?_, ?_, hs.keeps_taken h hhop, fun j => ?_, fun j => ?_⟩
  · rw [hs.log_taken h hhop]
    exact List.prefix_append _ _
  · rw [h.eq]
    exact List.prefix_append _ _
  · rw [(hs.holder_taken h hhop hturn).2]
    exact Nat.le_succ _
  · by_cases hj : j = i
    · subst hj
      exact (hs.takes h hhop).filled.2.2.2.2.1.trans_eq (congrArg (·.2.1) hmarks).symm
    · rw [h.daemon_of_ne hj]
  · by_cases hj : j = i
    · subst hj
      exact (hs.newAru h hhop).1.trans_eq (hs.aru_taken h hhop).symm
    · rw [h.daemon_of_ne hj]

theorem step (hs : Sane conf s) {e : Event n β} (he : Timely s e) (h : s.step conf e = some s') :
    Grows s s' := by
  rcases step_cases h with rfl | ⟨i, hcalm⟩ | ⟨k, i, t, rfl, hk, ht⟩
  · exact refl _
  · exact calm hs hcalm
  · refine taken hs ht ?_
    rw [ht.dest]
    exact he t hk

/-- **Nothing is forgotten in the rest of a run.** -/
theorem of_run (hs : Sane conf s) {fs : List (Event n β)}
    (hfs : exec (Net.step conf) s fs = some s') (htimely : StepsMeet (Net.step conf) Timely s fs) :
    Sane conf s' ∧ Grows s s' :=
  htimely.induct (P := fun u => Sane conf u ∧ Grows s u) hfs ⟨hs, refl s⟩
    fun _ _ _ _ ⟨hsane, hgrows⟩ he h => ⟨hsane.step he h, hgrows.trans (step hsane he h)⟩

end Grows

/-! ## The token -/

/-- The state after the daemon `i` has sent its last token again, without requests and counted as
the copy `val`. -/
def Net.sentAgain (s : Net n β) (i : Fin n) (val : ℕ) : Net n β :=
  let token := (s.daemon i).lastToken.again i val
  { s with
    daemon := Function.update s.daemon i { s.daemon i with lastToken := token }
    tokens := s.tokens ++ List.replicate (if 1 < val then 3 else 1) token }

omit [NeZero n] [Payload β] in
theorem Net.after_self {i : Fin n} (hhop : (s.daemon i).lastToken.hop ≤ s.hop) :
    s.after i (s.daemon i, []) = s := by
  simp [Net.after, Function.update_eq_self, max_eq_left hhop, extendLog]

omit [NeZero n] [Payload β] in
theorem Net.after_sentAgain {i : Fin n} (hhop : (s.daemon i).lastToken.hop ≤ s.hop) (val : ℕ) :
    s.after i ({ s.daemon i with lastToken := (s.daemon i).lastToken.again i val },
      sendToken ((s.daemon i).lastToken.again i val)) = s.sentAgain i val := by
  have hhop' : ((s.daemon i).lastToken.again i val).hop ≤ s.hop := hhop
  have hretrans : ((s.daemon i).lastToken.again i val).retrans = val := rfl
  simp [Net.after, Net.sentAgain, sendToken, List.filterMap_replicate, Send.datagram?, Send.token?,
    Send.hurry?, max_eq_left hhop', extendLog, hretrans]

/-- **Tokens are taken in turn**: whichever copy of whichever token arrives, either nothing changes,
or the daemon is asked for its last token and sends it again, or the token is the one that was sent
last, and the next daemon of the ring takes it. -/
theorem token_taken_in_turn {I : Install n β conf} {es : List (Event n β)} {k : ℕ}
    (hes : exec (Net.step conf) I.init es = some s) (hk : s.step conf (.token k) = some s')
    (htimely : StepsMeet (Net.step conf) Timely I.init (es ++ [.token k])) :
    ∃ t ∈ s.tokens[k]?,
      s' = s
      ∨ (next t.transmiterId ≠ leader
        ∧ t.arq = (s.daemon (next t.transmiterId)).lastToken.arq
        ∧ (s.daemon (next t.transmiterId)).lastToken.retrans < t.retrans
        ∧ s' = s.sentAgain (next t.transmiterId) t.retrans)
      ∨ (t.core = (s.daemon s.holder).lastToken.core
        ∧ s' = s.after (next s.holder) (acceptToken conf (next s.holder) t
          (s.daemon (next s.holder)))
        ∧ s'.hop = s.hop + 1 ∧ s'.holder = next s.holder) := by
  have hs : Sane conf s := Sane.of_run hes htimely.left
  have hage : Timely s (.token k) := htimely.last hes
  rw [Net.step] at hk
  split at hk
  · cases hk
  rename_i t ht
  obtain rfl := Option.some.inj hk
  refine ⟨t, ht, ?_⟩
  have hlast := hs.circulates.le_hop (next t.transmiterId)
  rcases handleToken_cases conf (next t.transmiterId) t (s.daemon (next t.transmiterId)) with
    heq | ⟨hleader, harq, hretrans, heq⟩ | ⟨-, hwrap, harq, heq⟩
  · rw [heq]
    exact Or.inl (Net.after_self hlast)
  · rw [heq, tokenHurry, if_neg hleader]
    exact Or.inr (Or.inl ⟨hleader, harq, hretrans, Net.after_sentAgain hlast t.retrans⟩)
  · refine Or.inr (Or.inr ?_)
    rw [heq]
    have htaken : Taken conf s _ (next t.transmiterId) t :=
      ⟨List.mem_of_getElem? ht, rfl, hwrap, harq, rfl⟩
    obtain ⟨hhop, hturn⟩ := hs.circulates.fresh htaken (hage t ht)
    obtain ⟨hholder, hhop'⟩ := hs.holder_taken htaken hhop hturn
    have hnext : next s.holder = next t.transmiterId := by
      rw [Net.holder, ← hhop, ← hs.circulates.sender t htaken.mem]
    refine ⟨?_, by rw [hnext], hhop', hnext ▸ hholder⟩
    exact hs.circulates.copies t htaken.mem s.holder (by rw [hs.circulates.holder_hop, hhop])

theorem token_taken_in_turn_sample : ∃ s s', ∃ t : Token 2,
    exec (Net.step Sample.conf) Sample.install.init Sample.run = some s
      ∧ s.step Sample.conf (.token 3) = some s' ∧ s.tokens[3]? = some t ∧ s'.hop = 5
      ∧ t.core = (s.daemon s.holder).lastToken.core
      ∧ s' = s.after (next s.holder) (acceptToken Sample.conf (next s.holder) t
        (s.daemon (next s.holder)))
      ∧ s'.hop = s.hop + 1 ∧ s'.holder = next s.holder := by
  obtain ⟨s, hs, h⟩ := exists_of_any (Net.step Sample.conf) Sample.install.init Sample.run
    (fun s => s.hop == 4 && (s.step Sample.conf (.token 3)).any fun s' => s'.hop == 5)
    (by decide +kernel)
  obtain ⟨hhop, h⟩ := Bool.and_eq_true_iff.mp h
  obtain ⟨s', hs', hhop'⟩ := (Option.any_eq_true _ _).mp h
  rw [beq_iff_eq] at hhop hhop'
  obtain ⟨t, ht, heq | ⟨-, -, -, heq⟩ | htaken⟩ := token_taken_in_turn hs hs' (by decide +kernel)
  · rw [heq] at hhop'
    omega
  · rw [heq] at hhop'
    change s.hop = 5 at hhop'
    omega
  · exact ⟨s, s', t, hs, hs', ht, hhop', htaken⟩

/-! ## The packets -/

/-- **What a daemon takes for stable, every daemon has**, at any later time. -/
theorem aru_stable {I : Install n β conf} {es fs : List (Event n β)}
    (hes : exec (Net.step conf) I.init es = some s) (hfs : exec (Net.step conf) s fs = some s')
    (htimely : StepsMeet (Net.step conf) Timely I.init (es ++ fs)) (i j : Fin n) :
    (s.daemon i).store.aru ≤ (s'.daemon i).store.aru
      ∧ (s.daemon i).store.aru ≤ (s'.daemon j).store.myAru
      ∧ ∀ p ∈ s.log, p.seq ≤ (s.daemon i).store.aru → (s'.daemon j).store.Has p := by
  have hs : Sane conf s := Sane.of_run hes htimely.left
  obtain ⟨hs', hgrows⟩ := Grows.of_run hs hfs (htimely.right hes)
  have hle : (s.daemon i).store.aru ≤ (s'.daemon j).store.myAru :=
    (hs.bounded.sound.bound_le_own i j).trans (hgrows.myAru j)
  refine ⟨hgrows.aru i, hle, fun p hp hseq => ?_⟩
  exact (hs'.stored.ok j).has_of_le hs'.stored.numbered (hgrows.log.subset hp) (hseq.trans hle)

theorem aru_stable_sample : ∃ s s',
    exec (Net.step Sample.conf) Sample.install.init Sample.run = some s
      ∧ exec (Net.step Sample.conf) s Sample.rest = some s'
      ∧ (s.daemon 0).store.aru = 1 ∧ 1 ≤ (s'.daemon 1).store.myAru := by
  obtain ⟨s, hs, h⟩ := exists_of_any (Net.step Sample.conf) Sample.install.init Sample.run
    (fun s => (s.daemon 0).store.aru == 1 && (exec (Net.step Sample.conf) s Sample.rest).isSome)
    (by decide +kernel)
  obtain ⟨haru, h⟩ := Bool.and_eq_true_iff.mp h
  obtain ⟨s', hs'⟩ := Option.isSome_iff_exists.mp h
  rw [beq_iff_eq] at haru
  exact ⟨s, s', hs, hs', haru, haru.ge.trans (aru_stable hs hs' (by decide +kernel) 0 1).2.1⟩

/-- **A safe packet is delivered only when every daemon has it.** -/
theorem safe_stable {I : Install n β conf} {es : List (Event n β)}
    (hes : exec (Net.step conf) I.init es = some s)
    (htimely : StepsMeet (Net.step conf) Timely I.init es) {i : Fin n} {p : Packet n β}
    (hp : p ∈ (s.daemon i).store.deliveries) (hsafe : p.type = .safe) (j : Fin n) :
    (s.daemon j).store.Has p := by
  have hs : Sane conf s := Sane.of_run hes htimely
  obtain ⟨hlog, hle | ⟨slot, hslot, rfl, hdelivered⟩⟩ := ((hs.stored.ok i).mem_deliveries p).mp hp
  · rw [hs.stored.discarded i] at hle
    exact (hs.stored.ok j).has_of_le hs.stored.numbered hlog
      (hle.trans (hs.bounded.sound.bound_le_own i j))
  · exact absurd hsafe (hs.stored.honest i _ slot hslot hdelivered).2

theorem safe_stable_sample : ∃ s, ∃ p : Packet 2 (List UInt8),
    exec (Net.step Sample.conf) Sample.install.init (Sample.run ++ Sample.rest) = some s
      ∧ p ∈ (s.daemon 0).store.deliveries ∧ p.type = .safe ∧ (s.daemon 1).store.Has p := by
  obtain ⟨s, hs, h⟩ := exists_of_any (Net.step Sample.conf) Sample.install.init
    (Sample.run ++ Sample.rest)
    (fun s => (s.daemon 0).store.deliveries.any fun p => p.type == .safe) (by decide +kernel)
  obtain ⟨p, hp, hsafe⟩ := List.any_eq_true.mp h
  rw [beq_iff_eq] at hsafe
  exact ⟨s, p, hs, hp, hsafe, safe_stable hs (by decide +kernel) hp hsafe 1⟩

/-- **A packet that has reached a daemon is not lost there**, until the daemon has delivered it. -/
theorem arrived_kept {I : Install n β conf} {es fs : List (Event n β)} {i : Fin n} {k : ℕ}
    {dest : Dest n} {p : Packet n β} (hes : exec (Net.step conf) I.init es = some s)
    (hk : s.datagrams[k]? = some (dest, p)) (hstep : s.step conf (.packet i k) = some s')
    (hfs : exec (Net.step conf) s' fs = some s'')
    (htimely : StepsMeet (Net.step conf) Timely I.init (es ++ .packet i k :: fs)) :
    (s''.daemon i).store.Has p := by
  rw [show es ++ Event.packet i k :: fs = (es ++ [.packet i k]) ++ fs by simp] at htimely
  have hs : Sane conf s := Sane.of_run hes htimely.left.left
  have hes' : exec (Net.step conf) I.init (es ++ [.packet i k]) = some s' :=
    exec_snoc_eq_some.mpr ⟨s, hes, hstep⟩
  have hs' : Sane conf s' := Sane.of_run hes' htimely.left
  obtain ⟨-, hgrows⟩ := Grows.of_run hs' hfs (htimely.right hes')
  refine (hgrows.keeps i).has (hs'.stored.honest i) p ?_
  rw [Net.step, hk] at hstep
  dsimp only at hstep
  split at hstep
  · obtain rfl := Option.some.inj hstep
    have hself : (s.after i (handleBcast p (s.daemon i), [])).daemon i
        = handleBcast p (s.daemon i) := Function.update_self _ _ _
    rw [hself]
    exact (hs.stored.ok i).has_handleBcast hs.stored.numbered (hs.stored.honest i) _
      (hs.stored.datagrams _ (List.mem_of_getElem? hk))
  · cases hstep

theorem arrived_kept_sample : ∃ s s' s'', ∃ p : Packet 2 (List UInt8),
    exec (Net.step Sample.conf) Sample.install.init Sample.run = some s
      ∧ s.datagrams[3]? = some (.proc 1, p) ∧ s.step Sample.conf (.packet 1 3) = some s'
      ∧ exec (Net.step Sample.conf) s' Sample.rest.tail = some s''
      ∧ (s''.daemon 1).store.Has p := by
  obtain ⟨s, hs, h⟩ := exists_of_any (Net.step Sample.conf) Sample.install.init Sample.run
    (fun s => (s.datagrams[3]?.any fun d => d.1 == .proc 1)
      && (s.step Sample.conf (.packet 1 3)).any fun s' =>
        (exec (Net.step Sample.conf) s' Sample.rest.tail).isSome) (by decide +kernel)
  obtain ⟨hk, h⟩ := Bool.and_eq_true_iff.mp h
  obtain ⟨⟨dest, p⟩, hk, hdest⟩ := (Option.any_eq_true _ _).mp hk
  obtain rfl : dest = .proc 1 := by simpa using hdest
  obtain ⟨s', hs', h⟩ := (Option.any_eq_true _ _).mp h
  obtain ⟨s'', hs''⟩ := Option.isSome_iff_exists.mp h
  exact ⟨s, s', s'', p, hs, hk, hs', hs'', arrived_kept hs hk hs' hs'' (by decide +kernel)⟩

end

end SpreadAccount.Daemon
