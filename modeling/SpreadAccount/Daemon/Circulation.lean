import SpreadAccount.Daemon.Net
import Mathlib.Tactic.Ring

set_option autoImplicit false

/-! # The token goes round

A token that is new to a daemon differs from the last one in four bits (`Get_arq`), which the
leader counts up. The network may lose, repeat and delay tokens, and the leader and others send
tokens again, so many copies of many tokens are on their way at any time.

`Circulates` says what they look like. With tokens that are not older than fifteen rounds,
`Circulates.fresh`: a daemon takes only the token that was sent last, and it is its turn.
-/

namespace SpreadAccount.Daemon

/-- Four bits tell the last round from the fifteen before it. In hops: `l` was the last hop of a
daemon, and the token of the hop `h` is for its turn. -/
theorem eq_of_arq {n l h top : ℕ} (hn : 0 < n) (hturn : (h + 1) % n = l % n)
    (harq : h / n % 16 = if l % n = 0 then l / n % 16 else (l / n % 16 + 1) % 16)
    (hle : h ≤ top) (htop : top < l + n) (hage : l ≤ h + 15 * n) : h + 1 = l + n := by
  have hl : n * (l / n) + l % n = l := Nat.div_add_mod l n
  have hh : n * ((h + 1) / n) + (h + 1) % n = h + 1 := Nat.div_add_mod (h + 1) n
  have hlt : l % n < n := Nat.mod_lt _ hn
  rw [hturn] at hh
  generalize (h + 1) / n = m at hh
  generalize l / n = k at harq hl
  -- the round `m` of the turn is one of sixteen
  have hupper : m ≤ k + 1 := by
    by_contra hlt'
    have := Nat.mul_le_mul_left n (show k + 2 ≤ m by omega)
    have : n * (k + 2) = n * k + n + n := by ring
    omega
  have hlower : k ≤ m + 14 := by
    by_contra hlt'
    have := Nat.mul_le_mul_left n (show m + 15 ≤ k by omega)
    have : n * (m + 15) = n * m + 15 * n := by ring
    omega
  have hround : m = k + 1 := by
    by_cases hzero : l % n = 0
    · cases m with
      | zero =>
          rw [hzero, Nat.mul_zero] at hh
          omega
      | succ m =>
          have hdiv : h / n = m := by
            rw [Nat.mul_succ] at hh
            rw [show h = n * m + (n - 1) by omega, Nat.mul_add_div hn,
              Nat.div_eq_of_lt (show n - 1 < n by omega), Nat.add_zero]
          rw [if_pos hzero, hdiv] at harq
          omega
    · have hdiv : h / n = m := by
        rw [show h = n * m + (l % n - 1) by omega, Nat.mul_add_div hn,
          Nat.div_eq_of_lt (show l % n - 1 < n by omega), Nat.add_zero]
      rw [if_neg hzero, hdiv] at harq
      omega
  subst hround
  have : n * (k + 1) = n * k + n := by ring
  omega

section

variable {n : ℕ} [NeZero n]

theorem daemonAt_val (h : ℕ) : (daemonAt h : Fin n).val = h % n := rfl

theorem next_daemonAt (h : ℕ) : next (daemonAt h : Fin n) = daemonAt (h + 1) := by
  apply Fin.ext
  show (h % n + 1 % n) % n = (h + 1) % n
  rw [← Nat.add_mod]

theorem daemonAt_eq_iff {h : ℕ} {i : Fin n} : daemonAt h = i ↔ h % n = i.val := by
  rw [Fin.ext_iff, daemonAt_val]

end

/-! ## What a step changes -/

section

variable {n : ℕ} {β : Type} [Payload β] {conf : RingConf n} {s s' : Net n β}

namespace Calm

variable {i : Fin n}

theorem daemon (h : Calm conf s s' i) (j : Fin n) :
    (s'.daemon j).lastToken.core = (s.daemon j).lastToken.core
      ∧ (s'.daemon j).justInstalled = (s.daemon j).justInstalled
      ∧ (s'.daemon j).lastNumRetrans = (s.daemon j).lastNumRetrans
      ∧ (s'.daemon j).lastNumSent = (s.daemon j).lastNumSent
      ∧ ((s'.daemon j).tokenCounter = (s.daemon j).tokenCounter ∨ (s'.daemon j).tokenCounter = 0)
      ∧ (s'.daemon j).store.aru = (s.daemon j).store.aru
      ∧ (s'.daemon j).store.lastDiscarded = (s.daemon j).store.lastDiscarded
      ∧ (s.daemon j).store.myAru ≤ (s'.daemon j).store.myAru
      ∧ Keeps (s.daemon j).store (s'.daemon j).store := by
  obtain ⟨r, hidle, hdaemon, -⟩ := h.idle
  rw [hdaemon]
  by_cases hj : j = i
  · subst hj
    rw [Function.update_self]
    exact ⟨hidle.core, hidle.justInstalled, hidle.lastNumRetrans, hidle.lastNumSent,
      hidle.tokenCounter, hidle.aru, hidle.lastDiscarded, hidle.myAru, hidle.keeps⟩
  · rw [Function.update_of_ne hj]
    exact ⟨rfl, rfl, rfl, rfl, Or.inl rfl, rfl, rfl, le_rfl, Keeps.refl _⟩

theorem core (h : Calm conf s s' i) (j : Fin n) :
    (s'.daemon j).lastToken.core = (s.daemon j).lastToken.core := (h.daemon j).1

theorem lastHop (h : Calm conf s s' i) (j : Fin n) :
    (s'.daemon j).lastToken.hop = (s.daemon j).lastToken.hop :=
  congrArg (·.2.2.2.2.2) (h.core j)

theorem others (h : Calm conf s s' i) {j : Fin n} (hj : j ≠ i) : s'.daemon j = s.daemon j := by
  obtain ⟨r, -, hdaemon, -⟩ := h.idle
  rw [hdaemon, Function.update_of_ne hj]

/-- The tokens on their way: those of before, and perhaps copies of the last token of `i`. -/
theorem mem_tokens (h : Calm conf s s' i) {t : Token n} (ht : t ∈ s'.tokens) :
    t ∈ s.tokens ∨ t.core = (s.daemon i).lastToken.core ∧ t.transmiterId = i ∧ t.rtr = [] := by
  obtain ⟨r, hidle, -, htokens⟩ := h.idle
  rw [htokens] at ht
  rcases List.mem_append.mp ht with ht | ht
  · exact Or.inl ht
  · obtain ⟨x, hx, hxt⟩ := List.mem_filterMap.mp ht
    rcases hidle.sends x hx with ⟨procId, rfl⟩ | ⟨t', rfl, ht'⟩
    · cases hxt
    · obtain rfl := Option.some.inj hxt
      exact Or.inr ht'

end Calm

namespace Taken

variable [NeZero n] {i : Fin n} {t : Token n}

theorem daemon_self (h : Taken conf s s' i t) :
    s'.daemon i = (acceptToken conf i t (s.daemon i)).1 := by
  rw [h.eq]
  exact Function.update_self _ _ _

theorem daemon_of_ne (h : Taken conf s s' i t) {j : Fin n} (hj : j ≠ i) :
    s'.daemon j = s.daemon j := by
  rw [h.eq]
  exact Function.update_of_ne hj _ _

theorem hop (h : Taken conf s s' i t) : s'.hop = max s.hop (t.hop + 1) := by
  rw [h.eq]
  rfl

theorem accepted (h : Taken conf s s' i t) : s'.accepted = s.accepted := by
  rw [h.eq]
  rfl

theorem mem_tokens (h : Taken conf s s' i t) {t' : Token n} (ht' : t' ∈ s'.tokens) :
    t' ∈ s.tokens ∨ t' = (s.daemon i).passOn conf i t := by
  rw [h.eq] at ht'
  rcases List.mem_append.mp ht' with ht' | ht'
  · exact Or.inl ht'
  · obtain ⟨x, hx, hxt⟩ := List.mem_filterMap.mp ht'
    rcases mem_sends hx with hx | ⟨p, -, rfl⟩ | rfl
    · obtain ⟨req, -, slot, -, rfl⟩ := mem_answerRetrans_sends hx
      cases hxt
    · cases hxt
    · exact Or.inr (Option.some.inj hxt).symm

end Taken

end

/-! ## The tokens on their way -/

section

variable {n : ℕ} [NeZero n] {β : Type} {s s' : Net n β}

/-- **The turns of the daemons and the tokens on their way.** -/
structure Circulates (s : Net n β) : Prop where
  turn : ∀ i, (s.daemon i).lastToken.hop % n = i.val
  le_hop : ∀ i, (s.daemon i).lastToken.hop ≤ s.hop
  /-- Every daemon has had a turn in the last round. -/
  hop_lt : ∀ i, s.hop < (s.daemon i).lastToken.hop + n
  arq : ∀ i, (s.daemon i).lastToken.arq = (s.daemon i).lastToken.hop / n % 0x10
  sender : ∀ t ∈ s.tokens, t.transmiterId = daemonAt t.hop
  sent : ∀ t ∈ s.tokens, t.hop ≤ s.hop
  tokenArq : ∀ t ∈ s.tokens, t.arq = t.hop / n % 0x10
  copies : ∀ t ∈ s.tokens, ∀ i, (s.daemon i).lastToken.hop = t.hop →
    t.core = (s.daemon i).lastToken.core

/-- The daemon that has passed the token on last. -/
def Net.holder (s : Net n β) : Fin n := daemonAt s.hop

namespace Circulates

/-- Only one daemon had its last turn at a given hop. -/
theorem turn_inj (h : Circulates s) {i j : Fin n}
    (heq : (s.daemon i).lastToken.hop = (s.daemon j).lastToken.hop) : i = j := by
  apply Fin.ext
  rw [← h.turn i, ← h.turn j, heq]

theorem holder_hop (h : Circulates s) : (s.daemon s.holder).lastToken.hop = s.hop := by
  have hturn := h.turn s.holder
  have hle := h.le_hop s.holder
  have hlt := h.hop_lt s.holder
  have hval : s.holder.val = s.hop % n := rfl
  rw [hval] at hturn
  have hl := Nat.div_add_mod (s.daemon s.holder).lastToken.hop n
  have hh := Nat.div_add_mod s.hop n
  have hmod := Nat.mod_lt s.hop (Nat.pos_of_neZero n)
  have hdiv : (s.daemon s.holder).lastToken.hop / n = s.hop / n := by
    apply le_antisymm (Nat.div_le_div_right hle)
    by_contra hcon
    have := Nat.mul_le_mul_left n (show (s.daemon s.holder).lastToken.hop / n + 1 ≤ s.hop / n by
      omega)
    rw [Nat.mul_add, Nat.mul_one] at this
    omega
  rw [← hl, ← hh, hturn, hdiv]

theorem holder_eq (h : Circulates s) {i : Fin n} (hi : (s.daemon i).lastToken.hop = s.hop) :
    i = s.holder := h.turn_inj (hi.trans h.holder_hop.symm)

variable [Payload β] {conf : RingConf n}

/-- **A daemon takes only the token that was sent last, and it is its turn.** -/
theorem fresh (h : Circulates s) {i : Fin n} {t : Token n} (ht : Taken conf s s' i t)
    (hage : (s.daemon i).lastToken.hop ≤ t.hop + 15 * n) :
    t.hop = s.hop ∧ (s.daemon i).lastToken.hop + n = s.hop + 1 := by
  have hto : (t.hop + 1) % n = i.val := by
    rw [← daemonAt_eq_iff, ← next_daemonAt, ← h.sender t ht.mem, ← ht.dest]
  have harq := ht.arq
  have hleader : i = leader ↔ (s.daemon i).lastToken.hop % n = 0 := by
    rw [h.turn i, Fin.ext_iff]
    rfl
  simp only [h.tokenArq t ht.mem, h.arq i, hleader] at harq
  have hturn := eq_of_arq (Nat.pos_of_neZero n) (hto.trans (h.turn i).symm) harq
    (h.sent t ht.mem) (h.hop_lt i) hage
  have := h.sent t ht.mem
  have := h.hop_lt i
  exact ⟨by omega, by omega⟩

theorem calm_hop (h : Circulates s) {i : Fin n} (hs : Calm conf s s' i) : s'.hop = s.hop := by
  rw [hs.hop]
  exact max_eq_left (h.le_hop i)

theorem calm (h : Circulates s) {i : Fin n} (hs : Calm conf s s' i) : Circulates s' := by
  have harq : ∀ j, (s'.daemon j).lastToken.arq = (s.daemon j).lastToken.arq := fun j =>
    congrArg (·.1) (hs.core j)
  have hcopy : ∀ t ∈ s'.tokens, t ∈ s.tokens
      ∨ t.hop = (s.daemon i).lastToken.hop ∧ t.arq = (s.daemon i).lastToken.arq
        ∧ t.core = (s.daemon i).lastToken.core ∧ t.transmiterId = i := by
    intro t ht
    rcases hs.mem_tokens ht with ht | ⟨hcore, hi, -⟩
    · exact Or.inl ht
    · exact Or.inr ⟨congrArg (·.2.2.2.2.2) hcore, congrArg (·.1) hcore, hcore, hi⟩
  refine ⟨fun j => ?_, fun j => ?_, fun j => ?_, fun j => ?_, fun t ht => ?_, fun t ht => ?_,
    fun t ht => ?_, fun t ht j hj => ?_⟩
  · rw [hs.lastHop]
    exact h.turn j
  · rw [hs.lastHop, h.calm_hop hs]
    exact h.le_hop j
  · rw [hs.lastHop, h.calm_hop hs]
    exact h.hop_lt j
  · rw [hs.lastHop, harq]
    exact h.arq j
  · rcases hcopy t ht with ht | ⟨hhop, -, -, hi⟩
    · exact h.sender t ht
    · rw [hi, hhop, eq_comm, daemonAt_eq_iff]
      exact h.turn i
  · rw [h.calm_hop hs]
    rcases hcopy t ht with ht | ⟨hhop, -, -, -⟩
    · exact h.sent t ht
    · rw [hhop]
      exact h.le_hop i
  · rcases hcopy t ht with ht | ⟨hhop, hta, -, -⟩
    · exact h.tokenArq t ht
    · rw [hhop, hta]
      exact h.arq i
  · rw [hs.lastHop] at hj
    rw [hs.core]
    rcases hcopy t ht with ht | ⟨hhop, -, hcore, -⟩
    · exact h.copies t ht j hj
    · rw [h.turn_inj (hj.trans hhop)]
      exact hcore

/-- The number of the next token. -/
theorem passOn_arq (h : Circulates s) {i : Fin n} {t : Token n} (ht : Taken conf s s' i t)
    (hturn : (s.daemon i).lastToken.hop + n = s.hop + 1) :
    ((s.daemon i).passOn conf i t).arq = (s.hop + 1) / n % 0x10 := by
  have hn := Nat.pos_of_neZero n
  have hround : (s.hop + 1) / n = (s.daemon i).lastToken.hop / n + 1 := by
    rw [← hturn, Nat.add_div_right _ hn]
  have harq := ht.arq
  rw [h.arq i] at harq
  show (if i = leader then (t.arq + 1) % 0x10 else t.arq) = _
  rw [hround, harq]
  split <;> omega

theorem taken (h : Circulates s) {i : Fin n} {t : Token n} (ht : Taken conf s s' i t)
    (hage : (s.daemon i).lastToken.hop ≤ t.hop + 15 * n) : Circulates s' := by
  obtain ⟨hhop, hturn⟩ := h.fresh ht hage
  have hself : (s'.daemon i).lastToken = (s.daemon i).passOn conf i t :=
    congrArg Prot.lastToken ht.daemon_self
  have hlast : (s'.daemon i).lastToken.hop = s.hop + 1 := by
    rw [hself, ← hhop]
    rfl
  have hhop' : s'.hop = s.hop + 1 := by
    rw [ht.hop, hhop]
    exact max_eq_right (Nat.le_succ _)
  have hmod : (s.hop + 1) % n = i.val := by
    rw [← hturn, Nat.add_mod_right, h.turn i]
  refine ⟨fun j => ?_, fun j => ?_, fun j => ?_, fun j => ?_, fun t' ht' => ?_, fun t' ht' => ?_,
    fun t' ht' => ?_, fun t' ht' j hj => ?_⟩
  · by_cases hj : j = i
    · subst hj
      rw [hlast, hmod]
    · rw [ht.daemon_of_ne hj]
      exact h.turn j
  · by_cases hj : j = i
    · subst hj
      rw [hlast, hhop']
    · rw [ht.daemon_of_ne hj, hhop']
      exact (h.le_hop j).trans (Nat.le_succ _)
  · by_cases hj : j = i
    · subst hj
      rw [hlast, hhop']
      exact Nat.lt_add_of_pos_right (Nat.pos_of_neZero n)
    · -- the turn of no other daemon is as long ago as that of `i`
      rw [ht.daemon_of_ne hj, hhop']
      have hne : (s.daemon j).lastToken.hop ≠ (s.daemon i).lastToken.hop := fun heq =>
        hj (h.turn_inj heq)
      have := h.hop_lt j
      omega
  · by_cases hj : j = i
    · subst hj
      rw [hlast, hself]
      exact h.passOn_arq ht hturn
    · rw [ht.daemon_of_ne hj]
      exact h.arq j
  · rcases ht.mem_tokens ht' with ht' | rfl
    · exact h.sender t' ht'
    · show i = daemonAt (t.hop + 1)
      rw [eq_comm, daemonAt_eq_iff, hhop]
      exact hmod
  · rw [hhop']
    rcases ht.mem_tokens ht' with ht' | rfl
    · exact (h.sent t' ht').trans (Nat.le_succ _)
    · exact (congrArg (· + 1) hhop).le
  · rcases ht.mem_tokens ht' with ht' | rfl
    · exact h.tokenArq t' ht'
    · rw [h.passOn_arq ht hturn, ← hself, hlast]
  · by_cases hji : j = i
    · subst hji
      rw [hlast] at hj
      rcases ht.mem_tokens ht' with ht' | rfl
      · have := h.sent t' ht'
        omega
      · rw [hself]
    · rw [ht.daemon_of_ne hji] at hj ⊢
      rcases ht.mem_tokens ht' with ht' | rfl
      · exact h.copies t' ht' j hj
      · have := h.le_hop j
        change (s.daemon j).lastToken.hop = t.hop + 1 at hj
        omega

/-! ## The start -/

theorem hopOf_spec (I : Install n β conf) (i : Fin n) :
    I.hopOf i % n = i.val ∧ I.start ≤ I.hopOf i ∧ I.hopOf i < I.start + n := by
  have hstart := Nat.div_add_mod I.start n
  have hlt := Nat.mod_lt I.start (Nat.pos_of_neZero n)
  have hi := i.isLt
  refine ⟨?_, ?_, ?_⟩
  · rw [Install.hopOf, Nat.mul_add_mod, Nat.mod_eq_of_lt hi]
  · rw [Install.hopOf]
    split
    · rw [Nat.add_zero]
      omega
    · rw [Nat.mul_add, Nat.mul_one]
      omega
  · rw [Install.hopOf]
    split
    · rw [Nat.add_zero]
      omega
    · rw [Nat.mul_add, Nat.mul_one]
      omega

theorem init (I : Install n β conf) : Circulates I.init := by
  have hn := Nat.pos_of_neZero n
  have hinj : ∀ i j, I.hopOf i = I.hopOf j → i = j := by
    intro i j hij
    apply Fin.ext
    rw [← (hopOf_spec I i).1, ← (hopOf_spec I j).1, hij]
  have hmem : ∀ t ∈ I.init.tokens, t = I.tokenOf (daemonAt (I.start + n - 1)) := fun t ht =>
    List.mem_singleton.mp ht
  refine ⟨fun i => (hopOf_spec I i).1, fun i => ?_, fun i => ?_, fun i => rfl, fun t ht => ?_,
    fun t ht => ?_, fun t ht => ?_, fun t ht i hi => ?_⟩
  · have := (hopOf_spec I i).2.2
    show I.hopOf i ≤ I.start + n - 1
    omega
  · have := (hopOf_spec I i).2.1
    show I.start + n - 1 < I.hopOf i + n
    omega
  · rw [hmem t ht]
    refine (daemonAt_eq_iff.mpr ?_).symm
    exact (hopOf_spec I _).1
  · have := (hopOf_spec I (daemonAt (I.start + n - 1))).2.2
    rw [hmem t ht]
    show I.hopOf _ ≤ I.start + n - 1
    omega
  · rw [hmem t ht]
    rfl
  · rw [hmem t ht] at hi ⊢
    rw [hinj _ _ hi]
    rfl

end Circulates

end

end SpreadAccount.Daemon
