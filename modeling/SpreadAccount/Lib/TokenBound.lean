import Mathlib.Order.Lattice
import Mathlib.Order.MinMax
import Mathlib.Order.BoundedOrder.Lattice
import Mathlib.Logic.Function.Basic

set_option autoImplicit false

/-! # A lower bound that a token carries around a ring

Every member `i` of a ring has a value `own i` that only grows. A token goes round and carries a
candidate for a lower bound of all these values: a member lowers it to its own value, and raises it
only if it was the last to change it or if the candidate has reached the token's `top`. What a
member may rely on (`bound i`) is the smaller of the candidates it has sent in its last two turns.

`Circuit` is the state, `Circuit.pass` is one turn. The invariant `Sound` says what the rules
keep; `Sound.bound_le_own` is the point of the construction: what a member relies on is a lower
bound of every member's value. `Sound.bound_mono` says that it never falls.
`Settles.bound_eq_top` says that it gets there: when every member has everything, then after three
rounds every member relies on it.

No member needs to know how many members there are. The order of the turns is in `turn`: the next
member is the one whose last turn is longest ago.
-/

namespace TokenBound

/-- The state of the members and of the token between two turns. -/
structure Circuit (ι α : Type*) where
  /-- When the member had its last turn. -/
  turn : ι → ℕ
  own : ι → α
  /-- The candidate the member sent in its last turn. -/
  sent : ι → α
  bound : ι → α
  /-- Whether the member has had a turn. -/
  started : ι → Prop
  candidate : α
  /-- Who changed the candidate last. -/
  changedBy : Option ι
  top : α

variable {ι α : Type*} [DecidableEq ι] [LinearOrder α]

/-- Whether member `i` with the value `v` sets the candidate to `v`. -/
def Circuit.Sets (c : Circuit ι α) (i : ι) (v : α) : Prop :=
  v < c.candidate ∨ c.changedBy = some i ∨ c.candidate = c.top

instance (c : Circuit ι α) (i : ι) (v : α) : Decidable (c.Sets i v) :=
  inferInstanceAs (Decidable (_ ∨ _ ∨ _))

/-- The candidate that member `i` with the value `v` sends. -/
def Circuit.next (c : Circuit ι α) (i : ι) (v : α) : α := if c.Sets i v then v else c.candidate

/-- A turn of member `i` at time `t`, with the value `v` and the new top `top`. -/
def Circuit.pass (c : Circuit ι α) (i : ι) (t : ℕ) (v top : α) : Circuit ι α where
  turn := Function.update c.turn i t
  own := Function.update c.own i v
  sent := Function.update c.sent i (c.next i v)
  bound := Function.update c.bound i (min (c.next i v) (c.sent i))
  started j := j = i ∨ c.started j
  candidate := c.next i v
  changedBy := if c.Sets i v then some i else c.changedBy
  top := top

/-- The value of member `i` grows to `v`. -/
def Circuit.grow (c : Circuit ι α) (i : ι) (v : α) : Circuit ι α :=
  { c with own := Function.update c.own i v }

section

variable (c : Circuit ι α) (i : ι) (t : ℕ) (v top : α)

theorem Circuit.pass_turn : (c.pass i t v top).turn = Function.update c.turn i t := rfl

theorem Circuit.pass_own : (c.pass i t v top).own = Function.update c.own i v := rfl

theorem Circuit.pass_sent : (c.pass i t v top).sent = Function.update c.sent i (c.next i v) := rfl

theorem Circuit.pass_changedBy :
    (c.pass i t v top).changedBy = if c.Sets i v then some i else c.changedBy := rfl

end

theorem Circuit.next_le (c : Circuit ι α) (i : ι) (v : α) : c.next i v ≤ v := by
  rw [Circuit.next]
  split
  · exact le_rfl
  · rename_i h
    exact not_lt.mp fun hlt => h (Or.inl hlt)

/-- A candidate that is sent is the old one or is not below any bound of both. -/
theorem Circuit.le_next {c : Circuit ι α} {i : ι} {v x : α} (hv : x ≤ v) (hc : x ≤ c.candidate) :
    x ≤ c.next i v := by
  rw [Circuit.next]
  split
  · exact hv
  · exact hc

variable [OrderBot α]

/-- **The invariant.** -/
structure Sound (c : Circuit ι α) : Prop where
  sent_le_own : ∀ i, c.sent i ≤ c.own i
  sent_le_top : ∀ i, c.sent i ≤ c.top
  bound_le_candidate : ∀ i, c.bound i ≤ c.candidate
  bound_le_sent : ∀ i j, c.bound i ≤ c.sent j
  /-- Since the turn of `i` the candidate was nowhere lower than it was there and is now. -/
  dip : ∀ i j, c.turn i ≤ c.turn j → min (c.sent i) c.candidate ≤ c.sent j
  /-- Since the turn of the member that changed the candidate last, the candidate has stayed. -/
  stays : ∀ i, c.changedBy = some i →
    ∀ j, c.turn i ≤ c.turn j → c.started j → c.sent j = c.candidate
  started_later : ∀ i j, c.started i → c.turn i ≤ c.turn j → c.started j
  sent_of_not_started : ∀ i, ¬ c.started i → c.sent i = ⊥

namespace Sound

variable {c : Circuit ι α}

omit [DecidableEq ι] in
/-- **What a member relies on is a lower bound of every member's value.** -/
theorem bound_le_own (h : Sound c) (i j : ι) : c.bound i ≤ c.own j :=
  (h.bound_le_sent i j).trans (h.sent_le_own j)

/-- Whatever every member has, the next candidate has. -/
theorem bound_le_next (h : Sound c) (i j : ι) {v : α} (hv : c.own j ≤ v) :
    c.bound i ≤ c.next j v :=
  Circuit.le_next ((h.bound_le_own i j).trans hv) (h.bound_le_candidate i)

/-- **The bound never falls.** -/
theorem bound_mono (h : Sound c) {i : ι} {v : α} (hv : c.own i ≤ v) :
    c.bound i ≤ min (c.next i v) (c.sent i) :=
  le_min (h.bound_le_next i i hv) (h.bound_le_sent i i)

theorem grow (h : Sound c) {i : ι} {v : α} (hv : c.own i ≤ v) : Sound (c.grow i v) where
  sent_le_own j := by
    show c.sent j ≤ Function.update c.own i v j
    by_cases hj : j = i
    · rw [hj, Function.update_self]
      exact (h.sent_le_own i).trans hv
    · rw [Function.update_of_ne hj]
      exact h.sent_le_own j
  sent_le_top := h.sent_le_top
  bound_le_candidate := h.bound_le_candidate
  bound_le_sent := h.bound_le_sent
  dip := h.dip
  stays := h.stays
  started_later := h.started_later
  sent_of_not_started := h.sent_of_not_started

/-- In the turn of `i`, the dip of the candidate since the turn of `a` is no deeper than the new
candidate. If the candidate is raised, either nobody has changed it since the last turn of `i`,
or it was at the top. -/
theorem dip_next (h : Sound c) {i a b : ι} {v : α} (hia : c.turn i ≤ c.turn a)
    (hab : c.turn a ≤ c.turn b) : min (c.sent a) (c.next i v) ≤ c.sent b := by
  have hold : min (c.sent a) c.candidate ≤ c.sent b := h.dip a b hab
  rcases le_or_gt (c.next i v) c.candidate with hle | hraised
  · exact (min_le_min le_rfl hle).trans hold
  by_cases hb : c.started b
  · have hset : c.Sets i v := by
      by_contra hno
      rw [Circuit.next, if_neg hno] at hraised
      exact lt_irrefl _ hraised
    rcases hset with hlow | hmine | htop
    · exact absurd ((c.next_le i v).trans hlow.le) (not_le.mpr hraised)
    · by_cases ha : c.started a
      · rw [h.stays i hmine a hia ha, h.stays i hmine b (hia.trans hab) hb]
        exact min_le_left _ _
      · rw [h.sent_of_not_started a ha]
        exact (min_le_left _ _).trans bot_le
    · refine (min_le_left _ _).trans ?_
      rwa [min_eq_left (htop ▸ h.sent_le_top a)] at hold
  · have ha : ¬ c.started a := fun ha => hb (h.started_later a b ha hab)
    rw [h.sent_of_not_started a ha]
    exact (min_le_left _ _).trans bot_le

/-- **One turn keeps the invariant.** -/
theorem pass (h : Sound c) {i : ι} {t : ℕ} {v top : α} (hnext : ∀ j, j ≠ i → c.turn i < c.turn j)
    (hlast : ∀ j, c.turn j < t) (hown : c.own i ≤ v) (hv : v ≤ top) (htop : c.top ≤ top) :
    Sound (c.pass i t v top) := by
  have hfirst : ∀ j, c.turn i ≤ c.turn j := fun j => by
    by_cases hj : j = i
    · rw [hj]
    · exact (hnext j hj).le
  have hbound : ∀ j, Function.update c.bound i (min (c.next i v) (c.sent i)) j ≤ c.next i v := by
    intro j
    by_cases hj : j = i
    · subst hj
      rw [Function.update_self]
      exact min_le_left _ _
    · rw [Function.update_of_ne hj]
      exact h.bound_le_next j i hown
  -- a turn later than that of `i` can only be its own
  have hlater : ∀ j, Function.update c.turn i t i ≤ Function.update c.turn i t j → j = i := by
    intro j hj
    by_contra hne
    rw [Function.update_self, Function.update_of_ne hne] at hj
    exact absurd (hlast j) (not_lt.mpr hj)
  refine ⟨?_, ?_, hbound, ?_, ?_, ?_, ?_, ?_⟩
  · intro j
    by_cases hj : j = i
    · subst hj
      rw [Circuit.pass_sent, Circuit.pass_own, Function.update_self, Function.update_self]
      exact c.next_le j v
    · rw [Circuit.pass_sent, Circuit.pass_own, Function.update_of_ne hj, Function.update_of_ne hj]
      exact h.sent_le_own j
  · intro j
    by_cases hj : j = i
    · subst hj
      rw [Circuit.pass_sent, Function.update_self]
      exact (c.next_le j v).trans hv
    · rw [Circuit.pass_sent, Function.update_of_ne hj]
      exact (h.sent_le_top j).trans htop
  · intro a b
    show Function.update c.bound i _ a ≤ Function.update c.sent i _ b
    by_cases hb : b = i
    · subst hb
      rw [Function.update_self (f := c.sent)]
      exact hbound a
    · rw [Function.update_of_ne hb (f := c.sent)]
      by_cases ha : a = i
      · subst ha
        rw [Function.update_self, min_comm]
        exact h.dip_next le_rfl (hfirst b)
      · rw [Function.update_of_ne ha]
        exact h.bound_le_sent a b
  · intro a b hab
    by_cases hb : b = i
    · subst hb
      rw [Circuit.pass_sent, Function.update_self]
      exact min_le_right _ _
    · have ha : a ≠ i := by
        rintro rfl
        exact hb (hlater b hab)
      rw [Circuit.pass_turn, Function.update_of_ne ha, Function.update_of_ne hb] at hab
      rw [Circuit.pass_sent, Function.update_of_ne ha, Function.update_of_ne hb]
      exact h.dip_next (hfirst a) hab
  · intro a ha b hab hb
    by_cases hset : c.Sets i v
    · rw [Circuit.pass_changedBy, if_pos hset] at ha
      obtain rfl : i = a := Option.some.inj ha
      obtain rfl := hlater b hab
      rw [Circuit.pass_sent, Function.update_self]
      rfl
    · have hkept : c.next i v = c.candidate := if_neg hset
      rw [Circuit.pass_changedBy, if_neg hset] at ha
      have hai : a ≠ i := by
        rintro rfl
        exact hset (Or.inr (Or.inl ha))
      by_cases hbi : b = i
      · subst hbi
        rw [Circuit.pass_sent, Function.update_self]
        rfl
      · rw [Circuit.pass_turn, Function.update_of_ne hai, Function.update_of_ne hbi] at hab
        rw [Circuit.pass_sent, Function.update_of_ne hbi]
        show c.sent b = c.next i v
        rw [hkept]
        exact h.stays a ha b hab (hb.resolve_left hbi)
  · intro a b ha hab
    by_cases hb : b = i
    · exact Or.inl hb
    · have hai : a ≠ i := by
        rintro rfl
        exact hb (hlater b hab)
      rw [Circuit.pass_turn, Function.update_of_ne hai, Function.update_of_ne hb] at hab
      exact Or.inr (h.started_later a b (ha.resolve_left hai) hab)
  · intro a ha
    have hai : a ≠ i := fun h' => ha (Or.inl h')
    rw [Circuit.pass_sent, Function.update_of_ne hai]
    exact h.sent_of_not_started a fun h' => ha (Or.inr h')

end Sound

/-! ## A circuit in which every member has everything

A candidate below the top is that of the member that changed it last, and this member raises it in
its next turn. From then on every member sends the top, and relies on it one turn later. -/

omit [DecidableEq ι] in
/-- A member that relies on the top knows that every member has sent it. -/
theorem Sound.sent_eq_top {c : Circuit ι α} (h : Sound c) {i : ι} (hi : c.bound i = c.top) (j : ι) :
    c.sent j = c.top :=
  le_antisymm (h.sent_le_top j) (hi.ge.trans (h.bound_le_sent i j))

/-- Of `n` members, each with a turn in `n` steps, all have everything since the time `t₀`; `t` is
the time of the last turn. -/
structure Settles (n t₀ t : ℕ) (c : Circuit ι α) : Prop where
  own : ∀ i, c.own i = c.top
  turn_le : ∀ i, c.turn i ≤ t
  lt_turn : ∀ i, t < c.turn i + n
  inj : ∀ i j, c.turn i = c.turn j → i = j
  candidate : c.candidate = c.top ∨ ∃ j, c.changedBy = some j ∧ c.turn j ≤ t₀
  sent : ∀ i, t₀ + n ≤ c.turn i → c.sent i = c.top
  bound : ∀ i, t₀ + 2 * n ≤ c.turn i → c.bound i = c.top

namespace Settles

variable {n t₀ t : ℕ} {c : Circuit ι α}

omit [DecidableEq ι] [OrderBot α] in
theorem start (hown : ∀ i, c.own i = c.top) (hle : ∀ i, c.turn i ≤ t) (hlt : ∀ i, t < c.turn i + n)
    (hinj : ∀ i j, c.turn i = c.turn j → i = j) {j : ι} (hj : c.changedBy = some j) :
    Settles n t t c where
  own := hown
  turn_le := hle
  lt_turn := hlt
  inj := hinj
  candidate := Or.inr ⟨j, hj, hle j⟩
  sent i hi := by
    have := hle i
    have := hlt i
    omega
  bound i hi := by
    have := hle i
    have := hlt i
    omega

omit [OrderBot α] in
/-- Once the member that changed the candidate last has had its turn, the candidate is the top. -/
theorem next_eq_top (h : Settles n t₀ t c) {i : ι} (hi : c.turn i + n = t + 1)
    (ht : t₀ + n ≤ t + 1) : c.next i c.top = c.top := by
  rcases h.candidate with htop | ⟨j, hj, hle⟩
  · exact if_pos (Or.inr (Or.inr htop))
  · have hlt := h.lt_turn j
    obtain rfl : j = i := h.inj j i (by omega)
    exact if_pos (Or.inr (Or.inl hj))

omit [OrderBot α] in
/-- **One turn.** -/
theorem pass (h : Settles n t₀ t c) {i : ι} (hi : c.turn i + n = t + 1) (hn : 0 < n) :
    Settles n t₀ (t + 1) (c.pass i (t + 1) c.top c.top) := by
  refine ⟨fun j => ?_, fun j => ?_, fun j => ?_, fun j k => ?_, ?_, fun j => ?_, fun j => ?_⟩
  · show Function.update c.own i c.top j = c.top
    by_cases hj : j = i
    · rw [hj, Function.update_self]
    · rw [Function.update_of_ne hj]
      exact h.own j
  · rw [Circuit.pass_turn]
    by_cases hj : j = i
    · rw [hj, Function.update_self]
    · rw [Function.update_of_ne hj]
      exact (h.turn_le j).trans (Nat.le_succ _)
  · rw [Circuit.pass_turn]
    by_cases hj : j = i
    · rw [hj, Function.update_self]
      omega
    · rw [Function.update_of_ne hj]
      have := h.lt_turn j
      have : c.turn j ≠ c.turn i := fun heq => hj (h.inj j i heq)
      omega
  · rw [Circuit.pass_turn]
    have hle := h.turn_le
    by_cases hj : j = i
    · by_cases hk : k = i
      · rw [hj, hk]
        exact fun _ => rfl
      · rw [hj, Function.update_self, Function.update_of_ne hk]
        intro heq
        have := hle k
        omega
    · by_cases hk : k = i
      · rw [hk, Function.update_self, Function.update_of_ne hj]
        intro heq
        have := hle j
        omega
      · rw [Function.update_of_ne hj, Function.update_of_ne hk]
        exact h.inj j k
  · by_cases hset : c.Sets i c.top
    · exact Or.inl (if_pos hset)
    · rcases h.candidate with htop | ⟨j, hj, hle⟩
      · exact absurd (Or.inr (Or.inr htop)) hset
      · have hji : j ≠ i := by
          rintro rfl
          exact hset (Or.inr (Or.inl hj))
        refine Or.inr ⟨j, ?_, ?_⟩
        · rw [Circuit.pass_changedBy, if_neg hset, hj]
        · rw [Circuit.pass_turn, Function.update_of_ne hji]
          exact hle
  · rw [Circuit.pass_turn, Circuit.pass_sent]
    by_cases hj : j = i
    · rw [hj, Function.update_self, Function.update_self]
      exact h.next_eq_top hi
    · rw [Function.update_of_ne hj, Function.update_of_ne hj]
      exact h.sent j
  · show _ ≤ Function.update c.turn i _ j → Function.update c.bound i _ j = c.top
    by_cases hj : j = i
    · rw [hj, Function.update_self, Function.update_self]
      intro ht
      rw [h.next_eq_top hi (by omega), h.sent i (by omega), min_self]
    · rw [Function.update_of_ne hj, Function.update_of_ne hj]
      exact h.bound j

omit [DecidableEq ι] [LinearOrder α] [OrderBot α] in
/-- **After three rounds every member relies on the top.** -/
theorem bound_eq_top (h : Settles n t₀ t c) (ht : t₀ + 3 * n ≤ t + 1) (i : ι) :
    c.bound i = c.top := by
  have := h.lt_turn i
  exact h.bound i (by omega)

end Settles

end TokenBound
