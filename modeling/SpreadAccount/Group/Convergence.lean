import SpreadAccount.Group.Invariant
import SpreadAccount.Lib.Reorder

set_option autoImplicit false

/-! # Convergence

The messages are sent `RELIABLE`, so different replicas can deliver the same messages in
different orders. Over exact rationals the effect of a message on the balance is an affine map: a
deposit shifts, an interest scales, a `balanceUpdate` has the factor `0`. Whether replicas with
the same messages agree is then a question about the pairs of messages they have delivered in
opposite orders (`converge_of_swaps`); a deposit and an interest are such a pair that does not
commute (`diverge_on_deposit_and_interest`). `batches_in_two_orders` is about everything else that
two orders of the same batches leave behind.
-/

namespace SpreadAccount

open scoped List
open Reorder (Affine)

/-! ## Messages as affine maps -/

section

variable {τ : Type}

/-- A deposit shifts, an interest scales. -/
def Call.line : Call ℚ → Affine ℚ
  | .deposit amount => ⟨1, amount⟩
  | .addInterest percent => ⟨1 + percent / 100, 0⟩
  | .getSyncedBalance => .stay

def Transaction.line (t : Transaction τ) : Affine ℚ :=
  match (readCall t : Except JavaException (Option (Call ℚ))) with
  | .ok (some c) => c.line
  | _ => .stay

/-- The maps of the entries of a batch, one after the other; a `balanceUpdate` forgets the
balance it finds. -/
def SpreadMessage.line (m : SpreadMessage ℚ τ) : Affine ℚ :=
  if m.type = outstandingUpdate then
    (readable ℚ m.batch).foldl (fun A t => A.andThen t.line) .stay
  else if m.type = balanceUpdate then
    match m.decode with
    | .ok (_, newBalance) => ⟨0, newBalance⟩
    | .error _ => ⟨0, 0⟩
  else .stay

theorem Call.apply_eq_line (c : Call ℚ) (b : ℚ) : c.apply b = c.line.apply b := by
  cases c <;> simp [Call.apply, Call.line, Affine.apply, Affine.stay]

theorem effect_eq_line (t : Transaction τ) (b : ℚ) : effect t b = t.line.apply b := by
  unfold effect Transaction.line
  rcases (readCall t : Except JavaException (Option (Call ℚ))) with e | c
  · exact (Affine.apply_stay b).symm
  · cases c with
    | none => exact (Affine.apply_stay b).symm
    | some c => exact c.apply_eq_line b

theorem SpreadMessage.effect_eq_line (m : SpreadMessage ℚ τ) (b : ℚ) :
    m.effect b = m.line.apply b := by
  unfold SpreadMessage.effect SpreadMessage.line
  by_cases ho : m.type = outstandingUpdate
  · rw [if_pos ho, if_pos ho, Affine.apply_foldl_andThen, Affine.apply_stay, replay]
    simp only [SpreadAccount.effect_eq_line]
  · rw [if_neg ho, if_neg ho]
    by_cases hb : m.type = balanceUpdate
    · rw [if_pos hb, if_pos hb]
      cases m.decode with
      | error e => simp [Affine.apply]
      | ok locals => simp [Affine.apply]
    · rw [if_neg hb, if_neg hb]
      exact (Affine.apply_stay b).symm

end

/-! ## Deliveries by name -/

section

variable {ι : Type}

/-- The message with a given name. -/
def Group.message (g : Group ι ℚ) (n : ι × ℕ) : Option (SpreadMessage ℚ (Origin ι)) :=
  (g.replica n.1).sent[n.2]?

/-- The map of the message with a given name. -/
def Group.line (g : Group ι ℚ) (n : ι × ℕ) : Affine ℚ :=
  match g.message n with
  | some m => m.line
  | none => .stay

/-- Replicas that have delivered the same regular messages have the same balance. -/
def Group.Converged (g : Group ι ℚ) : Prop :=
  ∀ p q, (∀ n, n ∈ receivedIn (g.history p) ↔ n ∈ receivedIn (g.history q)) →
    (g.replica p).balance = (g.replica q).balance

/-- Any two messages that two replicas have delivered in opposite orders can be exchanged. With
`f` and `f'` the products of the interest factors of the two messages, and `s` and `s'` what each
of them makes of a balance of `0`, this is `s * (f' - 1) = s' * (f - 1)`. -/
def Group.SwapsOnly (g : Group ι ℚ) : Prop :=
  ∀ p q, ∀ n ∈ receivedIn (g.history p), ∀ n' ∈ receivedIn (g.history p),
    [n, n'] <+ receivedIn (g.history p) → [n', n] <+ receivedIn (g.history q) →
    (g.line n).Swaps (g.line n')

instance [Fintype ι] [DecidableEq ι] (g : Group ι ℚ) : Decidable g.SwapsOnly :=
  inferInstanceAs (Decidable (∀ p q, ∀ n ∈ receivedIn (g.history p),
    ∀ n' ∈ receivedIn (g.history p), [n, n'] <+ receivedIn (g.history p) →
      [n', n] <+ receivedIn (g.history q) → (g.line n).Swaps (g.line n')))

/-- The condition cannot be relaxed for a single pair: two replicas with the same balance that
deliver two messages in opposite orders agree afterwards exactly when the two can be exchanged. -/
theorem opposite_orders_agree_iff (m m' : SpreadMessage ℚ (Origin ι)) {r r' : Replica ℚ (Origin ι)}
    (hsame : r.balance = r'.balance) :
    (r.run [.regular m, .regular m']).balance = (r'.run [.regular m', .regular m]).balance
      ↔ m.line.Swaps m'.line := by
  rw [run_balance, run_balance, hsame, Affine.swaps_iff m.line m'.line r'.balance]
  show m'.effect (m.effect _) = m.effect (m'.effect _) ↔ _
  simp only [SpreadMessage.effect_eq_line]

variable [DecidableEq ι]

/-- The messages delivered at a replica are those with the names delivered there. -/
theorem Group.Reachable.messagesIn_eq {g : Group ι ℚ} (hg : g.Reachable) (i : ι) :
    messagesIn (g.history i) = (receivedIn (g.history i)).filterMap g.message := by
  unfold messagesIn receivedIn
  rw [List.filterMap_filterMap]
  refine List.filterMap_congr fun e he => ?_
  cases e with
  | received j k m => exact (hg.received_sent he).symm
  | _ => rfl

/-- The balance, from the names of the messages delivered, in the order of their delivery. -/
theorem Group.Reachable.balance_eq {g : Group ι ℚ} (hg : g.Reachable) (i : ι) :
    (g.replica i).balance
      = (receivedIn (g.history i)).foldl (fun b n => (g.line n).apply b) 0 := by
  rw [(hg.explained i).balance, hg.messagesIn_eq i, List.foldl_filterMap]
  congr 1
  funext b n
  unfold Group.line
  cases g.message n with
  | none => exact (Affine.apply_stay b).symm
  | some m => exact m.effect_eq_line b

/-- **When replicas converge.** In every reachable state in which only messages that can be
exchanged have been delivered in opposite orders, replicas with the same messages agree. -/
theorem converge_of_swaps {g : Group ι ℚ} (hg : g.Reachable) (hswap : g.SwapsOnly) :
    g.Converged := by
  intro p q hsame
  have hp := hg.received_nodup p
  have hq := hg.received_nodup q
  have hperm : receivedIn (g.history p) ~ receivedIn (g.history q) :=
    (List.perm_ext_iff_of_nodup hp hq).mpr hsame
  -- a pair that is inverted is one the condition is about
  have hcomm : ∀ n n', [n, n'] <+ receivedIn (g.history p) → [n', n] <+ receivedIn (g.history q) →
      ∀ b, (g.line n').apply ((g.line n).apply b) = (g.line n).apply ((g.line n').apply b) := by
    intro n n' hnn' hn'n b
    have hmem := hnn'.subset
    exact (Affine.swaps_iff _ _ b).mp
      (hswap p q n (hmem (by simp)) n' (hmem (by simp)) hnn' hn'n)
  calc (g.replica p).balance
      = (receivedIn (g.history p)).foldl (fun b n => (g.line n).apply b) 0 := hg.balance_eq p
    _ = (receivedIn (g.history q)).foldl (fun b n => (g.line n).apply b) 0 :=
        Reorder.foldl_eq_of_inversions_commute hp hperm hcomm 0
    _ = (g.replica q).balance := (hg.balance_eq q).symm

end

/-- Two deposits, delivered in opposite orders. -/
def twoDeposits : List (Event Site ℚ) :=
  startUp ++ [.command .alpha (.deposit 100), .tick .alpha, .command .beta (.deposit 50),
    .tick .beta, .deliver .alpha .alpha 0, .deliver .alpha .beta 0, .deliver .beta .beta 0,
    .deliver .beta .alpha 0]

theorem converge_of_swaps_twoDeposits :
    ∃ g, Machine.exec Group.step (Group.init fun _ => 2) twoDeposits = some g
      ∧ receivedIn (g.history .alpha) = [(.alpha, 0), (.beta, 0)]
      ∧ receivedIn (g.history .beta) = [(.beta, 0), (.alpha, 0)]
      ∧ g.Converged := by
  obtain ⟨g, hrun, hp⟩ := Group.exists_of_run (fun _ => 2) twoDeposits
    (fun g => decide (receivedIn (g.history .alpha) = [(.alpha, 0), (.beta, 0)]
      ∧ receivedIn (g.history .beta) = [(.beta, 0), (.alpha, 0)] ∧ g.SwapsOnly)) (by decide +kernel)
  obtain ⟨hrec0, hrec1, hswap⟩ := of_decide_eq_true hp
  exact ⟨g, hrun, hrec0, hrec1, converge_of_swaps ⟨_, _, hrun⟩ hswap⟩

/-- A deposit of `100` and an interest of `10` percent, delivered in opposite orders. -/
def depositAndInterest : List (Event Site ℚ) :=
  startUp ++ [.command .alpha (.deposit 100), .tick .alpha, .command .beta (.addInterest 10),
    .tick .beta, .deliver .alpha .alpha 0, .deliver .alpha .beta 0, .deliver .beta .beta 0,
    .deliver .beta .alpha 0]

theorem diverge_on_deposit_and_interest :
    ∃ g, Machine.exec Group.step (Group.init fun _ => 2) depositAndInterest = some g
      ∧ (g.replica .alpha).balance = 110 ∧ (g.replica .beta).balance = 100 ∧ ¬ g.Converged := by
  obtain ⟨g, hrun, hp⟩ := Group.exists_of_run (fun _ => 2) depositAndInterest
    (fun g => decide ((g.replica .alpha).balance = 110 ∧ (g.replica .beta).balance = 100
      ∧ receivedIn (g.history .alpha) = [(.alpha, 0), (.beta, 0)]
      ∧ receivedIn (g.history .beta) = [(.beta, 0), (.alpha, 0)])) (by decide +kernel)
  obtain ⟨h0, h1, hrec0, hrec1⟩ := of_decide_eq_true hp
  refine ⟨g, hrun, h0, h1, fun hconv => ?_⟩
  have hsame : (g.replica .alpha).balance = (g.replica .beta).balance := by
    refine hconv .alpha .beta fun n => ?_
    rw [hrec0, hrec1]
    simp [or_comm]
  rw [h0, h1] at hsame
  norm_num at hsame

/-! ## Batches in two orders

How much the order of the batches matters, at a single replica that does nothing else in between:
only the balance depends on it, and only where deposits and interests meet. -/

section

variable {τ : Type}

/-- The deliveries of a list of batches, one after the other. -/
def deliveries {D : Type} (batches : List (List (Transaction τ))) : List (Local D τ) :=
  batches.map fun batch => .regular (outstandingMessage batch)

theorem regulars_deliveries {D : Type} (batches : List (List (Transaction τ))) :
    regulars (deliveries batches : List (Local D τ)) = batches.map outstandingMessage := by
  simp [regulars, deliveries, List.filterMap_map]

/-- What a list of batches leaves outstanding: what has an id that is in none of them. -/
theorem run_deliveries_outstanding {batches : List (List (Transaction τ))}
    (hwf : ∀ batch ∈ batches, ∀ t ∈ batch, t.WellFormed ℚ) (r : Replica ℚ τ) :
    (r.run (deliveries batches)).outstandingCollection
      = r.outstandingCollection.filter
          (fun u => batches.all (fun batch => batch.all (fun t => u.uniqueId != t.uniqueId))) := by
  induction batches generalizing r with
  | nil => simp [deliveries, Replica.run]
  | cons batch batches ih =>
      have hstep : r.step (.regular (outstandingMessage batch)) = afterBatch batch r :=
        Java.after_of_ok (regularMessageReceived_batch (hwf batch (by simp)) r)
      show ((r.step (.regular (outstandingMessage batch))).run
        (deliveries batches)).outstandingCollection = _
      rw [hstep, ih (fun b hb => hwf b (by simp [hb]))]
      show List.filter _ (List.filter _ r.outstandingCollection) = _
      rw [List.filter_filter]
      simp only [List.all_cons, Bool.and_comm]

theorem Transaction.line_of_command {t : Transaction τ} {c : Call ℚ} (h : t.command = c.command) :
    t.line = c.line := by
  rw [Transaction.line, readCall_of_command h]

/-- The map of a well-formed batch is that of its entries, one after the other. -/
theorem line_outstandingMessage {batch : List (Transaction τ)} (hwf : ∀ t ∈ batch, t.WellFormed ℚ) :
    (outstandingMessage batch : SpreadMessage ℚ τ).line
      = batch.foldl (fun A t => A.andThen t.line) .stay := by
  show (readable ℚ batch).foldl _ _ = _
  rw [readable_of_wellFormed hwf]

/-- A batch without an interest keeps the slope. -/
theorem factor_line_of_no_interest {batch : List (Transaction τ)}
    (hwf : ∀ t ∈ batch, t.WellFormed ℚ)
    (hno : ∀ t ∈ batch, ∀ percent : ℚ, t.command ≠ (Call.addInterest percent).command) :
    (outstandingMessage batch : SpreadMessage ℚ τ).line.factor = 1 := by
  have hone : ∀ t ∈ batch, t.line.factor = 1 := by
    intro t ht
    obtain ⟨c, hc⟩ := hwf t ht
    rw [Transaction.line_of_command hc]
    cases c with
    | addInterest percent => exact absurd hc (hno t ht percent)
    | deposit amount => rfl
    | getSyncedBalance => rfl
  rw [line_outstandingMessage hwf, Affine.factor_foldl_andThen]
  refine (one_mul _).trans (List.prod_eq_one fun x hx => ?_)
  obtain ⟨t, ht, rfl⟩ := List.mem_map.mp hx
  exact hone t ht

/-- A batch without a deposit does not shift. -/
theorem shift_line_of_no_deposit {batch : List (Transaction τ)}
    (hwf : ∀ t ∈ batch, t.WellFormed ℚ)
    (hno : ∀ t ∈ batch, ∀ amount : ℚ, t.command ≠ (Call.deposit amount).command) :
    (outstandingMessage batch : SpreadMessage ℚ τ).line.shift = 0 := by
  rw [line_outstandingMessage hwf]
  refine Affine.shift_foldl_andThen (fun t ht => ?_) rfl
  obtain ⟨c, hc⟩ := hwf t ht
  rw [Transaction.line_of_command hc]
  cases c with
  | deposit amount => exact absurd hc (hno t ht amount)
  | addInterest percent => rfl
  | getSyncedBalance => rfl

/-- The balance after a list of batches, as a chain of affine maps. -/
theorem run_deliveries_balance (batches : List (List (Transaction τ))) (r : Replica ℚ τ) :
    (r.run (deliveries batches)).balance = batches.foldl
      (fun b batch => (outstandingMessage batch : SpreadMessage ℚ τ).line.apply b) r.balance := by
  rw [run_balance, regulars_deliveries, List.foldl_map]
  simp only [SpreadMessage.effect_eq_line]

/-- **What the order of the batches decides.** Two orders of the same well-formed batches append
the same entries to the history, up to their order, and leave the same transactions outstanding;
the two balances differ by an amount that does not depend on the balance before, and agree if
there is no interest among the entries or no deposit. -/
theorem batches_in_two_orders {batches batches' : List (List (Transaction τ))}
    (hperm : batches ~ batches') (hwf : ∀ batch ∈ batches, ∀ t ∈ batch, t.WellFormed ℚ)
    (r : Replica ℚ τ) :
    appended r (deliveries batches) ~ appended r (deliveries batches')
      ∧ (r.run (deliveries batches)).outstandingCollection
        = (r.run (deliveries batches')).outstandingCollection
      ∧ (∃ d, ∀ b, (Replica.run { r with balance := b } (deliveries batches)).balance
          - (Replica.run { r with balance := b } (deliveries batches')).balance = d)
      ∧ ((∀ batch ∈ batches, ∀ t ∈ batch, ∀ percent : ℚ,
            t.command ≠ (Call.addInterest percent).command)
          ∨ (∀ batch ∈ batches, ∀ t ∈ batch, ∀ amount : ℚ,
            t.command ≠ (Call.deposit amount).command) →
        (r.run (deliveries batches)).balance = (r.run (deliveries batches')).balance) := by
  have hwf' : ∀ batch ∈ batches', ∀ t ∈ batch, t.WellFormed ℚ :=
    fun batch hb => hwf batch (hperm.mem_iff.mpr hb)
  refine ⟨?_, ?_, ?_, fun hkind => ?_⟩
  · rw [appended_eq, appended_eq, regulars_deliveries, regulars_deliveries]
    exact (hperm.map _).flatMap_right _
  · rw [run_deliveries_outstanding hwf, run_deliveries_outstanding hwf']
    refine List.filter_congr fun u _ => ?_
    rw [Bool.eq_iff_iff, List.all_eq_true, List.all_eq_true]
    exact forall_congr' fun batch => by rw [hperm.mem_iff]
  · have hdiff := Affine.foldl_apply_sub_foldl_apply
      (fun batch => (outstandingMessage batch : SpreadMessage ℚ τ).line) hperm
    -- the two orders are compared at a balance of `0`
    let d : ℚ := (Replica.run { r with balance := 0 } (deliveries batches)).balance
      - (Replica.run { r with balance := 0 } (deliveries batches')).balance
    refine ⟨d, fun b => ?_⟩
    show _ = (Replica.run _ _).balance - (Replica.run _ _).balance
    simp only [run_deliveries_balance]
    exact hdiff b
  · rw [run_deliveries_balance, run_deliveries_balance]
    refine Affine.foldl_apply_eq_of_perm
      (g := fun batch => (outstandingMessage batch : SpreadMessage ℚ τ).line) hperm ?_ r.balance
    rcases hkind with hno | hno
    · exact Or.inl fun batch hb => factor_line_of_no_interest (hwf batch hb) (hno batch hb)
    · exact Or.inr fun batch hb => shift_line_of_no_deposit (hwf batch hb) (hno batch hb)

end

/-- Two overlapping batches with an interest and a deposit, at a replica with a deposit of its own
outstanding. The balances differ by `10`. -/
theorem batches_in_two_orders_overlapping :
    let T : Transaction ℕ := ⟨"deposit 100.0", "replica0", 0⟩
    let U : Transaction ℕ := ⟨"addInterest 10.0", "replica1", 1⟩
    let r : Replica ℚ ℕ := { Replica.new 2 with outstandingCollection := [T] }
    (r.run (deliveries [[T], [T, U]])).balance - (r.run (deliveries [[T, U], [T]])).balance = 10
      ∧ (r.run (deliveries [[T], [T, U]])).outstandingCollection
        = (r.run (deliveries [[T, U], [T]])).outstandingCollection := by
  intro T U r
  refine ⟨by decide +kernel, (batches_in_two_orders (.swap _ _ _) ?_ r).2.1⟩
  intro batch hb t ht
  have hT : T.WellFormed ℚ := ⟨.deposit 100, by decide +kernel⟩
  have hU : U.WellFormed ℚ := ⟨.addInterest 10, by decide +kernel⟩
  fin_cases hb <;> fin_cases ht <;> assumption

end SpreadAccount
