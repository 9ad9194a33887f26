import SpreadAccount.Group.Model
import SpreadAccount.Lib.Occurrence

set_option autoImplicit false

/-! # What a step of the group can do, and what every reachable state satisfies

`Moves` lists what can happen in one step, with the new state of the replica that moves written
out and what is added to its history. `Group.Reachable.step_moves` says that a step of a
reachable group is one of these; in particular every delivery is that of a batch of well-formed
transactions or of a balance, and no handler throws.

`Group.Reachable.local_induct` is the rule the rest of the development uses: a relation between
the history and the state of *one* replica holds in every reachable state if every move keeps
it. `Explained` is the first such relation. It says that the fields of a replica are functions
of its history: the outstanding collection is `residents`, the balance is a fold over the
delivered messages, and the applications on the console are the updates of the delivered batches.
-/

namespace SpreadAccount

/-! ## Histories -/

section

variable {ι D : Type}

@[simp] theorem issuedIn_append (h h' : List (Happening ι D)) :
    issuedIn (h ++ h') = issuedIn h ++ issuedIn h' := List.filterMap_append

@[simp] theorem sentIn_append (h h' : List (Happening ι D)) :
    sentIn (h ++ h') = sentIn h ++ sentIn h' := List.filterMap_append

@[simp] theorem receivedIn_append (h h' : List (Happening ι D)) :
    receivedIn (h ++ h') = receivedIn h ++ receivedIn h' := List.filterMap_append

@[simp] theorem messagesIn_append (h h' : List (Happening ι D)) :
    messagesIn (h ++ h') = messagesIn h ++ messagesIn h' := List.filterMap_append

@[simp] theorem issuedIn_map_issued (ts : List (Transaction (Origin ι))) :
    issuedIn (ts.map (.issued : _ → Happening ι D)) = ts := by
  simp [issuedIn, List.filterMap_map]

@[simp] theorem sentIn_map_sent (ms : List (SpreadMessage D (Origin ι))) :
    sentIn (ms.map .sent) = ms := by
  simp [sentIn, List.filterMap_map]

@[simp] theorem issuedIn_map_sent (ms : List (SpreadMessage D (Origin ι))) :
    issuedIn (ms.map .sent) = [] := by
  simp [issuedIn, List.filterMap_map]

@[simp] theorem sentIn_map_issued (ts : List (Transaction (Origin ι))) :
    sentIn (ts.map (.issued : _ → Happening ι D)) = [] := by
  simp [sentIn, List.filterMap_map]

@[simp] theorem messagesIn_map_issued (ts : List (Transaction (Origin ι))) :
    messagesIn (ts.map (.issued : _ → Happening ι D)) = [] := by
  simp [messagesIn, List.filterMap_map]

@[simp] theorem messagesIn_map_sent (ms : List (SpreadMessage D (Origin ι))) :
    messagesIn (ms.map .sent) = [] := by
  simp [messagesIn, List.filterMap_map]

@[simp] theorem receivedIn_map_issued (ts : List (Transaction (Origin ι))) :
    receivedIn (ts.map (.issued : _ → Happening ι D)) = [] := by
  simp [receivedIn, List.filterMap_map]

@[simp] theorem receivedIn_map_sent (ms : List (SpreadMessage D (Origin ι))) :
    receivedIn (ms.map .sent) = [] := by
  simp [receivedIn, List.filterMap_map]

theorem mem_issuedIn {h : List (Happening ι D)} {t : Transaction (Origin ι)} :
    t ∈ issuedIn h ↔ .issued t ∈ h := by
  unfold issuedIn
  rw [List.mem_filterMap]
  constructor
  · rintro ⟨e, he, het⟩
    cases e <;> cases het
    exact he
  · exact fun ht => ⟨_, ht, rfl⟩

theorem mem_sentIn {h : List (Happening ι D)} {m : SpreadMessage D (Origin ι)} :
    m ∈ sentIn h ↔ .sent m ∈ h := by
  unfold sentIn
  rw [List.mem_filterMap]
  constructor
  · rintro ⟨e, he, hem⟩
    cases e <;> cases hem
    exact he
  · exact fun hm => ⟨_, hm, rfl⟩

theorem mem_messagesIn {h : List (Happening ι D)} {m : SpreadMessage D (Origin ι)} :
    m ∈ messagesIn h ↔ ∃ j k, .received j k m ∈ h := by
  unfold messagesIn
  rw [List.mem_filterMap]
  constructor
  · rintro ⟨e, he, hem⟩
    cases e <;> cases hem
    exact ⟨_, _, he⟩
  · rintro ⟨j, k, hm⟩
    exact ⟨_, hm, rfl⟩

/-- The `k`-th message multicast has its place in the history. -/
theorem sentIn_getElem? {h : List (Happening ι D)} {k : ℕ} {m : SpreadMessage D (Origin ι)}
    (hk : (sentIn h)[k]? = some m) :
    ∃ pre post, h = pre ++ .sent m :: post ∧ (sentIn pre).length = k := by
  induction h generalizing k with
  | nil => simp [sentIn] at hk
  | cons e h ih =>
      have hskip : ∀ k, (sentIn h)[k]? = some m → sentIn [e] = [] →
          ∃ pre post, e :: h = pre ++ .sent m :: post ∧ (sentIn pre).length = k := by
        intro k hk hno
        obtain ⟨pre, post, hsplit, hlen⟩ := ih hk
        refine ⟨e :: pre, post, by rw [hsplit]; rfl, ?_⟩
        rw [← List.singleton_append, sentIn_append, hno, List.nil_append, hlen]
      cases e with
      | sent m' =>
          cases k with
          | zero =>
              obtain rfl : m' = m := by simpa [sentIn] using hk
              exact ⟨[], h, rfl, rfl⟩
          | succ k =>
              obtain ⟨pre, post, hsplit, hlen⟩ := ih (k := k) (by simpa [sentIn] using hk)
              refine ⟨.sent m' :: pre, post, by rw [hsplit]; rfl, ?_⟩
              rw [← hlen]
              rfl
      | _ => exact hskip k hk rfl

/-- A relation between the happenings of a history, read for the messages delivered in it. -/
theorem pairwise_messagesIn {h : List (Happening ι D)} {R : Happening ι D → Happening ι D → Prop}
    {S : SpreadMessage D (Origin ι) → SpreadMessage D (Origin ι) → Prop} (hR : h.Pairwise R)
    (hS : ∀ j k m j' k' m', .received j k m ∈ h → .received j' k' m' ∈ h →
      R (.received j k m) (.received j' k' m') → S m m') :
    (messagesIn h).Pairwise S := by
  unfold messagesIn
  rw [List.pairwise_filterMap]
  refine hR.imp_of_mem ?_
  intro e e' he he' hee m hem m' hem'
  cases e <;> cases hem
  cases e' <;> cases hem'
  exact hS _ _ _ _ _ _ he he' hee

/-- A call sends and delivers nothing. -/
theorem commandNote_cases [DoubleText D] (c : Command D) (origin : Origin ι)
    (r : Replica D (Origin ι)) :
    issuedIn (commandNote c origin r) = c.issued origin r ∧ sentIn (commandNote c origin r) = []
      ∧ receivedIn (commandNote c origin r) = [] ∧ messagesIn (commandNote c origin r) = [] := by
  have hchange : issuedIn (changeNote c r) = [] ∧ sentIn (changeNote c r) = []
      ∧ receivedIn (changeNote c r) = [] ∧ messagesIn (changeNote c r) = [] := by
    cases c <;> simp only [changeNote] <;> try split
    all_goals exact ⟨rfl, rfl, rfl, rfl⟩
  obtain ⟨hi, hs, hr, hq⟩ := hchange
  have hnote : commandNote c origin r
      = [.called c] ++ (changeNote c r ++ (c.issued origin r).map .issued) := rfl
  rw [hnote]
  refine ⟨?_, ?_, ?_, ?_⟩
  · rw [issuedIn_append, issuedIn_append, hi, issuedIn_map_issued]
    rfl
  · rw [sentIn_append, sentIn_append, hs, sentIn_map_issued]
    rfl
  · rw [receivedIn_append, receivedIn_append, hr, receivedIn_map_issued]
    rfl
  · rw [messagesIn_append, messagesIn_append, hq, messagesIn_map_issued]
    rfl

/-! ## Moving one replica -/

section

variable [DecidableEq ι]

@[simp] theorem Group.move_replica_self (g : Group ι D) (i : ι) (r' : Replica D (Origin ι))
    (note : List (Happening ι D)) : (g.move i r' note).replica i = r' :=
  Function.update_self ..

@[simp] theorem Group.move_history_self (g : Group ι D) (i : ι) (r' : Replica D (Origin ι))
    (note : List (Happening ι D)) : (g.move i r' note).history i = g.history i ++ note :=
  Function.update_self ..

theorem Group.move_replica_ne (g : Group ι D) {i j : ι} (r' : Replica D (Origin ι))
    (note : List (Happening ι D)) (h : j ≠ i) : (g.move i r' note).replica j = g.replica j :=
  Function.update_of_ne h ..

theorem Group.move_history_ne (g : Group ι D) {i j : ι} (r' : Replica D (Origin ι))
    (note : List (Happening ι D)) (h : j ≠ i) : (g.move i r' note).history j = g.history j :=
  Function.update_of_ne h ..

/-- **Frame rule.** What holds of the replicas that do not move holds of all replicas after the
move exactly when it holds of the one that has moved. -/
theorem Group.forall_move_iff (g : Group ι D) (i : ι) (r' : Replica D (Origin ι))
    (note : List (Happening ι D)) {P : ι → List (Happening ι D) → Replica D (Origin ι) → Prop}
    (hothers : ∀ j, j ≠ i → P j (g.history j) (g.replica j)) :
    (∀ j, P j ((g.move i r' note).history j) ((g.move i r' note).replica j))
      ↔ P i (g.history i ++ note) r' := by
  constructor
  · intro hall
    have hi := hall i
    rwa [Group.move_history_self, Group.move_replica_self] at hi
  · intro hi j
    by_cases hj : j = i
    · subst hj
      rwa [Group.move_history_self, Group.move_replica_self]
    · rw [Group.move_history_ne _ _ _ hj, Group.move_replica_ne _ _ _ hj]
      exact hothers j hj

end

/-! ## The transactions still outstanding -/

variable [Zero D]

/-- Some batch delivered in `h` has an entry with the id of `t`. -/
def removedBy (h : List (Happening ι D)) (t : Transaction (Origin ι)) : Bool :=
  (messagesIn h).any fun m => m.batch.any (·.uniqueId == t.uniqueId)

/-- The transactions issued in `h`, in order, without those whose id is in a batch delivered
after they were issued. -/
def residents : List (Happening ι D) → List (Transaction (Origin ι))
  | [] => []
  | .issued t :: h => if removedBy h t then residents h else t :: residents h
  | _ :: h => residents h

theorem removedBy_append (h h' : List (Happening ι D)) (t : Transaction (Origin ι)) :
    removedBy (h ++ h') t = (removedBy h t || removedBy h' t) := by
  simp [removedBy]

/-- What a later part of the history leaves of the residents, and what it adds. -/
theorem residents_append (h h' : List (Happening ι D)) :
    residents (h ++ h') = (residents h).filter (fun t => !removedBy h' t) ++ residents h' := by
  induction h with
  | nil => rfl
  | cons e h ih =>
      cases e with
      | issued t =>
          rw [List.cons_append, residents, residents, ih, removedBy_append]
          cases removedBy h t <;> cases hr : removedBy h' t <;> simp [hr]
      | _ => exact ih

/-- A part of the history without an issue adds no resident. -/
theorem residents_eq_nil {h : List (Happening ι D)} (hno : issuedIn h = []) : residents h = [] := by
  induction h with
  | nil => rfl
  | cons e h ih =>
      cases e with
      | issued t => simp [issuedIn] at hno
      | _ => exact ih hno

/-- A part of the history without a delivery removes no resident. -/
theorem removedBy_eq_false {h : List (Happening ι D)} (hno : messagesIn h = [])
    (t : Transaction (Origin ι)) : removedBy h t = false := by
  rw [removedBy, hno, List.any_nil]

/-- A part of the history without a delivery leaves everything it issues outstanding. -/
theorem residents_eq_issuedIn {h : List (Happening ι D)} (hno : messagesIn h = []) :
    residents h = issuedIn h := by
  induction h with
  | nil => rfl
  | cons e h ih =>
      cases e with
      | issued t =>
          have hrest : messagesIn h = [] := hno
          show (if removedBy h t then residents h else t :: residents h) = t :: issuedIn h
          rw [if_neg (by rw [removedBy_eq_false hrest]; decide), ih hrest]
      | received j k m => simp [messagesIn] at hno
      | _ => exact ih hno

end

section

variable {ι D : Type} [Zero D] [Add D] [Mul D] [Div D] [NatCast D] [DoubleText D]

/-! ## The moves -/

/-- `Moves g e i r' note`: the event `e` takes replica `i` of `g` to the state `r'` and adds
`note` to its history. -/
inductive Moves (g : Group ι D) :
    Event ι D → ι → Replica D (Origin ι) → List (Happening ι D) → Prop where
  | command (i : ι) (c : Command D) (origin : Origin ι)
      (horigin : origin = (i, (issuedIn (g.history i)).length)) :
      Moves g (.command i c) i ((c.run origin).after (g.replica i))
        (commandNote c origin (g.replica i))
  | tick (i : ι) :
      Moves g (.tick i) i ((g.replica i).step .tick)
        [.sent (outstandingMessage (g.replica i).outstandingCollection)]
  | batch (i j : ι) (k : ℕ) (ts : List (Transaction (Origin ι)))
      (hsent : (g.replica j).sent[k]? = some (outstandingMessage ts))
      (hfresh : (j, k) ∉ receivedIn (g.history i)) (hwf : ∀ t ∈ ts, t.WellFormed D) :
      Moves g (.deliver i j k) i (afterBatch ts (g.replica i))
        [.received j k (outstandingMessage ts)]
  | balance (i j : ι) (k : ℕ) (x : D)
      (hsent : (g.replica j).sent[k]? = some (balanceMessage x))
      (hfresh : (j, k) ∉ receivedIn (g.history i)) :
      Moves g (.deliver i j k) i { g.replica i with balance := x, hasUpdatedBalance := true }
        [.received j k (balanceMessage x)]
  | membership (i : ι) (v : ℕ) (info : MembershipInfo) :
      Moves g (.membership i v info) i ((g.replica i).step (.membership info))
        (.viewed v info :: (joinAnswer info (g.replica i)).map .sent)
  | timeout (i : ι) :
      Moves g (.timeout i) i { g.replica i with hasUpdatedBalance := true } [.timedOut]

/-- Everything queued or sent is well formed. -/
structure Group.Sound (g : Group ι D) : Prop where
  outstanding : ∀ i, ∀ t ∈ (g.replica i).outstandingCollection, t.WellFormed D
  sent : ∀ i, ∀ m ∈ (g.replica i).sent, m.WellFormed

omit [Zero D] [Add D] [Mul D] [Div D] [NatCast D] in
/-- The transaction a command issues is well formed. -/
theorem Command.issued_wellFormed {c : Command D} {origin : Origin ι} {r : Replica D (Origin ι)}
    {t : Transaction (Origin ι)} (h : t ∈ c.issued origin r) : t.WellFormed D := by
  unfold Command.issued at h
  cases hc : c.call with
  | none => simp [hc] at h
  | some call =>
      rw [hc] at h
      exact ⟨call, by rw [List.mem_singleton.mp h]⟩

/-- What a move does to the outstanding collection and to what is sent keeps both well formed. -/
theorem Moves.sound {g : Group ι D} {e : Event ι D} {i : ι} {r' : Replica D (Origin ι)}
    {note : List (Happening ι D)} (hm : Moves g e i r' note) (hg : g.Sound) :
    (∀ t ∈ r'.outstandingCollection, t.WellFormed D) ∧ ∀ m ∈ r'.sent, m.WellFormed := by
  cases hm with
  | command i c origin horigin =>
      rw [Command.run_after]
      refine ⟨fun t ht => ?_, hg.sent i⟩
      rcases List.mem_append.mp ht with ht | ht
      · exact hg.outstanding i t ht
      · exact Command.issued_wellFormed ht
  | tick i =>
      rw [step_tick]
      refine ⟨hg.outstanding i, fun m hm => ?_⟩
      rcases List.mem_append.mp hm with hm | hm
      · exact hg.sent i m hm
      · exact Or.inl ⟨_, List.mem_singleton.mp hm, hg.outstanding i⟩
  | batch i j k ts hsent hfresh hwf =>
      exact ⟨fun t ht => hg.outstanding i t (List.mem_of_mem_filter ht), hg.sent i⟩
  | balance i j k x hsent hfresh => exact ⟨hg.outstanding i, hg.sent i⟩
  | membership i v info =>
      rw [step_membership]
      refine ⟨hg.outstanding i, fun m hm => ?_⟩
      rcases List.mem_append.mp hm with hm | hm
      · exact hg.sent i m hm
      · unfold joinAnswer at hm
        split at hm
        · exact Or.inr ⟨_, List.mem_singleton.mp hm⟩
        · cases hm
  | timeout i => exact ⟨hg.outstanding i, hg.sent i⟩

omit [Add D] [Mul D] [Div D] [NatCast D] in
theorem Group.sound_init (numReplicas : ι → Int32) :
    (Group.init numReplicas : Group ι D).Sound where
  outstanding i t ht := by cases ht
  sent i m hm := by cases hm

/-! ## The state of a replica as a function of its history -/

/-- The fields of a replica, read off its history. -/
structure Explained (i : ι) (h : List (Happening ι D)) (r : Replica D (Origin ι)) : Prop where
  outstanding : r.outstandingCollection = residents h
  sent : r.sent = sentIn h
  balance : r.balance = (messagesIn h).foldl (fun b m => m.effect b) 0
  applied : appliedIn r.out = (messagesIn h).flatMap (fun m => m.recorded)
  /-- The `n`-th transaction issued at `i` has the identity `(i, n)`. -/
  origins : (issuedIn h).map (·.origin) = (List.range (issuedIn h).length).map (fun n => (i, n))
  wellFormed : ∀ t ∈ issuedIn h, t.WellFormed D

theorem Explained.new (i : ι) (n : Int32) :
    Explained i [] (Replica.new n : Replica D (Origin ι)) where
  outstanding := rfl
  sent := rfl
  balance := rfl
  applied := rfl
  origins := rfl
  wellFormed t ht := by cases ht

/-- Nothing that leaves the delivered messages alone has to say more than what it does to the
outstanding collection, to what is sent and to what is issued. -/
theorem Explained.of_quiet {i : ι} {h note : List (Happening ι D)} {r r' : Replica D (Origin ι)}
    (he : Explained i h r) (hquiet : messagesIn note = [])
    (houtstanding : r'.outstandingCollection = r.outstandingCollection ++ residents note)
    (hsent : r'.sent = r.sent ++ sentIn note) (hbalance : r'.balance = r.balance)
    (happlied : appliedIn r'.out = appliedIn r.out)
    (hissued : issuedIn note = [] ∨ ∃ t, issuedIn note = [t] ∧ t.WellFormed D
      ∧ t.origin = (i, (issuedIn h).length)) :
    Explained i (h ++ note) r' where
  outstanding := by
    rw [houtstanding, residents_append, he.outstanding]
    congr 1
    refine (List.filter_eq_self.mpr fun t _ => ?_).symm
    rw [removedBy_eq_false hquiet]
    rfl
  sent := by rw [hsent, sentIn_append, he.sent]
  balance := by rw [hbalance, messagesIn_append, hquiet, List.append_nil, he.balance]
  applied := by rw [happlied, messagesIn_append, hquiet, List.append_nil, he.applied]
  origins := by
    rw [issuedIn_append]
    rcases hissued with hnil | ⟨t, hone, -, horigin⟩
    · rw [hnil, List.append_nil, he.origins]
    · rw [hone]
      exact Occurrence.map_concat_eq_map_range he.origins horigin
  wellFormed t ht := by
    rw [issuedIn_append, List.mem_append] at ht
    rcases ht with ht | ht
    · exact he.wellFormed t ht
    · rcases hissued with hnil | ⟨u, hone, hu, -⟩
      · rw [hnil] at ht
        cases ht
      · rw [hone, List.mem_singleton] at ht
        rw [ht]
        exact hu

omit [Zero D] [Add D] [Mul D] [Div D] [NatCast D] in
theorem Command.issued_cases (c : Command D) (origin : Origin ι) (r : Replica D (Origin ι)) :
    c.issued origin r = [] ∨ ∃ t, c.issued origin r = [t] ∧ t.WellFormed D ∧ t.origin = origin := by
  unfold Command.issued
  cases c.call with
  | none => exact Or.inl rfl
  | some call => exact Or.inr ⟨_, rfl, ⟨call, rfl⟩, rfl⟩

/-- **Every move keeps the history and the state in step.** -/
theorem Explained.move {g : Group ι D} {e : Event ι D} {i : ι} {r' : Replica D (Origin ι)}
    {note : List (Happening ι D)} (hm : Moves g e i r' note)
    (he : Explained i (g.history i) (g.replica i)) : Explained i (g.history i ++ note) r' := by
  cases hm with
  | command i c origin horigin =>
      obtain ⟨hi, hs, -, hq⟩ := commandNote_cases c origin (g.replica i)
      have hresidents : residents (commandNote c origin (g.replica i))
          = c.issued origin (g.replica i) := by
        rw [residents_eq_issuedIn hq, hi]
      rw [Command.run_after]
      refine he.of_quiet hq ?_ ?_ rfl ?_ ?_
      · rw [hresidents]
      · rw [hs, List.append_nil]
      · rw [appliedIn_append, appliedIn_eq_nil (c.lines_not_fromBatch _), List.append_nil]
      · rw [hi, ← horigin]
        exact Command.issued_cases c origin (g.replica i)
  | tick i =>
      rw [step_tick]
      exact he.of_quiet rfl (List.append_nil _).symm rfl rfl rfl (Or.inl rfl)
  | batch i j k ts hsent hfresh hwf =>
      refine ⟨?_, ?_, ?_, ?_, ?_, ?_⟩
      · -- the loop removes entry by entry, `removedBy` asks for the whole batch
        show List.filter _ _ = _
        rw [residents_append, he.outstanding]
        simp only [residents, List.append_nil]
        refine List.filter_congr fun u _ => ?_
        rw [removedBy]
        show ts.all (fun t => u.uniqueId != t.uniqueId)
          = !([outstandingMessage ts].any fun m : SpreadMessage D (Origin ι) =>
              m.batch.any (·.uniqueId == u.uniqueId))
        rw [List.any_cons, List.any_nil, Bool.or_false, batch_outstandingMessage,
          List.not_any_eq_all_not]
        simp only [bne, BEq.comm]
      · rw [sentIn_append]
        exact he.sent.trans (List.append_nil _).symm
      · rw [messagesIn_append, List.foldl_append, ← he.balance]
        exact (effect_outstandingMessage hwf _).symm
      · have hrec : (messagesIn [(.received j k (outstandingMessage ts) : Happening ι D)]).flatMap
            (fun m => m.recorded) = ts.filter (·.isUpdate) := by
          show (outstandingMessage ts : SpreadMessage D (Origin ι)).recorded ++ [] = _
          rw [List.append_nil, recorded_outstandingMessage hwf]
        rw [messagesIn_append, List.flatMap_append, ← he.applied, hrec, appliedIn_afterBatch hwf]
      · simpa [issuedIn] using he.origins
      · simpa [issuedIn] using he.wellFormed
  | balance i j k x hsent hfresh =>
      refine ⟨?_, ?_, ?_, ?_, ?_, ?_⟩
      · rw [residents_append]
        simpa [residents, removedBy, messagesIn] using he.outstanding
      · simpa [sentIn] using he.sent
      · simp [messagesIn, List.foldl_append]
      · simpa [messagesIn] using he.applied
      · simpa [issuedIn] using he.origins
      · simpa [issuedIn] using he.wellFormed
  | membership i v info =>
      have hnote : messagesIn (.viewed v info :: (joinAnswer info (g.replica i)).map .sent
          : List (Happening ι D)) = [] := messagesIn_map_sent _
      have hissued : issuedIn (.viewed v info :: (joinAnswer info (g.replica i)).map .sent
          : List (Happening ι D)) = [] := issuedIn_map_sent _
      rw [step_membership]
      refine he.of_quiet hnote ?_ ?_ rfl ?_ (Or.inl hissued)
      · rw [residents_eq_nil hissued, List.append_nil]
      · exact congrArg (_ ++ ·) (sentIn_map_sent _).symm
      · rw [appliedIn_append]
        split <;> simp [appliedIn]
  | timeout i =>
      exact he.of_quiet rfl (List.append_nil _).symm (List.append_nil _).symm rfl rfl (Or.inl rfl)

/-! ## Steps -/

variable [DecidableEq ι]

/-- **Inversion of a step.** -/
theorem Group.Sound.step_moves {g g' : Group ι D} {e : Event ι D} (hg : g.Sound)
    (h : g.step e = some g') : ∃ i r' note, Moves g e i r' note ∧ g' = g.move i r' note := by
  cases e with
  | command i c =>
      refine ⟨i, _, _, .command i c _ rfl, ?_⟩
      exact (Option.some.inj h).symm
  | tick i =>
      refine ⟨i, _, _, .tick i, ?_⟩
      rw [← Option.some.inj h, sentNote, step_tick, List.drop_left]
      rfl
  | deliver i j k =>
      simp only [Group.step] at h
      cases hk : (g.replica j).sent[k]? with
      | none => simp [hk] at h
      | some m =>
          rw [hk] at h
          simp only at h
          by_cases hrec : (j, k) ∈ receivedIn (g.history i)
          · rw [if_pos hrec] at h
            cases h
          · rw [if_neg hrec] at h
            have hg' := (Option.some.inj h).symm
            -- a message in flight is one that a replica built
            rcases hg.sent j m (List.mem_of_getElem? hk) with ⟨ts, rfl, hwf⟩ | ⟨x, rfl⟩
            · refine ⟨i, _, _, .batch i j k ts hk hrec hwf, ?_⟩
              rw [hg', ← Java.after_of_ok (regularMessageReceived_batch hwf (g.replica i))]
              rfl
            · refine ⟨i, _, _, .balance i j k x hk hrec, ?_⟩
              rw [hg', ← Java.after_of_ok (regularMessageReceived_balance x (g.replica i))]
              rfl
  | membership i v info =>
      refine ⟨i, _, _, .membership i v info, ?_⟩
      rw [← Option.some.inj h, sentNote, step_membership, List.drop_left]
  | timeout i =>
      refine ⟨i, _, _, .timeout i, ?_⟩
      rw [← step_timeout]
      exact (Option.some.inj h).symm

/-- A delivery is refused only if there is no such message or it has been delivered before. -/
theorem Group.not_sent_of_refused {g : Group ι D} {i j : ι} {k : ℕ}
    (h : g.step (.deliver i j k) = none) (hfresh : (j, k) ∉ receivedIn (g.history i))
    {m : SpreadMessage D (Origin ι)} : m ∉ (g.replica j).sent[k]? := by
  intro hm
  rw [Option.mem_def] at hm
  simp [Group.step, hm, hfresh] at h

theorem Group.Sound.step {g g' : Group ι D} {e : Event ι D} (hg : g.Sound)
    (h : g.step e = some g') : g'.Sound := by
  obtain ⟨i, r', note, hm, rfl⟩ := hg.step_moves h
  have hboth := (Group.forall_move_iff g i r' note
    (P := fun _ _ r => (∀ t ∈ r.outstandingCollection, t.WellFormed D) ∧ ∀ m ∈ r.sent, m.WellFormed)
    (fun j _ => ⟨hg.outstanding j, hg.sent j⟩)).mpr (hm.sound hg)
  exact ⟨fun j => (hboth j).1, fun j => (hboth j).2⟩

theorem Group.Reachable.sound {g : Group ι D} (h : g.Reachable) : g.Sound := by
  obtain ⟨numReplicas, hg⟩ := h
  exact hg.induct (Group.sound_init numReplicas) (fun _ _ _ _ hP hs => hP.step hs)

theorem Group.Reachable.step_moves {g g' : Group ι D} {e : Event ι D} (hg : g.Reachable)
    (h : g.step e = some g') : ∃ i r' note, Moves g e i r' note ∧ g' = g.move i r' note :=
  hg.sound.step_moves h

/-- **Induction over the moves of one replica.** A relation between the history and the state of
a replica that holds at the start and is kept by every move holds in every reachable group. -/
theorem Group.Reachable.local_induct {P : ι → List (Happening ι D) → Replica D (Origin ι) → Prop}
    {g : Group ι D} (hg : g.Reachable) (hnew : ∀ i n, P i [] (Replica.new n))
    (hmove : ∀ (g : Group ι D) e i r' note, Moves g e i r' note →
      P i (g.history i) (g.replica i) → P i (g.history i ++ note) r') :
    ∀ i, P i (g.history i) (g.replica i) := by
  obtain ⟨numReplicas, hr⟩ := hg
  refine hr.induct (P := fun g => ∀ i, P i (g.history i) (g.replica i))
    (fun i => hnew i (numReplicas i)) ?_
  intro g e g' hreach hP hs
  obtain ⟨i, r', note, hm, rfl⟩ := Group.Reachable.step_moves ⟨numReplicas, hreach⟩ hs
  -- only the replica that moves has anything to show
  exact (Group.forall_move_iff g i r' note fun j _ => hP j).mpr (hmove g e i r' note hm (hP i))

theorem Group.Reachable.explained {g : Group ι D} (hg : g.Reachable) (i : ι) :
    Explained i (g.history i) (g.replica i) :=
  hg.local_induct (P := Explained) Explained.new (fun _ _ _ _ _ hm he => he.move hm) i

/-- Whatever is in a history was put there by an event of the run, after what stands before it. -/
theorem exists_move_of_split {numReplicas : ι → Int32} {es : List (Event ι D)} {g : Group ι D}
    (hrun : Machine.exec Group.step (Group.init numReplicas) es = some g) {i : ι}
    {h later : List (Happening ι D)} {x : Happening ι D} (hsplit : g.history i = h ++ x :: later) :
    ∃ pre e post g₀ r' note before after, es = pre ++ e :: post
      ∧ Machine.exec Group.step (Group.init numReplicas) pre = some g₀
      ∧ Moves g₀ e i r' note ∧ note = before ++ x :: after ∧ h = g₀.history i ++ before := by
  induction es using List.reverseRecOn generalizing g later with
  | nil =>
      obtain rfl : Group.init numReplicas = g := by simpa using hrun
      simp [Group.init] at hsplit
  | append_singleton es e ih =>
      obtain ⟨g₀, hg₀, hs⟩ := Machine.exec_snoc_eq_some.mp hrun
      obtain ⟨i', r', note, hm, rfl⟩ := Group.Reachable.step_moves ⟨numReplicas, es, hg₀⟩ hs
      have hold : ∀ later, g₀.history i = h ++ x :: later →
          ∃ pre e' post g₁ r' note before after, es ++ [e] = pre ++ e' :: post
            ∧ Machine.exec Group.step (Group.init numReplicas) pre = some g₁
            ∧ Moves g₁ e' i r' note ∧ note = before ++ x :: after
            ∧ h = g₁.history i ++ before := by
        intro later hsplit
        obtain ⟨pre, e', post, g₁, r'', note', before, after, rfl, hrest⟩ := ih hg₀ hsplit
        exact ⟨pre, e', post ++ [e], g₁, r'', note', before, after, by simp, hrest⟩
      by_cases hi : i = i'
      · subst hi
        rw [Group.move_history_self] at hsplit
        rcases Occurrence.split_append hsplit with ⟨later', hsplit', -⟩ | ⟨before, rfl, hnote⟩
        · exact hold later' hsplit'
        · exact ⟨es, e, [], g₀, r', note, before, later, rfl, hg₀, hm, hnote, rfl⟩
      · rw [Group.move_history_ne _ _ _ hi] at hsplit
        exact hold later hsplit

theorem exists_move_of_mem_history {numReplicas : ι → Int32} {es : List (Event ι D)}
    {g : Group ι D} (hrun : Machine.exec Group.step (Group.init numReplicas) es = some g) {i : ι}
    {x : Happening ι D} (hx : x ∈ g.history i) :
    ∃ pre e post g₀ r' note, es = pre ++ e :: post
      ∧ Machine.exec Group.step (Group.init numReplicas) pre = some g₀
      ∧ Moves g₀ e i r' note ∧ x ∈ note := by
  obtain ⟨h, later, hsplit⟩ := List.append_of_mem hx
  obtain ⟨pre, e, post, g₀, r', note, before, after, hes, hg₀, hm, rfl, -⟩ :=
    exists_move_of_split hrun hsplit
  exact ⟨pre, e, post, g₀, r', _, hes, hg₀, hm, by simp⟩

/-- A history only grows. -/
theorem Group.Reachable.history_grows {g₁ g : Group ι D} (hg₁ : g₁.Reachable)
    (hrun : Machine.Reachable Group.step g₁ g) (i : ι) : g₁.history i <+: g.history i := by
  refine hrun.induct (P := fun g => g₁.history i <+: g.history i) (List.prefix_refl _) ?_
  intro g e g' hr hpre hs
  obtain ⟨j, r', note, -, rfl⟩ := (hg₁.later hr).step_moves hs
  by_cases hj : i = j
  · subst hj
    rw [Group.move_history_self]
    exact hpre.trans (List.prefix_append _ _)
  · rw [Group.move_history_ne _ _ _ hj]
    exact hpre

/-- What a replica has sent it has sent for good. -/
theorem Group.Reachable.sent_grows {g₁ g : Group ι D} (hg₁ : g₁.Reachable)
    (hrun : Machine.Reachable Group.step g₁ g) (i : ι) :
    (g₁.replica i).sent <+: (g.replica i).sent := by
  obtain ⟨later, hlater⟩ := hg₁.history_grows hrun i
  have hg : g.Reachable := hg₁.later hrun
  rw [(hg₁.explained i).sent, (hg.explained i).sent, ← hlater, sentIn_append]
  exact List.prefix_append _ _

/-- A message that has been sent keeps its name. -/
theorem Group.Reachable.sent_later {g₁ g : Group ι D} (hg₁ : g₁.Reachable)
    (hrun : Machine.Reachable Group.step g₁ g) {i : ι} {k : ℕ} {m : SpreadMessage D (Origin ι)}
    (h : (g₁.replica i).sent[k]? = some m) : (g.replica i).sent[k]? = some m := by
  obtain ⟨hk, hval⟩ := List.getElem?_eq_some_iff.mp h
  rw [List.prefix_iff_getElem?.mp (hg₁.sent_grows hrun i) k hk, hval]

/-! ## Messages in flight

A message is delivered as it was sent, and at most once. -/

omit [DecidableEq ι] in
/-- What a move adds to a history names a message in flight that has not been delivered there. -/
theorem Moves.received_cases {g : Group ι D} {e : Event ι D} {i : ι} {r' : Replica D (Origin ι)}
    {note : List (Happening ι D)} (hm : Moves g e i r' note) :
    (receivedIn note = [] ∧ ∀ j k m, .received j k m ∉ note)
      ∨ ∃ j k m, note = [.received j k m] ∧ (g.replica j).sent[k]? = some m
        ∧ (j, k) ∉ receivedIn (g.history i) := by
  cases hm with
  | command i c origin horigin =>
      obtain ⟨-, -, hr, hq⟩ := commandNote_cases c origin (g.replica i)
      refine Or.inl ⟨hr, fun j k m hm => ?_⟩
      have hin : m ∈ messagesIn (commandNote c origin (g.replica i)) :=
        mem_messagesIn.mpr ⟨j, k, hm⟩
      rw [hq] at hin
      cases hin
  | tick i => exact Or.inl ⟨rfl, fun j k m hm => by simp at hm⟩
  | batch i j k ts hsent hfresh hwf => exact Or.inr ⟨j, k, _, rfl, hsent, hfresh⟩
  | balance i j k x hsent hfresh => exact Or.inr ⟨j, k, _, rfl, hsent, hfresh⟩
  | membership i v info =>
      refine Or.inl ⟨receivedIn_map_sent (joinAnswer info (g.replica i)), fun j k m hm => ?_⟩
      simp at hm
  | timeout i => exact Or.inl ⟨rfl, fun j k m hm => by simp at hm⟩

/-- No message is delivered twice at a replica. -/
theorem Group.Reachable.received_nodup {g : Group ι D} (hg : g.Reachable) (i : ι) :
    (receivedIn (g.history i)).Nodup := by
  refine hg.local_induct (P := fun _ h _ => (receivedIn h).Nodup) (fun _ _ => List.nodup_nil) ?_ i
  intro g e i r' note hm hnd
  rw [receivedIn_append]
  rcases hm.received_cases with ⟨hnil, -⟩ | ⟨j, k, m, rfl, -, hfresh⟩
  · rw [hnil, List.append_nil]
    exact hnd
  · refine hnd.append (List.nodup_singleton (j, k)) fun x hx hjk => ?_
    rw [List.mem_singleton.mp hjk] at hx
    exact hfresh hx

/-- A message is delivered as it was sent. -/
theorem Group.Reachable.received_sent {g : Group ι D} (hg : g.Reachable) {i j : ι} {k : ℕ}
    {m : SpreadMessage D (Origin ι)} (h : .received j k m ∈ g.history i) :
    (g.replica j).sent[k]? = some m := by
  obtain ⟨numReplicas, hr⟩ := hg
  revert i j k m
  refine hr.induct (P := fun g => ∀ {i j k m}, .received j k m ∈ g.history i →
    (g.replica j).sent[k]? = some m) (fun h => by cases h) ?_
  intro g e g' hreach ih hs i j k m h
  have hg : g.Reachable := ⟨numReplicas, hreach⟩
  -- the message was in flight before the step, and stays what it is
  suffices hold : (g.replica j).sent[k]? = some m from
    hg.sent_later (Machine.Reachable.single hs) hold
  obtain ⟨i', r', note, hm, rfl⟩ := hg.step_moves hs
  by_cases hi : i = i'
  · subst hi
    rw [Group.move_history_self, List.mem_append] at h
    rcases h with h | h
    · exact ih h
    · rcases hm.received_cases with ⟨-, hno⟩ | ⟨j', k', m', rfl, hsent, -⟩
      · exact absurd h (hno j k m)
      · obtain ⟨rfl, rfl, rfl⟩ : j = j' ∧ k = k' ∧ m = m' := by simpa using h
        exact hsent
  · rw [Group.move_history_ne _ _ _ hi] at h
    exact ih h

/-- Every message that is delivered is well formed. -/
theorem Group.Reachable.messages_wellFormed {g : Group ι D} (hg : g.Reachable) {i : ι}
    {m : SpreadMessage D (Origin ι)} (hm : m ∈ messagesIn (g.history i)) : m.WellFormed := by
  obtain ⟨j, k, hrec⟩ := mem_messagesIn.mp hm
  exact hg.sound.sent j m (List.mem_of_getElem? (hg.received_sent hrec))

end

end SpreadAccount
