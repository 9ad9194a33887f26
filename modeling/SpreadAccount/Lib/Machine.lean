import Mathlib.Data.List.Induction

set_option autoImplicit false

/-! # Runs of a partial step function

A machine is a step function `step : σ → ε → Option σ`: the event `ε` is refused in the
state `σ` when the result is `none`. `exec` runs a list of events, and everything said here
about a run is said by induction on its *last* event, because that is how a history grows.

* `exec_induct` is that induction.
* `Reachable.induct`: a property that holds at the start and survives every step taken from
  a reachable state holds in every reachable state.
* `StepsMeet C`: every step of the run is taken in a state that meets the condition `C`.
  `StepsMeet.induct` is the invariant rule for such runs, `stepsMeet_transition_iff_of_invariant`
  says when a condition is exactly what the steps of a run need, and `stepsMeet_iff_forall_prefix`
  turns a condition on steps into a property of the states they lead to. A decidable condition
  can be checked of a given run (`decidableStepsMeet`).
-/

namespace Machine

variable {σ ε : Type*} {step : σ → ε → Option σ}

/-- The state after a list of events, `none` if one of them is refused. -/
def exec (step : σ → ε → Option σ) (s : σ) (es : List ε) : Option σ :=
  es.foldlM step s

@[simp] theorem exec_nil (s : σ) : exec step s [] = some s := rfl

theorem exec_cons (s : σ) (e : ε) (es : List ε) :
    exec step s (e :: es) = (step s e).bind (fun t => exec step t es) := rfl

theorem exec_append (s : σ) (es fs : List ε) :
    exec step s (es ++ fs) = (exec step s es).bind (fun t => exec step t fs) := by
  unfold exec
  rw [List.foldlM_append]
  rfl

theorem exec_append_eq_some {s u : σ} {es fs : List ε} :
    exec step s (es ++ fs) = some u ↔ ∃ t, exec step s es = some t ∧ exec step t fs = some u := by
  rw [exec_append, Option.bind_eq_some_iff]

theorem exec_snoc_eq_some {s u : σ} {es : List ε} {e : ε} :
    exec step s (es ++ [e]) = some u ↔ ∃ t, exec step s es = some t ∧ step t e = some u := by
  rw [exec_append_eq_some]
  simp [exec]

theorem exec_cons_eq_some {s u : σ} {e : ε} {es : List ε} :
    exec step s (e :: es) = some u ↔ ∃ t, step s e = some t ∧ exec step t es = some u := by
  unfold exec
  rw [List.foldlM_cons]
  exact Option.bind_eq_some_iff

/-- **Induction on the last event of a run.** -/
theorem exec_induct {s t : σ} {es : List ε} {P : List ε → σ → Prop} (hes : exec step s es = some t)
    (h0 : P [] s)
    (hs : ∀ es e t u, exec step s es = some t → P es t → step t e = some u → P (es ++ [e]) u) :
    P es t := by
  induction es using List.reverseRecOn generalizing t with
  | nil =>
      obtain rfl : s = t := by simpa using hes
      exact h0
  | append_singleton es e ih =>
      obtain ⟨t', ht', he⟩ := exec_snoc_eq_some.mp hes
      exact hs es e t' t ht' (ih ht') he

/-- The state at the end of a run that is checked by evaluation. -/
theorem exists_of_any (step : σ → ε → Option σ) (s : σ) (es : List ε) (p : σ → Bool)
    (h : (exec step s es).any p = true) : ∃ t, exec step s es = some t ∧ p t = true := by
  cases ht : exec step s es with
  | none => simp [ht] at h
  | some t =>
      rw [ht] at h
      exact ⟨t, rfl, h⟩

/-! ## Reachable states -/

/-- `t` is the end of some run from `s`. -/
def Reachable (step : σ → ε → Option σ) (s t : σ) : Prop := ∃ es, exec step s es = some t

theorem Reachable.refl (s : σ) : Reachable step s s := ⟨[], rfl⟩

theorem Reachable.snoc {s t u : σ} {e : ε} (h : Reachable step s t) (he : step t e = some u) :
    Reachable step s u := by
  obtain ⟨es, hes⟩ := h
  exact ⟨es ++ [e], exec_snoc_eq_some.mpr ⟨t, hes, he⟩⟩

theorem Reachable.trans {s t u : σ} (h : Reachable step s t) (h' : Reachable step t u) :
    Reachable step s u := by
  obtain ⟨es, hes⟩ := h
  obtain ⟨fs, hfs⟩ := h'
  exact ⟨es ++ fs, exec_append_eq_some.mpr ⟨t, hes, hfs⟩⟩

theorem Reachable.single {s t : σ} {e : ε} (he : step s e = some t) : Reachable step s t :=
  (Reachable.refl s).snoc he

/-- The rest of a run, after some of its events. -/
theorem reachable_after {s t u : σ} {pre post : List ε}
    (hrun : exec step s (pre ++ post) = some u) (hpre : exec step s pre = some t) :
    Reachable step t u := by
  rw [exec_append, hpre] at hrun
  exact ⟨post, hrun⟩

/-- The rest of a run, after one of its events. -/
theorem reachable_rest {s t t' u : σ} {pre post : List ε} {e : ε}
    (hrun : exec step s (pre ++ e :: post) = some u) (hpre : exec step s pre = some t)
    (he : step t e = some t') : Reachable step t' u := by
  have hfirst : exec step s (pre ++ [e]) = some t' := exec_snoc_eq_some.mpr ⟨t, hpre, he⟩
  rw [show pre ++ e :: post = (pre ++ [e]) ++ post by simp] at hrun
  exact reachable_after hrun hfirst

/-- **The invariant rule.** The step case may use that the state it starts from is reachable,
so that invariants already proved can be called there. -/
theorem Reachable.induct {s t : σ} {P : σ → Prop} (h : Reachable step s t) (h0 : P s)
    (hs : ∀ t e u, Reachable step s t → P t → step t e = some u → P u) : P t := by
  obtain ⟨es, hes⟩ := h
  refine exec_induct (P := fun _ t => P t) hes h0 ?_
  intro es e t u ht hP he
  exact hs t e u ⟨es, ht⟩ hP he

/-! ## Runs whose steps meet a condition -/

/-- Every event of the run is taken in a state that meets the condition `C` for it. -/
def StepsMeet (step : σ → ε → Option σ) (C : σ → ε → Prop) (s : σ) (es : List ε) : Prop :=
  ∀ pre e post t, es = pre ++ e :: post → exec step s pre = some t → C t e

theorem StepsMeet.left {C : σ → ε → Prop} {s : σ} {es fs : List ε}
    (h : StepsMeet step C s (es ++ fs)) : StepsMeet step C s es := by
  intro pre e post t hes ht
  exact h pre e (post ++ fs) t (by rw [hes]; simp) ht

theorem StepsMeet.right {C : σ → ε → Prop} {s t : σ} {es fs : List ε}
    (h : StepsMeet step C s (es ++ fs)) (hes : exec step s es = some t) :
    StepsMeet step C t fs := by
  intro pre e post u hfs hu
  refine h (es ++ pre) e post u (by rw [hfs]; simp) ?_
  exact exec_append_eq_some.mpr ⟨t, hes, hu⟩

theorem StepsMeet.last {C : σ → ε → Prop} {s t : σ} {es : List ε} {e : ε}
    (h : StepsMeet step C s (es ++ [e])) (ht : exec step s es = some t) : C t e :=
  h es e [] t rfl ht

/-- Conditions that agree in every reachable state are met by the same runs. -/
theorem stepsMeet_congr {C C' : σ → ε → Prop} {s : σ} {es : List ε}
    (h : ∀ t e, Reachable step s t → (C t e ↔ C' t e)) :
    StepsMeet step C s es ↔ StepsMeet step C' s es := by
  constructor
  · exact fun hC pre e post t hes ht => (h t e ⟨pre, ht⟩).mp (hC pre e post t hes ht)
  · exact fun hC pre e post t hes ht => (h t e ⟨pre, ht⟩).mpr (hC pre e post t hes ht)

/-- A relation `T` that the steps of a run are to satisfy, and a condition `C` on the states
before them that is exact. -/
theorem stepsMeet_transition_iff {T : σ → ε → σ → Prop} {C : σ → ε → Prop} {s : σ} {es : List ε}
    (hrefused : ∀ t e, Reachable step s t → step t e = none → C t e)
    (hstep : ∀ t e u, Reachable step s t → step t e = some u → (T t e u ↔ C t e)) :
    StepsMeet step (fun t e => ∀ u ∈ step t e, T t e u) s es ↔ StepsMeet step C s es := by
  refine stepsMeet_congr fun t e ht => ?_
  cases hs : step t e with
  | none => exact iff_of_true (fun u hu => by cases hu) (hrefused t e ht hs)
  | some u =>
      rw [← hstep t e u ht hs]
      simp

/-- **The invariant rule for conditioned runs.** -/
theorem StepsMeet.induct {C : σ → ε → Prop} {s t : σ} {es : List ε} {P : σ → Prop}
    (h : StepsMeet step C s es) (hes : exec step s es = some t) (h0 : P s)
    (hs : ∀ t e u, Reachable step s t → P t → C t e → step t e = some u → P u) : P t := by
  revert h
  refine exec_induct (P := fun es t => StepsMeet step C s es → P t) hes (fun _ => h0) ?_
  intro es e t u ht ih he h
  exact hs t e u ⟨es, ht⟩ (ih h.left) (h.last ht) he

/-- The same where the condition is exact in the states that meet an invariant `P`, and the steps
that satisfy `T` keep the invariant. -/
theorem stepsMeet_transition_iff_of_invariant {T : σ → ε → σ → Prop} {C : σ → ε → Prop}
    {P : σ → Prop} {s : σ} {es : List ε} (h0 : P s)
    (hrefused : ∀ t e, Reachable step s t → step t e = none → C t e)
    (hstep : ∀ t e u, Reachable step s t → P t → step t e = some u → (T t e u ↔ C t e))
    (hkeep : ∀ t e u, Reachable step s t → P t → step t e = some u → T t e u → P u) :
    StepsMeet step (fun t e => ∀ u ∈ step t e, T t e u) s es ↔ StepsMeet step C s es := by
  have hexact : ∀ t e, Reachable step s t → P t → ((∀ u ∈ step t e, T t e u) ↔ C t e) := by
    intro t e ht hP
    cases hs : step t e with
    | none => exact iff_of_true (fun u hu => by cases hu) (hrefused t e ht hs)
    | some u =>
        rw [← hstep t e u ht hP hs]
        simp
  -- up to each step the run has met the one condition or the other, and so the invariant
  constructor
  · rintro h pre e post t rfl ht
    have hP : P t := h.left.induct ht h0
      fun t e u hr hP hT he => hkeep t e u hr hP he (hT u he)
    exact (hexact t e ⟨pre, ht⟩ hP).mp (h pre e post t rfl ht)
  · rintro h pre e post t rfl ht
    have hP : P t := h.left.induct ht h0
      fun t e u hr hP hC he => hkeep t e u hr hP he ((hstep t e u hr hP he).mpr hC)
    exact (hexact t e ⟨pre, ht⟩ hP).mpr (h pre e post t rfl ht)

theorem stepsMeet_nil {C : σ → ε → Prop} {s : σ} : StepsMeet step C s [] := by
  intro pre e post t h _
  simp at h

theorem stepsMeet_cons {C : σ → ε → Prop} {s : σ} {e : ε} {es : List ε} :
    StepsMeet step C s (e :: es) ↔ C s e ∧ ∀ t ∈ step s e, StepsMeet step C t es := by
  constructor
  · intro h
    refine ⟨h [] e es s rfl rfl, fun t ht pre f post u hes hu => ?_⟩
    refine h (e :: pre) f post u (by rw [hes]; rfl) ?_
    exact exec_cons_eq_some.mpr ⟨t, ht, hu⟩
  · rintro ⟨hhead, htail⟩ pre f post u hes hu
    cases pre with
    | nil =>
        obtain ⟨rfl, rfl⟩ := List.cons.inj hes
        obtain rfl : s = u := by simpa using hu
        exact hhead
    | cons e' pre =>
        obtain ⟨rfl, rfl⟩ := List.cons.inj hes
        obtain ⟨t, ht, hpre⟩ := exec_cons_eq_some.mp hu
        exact htail t ht pre f post u rfl hpre

/-- Whether the steps of a given run meet a decidable condition can be computed. -/
instance decidableStepsMeet {C : σ → ε → Prop} [∀ s e, Decidable (C s e)] (s : σ) :
    ∀ es, Decidable (StepsMeet step C s es)
  | [] => .isTrue stepsMeet_nil
  | _ :: es =>
      have : ∀ t, Decidable (StepsMeet step C t es) := fun t => decidableStepsMeet t es
      decidable_of_iff _ stepsMeet_cons.symm

/-- Where the condition on a step is exactly what the property of the next state needs, the
runs that keep the property in every state are the runs whose steps meet the condition. -/
theorem stepsMeet_iff_forall_prefix {C : σ → ε → Prop} {s : σ} {es : List ε} {P : σ → Prop}
    (hrun : (exec step s es).isSome) (h0 : P s)
    (hs : ∀ t e u, Reachable step s t → P t → step t e = some u → (P u ↔ C t e)) :
    StepsMeet step C s es ↔ ∀ pre t, pre <+: es → exec step s pre = some t → P t := by
  constructor
  · rintro h pre t ⟨post, rfl⟩ ht
    exact h.left.induct ht h0 (fun t e u hr hP hC he => (hs t e u hr hP he).mpr hC)
  · rintro h pre e post t rfl ht
    -- the event `e` is not refused, because the whole run is not
    have hsome : (exec step s (pre ++ [e])).isSome := by
      rw [show pre ++ e :: post = (pre ++ [e]) ++ post by simp, exec_append] at hrun
      cases hx : exec step s (pre ++ [e]) with
      | none => simp [hx] at hrun
      | some u => rfl
    obtain ⟨u, hu⟩ := Option.isSome_iff_exists.mp hsome
    obtain ⟨t', ht', he⟩ := exec_snoc_eq_some.mp hu
    obtain rfl : t = t' := by rw [ht] at ht'; exact Option.some.inj ht'
    have hPt : P t := h pre t ⟨e :: post, rfl⟩ ht
    have hPu : P u := h (pre ++ [e]) u ⟨post, by simp⟩ hu
    exact (hs t e u ⟨pre, ht⟩ hPt he).mp hPu

end Machine
