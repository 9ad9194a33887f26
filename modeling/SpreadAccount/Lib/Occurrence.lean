import Mathlib.Data.List.Basic
import Mathlib.Data.List.Nodup
import Mathlib.Data.List.Flatten
import Mathlib.Data.List.DropRight

set_option autoImplicit false

/-! # Occurrences in a concatenation of overlapping lists

A sequence of lists that overlap (an element can be in several of them) is concatenated. Two
questions about the concatenation are reduced to questions about the single lists and about
pairs of them:

* `idxOf_flatMap_lt`: whether the first occurrence of `x` comes before that of `y`;
* `count_flatMap_le_one`: whether `x` occurs at most once.

Before that, `AtEach l P` says that `P` holds of every element of `l` together with the part of
`l` before it, a list is read by positions (`map_concat_eq_map_range`, `pairwise_getElem?`), and
`Since` and `FirstSince` say what a list has after the last element of a kind.

`[x, y] <+ l` says that `x` occurs before `y` in `l`.
-/

namespace Occurrence

open scoped List

variable {α β : Type*} [DecidableEq α]

/-! ## Where an element of a concatenation is -/

omit [DecidableEq α] in
/-- An occurrence in `l ++ l'` is one in `l` or one in `l'`. -/
theorem split_append {l l' pre post : List α} {x : α} (h : l ++ l' = pre ++ x :: post) :
    (∃ post', l = pre ++ x :: post' ∧ post = post' ++ l')
      ∨ ∃ pre', pre = l ++ pre' ∧ l' = pre' ++ x :: post := by
  rcases List.append_eq_append_iff.mp h with ⟨pre', hpre, hl'⟩ | ⟨c, hl, hc⟩
  · exact Or.inr ⟨pre', hpre, hl'⟩
  · cases c with
    | nil => exact Or.inr ⟨[], by simpa using hl.symm, by simpa using hc.symm⟩
    | cons y c =>
        obtain ⟨rfl, rfl⟩ := List.cons.inj hc
        exact Or.inl ⟨c, hl, rfl⟩

omit [DecidableEq α] in
/-- `P` holds of every element of the list, with what is before it. -/
def AtEach (l : List α) (P : List α → α → Prop) : Prop := ∀ x a y, l = x ++ a :: y → P x a

omit [DecidableEq α] in
theorem atEach_nil {P : List α → α → Prop} : AtEach [] P := by
  intro x a y h
  simp at h

omit [DecidableEq α] in
theorem atEach_append {l l' : List α} {P : List α → α → Prop} :
    AtEach (l ++ l') P ↔ AtEach l P ∧ AtEach l' (fun x => P (l ++ x)) := by
  constructor
  · intro h
    refine ⟨fun x a y hl => h x a (y ++ l') ?_, fun x a y hl' => h (l ++ x) a y ?_⟩
    · rw [hl, List.append_assoc, List.cons_append]
    · rw [hl', List.append_assoc]
  · rintro ⟨hl, hl'⟩ x a y h
    rcases split_append h with ⟨y', hx, -⟩ | ⟨x', rfl, hx'⟩
    · exact hl x a y' hx
    · exact hl' x' a y hx'

omit [DecidableEq α] in
theorem atEach_singleton {a : α} {P : List α → α → Prop} : AtEach [a] P ↔ P [] a := by
  constructor
  · exact fun h => h [] a [] rfl
  · intro h x b y hab
    cases x with
    | nil =>
        obtain ⟨rfl, -⟩ := List.cons.inj hab
        exact h
    | cons c x => simp at hab

omit [DecidableEq α] in
theorem atEach_cons {a : α} {l : List α} {P : List α → α → Prop} :
    AtEach (a :: l) P ↔ P [] a ∧ AtEach l (fun x => P (a :: x)) := by
  have h : AtEach ([a] ++ l) P ↔ AtEach [a] P ∧ AtEach l (fun x => P ([a] ++ x)) := atEach_append
  rw [atEach_singleton] at h
  exact h

instance decidableAtEach :
    ∀ (l : List α) (P : List α → α → Prop) [∀ x a, Decidable (P x a)], Decidable (AtEach l P)
  | [], _, _ => .isTrue atEach_nil
  | a :: l, P, _ =>
      have := decidableAtEach l (fun x => P (a :: x))
      decidable_of_iff _ atEach_cons.symm

omit [DecidableEq α] in
/-- Where every element of a list has a partner, there is a list of partners. -/
theorem exists_forall₂_of_forall_mem {R : α → β → Prop} {l : List α} (h : ∀ x ∈ l, ∃ y, R x y) :
    ∃ ys, List.Forall₂ R l ys := by
  induction l with
  | nil => exact ⟨[], .nil⟩
  | cons x l ih =>
      obtain ⟨y, hy⟩ := h x (by simp)
      obtain ⟨ys, hys⟩ := ih (fun z hz => h z (by simp [hz]))
      exact ⟨y :: ys, .cons hy hys⟩

/-! ## Positions -/

omit [DecidableEq α] in
/-- Where `f` numbers the elements of a list by `g`, a new last element gets the next number. -/
theorem map_concat_eq_map_range {f : α → β} {g : ℕ → β} {l : List α} {x : α}
    (hl : l.map f = (List.range l.length).map g) (hx : f x = g l.length) :
    (l ++ [x]).map f = (List.range (l ++ [x]).length).map g := by
  calc (l ++ [x]).map f
      = l.map f ++ [f x] := List.map_append
    _ = (List.range l.length).map g ++ [g l.length] := by
        rw [hl, hx]
    _ = (List.range (l.length + 1)).map g := by
        rw [List.range_succ, List.map_append]
        rfl
    _ = (List.range (l ++ [x]).length).map g := by
        rw [List.length_append, List.length_singleton]

omit [DecidableEq α] in
/-- Two elements of a list whose pairs are related, by their positions. -/
theorem pairwise_getElem? {R : α → α → Prop} {l : List α} (hl : l.Pairwise R) {m n : ℕ} {x y : α}
    (hmn : m < n) (hx : l[m]? = some x) (hy : l[n]? = some y) : R x y := by
  obtain ⟨hm, rfl⟩ := List.getElem?_eq_some_iff.mp hx
  obtain ⟨hn, rfl⟩ := List.getElem?_eq_some_iff.mp hy
  exact List.pairwise_iff_getElem.mp hl m n hm hn hmn

/-! ## Since the last reset

An element of a list is there *since the last reset* if no element after it satisfies `reset`. -/

section

variable {α : Type*} {reset : α → Bool} {x y : α} {l l' before : List α}

/-- `x` occurs in `l` after the last reset. -/
def Since (reset : α → Bool) (x : α) (l : List α) : Prop :=
  ∃ before after, l = before ++ x :: after ∧ ∀ y ∈ after, reset y = false

/-- `before` is what comes before the first `x` after the last reset of `l`. -/
def FirstSince (reset : α → Bool) (x : α) (l before : List α) : Prop :=
  (∃ after, l = before ++ x :: after ∧ ∀ y ∈ after, reset y = false) ∧ ¬ Since reset x before

theorem FirstSince.since (h : FirstSince reset x l before) : Since reset x l :=
  let ⟨⟨after, hl, hafter⟩, _⟩ := h
  ⟨before, after, hl, hafter⟩

theorem not_since_nil : ¬ Since reset x [] := by
  rintro ⟨before, after, h, -⟩
  simp at h

/-- The occurrences of `x` in a list with a new last element. -/
theorem split_concat_iff : (∃ after, l ++ [y] = before ++ x :: after ∧ ∀ z ∈ after, reset z = false)
    ↔ y = x ∧ before = l
      ∨ reset y = false ∧ ∃ after, l = before ++ x :: after ∧ ∀ z ∈ after, reset z = false := by
  constructor
  · rintro ⟨after, h, hafter⟩
    rcases split_append h with ⟨after', rfl, rfl⟩ | ⟨before', rfl, h'⟩
    · refine Or.inr ⟨hafter y (by simp), after', rfl, fun z hz => hafter z (by simp [hz])⟩
    · cases before' with
      | nil =>
          obtain ⟨rfl, -⟩ := List.cons.inj h'
          exact Or.inl ⟨rfl, List.append_nil l⟩
      | cons z before' => simp at h'
  · rintro (⟨rfl, rfl⟩ | ⟨hy, after, rfl, hafter⟩)
    · exact ⟨[], rfl, by simp⟩
    · refine ⟨after ++ [y], by simp, fun z hz => ?_⟩
      rcases List.mem_append.mp hz with hz | hz
      · exact hafter z hz
      · rw [List.mem_singleton.mp hz]
        exact hy

theorem since_concat : Since reset x (l ++ [y]) ↔ y = x ∨ reset y = false ∧ Since reset x l := by
  constructor
  · rintro ⟨before, hsplit⟩
    rcases split_concat_iff.mp hsplit with ⟨hy, -⟩ | ⟨hy, hold⟩
    · exact Or.inl hy
    · exact Or.inr ⟨hy, before, hold⟩
  · rintro (hy | ⟨hy, before, hold⟩)
    · exact ⟨l, split_concat_iff.mpr (Or.inl ⟨hy, rfl⟩)⟩
    · exact ⟨before, split_concat_iff.mpr (Or.inr ⟨hy, hold⟩)⟩

theorem firstSince_concat : FirstSince reset x (l ++ [y]) before
    ↔ y = x ∧ before = l ∧ ¬ Since reset x l
      ∨ reset y = false ∧ FirstSince reset x l before := by
  unfold FirstSince
  rw [split_concat_iff]
  constructor
  · rintro ⟨⟨hy, rfl⟩ | ⟨hy, hsplit⟩, hno⟩
    · exact Or.inl ⟨hy, rfl, hno⟩
    · exact Or.inr ⟨hy, hsplit, hno⟩
  · rintro (⟨hy, rfl, hno⟩ | ⟨hy, hsplit, hno⟩)
    · exact ⟨Or.inl ⟨hy, rfl⟩, hno⟩
    · exact ⟨Or.inr ⟨hy, hsplit⟩, hno⟩

/-- What is neither `x` nor a reset changes nothing. -/
theorem since_append_of_quiet (h : ∀ y ∈ l', y ≠ x ∧ reset y = false) :
    (Since reset x (l ++ l') ↔ Since reset x l)
      ∧ ∀ before, FirstSince reset x (l ++ l') before ↔ FirstSince reset x l before := by
  induction l' using List.reverseRecOn with
  | nil => simp
  | append_singleton l' y ih =>
      obtain ⟨hsince, hfirst⟩ := ih fun z hz => h z (by simp [hz])
      obtain ⟨hne, hy⟩ := h y (by simp)
      refine ⟨?_, fun before => ?_⟩
      · rw [← List.append_assoc, since_concat, hsince, or_iff_right hne, and_iff_right hy]
      · rw [← List.append_assoc, firstSince_concat, hfirst, or_iff_right fun hyx => hne hyx.1,
          and_iff_right hy]

theorem Since.exists_first (hx : reset x = false) (h : Since reset x l) :
    ∃ before, FirstSince reset x l before := by
  induction l using List.reverseRecOn with
  | nil => exact absurd h not_since_nil
  | append_singleton l y ih =>
      by_cases hy : reset y = false ∧ Since reset x l
      · obtain ⟨before, hfirst⟩ := ih hy.2
        exact ⟨before, firstSince_concat.mpr (Or.inr ⟨hy.1, hfirst⟩)⟩
      · obtain rfl : y = x := (since_concat.mp h).resolve_right hy
        exact ⟨l, firstSince_concat.mpr (Or.inl ⟨rfl, rfl, fun hl => hy ⟨hx, hl⟩⟩)⟩

end

/-! ## Filters and final stretches -/

omit [DecidableEq α] in
/-- Two filters of a list agree exactly when the predicates agree on its elements. -/
theorem filter_eq_filter_iff {p q : α → Bool} {l : List α} :
    l.filter p = l.filter q ↔ ∀ a ∈ l, p a = q a := by
  constructor
  · intro h a ha
    have hmem : p a = true ↔ q a = true := by
      have := congrArg (a ∈ ·) h
      simpa [List.mem_filter, ha] using this
    exact Bool.eq_iff_iff.mpr hmem
  · exact List.filter_congr

omit [DecidableEq α] in
/-- A tail that satisfies the predicate throughout extends the final stretch that does. -/
theorem rtakeWhile_append_of_all {p : α → Bool} {l l' : List α} (h : ∀ x ∈ l', p x = true) :
    (l ++ l').rtakeWhile p = l.rtakeWhile p ++ l' := by
  induction l' using List.reverseRecOn with
  | nil => rw [List.append_nil, List.append_nil]
  | append_singleton l' x ih =>
      have hx : p x = true := h x (by simp)
      rw [← List.append_assoc, List.rtakeWhile_concat_pos _ _ _ hx,
        ih (fun y hy => h y (by simp [hy])), List.append_assoc]

/-! ## Pairs in a list without repetitions -/

omit [DecidableEq α] in
/-- A sublist keeps the order of the elements it keeps. -/
theorem pair_sublist_of_mem {l l' : List α} {x y : α} (hnd : l.Nodup) (hxy : [x, y] <+ l)
    (h : l' <+ l) (hx : x ∈ l') (hy : y ∈ l') : [x, y] <+ l' := by
  induction h with
  | slnil => cases hx
  | cons a h ih =>
      obtain ⟨ha, hnd'⟩ := List.nodup_cons.mp hnd
      cases hxy with
      | cons _ hxy => exact ih hnd' hxy hx hy
      | cons_cons _ _ => exact absurd (h.subset hx) ha
  | cons_cons a h ih =>
      obtain ⟨ha, hnd'⟩ := List.nodup_cons.mp hnd
      cases hxy with
      | cons _ hxy =>
          have hx' := (List.mem_cons.mp hx).resolve_left
            (fun he => ha (he ▸ hxy.subset (by simp)))
          have hy' := (List.mem_cons.mp hy).resolve_left
            (fun he => ha (he ▸ hxy.subset (by simp)))
          exact (ih hnd' hxy hx' hy').cons a
      | cons_cons _ hy₂ =>
          have hy' := (List.mem_cons.mp hy).resolve_left
            (fun he => ha (he ▸ hy₂.subset (by simp)))
          exact (List.singleton_sublist.mpr hy').cons_cons x

omit [DecidableEq α] in
/-- Where `y` is in the first part of a list, so is everything before it. -/
theorem pair_sublist_left {l l' : List α} {x y : α} (hnd : (l ++ l').Nodup)
    (hxy : [x, y] <+ l ++ l') (hy : y ∈ l) : [x, y] <+ l := by
  obtain ⟨u, v, huv, hu, hv⟩ := List.sublist_append_iff.mp hxy
  rcases List.eq_nil_or_concat' v with rfl | ⟨v', z, rfl⟩
  · rw [List.append_nil] at huv
    rw [huv]
    exact hu
  · -- otherwise `y`, the last of the pair, is in the second part as well
    have hzy : z = y := by
      have hlast := congrArg List.getLast? huv
      rw [← List.append_assoc, List.getLast?_concat] at hlast
      simpa using hlast.symm
    have hy' : y ∈ l' := hzy ▸ hv.subset (by simp)
    exact absurd hy' (List.disjoint_of_nodup_append hnd hy)

theorem idxOf_lt_of_pair_sublist {l : List α} {x y : α} (hnd : l.Nodup) (hxy : [x, y] <+ l) :
    l.idxOf x < l.idxOf y := by
  induction l with
  | nil => cases hxy
  | cons a l ih =>
      obtain ⟨ha, hnd'⟩ := List.nodup_cons.mp hnd
      cases hxy with
      | cons _ h =>
          have hx : a ≠ x := fun he => ha (he ▸ h.subset (by simp))
          have hy : a ≠ y := fun he => ha (he ▸ h.subset (by simp))
          rw [List.idxOf_cons_ne _ hx, List.idxOf_cons_ne _ hy]
          exact Nat.succ_lt_succ (ih hnd' h)
      | cons_cons _ h =>
          have hy : x ≠ y := fun he => ha (he ▸ h.subset (by simp))
          rw [List.idxOf_cons_self, List.idxOf_cons_ne _ hy]
          exact Nat.succ_pos _

/-! ## Concatenations -/

/-- **First occurrences in a concatenation.** `x` comes first before `y` if it does so in every
list that has both, and if a list that has `y` but not `x` is followed by none that has `x`. -/
theorem idxOf_flatMap_lt {ls : List β} {f : β → List α} {x y : α}
    (hin : ∀ a ∈ ls, x ∈ f a → y ∈ f a → (f a).idxOf x < (f a).idxOf y)
    (hkept : ls.Pairwise (fun a b => y ∈ f a → x ∈ f b → x ∈ f a)) (hx : x ∈ ls.flatMap f) :
    (ls.flatMap f).idxOf x < (ls.flatMap f).idxOf y := by
  induction ls with
  | nil => cases hx
  | cons a ls ih =>
      obtain ⟨hhead, htail⟩ := List.pairwise_cons.mp hkept
      rw [List.flatMap_cons] at hx ⊢
      by_cases hxa : x ∈ f a
      · rw [List.idxOf_append_of_mem hxa]
        by_cases hya : y ∈ f a
        · rw [List.idxOf_append_of_mem hya]
          exact hin a (by simp) hxa hya
        · rw [List.idxOf_append_of_notMem hya]
          have := List.idxOf_lt_length_of_mem hxa
          omega
      · have hxt : x ∈ ls.flatMap f := by
          rcases List.mem_append.mp hx with h | h
          · exact absurd h hxa
          · exact h
        obtain ⟨b, hb, hxb⟩ := List.mem_flatMap.mp hxt
        have hya : y ∉ f a := fun hy => hxa (hhead b hb hy hxb)
        rw [List.idxOf_append_of_notMem hxa, List.idxOf_append_of_notMem hya]
        have := ih (fun b hb => hin b (by simp [hb])) htail hxt
        omega

/-- **At most one occurrence in a concatenation.** -/
theorem count_flatMap_le_one {ls : List β} {f : β → List α} {x : α}
    (hin : ∀ a ∈ ls, (f a).count x ≤ 1) (hapart : ls.Pairwise (fun a b => x ∈ f a → x ∉ f b)) :
    (ls.flatMap f).count x ≤ 1 := by
  induction ls with
  | nil => simp
  | cons a ls ih =>
      obtain ⟨hhead, htail⟩ := List.pairwise_cons.mp hapart
      rw [List.flatMap_cons, List.count_append]
      have hls := ih (fun b hb => hin b (by simp [hb])) htail
      by_cases hxa : x ∈ f a
      · have hzero : (ls.flatMap f).count x = 0 := by
          refine List.count_eq_zero.mpr fun hx => ?_
          obtain ⟨b, hb, hxb⟩ := List.mem_flatMap.mp hx
          exact hhead b hb hxa hxb
        have := hin a (by simp)
        omega
      · have hzero : (f a).count x = 0 := List.count_eq_zero.mpr hxa
        omega

end Occurrence
