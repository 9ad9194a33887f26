import Mathlib.Algebra.BigOperators.Group.List.Basic
import Mathlib.Data.List.Basic
import Mathlib.Data.List.Nodup
import Mathlib.Data.List.Perm.Basic
import Mathlib.Tactic.Ring
import Mathlib.Tactic.LinearCombination

set_option autoImplicit false

/-! # Folding a list in two orders

`foldl_eq_of_inversions_commute`: two orders of the same elements fold to the same value if every
pair of elements that the two orders invert commutes. Pairs in the same order in both lists do
not matter, so this is finer than asking that all elements commute.

The second part is about one kind of step, the affine maps `b ↦ b * factor + shift` of a
commutative ring, where two steps commute on every argument or on none. Two orders of the same
maps differ by a constant (`foldl_apply_sub_foldl_apply`), which is `0` if the maps are all of one
kind (`foldl_apply_eq_of_perm`).
-/

namespace Reorder

open scoped List

variable {α β : Type*} {f : β → α → β}

/-- An element that commutes with everything before it can be taken first. -/
theorem foldl_move_first {x : α} {u v : List α} (h : ∀ z ∈ u, ∀ b, f (f b x) z = f (f b z) x)
    (b : β) : (u ++ x :: v).foldl f b = (u ++ v).foldl f (f b x) := by
  induction u generalizing b with
  | nil => rfl
  | cons z u ih =>
      have hz := h z (by simp) b
      have hu := ih (fun w hw => h w (by simp [hw])) (f b z)
      show (u ++ x :: v).foldl f (f b z) = (u ++ v).foldl f (f (f b x) z)
      rw [hu, hz]

/-- **Two orders of the same elements.** -/
theorem foldl_eq_of_inversions_commute {l l' : List α} (hnd : l.Nodup) (hperm : l ~ l')
    (hcomm : ∀ x y, [x, y] <+ l → [y, x] <+ l' → ∀ b, f (f b x) y = f (f b y) x) (b : β) :
    l.foldl f b = l'.foldl f b := by
  induction l generalizing l' b with
  | nil => rw [List.nil_perm.mp hperm]
  | cons x l ih =>
      obtain ⟨hx, hnd'⟩ := List.nodup_cons.mp hnd
      have hxl' : x ∈ l' := hperm.subset (by simp)
      obtain ⟨u, v, rfl⟩ := List.append_of_mem hxl'
      have hrest : l ~ u ++ v := (List.perm_cons x).mp (hperm.trans List.perm_middle)
      -- what stands before `x` in the second list comes after it in the first
      have hfirst : ∀ z ∈ u, ∀ b, f (f b x) z = f (f b z) x := by
        intro z hz
        have hzl : z ∈ l := hrest.mem_iff.mpr (by simp [hz])
        refine hcomm x z ?_ ?_
        · exact (List.singleton_sublist.mpr hzl).cons_cons x
        · exact (List.singleton_sublist.mpr hz).append
            (List.singleton_sublist.mpr (List.mem_cons_self (a := x) (l := v)))
      rw [foldl_move_first hfirst b]
      refine ih hnd' hrest (fun y z hyz hzy => ?_) (f b x)
      refine hcomm y z (hyz.cons x) (hzy.trans ?_)
      exact (List.Sublist.refl u).append (List.sublist_cons_self x v)

/-! ## Affine steps -/

/-- The map `b ↦ b * factor + shift`. -/
structure Affine (R : Type*) where
  factor : R
  shift : R
  deriving DecidableEq

namespace Affine

variable {R : Type*} [CommRing R]

def apply (A : Affine R) (b : R) : R := b * A.factor + A.shift

/-- The map that changes nothing. -/
def stay : Affine R := ⟨1, 0⟩

/-- First `A`, then `B`. -/
def andThen (A B : Affine R) : Affine R := ⟨A.factor * B.factor, A.shift * B.factor + B.shift⟩

/-- The contents of two maps that can be exchanged. -/
def Swaps (A B : Affine R) : Prop := A.shift * (B.factor - 1) = B.shift * (A.factor - 1)

instance [DecidableEq R] (A B : Affine R) : Decidable (A.Swaps B) :=
  inferInstanceAs (Decidable (_ = _))

@[simp] theorem apply_stay (b : R) : (stay : Affine R).apply b = b := by
  simp [apply, stay]

@[simp] theorem apply_andThen (A B : Affine R) (b : R) :
    (A.andThen B).apply b = B.apply (A.apply b) := by
  simp only [apply, andThen]
  ring

/-- The maps of a list, one after the other. -/
theorem apply_foldl_andThen (g : α → Affine R) (xs : List α) (A : Affine R) (b : R) :
    (xs.foldl (fun B x => B.andThen (g x)) A).apply b
      = xs.foldl (fun c x => (g x).apply c) (A.apply b) := by
  induction xs generalizing A with
  | nil => rfl
  | cons x xs ih =>
      show (xs.foldl _ (A.andThen (g x))).apply b = xs.foldl _ ((g x).apply (A.apply b))
      rw [ih, apply_andThen]

/-- The factor of a list of maps is the product of the factors, in any order. -/
theorem factor_foldl_andThen (g : α → Affine R) (xs : List α) (A : Affine R) :
    (xs.foldl (fun B x => B.andThen (g x)) A).factor
      = A.factor * (xs.map (fun x => (g x).factor)).prod := by
  induction xs generalizing A with
  | nil => simp
  | cons x xs ih =>
      show (xs.foldl _ (A.andThen (g x))).factor = _
      rw [ih, List.map_cons, List.prod_cons, ← mul_assoc]
      rfl

/-- Maps that do not shift do not shift together. -/
theorem shift_foldl_andThen {g : α → Affine R} {xs : List α} {A : Affine R}
    (hxs : ∀ x ∈ xs, (g x).shift = 0) (hA : A.shift = 0) :
    (xs.foldl (fun B x => B.andThen (g x)) A).shift = 0 := by
  induction xs generalizing A with
  | nil => exact hA
  | cons x xs ih =>
      refine ih (fun y hy => hxs y (by simp [hy])) ?_
      simp [andThen, hA, hxs x (by simp)]

/-- **Two orders of the same maps** differ by a constant, whatever they are applied to. -/
theorem foldl_apply_sub_foldl_apply (g : α → Affine R) {xs ys : List α} (h : xs ~ ys) (b : R) :
    xs.foldl (fun c x => (g x).apply c) b - ys.foldl (fun c x => (g x).apply c) b
      = xs.foldl (fun c x => (g x).apply c) 0 - ys.foldl (fun c x => (g x).apply c) 0 := by
  have hfold : ∀ (zs : List α) (c : R), zs.foldl (fun c x => (g x).apply c) c
      = c * (zs.map (fun x => (g x).factor)).prod
        + zs.foldl (fun c x => (g x).apply c) 0 := by
    intro zs c
    have h₁ := apply_foldl_andThen g zs .stay c
    have h₀ := apply_foldl_andThen g zs .stay 0
    have hf := factor_foldl_andThen g zs .stay
    rw [apply_stay] at h₁ h₀
    have hone : (stay : Affine R).factor = 1 := rfl
    rw [← h₁, ← h₀]
    unfold apply
    rw [hf, hone]
    ring
  have hprod : (xs.map (fun x => (g x).factor)).prod = (ys.map (fun x => (g x).factor)).prod :=
    (h.map _).prod_eq
  rw [hfold xs b, hfold ys b, hprod]
  ring

/-- Maps that all keep the slope, or that all do not shift, can be applied in any order. -/
theorem foldl_apply_eq_of_perm {g : α → Affine R} {xs ys : List α} (h : xs ~ ys)
    (hkind : (∀ x ∈ xs, (g x).factor = 1) ∨ ∀ x ∈ xs, (g x).shift = 0) (b : R) :
    xs.foldl (fun c x => (g x).apply c) b = ys.foldl (fun c x => (g x).apply c) b := by
  refine h.foldl_eq' (fun x hx y hy c => ?_) b
  rcases hkind with hone | hzero
  · simp only [apply, hone x hx, hone y hy]
    ring
  · simp only [apply, hzero x hx, hzero y hy]
    ring

/-- Two maps commute at one argument exactly when they commute everywhere. -/
theorem swaps_iff (A B : Affine R) (b : R) :
    A.Swaps B ↔ B.apply (A.apply b) = A.apply (B.apply b) := by
  unfold Swaps apply
  constructor
  · intro h
    linear_combination h
  · intro h
    linear_combination h

end Affine

end Reorder
