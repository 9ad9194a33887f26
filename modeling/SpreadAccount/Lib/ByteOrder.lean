import Mathlib.Data.BitVec
import Mathlib.Data.List.Basic
import Mathlib.Tactic.IntervalCases

set_option autoImplicit false

/-! # Byte order

Integers of two and of four bytes in the memory of a machine that stores them least or most
significant byte first. `flip16` and `flip32` reverse the bytes of an integer with shifts and
masks. A machine that loads an integer which one of the other byte order has stored gets the right
one by flipping it (`flip16_load16`, `flip32_load32`).
-/

namespace ByteOrder

/-- The order in which a machine stores the bytes of an integer. -/
inductive Endian where
  | little
  | big
  deriving DecidableEq

/-! ## Loading and storing -/

/-- The integer in two bytes of memory. -/
def Endian.load16 (e : Endian) (b₀ b₁ : UInt8) : BitVec 16 :=
  match e with
  | .little => b₁.toBitVec ++ b₀.toBitVec
  | .big => b₀.toBitVec ++ b₁.toBitVec

/-- The integer in four bytes of memory. -/
def Endian.load32 (e : Endian) (b₀ b₁ b₂ b₃ : UInt8) : BitVec 32 :=
  match e with
  | .little => b₃.toBitVec ++ b₂.toBitVec ++ b₁.toBitVec ++ b₀.toBitVec
  | .big => b₀.toBitVec ++ b₁.toBitVec ++ b₂.toBitVec ++ b₃.toBitVec

/-- The byte of `v` with the bits from `8 * i` on. -/
def byteAt {w : ℕ} (v : BitVec w) (i : ℕ) : UInt8 := UInt8.ofBitVec (v.extractLsb' (8 * i) 8)

/-- The bytes of an integer in memory. -/
def Endian.store16 (e : Endian) (v : BitVec 16) : List UInt8 :=
  match e with
  | .little => [byteAt v 0, byteAt v 1]
  | .big => [byteAt v 1, byteAt v 0]

/-- The bytes of an integer in memory. -/
def Endian.store32 (e : Endian) (v : BitVec 32) : List UInt8 :=
  match e with
  | .little => [byteAt v 0, byteAt v 1, byteAt v 2, byteAt v 3]
  | .big => [byteAt v 3, byteAt v 2, byteAt v 1, byteAt v 0]

/-! ## Flipping -/

/-- The two bytes exchanged. -/
def flip16 (v : BitVec 16) : BitVec 16 := (v.sshiftRight 8 &&& 0x00ff) ||| (v <<< 8 &&& 0xff00)

/-- The four bytes in reverse order. -/
def flip32 (v : BitVec 32) : BitVec 32 :=
  (v.sshiftRight 24 &&& 0x000000ff) ||| (v.sshiftRight 8 &&& 0x0000ff00)
    ||| (v <<< 8 &&& 0x00ff0000) ||| (v <<< 24 &&& 0xff000000)

theorem flip16_append (a b : BitVec 8) : flip16 (a ++ b) = b ++ a := by
  refine BitVec.eq_of_getLsbD_eq fun i hi => ?_
  simp only [flip16, BitVec.getLsbD_or, BitVec.getLsbD_and, BitVec.getLsbD_sshiftRight,
    BitVec.getLsbD_shiftLeft, BitVec.getLsbD_append]
  interval_cases i <;> simp

theorem flip32_append (a b c d : BitVec 8) : flip32 (a ++ b ++ c ++ d) = d ++ c ++ b ++ a := by
  refine BitVec.eq_of_getLsbD_eq fun i hi => ?_
  simp only [flip32, BitVec.getLsbD_or, BitVec.getLsbD_and, BitVec.getLsbD_sshiftRight,
    BitVec.getLsbD_shiftLeft, BitVec.getLsbD_append]
  interval_cases i <;> simp

theorem Endian.flip16_load16 {e e' : Endian} (h : e ≠ e') (b₀ b₁ : UInt8) :
    flip16 (e'.load16 b₀ b₁) = e.load16 b₀ b₁ := by
  cases e <;> cases e'
  · exact absurd rfl h
  · exact flip16_append _ _
  · exact flip16_append _ _
  · exact absurd rfl h

theorem Endian.flip32_load32 {e e' : Endian} (h : e ≠ e') (b₀ b₁ b₂ b₃ : UInt8) :
    flip32 (e'.load32 b₀ b₁ b₂ b₃) = e.load32 b₀ b₁ b₂ b₃ := by
  cases e <;> cases e'
  · exact absurd rfl h
  · exact flip32_append _ _ _ _
  · exact flip32_append _ _ _ _
  · exact absurd rfl h

theorem append_byteAt_16 (v : BitVec 16) :
    (byteAt v 1).toBitVec ++ (byteAt v 0).toBitVec = v := by
  refine BitVec.eq_of_getLsbD_eq fun i hi => ?_
  simp only [byteAt, BitVec.getLsbD_append, BitVec.getLsbD_extractLsb']
  interval_cases i <;> simp

theorem append_byteAt_32 (v : BitVec 32) :
    (byteAt v 3).toBitVec ++ (byteAt v 2).toBitVec ++ (byteAt v 1).toBitVec
      ++ (byteAt v 0).toBitVec = v := by
  refine BitVec.eq_of_getLsbD_eq fun i hi => ?_
  simp only [byteAt, BitVec.getLsbD_append, BitVec.getLsbD_extractLsb']
  interval_cases i <;> simp

theorem flip16_flip16 (v : BitVec 16) : flip16 (flip16 v) = v := by
  rw [← append_byteAt_16 v, flip16_append, flip16_append]

theorem flip32_flip32 (v : BitVec 32) : flip32 (flip32 v) = v := by
  rw [← append_byteAt_32 v, flip32_append, flip32_append]

theorem flip32_and (v v' : BitVec 32) : flip32 (v &&& v') = flip32 v &&& flip32 v' := by
  refine BitVec.eq_of_getLsbD_eq fun i hi => ?_
  simp only [flip32, BitVec.getLsbD_or, BitVec.getLsbD_and, BitVec.getLsbD_sshiftRight,
    BitVec.getLsbD_shiftLeft]
  interval_cases i <;> simp

theorem byteAt_flip16 (v : BitVec 16) {i : ℕ} (hi : i ≤ 1) :
    byteAt (flip16 v) i = byteAt v (1 - i) := by
  refine UInt8.toBitVec_inj.mp (BitVec.eq_of_getLsbD_eq fun k hk => ?_)
  simp only [byteAt, flip16, BitVec.getLsbD_extractLsb', BitVec.getLsbD_or, BitVec.getLsbD_and,
    BitVec.getLsbD_sshiftRight, BitVec.getLsbD_shiftLeft]
  interval_cases i <;> interval_cases k <;> simp

theorem byteAt_flip32 (v : BitVec 32) {i : ℕ} (hi : i ≤ 3) :
    byteAt (flip32 v) i = byteAt v (3 - i) := by
  refine UInt8.toBitVec_inj.mp (BitVec.eq_of_getLsbD_eq fun k hk => ?_)
  simp only [byteAt, flip32, BitVec.getLsbD_extractLsb', BitVec.getLsbD_or, BitVec.getLsbD_and,
    BitVec.getLsbD_sshiftRight, BitVec.getLsbD_shiftLeft]
  interval_cases i <;> interval_cases k <;> simp

/-- A machine stores a flipped integer as one of the other byte order stores the integer. -/
theorem Endian.store16_flip16 {e e' : Endian} (h : e ≠ e') (v : BitVec 16) :
    e'.store16 (flip16 v) = e.store16 v := by
  have h₀ := byteAt_flip16 v (i := 0) (by omega)
  have h₁ := byteAt_flip16 v (i := 1) (by omega)
  cases e <;> cases e' <;> simp_all [Endian.store16]

/-- A machine stores a flipped integer as one of the other byte order stores the integer. -/
theorem Endian.store32_flip32 {e e' : Endian} (h : e ≠ e') (v : BitVec 32) :
    e'.store32 (flip32 v) = e.store32 v := by
  have h₀ := byteAt_flip32 v (i := 0) (by omega)
  have h₁ := byteAt_flip32 v (i := 1) (by omega)
  have h₂ := byteAt_flip32 v (i := 2) (by omega)
  have h₃ := byteAt_flip32 v (i := 3) (by omega)
  cases e <;> cases e' <;> simp_all [Endian.store32]

/-! ## Reading what was stored -/

/-- Reads an integer of two bytes; the second component is what follows. -/
def Endian.read16 (e : Endian) : List UInt8 → Option (BitVec 16 × List UInt8)
  | b₀ :: b₁ :: rest => some (e.load16 b₀ b₁, rest)
  | _ => none

/-- Reads an integer of four bytes; the second component is what follows. -/
def Endian.read32 (e : Endian) : List UInt8 → Option (BitVec 32 × List UInt8)
  | b₀ :: b₁ :: b₂ :: b₃ :: rest => some (e.load32 b₀ b₁ b₂ b₃, rest)
  | _ => none

theorem Endian.length_store16 (e : Endian) (v : BitVec 16) : (e.store16 v).length = 2 := by
  cases e <;> rfl

theorem Endian.length_store32 (e : Endian) (v : BitVec 32) : (e.store32 v).length = 4 := by
  cases e <;> rfl

/-- An integer that was stored in the other byte order is read with its bytes exchanged. -/
theorem Endian.read16_store16 (e e' : Endian) (v : BitVec 16) (rest : List UInt8) :
    e'.read16 (e.store16 v ++ rest) = some (if e = e' then v else flip16 v, rest) := by
  have hsame : ∀ e : Endian, e.read16 (e.store16 v ++ rest) = some (v, rest) := by
    rintro (_ | _) <;> exact congrArg (fun v => some (v, rest)) (append_byteAt_16 v)
  by_cases h : e = e'
  · subst h
    rw [if_pos rfl, hsame]
  · rw [if_neg h]
    have hload := hsame e
    obtain ⟨b₀, b₁, hb⟩ : ∃ b₀ b₁, e.store16 v = [b₀, b₁] := by cases e <;> exact ⟨_, _, rfl⟩
    rw [hb] at hload ⊢
    obtain ⟨rfl, -⟩ := Prod.mk.inj (Option.some.inj hload)
    rw [Endian.flip16_load16 (Ne.symm h)]
    rfl

/-- An integer that was stored in the other byte order is read with its bytes reversed. -/
theorem Endian.read32_store32 (e e' : Endian) (v : BitVec 32) (rest : List UInt8) :
    e'.read32 (e.store32 v ++ rest) = some (if e = e' then v else flip32 v, rest) := by
  have hsame : ∀ e : Endian, e.read32 (e.store32 v ++ rest) = some (v, rest) := by
    rintro (_ | _) <;> exact congrArg (fun v => some (v, rest)) (append_byteAt_32 v)
  by_cases h : e = e'
  · subst h
    rw [if_pos rfl, hsame]
  · rw [if_neg h]
    have hload := hsame e
    obtain ⟨b₀, b₁, b₂, b₃, hb⟩ : ∃ b₀ b₁ b₂ b₃, e.store32 v = [b₀, b₁, b₂, b₃] := by
      cases e <;> exact ⟨_, _, _, _, rfl⟩
    rw [hb] at hload ⊢
    obtain ⟨rfl, -⟩ := Prod.mk.inj (Option.some.inj hload)
    rw [Endian.flip32_load32 (Ne.symm h)]
    rfl

end ByteOrder
