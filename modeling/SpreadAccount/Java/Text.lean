import Mathlib

set_option autoImplicit false

/-! # The text functions of the Java library

The replica turns an operation into a command string (`"deposit " + amount`) and its message
handler takes the string apart again with `split(" ")` and `Double.parseDouble`. This file has
what it uses for this:

* `split`, a definition of `String.split(" ")`;
* the decimal text of an `int`, which is in the ids of the transactions;
* `DoubleText D`, what the program relies on of `Double.toString` and `Double.parseDouble`
  for a type `D` of numbers: the text of a number is not empty, has no space and parses back.

The type `D` stays a parameter of the whole development. `DoubleText ℚ` is the instance for
balances taken as exact rationals. `DoubleLong D` is the cast of a number to a `long`, which
`sleep` needs.
-/

namespace SpreadAccount

/-- The exceptions the modelled methods can throw. -/
inductive JavaException where
  | nullPointer
  | indexOutOfBounds
  | numberFormat
  | classCast
  | spread
  deriving DecidableEq

/-! ## `String.split(" ")` -/

/-- `s.split(" ")`: the pieces between single spaces, without the empty pieces at the end. A
string without a space is its own only piece, also when it is empty. -/
def split (s : String) : List String :=
  let pieces := (s.toList.splitOn ' ').map String.ofList
  if pieces.length = 1 then pieces else pieces.rdropWhile (· == "")

theorem splitOn_of_not_mem {c : Char} {l : List Char} (h : c ∉ l) : l.splitOn c = [l] := by
  rw [List.splitOn_eq_splitOnP]
  refine List.splitOnP_eq_singleton fun x hx => ?_
  simpa using fun hxc : x = c => h (hxc ▸ hx)

theorem splitOn_append_of_not_mem {c : Char} {l l' : List Char} (h : c ∉ l) (h' : c ∉ l') :
    (l ++ c :: l').splitOn c = [l, l'] := by
  rw [List.splitOn_eq_splitOnP, List.splitOnP_append_cons_of_forall_mem _ c (by simp),
    ← List.splitOn_eq_splitOnP, splitOn_of_not_mem h']
  intro x hx
  simpa using fun hxc : x = c => h (hxc ▸ hx)

theorem split_of_no_space {w : String} (hw : ' ' ∉ w.toList) : split w = [w] := by
  simp [split, splitOn_of_not_mem hw]

/-- A word, a space and a non-empty argument without a space split into the word and the
argument. This is the shape of every `deposit` and `addInterest` command. -/
theorem split_word_space_arg {w a : String} (hw : ' ' ∉ w.toList) (ha : ' ' ∉ a.toList)
    (hne : a ≠ "") : split (w ++ " " ++ a) = [w, a] := by
  have hlist : (w ++ " " ++ a).toList = w.toList ++ ' ' :: a.toList := by simp
  unfold split
  rw [hlist, splitOn_append_of_not_mem hw ha]
  simp [List.rdropWhile, hne]

example : split "checkTxStatus replica117 " = ["checkTxStatus", "replica117"] := by decide

example : split " " = [] ∧ split "" = [""] := by decide

/-! ## An `int` in a string concatenation

`name + outstandingCounter` appends the decimal text of the counter, which is an `Int32` here and
wraps around as an `int` does. -/

theorem toString_int32_injective {a b : Int32} (h : toString a = toString b) : a = b := by
  have hrepr : a.toInt.repr = b.toInt.repr := h
  exact Int32.toInt_inj.mp (Int.repr_injective hrepr)

/-- A counter that starts at `0` comes back to a value after `2 ^ 32` steps and not before. -/
theorem int32_ofNat_eq_iff {m n : ℕ} :
    Int32.ofNat m = Int32.ofNat n ↔ m % 2 ^ 32 = n % 2 ^ 32 := by
  have hsize : Int32.size = 2 ^ 32 := by decide
  rw [← Int32.toInt_inj, Int32.toInt_ofNat', Int32.toInt_ofNat', hsize]
  constructor
  · intro h
    have hmod : (m : ℤ) % (2 ^ 32 : ℕ) = (n : ℤ) % (2 ^ 32 : ℕ) :=
      calc (m : ℤ) % (2 ^ 32 : ℕ) = Int.bmod m (2 ^ 32) % (2 ^ 32 : ℕ) := Int.bmod_emod.symm
        _ = Int.bmod n (2 ^ 32) % (2 ^ 32 : ℕ) := by rw [h]
        _ = (n : ℤ) % (2 ^ 32 : ℕ) := Int.bmod_emod
    omega
  · intro h
    have hmod : (m : ℤ) % (2 ^ 32 : ℕ) = (n : ℤ) % (2 ^ 32 : ℕ) := by omega
    calc Int.bmod m (2 ^ 32) = Int.bmod ((m : ℤ) % (2 ^ 32 : ℕ)) (2 ^ 32) :=
          (Int.emod_bmod _ _).symm
      _ = Int.bmod ((n : ℤ) % (2 ^ 32 : ℕ)) (2 ^ 32) := by rw [hmod]
      _ = Int.bmod n (2 ^ 32) := Int.emod_bmod _ _

/-! ## `Double.toString` and `Double.parseDouble` -/

/-- What the program relies on of the text of a `double`. `parseDouble` returns `none` where
Java throws a `NumberFormatException`. -/
class DoubleText (D : Type) where
  /-- `Double.toString(x)`, also the text of `x` in a string concatenation. -/
  text : D → String
  /-- `Double.parseDouble(s)`. -/
  parseDouble : String → Option D
  text_ne_empty : ∀ x, text x ≠ ""
  text_no_space : ∀ x, ' ' ∉ (text x).toList
  parseDouble_text : ∀ x, parseDouble (text x) = some x

open DoubleText (text parseDouble)

/-! ## Exact rationals

An integer is written as Java writes a small integral `double` (`100.0`, `-5.0`). A rational
that is not an integer has no decimal text in general and is written as a fraction. -/

/-- The text of a rational. -/
def ratText (q : ℚ) : String :=
  if q.den = 1 then q.num.repr ++ ".0" else q.num.repr ++ "/" ++ q.den.repr

/-- Reads a non-empty string of digits. -/
def readNat (cs : List Char) : Option ℕ :=
  if cs ≠ [] ∧ cs.all Char.isDigit then some (Nat.ofDigitChars 10 cs 0) else none

def readInt : List Char → Option ℤ
  | '-' :: cs => (readNat cs).map (fun n : ℕ => -(n : ℤ))
  | cs => (readNat cs).map (fun n : ℕ => (n : ℤ))

/-- Reads an integer, an integer with the fractional part `0`, or a fraction. -/
def ratParse (s : String) : Option ℚ :=
  match s.toList.splitOn '/' with
  | [n, d] => do
      let n ← readInt n
      let d ← readNat d
      if d = 0 then none else some ((n : ℚ) / (d : ℚ))
  | _ =>
      match s.toList.splitOn '.' with
      | [n] => (readInt n).map (fun n : ℤ => (n : ℚ))
      | [n, ['0']] => (readInt n).map (fun n : ℤ => (n : ℚ))
      | _ => none

theorem isDigit_of_mem_natRepr {n : ℕ} {c : Char} (h : c ∈ n.repr.toList) : c.isDigit := by
  rw [Nat.repr, String.toList_ofList] at h
  exact Nat.isDigit_of_mem_toDigits (by decide) (by decide) h

/-- The text of an integer consists of digits and the minus sign. -/
theorem isDigit_or_minus_of_mem_intRepr {n : ℤ} {c : Char} (h : c ∈ n.repr.toList) :
    c.isDigit ∨ c = '-' := by
  rw [Int.repr_eq_if] at h
  by_cases hn : 0 ≤ n
  · rw [if_pos hn] at h
    exact Or.inl (isDigit_of_mem_natRepr h)
  · rw [if_neg hn, String.toList_append, List.mem_append] at h
    rcases h with h | h
    · exact Or.inr (List.mem_singleton.mp h)
    · exact Or.inl (isDigit_of_mem_natRepr h)

theorem not_mem_natRepr {n : ℕ} {c : Char} (hc : c.isDigit = false) : c ∉ n.repr.toList := by
  intro h
  rw [isDigit_of_mem_natRepr h] at hc
  cases hc

theorem not_mem_intRepr {n : ℤ} {c : Char} (hc : c.isDigit = false) (hm : c ≠ '-') :
    c ∉ n.repr.toList := by
  intro h
  rcases isDigit_or_minus_of_mem_intRepr h with hd | hd
  · rw [hd] at hc; cases hc
  · exact hm hd

theorem readNat_natRepr (n : ℕ) : readNat n.repr.toList = some n := by
  have hdig : n.repr.toList.all Char.isDigit :=
    List.all_eq_true.mpr (fun c hc => isDigit_of_mem_natRepr hc)
  have hne : n.repr.toList ≠ [] := by
    rw [Nat.repr, String.toList_ofList]
    exact Nat.toDigits_ne_nil
  rw [readNat, if_pos ⟨hne, hdig⟩, Nat.repr, String.toList_ofList, Nat.ofDigitChars_ten_toDigits]

theorem readInt_intRepr (n : ℤ) : readInt n.repr.toList = some n := by
  rw [Int.repr_eq_if]
  by_cases hn : 0 ≤ n
  · rw [if_pos hn]
    have hread : readInt n.toNat.repr.toList
        = (readNat n.toNat.repr.toList).map (fun n : ℕ => (n : ℤ)) := by
      unfold readInt
      split
      · rename_i cs hcs
        -- a decimal numeral does not begin with a minus sign
        have hmem : '-' ∈ n.toNat.repr.toList := by rw [hcs]; simp
        exact absurd hmem (not_mem_natRepr (by decide))
      · rfl
    rw [hread, readNat_natRepr, Option.map_some, Int.toNat_of_nonneg hn]
  · rw [if_neg hn, String.toList_append]
    show (readNat (-n).toNat.repr.toList).map (fun n : ℕ => -(n : ℤ)) = some n
    rw [readNat_natRepr, Option.map_some]
    congr 1
    omega

theorem ratParse_ratText (q : ℚ) : ratParse (ratText q) = some q := by
  unfold ratText ratParse
  by_cases hden : q.den = 1
  · have hdot : '.' ∉ q.num.repr.toList := not_mem_intRepr (by decide) (by decide)
    have hslash : '/' ∉ q.num.repr.toList := not_mem_intRepr (by decide) (by decide)
    have hlist : (q.num.repr ++ ".0").toList = q.num.repr.toList ++ '.' :: ['0'] := by simp
    have hnone : (q.num.repr.toList ++ '.' :: ['0']).splitOn '/'
        = [q.num.repr.toList ++ '.' :: ['0']] := splitOn_of_not_mem (by simpa using hslash)
    have hq : ((q.num : ℤ) : ℚ) = q := Rat.coe_int_num_of_den_eq_one hden
    rw [if_pos hden, hlist, hnone, splitOn_append_of_not_mem hdot (by decide)]
    simp only [readInt_intRepr, Option.map_some, hq]
  · have hn : '/' ∉ q.num.repr.toList := not_mem_intRepr (by decide) (by decide)
    have hd : '/' ∉ q.den.repr.toList := not_mem_natRepr (by decide)
    have hlist : (q.num.repr ++ "/" ++ q.den.repr).toList
        = q.num.repr.toList ++ '/' :: q.den.repr.toList := by
      simp only [String.toList_append]
      simp
    rw [if_neg hden, hlist, splitOn_append_of_not_mem hn hd]
    simp only [readInt_intRepr, readNat_natRepr, Option.bind_eq_bind, Option.bind_some,
      q.den_ne_zero, if_false, Rat.num_div_den]

instance : DoubleText ℚ where
  text := ratText
  parseDouble := ratParse
  text_ne_empty q := by
    unfold ratText
    split <;> simp
  text_no_space q := by
    have hn : ' ' ∉ q.num.repr.toList := not_mem_intRepr (by decide) (by decide)
    have hd : ' ' ∉ q.den.repr.toList := not_mem_natRepr (by decide)
    unfold ratText
    split
    · simp [hn]
    · simp only [String.toList_append, List.mem_append, not_or]
      exact ⟨⟨hn, by decide⟩, hd⟩
  parseDouble_text := ratParse_ratText

example : text (100 : ℚ) = "100.0" ∧ parseDouble "-5" = some (-5 : ℚ) := by decide +kernel

/-! ## The cast to `long` -/

/-- `(long) x` for a number `x`: the fraction is dropped, a number out of the range of `long`
becomes the nearest end of it, and what is not a number becomes `0`. -/
class DoubleLong (D : Type) where
  toLong : D → Int64

instance : DoubleLong ℚ where
  toLong q :=
    let n := q.num.tdiv q.den
    if n < Int64.minValue.toInt then Int64.minValue
    else if Int64.maxValue.toInt < n then Int64.maxValue
    else Int64.ofInt n

example : DoubleLong.toLong (-7 / 2 : ℚ) = -3 := by decide +kernel

end SpreadAccount
