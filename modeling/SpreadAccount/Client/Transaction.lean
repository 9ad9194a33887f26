import SpreadAccount.Java.Text

set_option autoImplicit false

/-! # Transactions

A `Transaction` is what a replica queues for `deposit`, `addInterest` and `getSyncedBalance`:
a command string and an id string. The messages of the group carry lists of them, and the
operation has to be read back out of the string.

`Call` is the operation itself, with its amount, and says what it is for: `Call.apply` is its
effect on a balance. `Call.command` is the string the source builds for it and `readCall` reads
a command string back; `readCall_of_command` is the round trip.
-/

namespace SpreadAccount

open DoubleText (text parseDouble)

/-- A `Transaction` object. `origin` stands for the identity of the object: it names the call
that created it. It is a ghost: the source has no such field, and no definition that follows a
method of the source looks at it. -/
structure Transaction (τ : Type) where
  command : String
  uniqueId : String
  origin : τ
  deriving DecidableEq

namespace Transaction

variable {τ : Type}

/-- `Transaction.toString()`. -/
def toString (t : Transaction τ) : String := t.command ++ " [" ++ t.uniqueId ++ "]"

/-- The test `!t.command.equals("getSyncedBalance")` of the message handler: the transaction
is a deposit or an interest, and belongs in the history. -/
def isUpdate (t : Transaction τ) : Bool := t.command != "getSyncedBalance"

end Transaction

/-! ## The operations behind the transactions -/

/-- An operation that travels to all replicas as a transaction. -/
inductive Call (D : Type) where
  | deposit (amount : D)
  | addInterest (percent : D)
  | getSyncedBalance
  deriving DecidableEq

namespace Call

variable {D : Type}

/-- The command string the source builds for an operation. -/
def command [DoubleText D] : Call D → String
  | .deposit amount => "deposit " ++ text amount
  | .addInterest percent => "addInterest " ++ text percent
  | .getSyncedBalance => "getSyncedBalance"

/-- What the operation does to the balance of the account. -/
def apply [Add D] [Mul D] [Div D] [NatCast D] : Call D → D → D
  | .deposit amount, b => b + amount
  | .addInterest percent, b => b * ((1 : ℕ) + percent / (100 : ℕ))
  | .getSyncedBalance, b => b

end Call

section

variable {D τ : Type} [DoubleText D]

/-- The number at `data[1]`, or the exception the read throws. -/
def readNumber (data : List String) : Except JavaException D :=
  match data[1]? with
  | none => .error .indexOutOfBounds
  | some s =>
      match parseDouble s with
      | none => .error .numberFormat
      | some x => .ok x

/-- The operation a command string stands for, read as the message handler reads it: `none` is
a word the handler has no branch for. -/
def readCall (t : Transaction τ) : Except JavaException (Option (Call D)) :=
  match (split t.command)[0]? with
  | none => .error .indexOutOfBounds
  | some word =>
      if word = "deposit" then
        (readNumber (split t.command)).map (fun amount => some (.deposit amount))
      else if word = "addInterest" then
        (readNumber (split t.command)).map (fun percent => some (.addInterest percent))
      else if word = "getSyncedBalance" then .ok (some .getSyncedBalance)
      else .ok none

theorem split_deposit (amount : D) : split ("deposit " ++ text amount) = ["deposit", text amount] :=
  split_word_space_arg (w := "deposit") (by decide) (DoubleText.text_no_space amount)
    (DoubleText.text_ne_empty amount)

theorem split_addInterest (percent : D) :
    split ("addInterest " ++ text percent) = ["addInterest", text percent] :=
  split_word_space_arg (w := "addInterest") (by decide) (DoubleText.text_no_space percent)
    (DoubleText.text_ne_empty percent)

theorem split_getSyncedBalance : split "getSyncedBalance" = ["getSyncedBalance"] :=
  split_of_no_space (by decide)

/-- **Round trip.** A command string built for an operation is read back as that operation. -/
theorem readCall_of_command {t : Transaction τ} {c : Call D} (h : t.command = c.command) :
    readCall t = .ok (some c) := by
  unfold readCall
  rw [h]
  cases c with
  | deposit amount =>
      simp [Call.command, split_deposit, readNumber, DoubleText.parseDouble_text, Except.map]
  | addInterest percent =>
      simp [Call.command, split_addInterest, readNumber, DoubleText.parseDouble_text, Except.map]
  | getSyncedBalance => simp [Call.command, split_getSyncedBalance]

/-- Different operations have different command strings. -/
theorem Call.command_injective : Function.Injective (Call.command : Call D → String) := by
  intro c c' h
  have h₁ : readCall (⟨c.command, "", ()⟩ : Transaction Unit) = .ok (some c) :=
    readCall_of_command rfl
  have h₂ : readCall (⟨c.command, "", ()⟩ : Transaction Unit) = .ok (some c') :=
    readCall_of_command h
  rw [h₁] at h₂
  simpa using h₂

/-- The handler keeps a transaction in the history exactly when it is not a balance request. -/
theorem isUpdate_of_command {t : Transaction τ} {c : Call D} (h : t.command = c.command) :
    t.isUpdate = true ↔ c ≠ .getSyncedBalance := by
  have hback : t.command = "getSyncedBalance" ↔ c = .getSyncedBalance := by
    rw [h]
    exact ⟨fun heq => Call.command_injective heq, fun heq => by rw [heq]; rfl⟩
  rw [Transaction.isUpdate, bne_iff_ne, ne_eq, hback]

/-! ## Replaying transactions -/

/-- The transaction is one the source builds: its command string is that of an operation. -/
def Transaction.WellFormed (D : Type) [DoubleText D] (t : Transaction τ) : Prop :=
  ∃ c : Call D, t.command = c.command

variable [Add D] [Mul D] [Div D] [NatCast D]

/-- The effect of one transaction on a balance. -/
def effect (t : Transaction τ) (b : D) : D :=
  match readCall t with
  | .ok (some c) => c.apply b
  | _ => b

/-- The balance after a list of transactions, applied in order. -/
def replay (ts : List (Transaction τ)) (b : D) : D :=
  ts.foldl (fun b t => effect t b) b

theorem effect_of_command {t : Transaction τ} {c : Call D} (h : t.command = c.command) (b : D) :
    effect t b = c.apply b := by
  rw [effect, readCall_of_command h]

/-- A balance request leaves the balance alone. -/
theorem effect_of_not_isUpdate {t : Transaction τ} (h : t.isUpdate = false) (b : D) :
    effect t b = b := by
  have hc : t.command = (Call.getSyncedBalance : Call D).command := by
    simpa [Transaction.isUpdate, Call.command] using h
  rw [effect_of_command hc]
  rfl

@[simp] theorem replay_nil (b : D) : replay ([] : List (Transaction τ)) b = b := rfl

@[simp] theorem replay_cons (t : Transaction τ) (ts : List (Transaction τ)) (b : D) :
    replay (t :: ts) b = replay ts (effect t b) := rfl

theorem replay_append (ts us : List (Transaction τ)) (b : D) :
    replay (ts ++ us) b = replay us (replay ts b) := List.foldl_append ..

/-- Balance requests can be left out of a replay. -/
theorem replay_filter_isUpdate (ts : List (Transaction τ)) (b : D) :
    replay (ts.filter (·.isUpdate)) b = replay ts b := by
  induction ts generalizing b with
  | nil => rfl
  | cons t ts ih =>
      cases ht : t.isUpdate with
      | true => rw [List.filter_cons_of_pos ht, replay_cons, replay_cons, ih]
      | false =>
          rw [List.filter_cons_of_neg (by simp [ht]), replay_cons, effect_of_not_isUpdate ht, ih]

end

end SpreadAccount
