/-
  LabelWalks.Text.Numeral
  ───────────────────────
  **DECIMAL NUMERALS OF BOUNDED WORDS.**

  A numeral is one decimal digit or more, after a plus sign or none; leading
  zeros are allowed.  A reader of a word refuses a numeral whose value does not
  fit the word.
-/

namespace LabelWalks.Text

/-! ## §1. Digits. -/

/-- The value of a decimal digit. -/
def digit? (c : Char) : Option Nat :=
  if '0' ≤ c ∧ c ≤ '9' then some (c.toNat - '0'.toNat) else none

/-- The value of a run of decimal digits after digits worth `acc`. -/
def digitsFrom? (acc : Nat) : List Char → Option Nat
  | [] => some acc
  | c :: rest => (digit? c).bind fun d => digitsFrom? (10 * acc + d) rest

/-- The value of a numeral without a sign; the empty text is none. -/
def digits? (s : List Char) : Option Nat :=
  if s.isEmpty then none else digitsFrom? 0 s

/-- The value of a numeral, which may start with one plus sign. -/
def numeral? : List Char → Option Nat
  | '+' :: rest => digits? rest
  | s => digits? s

/-! ## §2. Words. -/

/-- A numeral whose value is below `2 ^ 64`. -/
def word64? (s : List Char) : Option UInt64 :=
  (numeral? s).bind fun n => if n < Nat.pow 2 64 then some (.ofNat n) else none

/-- A numeral whose value is below `2 ^ 16`. -/
def word16? (s : List Char) : Option UInt16 :=
  (numeral? s).bind fun n => if n < Nat.pow 2 16 then some (.ofNat n) else none

/-- A numeral whose value is below `2 ^ 32`. -/
def word32? (s : List Char) : Option UInt32 :=
  (numeral? s).bind fun n => if n < Nat.pow 2 32 then some (.ofNat n) else none

end LabelWalks.Text
