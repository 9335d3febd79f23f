/-
  LabelWalks.Proofs.Text.Numeral
  ──────────────────────────────
  **A WORD THAT WAS WRITTEN IS READ AS THE SAME WORD.**

  A number is written with decimal digits and nothing else, so no separator and
  no blank can be a part of it, and its value is what was written.  What is read
  as a word is a numeral, and each numeral whose value fits the word.

    • `word64?_toString`, `word32?_toString`, `word16?_toString` — writing and reading back,
    • `isDigit_of_mem_toString` — what a written number is made of,
    • `Numeral`, `word64?_eq_some_iff`, `word32?_eq_some_iff` — all that is read.
-/
import LabelWalks.Text.Blank
import LabelWalks.Text.Numeral
import Mathlib

namespace LabelWalks.Text

/-! ## §1. Digits. -/

theorem toList_toString (n : Nat) : (toString n).toList = Nat.toDigits 10 n := by
  show n.repr.toList = Nat.toDigits 10 n
  exact Nat.toList_repr

theorem isDigit_of_mem_toString {n : Nat} {c : Char} (hc : c ∈ (toString n).toList) :
    c.isDigit = true := by
  rw [toList_toString] at hc
  exact Nat.isDigit_of_mem_toDigits (by omega) (by omega) hc

theorem toString_ne_nil (n : Nat) : (toString n).toList ≠ [] := by
  rw [toList_toString]
  exact Nat.toDigits_ne_nil

/-- A character that is no digit is no part of a written number. -/
theorem not_mem_toString {n : Nat} {c : Char} (hc : c.isDigit = false) :
    c ∉ (toString n).toList := by
  intro hmem
  rw [isDigit_of_mem_toString hmem] at hc
  cases hc

theorem isBlank_of_isDigit {c : Char} (hc : c.isDigit = true) : isBlank c = false := by
  have hlow : 48 ≤ c.toNat ∧ c.toNat ≤ 57 := Char.isDigit_iff_toNat.1 hc
  unfold isBlank
  simp only [Bool.or_eq_false_iff, Bool.and_eq_false_iff, decide_eq_false_iff_not,
    beq_eq_false_iff_ne]
  omega

theorem digit?_of_isDigit {c : Char} (hc : c.isDigit = true) :
    digit? c = some (c.toNat - '0'.toNat) := by
  have hrange : '0' ≤ c ∧ c ≤ '9' := by
    obtain ⟨hlow, hhigh⟩ := Char.isDigit_iff_toNat.1 hc
    exact ⟨hlow, hhigh⟩
  unfold digit?
  rw [if_pos hrange]

/-! ## §2. Values. -/

theorem digitsFrom?_of_isDigit (s : List Char) :
    ∀ acc, (∀ c ∈ s, c.isDigit = true) →
      digitsFrom? acc s = some (Nat.ofDigitChars 10 s acc) := by
  induction s with
  | nil =>
      intro acc _
      rw [Nat.ofDigitChars_nil]
      rfl
  | cons c s ih =>
      intro acc h
      unfold digitsFrom?
      rw [digit?_of_isDigit (h c List.mem_cons_self), Option.bind_some,
        ih _ fun d hd => h d (List.mem_cons_of_mem _ hd), Nat.ofDigitChars_cons]

/-- **The value of a written number.** -/
theorem numeral?_toString (n : Nat) : numeral? (toString n).toList = some n := by
  have hvalue : digitsFrom? 0 (toString n).toList = some n := by
    rw [digitsFrom?_of_isDigit _ 0 fun c hc => isDigit_of_mem_toString hc, toList_toString,
      Nat.ofDigitChars_ten_toDigits]
  have hdigits : digits? (toString n).toList = some n := by
    unfold digits?
    rw [if_neg (by rw [List.isEmpty_iff]; exact toString_ne_nil n)]
    exact hvalue
  have hplus : '+' ∉ (toString n).toList := not_mem_toString (by decide)
  unfold numeral?
  split
  next rest hs => exact absurd (hs ▸ List.mem_cons_self) hplus
  next => exact hdigits

theorem word64?_toString (n : UInt64) : word64? (toString n.toNat).toList = some n := by
  have hbound : n.toNat < Nat.pow 2 64 := n.toNat_lt
  unfold word64?
  rw [numeral?_toString, Option.bind_some, if_pos hbound, UInt64.ofNat_toNat]

theorem word32?_toString (n : UInt32) : word32? (toString n.toNat).toList = some n := by
  have hbound : n.toNat < Nat.pow 2 32 := n.toNat_lt
  unfold word32?
  rw [numeral?_toString, Option.bind_some, if_pos hbound, UInt32.ofNat_toNat]

theorem word16?_toString (n : UInt16) : word16? (toString n.toNat).toList = some n := by
  have hbound : n.toNat < Nat.pow 2 16 := n.toNat_lt
  unfold word16?
  rw [numeral?_toString, Option.bind_some, if_pos hbound, UInt16.ofNat_toNat]

/-! ## §3. All numerals. -/

/-- A decimal numeral and its value: one digit or more, after a plus sign or none. -/
def Numeral (s : List Char) (n : Nat) : Prop :=
  ∃ digits, digits ≠ [] ∧ (∀ c ∈ digits, c.isDigit = true) ∧ (s = digits ∨ s = '+' :: digits)
    ∧ Nat.ofDigitChars 10 digits 0 = n

/-- A numeral has no blank. -/
theorem isBlank_of_mem_numeral {s : List Char} {n : Nat} (h : Numeral s n) {c : Char} (hc : c ∈ s) :
    isBlank c = false := by
  obtain ⟨digits, -, hdigits, rfl | rfl, -⟩ := h
  · exact isBlank_of_isDigit (hdigits c hc)
  · rcases List.mem_cons.1 hc with rfl | hc
    · decide
    · exact isBlank_of_isDigit (hdigits c hc)

theorem isDigit_of_digit? {c : Char} {d : Nat} (h : digit? c = some d) : c.isDigit = true := by
  unfold digit? at h
  by_cases hrange : '0' ≤ c ∧ c ≤ '9'
  · exact Char.isDigit_iff_toNat.2 hrange
  · rw [if_neg hrange] at h
    cases h

/-- A run of characters has a value when all of them are digits. -/
theorem isDigit_of_digitsFrom? {s : List Char} :
    ∀ {acc n : Nat}, digitsFrom? acc s = some n → ∀ c ∈ s, c.isDigit = true := by
  induction s with
  | nil => intro acc n _ c hc; cases hc
  | cons d s ih =>
      intro acc n h c hc
      obtain ⟨k, hk, hrest⟩ := Option.bind_eq_some_iff.1 h
      rcases List.mem_cons.1 hc with rfl | hc
      · exact isDigit_of_digit? hk
      · exact ih hrest c hc

theorem digits?_eq_some_iff {s : List Char} {n : Nat} :
    digits? s = some n ↔
      s ≠ [] ∧ (∀ c ∈ s, c.isDigit = true) ∧ Nat.ofDigitChars 10 s 0 = n := by
  unfold digits?
  by_cases hs : s = []
  · simp [hs]
  · rw [if_neg (by rw [List.isEmpty_iff]; exact hs)]
    constructor
    · intro h
      have hdigits := isDigit_of_digitsFrom? h
      rw [digitsFrom?_of_isDigit s 0 hdigits] at h
      exact ⟨hs, hdigits, Option.some.inj h⟩
    · intro h
      obtain ⟨-, hdigits, hvalue⟩ := h
      rw [digitsFrom?_of_isDigit s 0 hdigits, hvalue]

/-- **What is read as a number** is a numeral of that value. -/
theorem numeral?_eq_some_iff {s : List Char} {n : Nat} : numeral? s = some n ↔ Numeral s n := by
  unfold Numeral
  by_cases hplus : ∃ rest, s = '+' :: rest
  · obtain ⟨rest, rfl⟩ := hplus
    show digits? rest = some n ↔ _
    rw [digits?_eq_some_iff]
    constructor
    · intro h
      exact ⟨rest, h.1, h.2.1, .inr rfl, h.2.2⟩
    · intro h
      obtain ⟨digits, hne, hdigits, hs | hs, hvalue⟩ := h
      · -- the sign is no digit
        exact absurd (hdigits '+' (hs ▸ List.mem_cons_self)) (by decide)
      · obtain ⟨-, rfl⟩ := List.cons.inj hs
        exact ⟨hne, hdigits, hvalue⟩
  · have hsame : numeral? s = digits? s := by
      unfold numeral?
      split
      next rest => exact absurd ⟨rest, rfl⟩ hplus
      next => rfl
    rw [hsame, digits?_eq_some_iff]
    constructor
    · intro h
      exact ⟨s, h.1, h.2.1, .inl rfl, h.2.2⟩
    · intro h
      obtain ⟨digits, hne, hdigits, rfl | hs, hvalue⟩ := h
      · exact ⟨hne, hdigits, hvalue⟩
      · exact absurd ⟨digits, hs⟩ hplus

/-- **What is read as a word of 64 bits** is a numeral of its value. -/
theorem word64?_eq_some_iff {s : List Char} {v : UInt64} :
    word64? s = some v ↔ Numeral s v.toNat := by
  unfold word64?
  simp only [Option.bind_eq_some_iff, numeral?_eq_some_iff, Option.ite_none_right_eq_some,
    Option.some.injEq]
  constructor
  · intro h
    obtain ⟨n, hn, hbound, rfl⟩ := h
    rwa [UInt64.toNat_ofNat_of_lt' hbound]
  · intro h
    exact ⟨_, h, v.toNat_lt, UInt64.ofNat_toNat⟩

/-- **What is read as a word of 32 bits** is a numeral of its value. -/
theorem word32?_eq_some_iff {s : List Char} {v : UInt32} :
    word32? s = some v ↔ Numeral s v.toNat := by
  unfold word32?
  simp only [Option.bind_eq_some_iff, numeral?_eq_some_iff, Option.ite_none_right_eq_some,
    Option.some.injEq]
  constructor
  · intro h
    obtain ⟨n, hn, hbound, rfl⟩ := h
    rwa [UInt32.toNat_ofNat_of_lt' hbound]
  · intro h
    exact ⟨_, h, v.toNat_lt, UInt32.ofNat_toNat⟩

/-- A numeral too large for the word, and signs with no digit behind them, are not read. -/
example : word32? "4294967296".toList = none ∧ word32? "+0004294967295".toList = some 4294967295
    ∧ word32? "+".toList = none ∧ word32? "++1".toList = none := by decide

end LabelWalks.Text
