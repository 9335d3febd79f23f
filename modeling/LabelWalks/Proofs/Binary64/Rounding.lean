/-
  LabelWalks.Proofs.Binary64.Rounding
  ───────────────────────────────────
  **ROUNDING KEEPS THE ORDER.**

  A magnitude word names a range of fractions and a multiple of the unit of that range.
  To round a fraction is to find its range and then the nearest multiple, a half to the
  even one.  Ranges lie one above the other, and within a range a greater fraction has no
  lesser multiple nearest to it; so rounding never turns two fractions round, and a
  number is rounded to itself.

    • `Within`, `Nearest`, `Rounds` — the range, the multiple, the word of a fraction,
    • `Rounds.mono` — greater fractions have no lesser words,
    • `rounds_nearestMagnitude`, `rounds_value` — the function that rounds, and a number,
    • `value_ofNat`, `ceil_eq`, `value_mul_le` — naturals, rounding up, products.
-/
import LabelWalks.Binary64.Basic
import Mathlib

namespace LabelWalks.Binary64

/-! ## §1. Ranges. -/

/-- The unit of the range with a raised exponent: all numbers in the range are multiples of it. -/
def unit (raised : ℕ) : ℚ :=
  2 ^ ((raised : ℤ) - 1074)

theorem unit_pos (raised : ℕ) : 0 < unit raised :=
  zpow_pos (by norm_num) _

/-- A power of two as the quotient of two natural numbers. -/
theorem zpow_eq_div (k : ℤ) : (2 : ℚ) ^ k = (2 ^ k.toNat : ℕ) / (2 ^ (-k).toNat : ℕ) := by
  have hk : k = (k.toNat : ℤ) - ((-k).toNat : ℤ) := by omega
  push_cast
  conv_lhs => rw [hk]
  rw [zpow_sub₀ (by norm_num), zpow_natCast, zpow_natCast]

theorem unit_eq_div (raised : ℕ) :
    unit raised = (2 ^ (raised - 1074) : ℕ) / (2 ^ (1074 - raised) : ℕ) := by
  unfold unit
  rw [zpow_eq_div, show ((raised : ℤ) - 1074).toNat = raised - 1074 by omega,
    show (-((raised : ℤ) - 1074)).toNat = 1074 - raised by omega]

theorem unit_succ (raised : ℕ) : unit (raised + 1) = 2 * unit raised := by
  unfold unit
  rw [← zpow_one_add₀ (by norm_num)]
  congr 1
  push_cast
  ring

theorem unit_le {raised raised' : ℕ} (h : raised ≤ raised') : unit raised ≤ unit raised' :=
  zpow_le_zpow_right₀ (by norm_num) (by omega)

/-- The fraction is in the range with a raised exponent: it has less than `2 ^ 53` units, and
`2 ^ 52` of them at least unless there is no lower range. -/
structure Within (raised : ℕ) (q : ℚ) : Prop where
  below : q < 2 ^ 53 * unit raised
  above : 0 < raised → 2 ^ 52 * unit raised ≤ q

/-- **Ranges lie one above the other.** -/
theorem Within.le {raised raised' : ℕ} {q q' : ℚ} (h : Within raised q) (h' : Within raised' q')
    (hq : q ≤ q') : raised ≤ raised' := by
  by_contra hlt
  have hstep : unit (raised' + 1) ≤ unit raised := unit_le (by omega)
  have hlow := h.above (by omega)
  have hhigh := h'.below
  rw [unit_succ] at hstep
  linarith

/-! ## §2. Multiples. -/

/-- The natural number that is nearest to a fraction, a half to the even one, told by the
numbers that are not above it. -/
def Nearest (q : ℚ) (k : ℕ) : Prop :=
  ∀ j : ℕ, j ≤ k ↔ (j : ℚ) < q + 1 / 2 ∨ (j : ℚ) = q + 1 / 2 ∧ Even j

theorem Nearest.mono {q q' : ℚ} {k k' : ℕ} (h : Nearest q k) (h' : Nearest q' k') (hq : q ≤ q') :
    k ≤ k' := by
  rw [h' k]
  rcases (h k).1 le_rfl with hlt | ⟨heq, heven⟩
  · exact .inl (by linarith)
  · rcases hq.lt_or_eq with hlt | rfl
    · exact .inl (by linarith)
    · exact .inr ⟨heq, heven⟩

/-- A natural number is nearest to itself. -/
theorem nearest_natCast (k : ℕ) : Nearest k k := by
  intro j
  constructor
  · intro hj
    have hj : (j : ℚ) ≤ k := by exact_mod_cast hj
    exact .inl (by linarith)
  · intro hj
    by_contra hlt
    have hlt : (k : ℚ) + 1 ≤ j := by exact_mod_cast not_le.1 hlt
    rcases hj with hj | ⟨hj, -⟩
    · linarith
    · linarith

/-- **Division with its remainder looked at** gives the nearest number. -/
theorem nearest_roundHalfEven {n d : ℕ} (hd : 0 < d) :
    Nearest ((n : ℚ) / d) (roundHalfEven n d) := by
  have hdpos : (0 : ℚ) < d := by exact_mod_cast hd
  have hquotient : (n : ℚ) = d * (n / d : ℕ) + (n % d : ℕ) := by
    exact_mod_cast (Nat.div_add_mod n d).symm
  have hrest : ((n % d : ℕ) : ℚ) < d := by exact_mod_cast Nat.mod_lt n hd
  have hrest0 : (0 : ℚ) ≤ (n % d : ℕ) := Nat.cast_nonneg _
  show Nearest _ (if d < 2 * (n % d) ∨ 2 * (n % d) = d ∧ n / d % 2 = 1 then n / d + 1 else n / d)
  generalize n / d = quotient at *
  generalize n % d = rest at *
  have hhalf : (n : ℚ) / d + 1 / 2 = (2 * d * quotient + 2 * rest + d) / (2 * d) := by
    rw [hquotient]
    field_simp
  intro j
  rw [hhalf, lt_div_iff₀ (by linarith), eq_div_iff (by linarith)]
  rcases Nat.lt_trichotomy j (quotient + 1) with hj | rfl | hj
  · -- not above the quotient
    have hj : j ≤ quotient := Nat.le_of_lt_succ hj
    have hcast : (j : ℚ) * (2 * d) ≤ quotient * (2 * d) := by gcongr
    refine iff_of_true ?_ (.inl (by linarith))
    split <;> omega
  · -- the number after the quotient, which is the one in question
    have hup : (quotient + 1 : ℕ) * (2 * (d : ℚ)) < 2 * d * quotient + 2 * rest + d ↔ d < 2 * rest := by
      rw [← Nat.cast_lt (α := ℚ)]
      push_cast
      constructor <;> intro h <;> linarith
    have htie : (quotient + 1 : ℕ) * (2 * (d : ℚ)) = 2 * d * quotient + 2 * rest + d ↔ 2 * rest = d := by
      rw [← Nat.cast_inj (R := ℚ)]
      push_cast
      constructor <;> intro h <;> linarith
    have heven : Even (quotient + 1) ↔ quotient % 2 = 1 := by
      rw [Nat.even_iff]
      omega
    rw [hup, htie, heven]
    split <;> omega
  · -- two above the quotient at least
    have hcast : ((quotient + 2 : ℕ) : ℚ) * (2 * d) ≤ j * (2 * d) := by gcongr; omega
    push_cast at hcast
    refine iff_of_false ?_ ?_
    · split <;> omega
    · rintro (h | ⟨h, -⟩) <;> linarith

/-! ## §3. Words of fractions. -/

/-- The magnitude word that a fraction is rounded to, without the bound that infinity is. -/
def Rounds (q : ℚ) (m : ℕ) : Prop :=
  ∃ raised k, Within raised q ∧ Nearest (q / unit raised) k ∧ m = raised * 2 ^ 52 + k

/-- There are not more multiples in a range than up to the next one. -/
theorem Within.nearest_le {raised k : ℕ} {q : ℚ} (h : Within raised q)
    (hk : Nearest (q / unit raised) k) : k ≤ 2 ^ 53 := by
  have hbelow : q / unit raised < (2 ^ 53 : ℕ) := by
    rw [div_lt_iff₀ (unit_pos raised)]
    exact_mod_cast h.below
  exact hk.mono (nearest_natCast _) hbelow.le

/-- The multiples in a range start where those of the range below it end. -/
theorem Within.le_nearest {raised k : ℕ} {q : ℚ} (h : Within raised q)
    (hk : Nearest (q / unit raised) k) (hpos : 0 < raised) : 2 ^ 52 ≤ k := by
  have habove : ((2 ^ 52 : ℕ) : ℚ) ≤ q / unit raised := by
    rw [le_div_iff₀ (unit_pos raised)]
    exact_mod_cast h.above hpos
  exact (nearest_natCast _).mono hk habove

/-- **Rounding keeps the order**: within a range the nearest multiples are in order, and the
multiples of a higher range come after all of a lower one. -/
theorem Rounds.mono {q q' : ℚ} {m m' : ℕ} (h : Rounds q m) (h' : Rounds q' m') (hq : q ≤ q') :
    m ≤ m' := by
  obtain ⟨raised, k, hwithin, hk, rfl⟩ := h
  obtain ⟨raised', k', hwithin', hk', rfl⟩ := h'
  rcases (hwithin.le hwithin' hq).eq_or_lt with rfl | hlt
  · have hle := hk.mono hk' (div_le_div_of_nonneg_right hq (unit_pos raised).le)
    omega
  · have hmost := hwithin.nearest_le hk
    have hleast := hwithin'.le_nearest hk' (by omega)
    omega

/-- A fraction has one word. -/
theorem Rounds.unique {q : ℚ} {m m' : ℕ} (h : Rounds q m) (h' : Rounds q m') : m = m' :=
  le_antisymm (h.mono h' le_rfl) (h'.mono h le_rfl)

/-- A multiple of the unit of its range is its own word. -/
theorem rounds_multiple {raised k : ℕ} (hmost : k < 2 ^ 53) (hleast : 0 < raised → 2 ^ 52 ≤ k) :
    Rounds (k * unit raised) (raised * 2 ^ 52 + k) := by
  have hunit := unit_pos raised
  refine ⟨raised, k, ⟨?_, fun hpos => ?_⟩, ?_, rfl⟩
  · exact mul_lt_mul_of_pos_right (by exact_mod_cast hmost) hunit
  · exact mul_le_mul_of_nonneg_right (by exact_mod_cast hleast hpos) hunit.le
  · rw [mul_div_cancel_right₀ _ hunit.ne']
    exact nearest_natCast k

theorem rounds_zero : Rounds 0 0 := by
  have h : Rounds ((0 : ℕ) * unit 0) (0 * 2 ^ 52 + 0) := rounds_multiple (by norm_num) (by simp)
  simpa using h

/-! ## §4. The function that rounds. -/

/-- The comparison by which the exponent of a fraction is found. -/
theorem lt_zpow_iff {n d : ℕ} (hd : 0 < d) (k : ℤ) :
    (n : ℚ) / d < 2 ^ k ↔ n * Nat.pow 2 (-k).toNat < d * Nat.pow 2 k.toNat := by
  have hd : (0 : ℚ) < d := by exact_mod_cast hd
  have hpow : (0 : ℚ) < (2 ^ (-k).toNat : ℕ) := by positivity
  rw [zpow_eq_div, div_lt_div_iff₀ hd hpow, Nat.pow_eq, Nat.pow_eq, mul_comm (d : ℕ)]
  exact_mod_cast Iff.rfl

/-- **The exponent of a fraction**: a power of two is not above it, and the next one is. -/
theorem binade_spec {n d : ℕ} (hn : 0 < n) (hd : 0 < d) :
    (2 : ℚ) ^ binade n d ≤ n / d ∧ (n : ℚ) / d < 2 ^ (binade n d + 1) := by
  -- by the number of digits the exponent is known up to one
  have hdpos : (0 : ℚ) < d := by exact_mod_cast hd
  have hnlow : (2 : ℚ) ^ (n.log2 : ℤ) ≤ n := by exact_mod_cast Nat.log2_self_le hn.ne'
  have hnhigh : (n : ℚ) < 2 ^ ((n.log2 : ℤ) + 1) := by exact_mod_cast Nat.lt_log2_self
  have hdlow : (2 : ℚ) ^ (d.log2 : ℤ) ≤ d := by exact_mod_cast Nat.log2_self_le hd.ne'
  have hdhigh : (d : ℚ) < 2 ^ ((d.log2 : ℤ) + 1) := by exact_mod_cast Nat.lt_log2_self
  have hlow : (2 : ℚ) ^ ((n.log2 : ℤ) - d.log2 - 1) ≤ n / d := by
    rw [sub_sub, zpow_sub₀ (by norm_num)]
    exact div_le_div₀ (Nat.cast_nonneg n) hnlow hdpos hdhigh.le
  have hhigh : (n : ℚ) / d < 2 ^ ((n.log2 : ℤ) - d.log2 + 1) := by
    rw [show (n.log2 : ℤ) - d.log2 + 1 = n.log2 + 1 - d.log2 by ring, zpow_sub₀ (by norm_num)]
    exact div_lt_div₀ hnhigh hdlow (by positivity) (by positivity)
  show (2 : ℚ) ^ (if _ then _ else _ : ℤ) ≤ _ ∧ _ < (2 : ℚ) ^ ((if _ then _ else _ : ℤ) + 1)
  by_cases hless : (n : ℚ) / d < 2 ^ ((n.log2 : ℤ) - d.log2)
  · rw [if_pos ((lt_zpow_iff hd _).1 hless), sub_add_cancel]
    exact ⟨hlow, hless⟩
  · rw [if_neg (mt (lt_zpow_iff hd _).2 hless)]
    exact ⟨not_lt.1 hless, hhigh⟩

/-- A fraction is in the range of its exponent. -/
theorem within_binade {n d : ℕ} (hn : 0 < n) (hd : 0 < d) :
    Within (binade n d + 1022).toNat ((n : ℚ) / d) := by
  obtain ⟨hlow, hhigh⟩ := binade_spec hn hd
  constructor
  · refine hhigh.trans_le ?_
    unfold unit
    rw [← zpow_natCast, ← zpow_add₀ (by norm_num)]
    exact zpow_le_zpow_right₀ (by norm_num) (by omega)
  · intro hpos
    refine le_trans ?_ hlow
    unfold unit
    rw [← zpow_natCast, ← zpow_add₀ (by norm_num)]
    exact zpow_le_zpow_right₀ (by norm_num) (by omega)

/-- A fraction in units of a range, as the quotient of two natural numbers. -/
theorem div_unit (n d raised : ℕ) :
    (n : ℚ) / d / unit raised =
      (n * Nat.pow 2 (1074 - raised) : ℕ) / (d * Nat.pow 2 (raised - 1074) : ℕ) := by
  rw [unit_eq_div, div_div_div_eq]
  push_cast [Nat.pow_eq]
  rfl

/-- **The function that rounds** gives the word of a fraction. -/
theorem rounds_nearestMagnitude (n : ℕ) {d : ℕ} (hd : 0 < d) :
    Rounds ((n : ℚ) / d) (nearestMagnitude n d) := by
  unfold nearestMagnitude
  rcases Nat.eq_zero_or_pos n with rfl | hn
  · simpa using rounds_zero
  rw [if_neg hn.ne']
  refine ⟨_, _, within_binade hn hd, ?_, rfl⟩
  rw [div_unit]
  exact nearest_roundHalfEven (Nat.mul_pos hd (Nat.two_pow_pos _))

/-! ## §5. Numbers. -/

/-- The magnitude of a finite number. -/
def value (x : Binary64) : ℚ :=
  (x.fraction.1 : ℚ) / x.fraction.2

/-- It depends on the magnitude word alone. -/
theorem value_eq_of_magnitudeBits {x y : Binary64} (h : x.magnitudeBits = y.magnitudeBits) :
    x.value = y.value := by
  unfold value fraction significand raisedExponent
  rw [h]

/-- A number is a multiple in the range of its exponent. -/
theorem value_eq (x : Binary64) : x.value = x.significand * unit x.raisedExponent := by
  unfold value fraction
  rw [unit_eq_div]
  by_cases hexponent : 1074 ≤ x.raisedExponent
  · rw [if_pos hexponent, Nat.sub_eq_zero_of_le hexponent]
    push_cast [Nat.pow_eq]
    ring
  · rw [if_neg hexponent, Nat.sub_eq_zero_of_le (Nat.le_of_not_le hexponent)]
    push_cast [Nat.pow_eq]
    ring

/-- The fields of a magnitude word, together the word again. -/
theorem magnitudeBits_eq (x : Binary64) :
    x.magnitudeBits = x.raisedExponent * 2 ^ 52 + x.significand ∧ x.significand < 2 ^ 53
      ∧ (0 < x.raisedExponent → 2 ^ 52 ≤ x.significand) := by
  unfold raisedExponent significand
  rw [Nat.pow_eq]
  split <;> omega

/-- The fields of the magnitude word of a multiple. -/
theorem fields_of_magnitudeBits {x : Binary64} {raised k : ℕ}
    (hx : x.magnitudeBits = raised * 2 ^ 52 + k) (hmost : k < 2 ^ 53)
    (hleast : 0 < raised → 2 ^ 52 ≤ k) : x.raisedExponent = raised ∧ x.significand = k := by
  obtain ⟨hbits, hmost', hleast'⟩ := magnitudeBits_eq x
  omega

/-- **A number is rounded to itself.** -/
theorem rounds_value (x : Binary64) : Rounds x.value x.magnitudeBits := by
  obtain ⟨hbits, hmost, hleast⟩ := magnitudeBits_eq x
  rw [value_eq, hbits]
  exact rounds_multiple hmost hleast

/-- Numbers are in the order of their magnitude words. -/
theorem value_le {x y : Binary64} (h : x.magnitudeBits ≤ y.magnitudeBits) : x.value ≤ y.value := by
  by_contra hlt
  have hback := (rounds_value y).mono (rounds_value x) (not_le.1 hlt).le
  exact hlt (value_eq_of_magnitudeBits (Nat.le_antisymm h hback)).le

theorem value_nonneg (x : Binary64) : 0 ≤ x.value :=
  div_nonneg (Nat.cast_nonneg _) (Nat.cast_nonneg _)

theorem value_pos {x : Binary64} (h : 0 < x.magnitudeBits) : 0 < x.value := by
  refine (value_nonneg x).lt_of_ne fun hzero => ?_
  have hword := rounds_value x
  rw [← hzero] at hword
  exact absurd (hword.unique rounds_zero) h.ne'

/-! ## §6. What is computed. -/

theorem infinityBits_eq : infinityBits = 2047 * 2 ^ 52 := rfl

theorem magnitudeBits_ofMagnitude (m : ℕ) :
    (ofMagnitude false m).magnitudeBits = Min.min m infinityBits
      ∧ (ofMagnitude false m).isNegative = false := by
  have hmin : Min.min m infinityBits < 2 ^ 63 := by
    rw [infinityBits_eq]
    omega
  have hword : (ofMagnitude false m).bits.toNat = Min.min m infinityBits :=
    UInt64.toNat_ofNat_of_lt' (hmin.trans (by decide))
  unfold magnitudeBits isNegative
  rw [hword, Nat.pow_eq]
  exact ⟨Nat.mod_eq_of_lt hmin, decide_eq_false (Nat.not_le.2 hmin)⟩

/-- A natural number below `2 ^ 53` is a multiple in some range. -/
theorem exists_multiple {n : ℕ} (hn : n < 2 ^ 53) : ∃ raised k : ℕ, raised ≤ 1074 ∧ k < 2 ^ 53
    ∧ (0 < raised → 2 ^ 52 ≤ k) ∧ (n : ℚ) = k * unit raised := by
  rcases Nat.eq_zero_or_pos n with rfl | hpos
  · exact ⟨0, 0, by norm_num, by norm_num, by simp, by simp⟩
  have hwithin : Within (binade n 1 + 1022).toNat (n : ℚ) := by
    simpa using within_binade hpos Nat.one_pos
  generalize (binade n 1 + 1022).toNat = raised at hwithin
  have hn : (n : ℚ) < 2 ^ 53 := by exact_mod_cast hn
  -- the unit is not above one, for the number has `2 ^ 52` units
  have hraised : raised ≤ 1074 := by
    by_contra hlt
    have hunit : unit 1075 ≤ unit raised := unit_le (by omega)
    have htwo : unit 1075 = 2 := by norm_num [unit]
    have habove := hwithin.above (by omega)
    linarith
  have hmultiple : (n : ℚ) = (n * 2 ^ (1074 - raised) : ℕ) * unit raised := by
    rw [unit_eq_div, Nat.sub_eq_zero_of_le hraised]
    push_cast
    field_simp
  have hunit := unit_pos raised
  refine ⟨raised, n * 2 ^ (1074 - raised), hraised, ?_, fun h => ?_, hmultiple⟩
  · have hbelow := hwithin.below
    rw [hmultiple] at hbelow
    exact_mod_cast lt_of_mul_lt_mul_right hbelow hunit.le
  · have habove := hwithin.above h
    rw [hmultiple] at habove
    exact_mod_cast le_of_mul_le_mul_right habove hunit

/-- **Natural numbers below `2 ^ 53`** are numbers. -/
theorem value_ofNat {n : ℕ} (hn : n < 2 ^ 53) : (ofNat n).value = n := by
  obtain ⟨raised, k, hraised, hmost, hleast, hmultiple⟩ := exists_multiple hn
  have hword : nearestMagnitude n 1 = raised * 2 ^ 52 + k := by
    refine (rounds_nearestMagnitude n Nat.one_pos).unique ?_
    rw [Nat.cast_one, div_one, hmultiple]
    exact rounds_multiple hmost hleast
  have hbits : (ofNat n).magnitudeBits = raised * 2 ^ 52 + k := by
    rw [← hword]
    refine (magnitudeBits_ofMagnitude _).1.trans (Nat.min_eq_left ?_)
    rw [hword, infinityBits_eq]
    omega
  obtain ⟨hexponent, hsignificand⟩ := fields_of_magnitudeBits hbits hmost hleast
  rw [value_eq, hexponent, hsignificand, hmultiple]

theorem fraction_pos (x : Binary64) : 0 < x.fraction.2 := by
  unfold fraction
  split
  · exact Nat.one_pos
  · exact Nat.two_pow_pos _

/-- **Rounding up** a number that is not negative. -/
theorem ceil_eq {x : Binary64} (h : x.isNegative = false) : x.ceil = ⌈x.value⌉₊ := by
  have hpos := fraction_pos x
  have hpos' : (0 : ℚ) < x.fraction.2 := by exact_mod_cast hpos
  unfold ceil
  rw [if_neg (by rw [h]; exact Bool.false_ne_true)]
  refine eq_of_forall_ge_iff fun c => ?_
  show (x.fraction.1 + x.fraction.2 - 1) / x.fraction.2 ≤ c ↔ _
  rw [Nat.ceil_le, value, div_le_iff₀ hpos', ← Nat.ceilDiv_eq_add_pred_div,
    ceilDiv_le_iff_le_mul hpos, mul_comm]
  exact_mod_cast Iff.rfl

/-- **A product is rounded** from the exact one. -/
theorem rounds_mul {x y : Binary64} (hx : x.isNegative = false) (hy : y.isNegative = false) :
    ∃ m, Rounds (x.value * y.value) m ∧ (x.mul y).magnitudeBits = Min.min m infinityBits
      ∧ (x.mul y).isNegative = false := by
  have hmul : x.mul y = ofMagnitude false
      (nearestMagnitude (x.fraction.1 * y.fraction.1) (x.fraction.2 * y.fraction.2)) := by
    unfold mul
    rw [hx, hy]
    rfl
  rw [hmul]
  refine ⟨_, ?_, magnitudeBits_ofMagnitude _⟩
  have hrounds := rounds_nearestMagnitude (x.fraction.1 * y.fraction.1)
    (Nat.mul_pos (fraction_pos x) (fraction_pos y))
  push_cast at hrounds
  rwa [← div_mul_div_comm] at hrounds

/-- A greater product is not rounded to a lesser number. -/
theorem value_mul_le {x y x' y' : Binary64} (hx : x.isNegative = false) (hy : y.isNegative = false)
    (hx' : x'.isNegative = false) (hy' : y'.isNegative = false)
    (h : x.value * y.value ≤ x'.value * y'.value) : (x.mul y).value ≤ (x'.mul y').value := by
  obtain ⟨m, hm, hbits, -⟩ := rounds_mul hx hy
  obtain ⟨m', hm', hbits', -⟩ := rounds_mul hx' hy'
  have hle := hm.mono hm' h
  refine value_le ?_
  omega

/-- A product that is not above a finite number is not rounded above it. -/
theorem value_mul_le_of_le {x y z : Binary64} (hx : x.isNegative = false)
    (hy : y.isNegative = false) (h : x.value * y.value ≤ z.value) : (x.mul y).value ≤ z.value := by
  obtain ⟨m, hm, hbits, -⟩ := rounds_mul hx hy
  have hle := hm.mono (rounds_value z) h
  refine value_le ?_
  omega

/-- A product that is not below a finite number is not rounded below it. -/
theorem le_value_mul_of_le {x y z : Binary64} (hx : x.isNegative = false)
    (hy : y.isNegative = false) (hz : z.magnitudeBits ≤ infinityBits)
    (h : z.value ≤ x.value * y.value) : z.value ≤ (x.mul y).value := by
  obtain ⟨m, hm, hbits, -⟩ := rounds_mul hx hy
  have hle := (rounds_value z).mono hm h
  refine value_le ?_
  omega

/-! ## §7. Order. -/

theorem isNegative_ofNat (n : ℕ) : (ofNat n).isNegative = false :=
  (magnitudeBits_ofMagnitude _).2

theorem magnitudeBits_ofNat_le (n : ℕ) : (ofNat n).magnitudeBits ≤ infinityBits :=
  (magnitudeBits_ofMagnitude _).1.trans_le (Nat.min_le_right _ _)

theorem value_one : one.value = 1 :=
  (value_ofNat (n := 1) (by norm_num)).trans Nat.cast_one

theorem isNaN_one : one.isNaN = false :=
  decide_eq_false (Nat.not_lt.2 (magnitudeBits_ofNat_le 1))

/-- Numbers without a sign are in the order of their magnitude words. -/
theorem lt_iff_of_nonneg {x y : Binary64} (hx : x.isNaN = false) (hy : y.isNaN = false)
    (hsign : x.isNegative = false) (hsign' : y.isNegative = false) :
    x.lt y = true ↔ x.magnitudeBits < y.magnitudeBits := by
  unfold lt isZero
  rw [hx, hy, hsign, hsign']
  simp only [Bool.not_false, Bool.true_and, Bool.and_eq_true, Bool.not_eq_true', decide_eq_true_eq,
    Bool.and_eq_false_iff, beq_eq_false_iff_ne]
  omega

/-- What is not below a number above zero is above zero too. -/
theorem le_of_pos {x y : Binary64} (hsign : x.isNegative = false) (hpos : 0 < x.magnitudeBits)
    (h : x.le y = true) : x.isNaN = false ∧ y.isNaN = false ∧ y.isNegative = false
      ∧ x.magnitudeBits ≤ y.magnitudeBits := by
  unfold le at h
  simp only [Bool.and_eq_true, Bool.not_eq_true'] at h
  obtain ⟨⟨hx, hy⟩, hlt⟩ := h
  refine ⟨hx, hy, ?_⟩
  cases hsign' : y.isNegative with
  | false =>
      refine ⟨rfl, Nat.not_lt.1 fun hless => ?_⟩
      rw [(lt_iff_of_nonneg hy hx hsign' hsign).2 hless] at hlt
      cases hlt
  | true =>
      exfalso
      have hzero : x.isZero = false := beq_false_of_ne hpos.ne'
      unfold lt at hlt
      rw [hx, hy, hsign, hsign', hzero] at hlt
      simp at hlt

theorem isNonpositive_eq_false_iff {x : Binary64} :
    x.isNonpositive = false ↔ x.isNaN = true ∨ x.isNegative = false ∧ 0 < x.magnitudeBits := by
  unfold isNonpositive isZero
  cases x.isNaN <;> cases x.isNegative <;> simp [Nat.pos_iff_ne_zero]

theorem isNonpositive_eq_le_zero (x : Binary64) : x.isNonpositive = x.le (zero false) := by
  have hzero : (zero false).magnitudeBits = 0 := rfl
  have hsign : (zero false).isNegative = false := rfl
  have hnan : (zero false).isNaN = false := rfl
  unfold isNonpositive le lt isZero
  rw [hzero, hsign, hnan]
  cases x.isNaN <;> cases x.isNegative <;> simp [Nat.pos_iff_ne_zero]

end LabelWalks.Binary64
