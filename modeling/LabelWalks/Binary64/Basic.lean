/-
  LabelWalks.Binary64.Basic
  ─────────────────────────
  **BINARY64 NUMBERS, EXACTLY.**

  A number is its 64-bit word: a sign bit, an 11-bit exponent field and a 52-bit
  fraction.  A finite word stands for `± significand · 2 ^ exponent`, and all
  arithmetic goes through exact natural fractions that are rounded once, to the
  nearest word, ties to the even one.  No machine float takes part, so each
  value below is a definition that can be computed and reasoned about.

    • `ofFraction` rounds a fraction to its nearest number,
    • `mul`, `div` round the exact product and quotient,
    • `ceil` is the least natural number that is not below the number.
-/

namespace LabelWalks

/-- A binary64 number, as its word. -/
structure Binary64 where
  bits : UInt64
  deriving DecidableEq, Repr, Inhabited

namespace Binary64

/-! ## §1. The fields of a word. -/

/-- The word without its sign bit.  On numbers that are not NaN its order is the
order of magnitudes. -/
def magnitudeBits (x : Binary64) : Nat :=
  x.bits.toNat % Nat.pow 2 63

/-- The sign bit. -/
def isNegative (x : Binary64) : Bool :=
  Nat.pow 2 63 ≤ x.bits.toNat

/-- The magnitude word of infinity: all exponent bits, no fraction. -/
def infinityBits : Nat :=
  2047 * Nat.pow 2 52

/-- Neither finite nor infinite. -/
def isNaN (x : Binary64) : Bool :=
  infinityBits < x.magnitudeBits

/-- An infinity of either sign. -/
def isInfinite (x : Binary64) : Bool :=
  x.magnitudeBits == infinityBits

/-- Zero of either sign. -/
def isZero (x : Binary64) : Bool :=
  x.magnitudeBits == 0

/-- The integral significand of a finite number, hidden bit included. -/
def significand (x : Binary64) : Nat :=
  if x.magnitudeBits < Nat.pow 2 52 then x.magnitudeBits
  else Nat.pow 2 52 + x.magnitudeBits % Nat.pow 2 52

/-- The exponent that goes with `significand`, raised by 1074 so that the least
one is 0. -/
def raisedExponent (x : Binary64) : Nat :=
  x.magnitudeBits / Nat.pow 2 52 - 1

/-- The magnitude of a finite number as an exact fraction. -/
def fraction (x : Binary64) : Nat × Nat :=
  if 1074 ≤ x.raisedExponent then (x.significand * Nat.pow 2 (x.raisedExponent - 1074), 1)
  else (x.significand, Nat.pow 2 (1074 - x.raisedExponent))

/-! ## §2. Rounding. -/

/-- `n / d` to the nearest natural number, a half to the even one. -/
def roundHalfEven (n d : Nat) : Nat :=
  let q := n / d
  let r := n % d
  if d < 2 * r ∨ (2 * r = d ∧ q % 2 = 1) then q + 1 else q

/-- The binary exponent of a positive fraction: `2 ^ k ≤ n / d < 2 ^ (k + 1)`. -/
def binade (n d : Nat) : Int :=
  let k : Int := (n.log2 : Int) - (d.log2 : Int)
  if n * Nat.pow 2 (-k).toNat < d * Nat.pow 2 k.toNat then k - 1 else k

/-- The word with a sign and a magnitude word; magnitudes past infinity are infinite. -/
def ofMagnitude (negative : Bool) (m : Nat) : Binary64 :=
  ⟨.ofNat (min m infinityBits + if negative then Nat.pow 2 63 else 0)⟩

/-- The magnitude word nearest to `n / d`.  A unit in the last place is
`2 ^ (raised - 1074)`; a significand that rounds up to `2 ^ 53` carries into the
exponent field by itself. -/
def nearestMagnitude (n d : Nat) : Nat :=
  if n = 0 then 0
  else
    let raised := (binade n d + 1022).toNat
    let rounded :=
      roundHalfEven (n * Nat.pow 2 (1074 - raised)) (d * Nat.pow 2 (raised - 1074))
    raised * Nat.pow 2 52 + rounded

/-- The number nearest to `± n / d`, infinite when that is past the largest one. -/
def ofFraction (negative : Bool) (n d : Nat) : Binary64 :=
  ofMagnitude negative (nearestMagnitude n d)

/-- The number nearest to a natural number. -/
def ofNat (n : Nat) : Binary64 :=
  ofFraction false n 1

/-! ## §3. Constants. -/

/-- Not a number. -/
def nan : Binary64 :=
  ⟨0x7FF8000000000000⟩

/-- Infinity with a sign. -/
def infinity (negative : Bool) : Binary64 :=
  ofMagnitude negative infinityBits

/-- Zero with a sign. -/
def zero (negative : Bool) : Binary64 :=
  ofMagnitude negative 0

/-- One. -/
def one : Binary64 :=
  ofNat 1

/-! ## §4. Order. -/

/-- The number is above zero. -/
def isPositive (x : Binary64) : Bool :=
  !x.isNaN && !x.isNegative && !x.isZero

/-- The number is zero or below; false of NaN. -/
def isNonpositive (x : Binary64) : Bool :=
  !x.isNaN && (x.isNegative || x.isZero)

/-- Strict order; false when either side is NaN. -/
def lt (x y : Binary64) : Bool :=
  !x.isNaN && !y.isNaN && !(x.isZero && y.isZero) &&
    match x.isNegative, y.isNegative with
    | false, false => x.magnitudeBits < y.magnitudeBits
    | true, true => y.magnitudeBits < x.magnitudeBits
    | negative, _ => negative

/-- Order; false when either side is NaN. -/
def le (x y : Binary64) : Bool :=
  !x.isNaN && !y.isNaN && !y.lt x

/-- The lesser number; a NaN gives way to the other side. -/
def min (x y : Binary64) : Binary64 :=
  if x.isNaN then y else if y.lt x then y else x

/-! ## §5. Arithmetic. -/

/-- The number with the other sign. -/
def neg (x : Binary64) : Binary64 :=
  ⟨x.bits ^^^ 0x8000000000000000⟩

/-- The product of two finite numbers, rounded. -/
def mul (x y : Binary64) : Binary64 :=
  let (n, d) := x.fraction
  let (n', d') := y.fraction
  ofFraction (x.isNegative != y.isNegative) (n * n') (d * d')

/-- The quotient of two finite numbers, the second of them not zero, rounded. -/
def div (x y : Binary64) : Binary64 :=
  let (n, d) := x.fraction
  let (n', d') := y.fraction
  ofFraction (x.isNegative != y.isNegative) (n * d') (d * n')

/-- The least natural number that is not below a finite number. -/
def ceil (x : Binary64) : Nat :=
  if x.isNegative then 0
  else
    let (n, d) := x.fraction
    (n + d - 1) / d

end Binary64

end LabelWalks
