/-
  LabelWalks.Binary64.Printer
  ───────────────────────────
  **THE SHORTEST DECIMAL OF A NUMBER.**

  A decimal reads back as a number when it lies in the number's rounding
  interval, ends included iff the significand is even.  Going from coarse decimal
  grids to fine ones, the first grid with a point in that interval gives the
  fewest digits, and of its points the one nearest to the number is taken.  When
  two are equally near, each written form has its own rule.

    • `positional` writes the digits without an exponent, with ties up,
    • `literal` writes a literal with a fraction or an exponent, with ties to even.
-/
import LabelWalks.Binary64.Basic

namespace LabelWalks.Binary64

/-! ## §1. Shortest digits. -/

/-- The decimal `digits · 10 ^ exponent`. -/
structure Decimal where
  digits : Nat
  exponent : Int
  deriving DecidableEq, Repr

/-- Which of two equally near decimals is taken: the upper, or that with an even
last digit. -/
inductive Tie where
  | up
  | even
  deriving DecidableEq, Repr

/-- The rounding interval of a positive finite number in quarters of its last
place: the number itself, its lower end, its upper end.  Below a power of two
the neighbours are twice as close. -/
def quarters (x : Binary64) : Nat × Nat × Nat :=
  let m := x.significand
  (4 * m, if m = Nat.pow 2 52 ∧ 0 < x.raisedExponent then 4 * m - 1 else 4 * m - 2, 4 * m + 2)

/-- The grid point of `10 ^ k` for a positive finite number: of the two points
around the number that lie in its rounding interval, the nearer. -/
def gridPoint? (tie : Tie) (x : Binary64) (k : Int) : Option Decimal :=
  let (v, low, high) := x.quarters
  -- Values are scaled so that a quarter of the last place and 10 ^ k are both whole.
  let up := Nat.pow 2 (x.raisedExponent - 1076) * Nat.pow 10 (-k).toNat
  let step := Nat.pow 2 (1076 - x.raisedExponent) * Nat.pow 10 k.toNat
  let inside (n : Nat) : Bool :=
    if x.significand % 2 = 0 then low * up ≤ n * step && n * step ≤ high * up
    else low * up < n * step && n * step < high * up
  let below := v * up / step
  let above := below + 1
  let toAbove := above * step - v * up
  let toBelow := v * up - below * step
  let nearAbove := toAbove < toBelow || (toAbove == toBelow && (tie = .up || below % 2 == 1))
  if inside below && !(inside above && nearAbove) then some ⟨below, k⟩
  else if inside above then some ⟨above, k⟩
  else none

/-- The shortest decimal that reads back as a positive finite number.  No such
number reaches `10 ^ 309`, and every one is a whole multiple of `10 ^ -1074`. -/
def shortest (tie : Tie) (x : Binary64) : Decimal :=
  ((List.range 1384).findSome? fun (i : Nat) => x.gridPoint? tie (309 - (i : Int))).getD ⟨0, 0⟩

/-! ## §2. Written forms. -/

/-- Zeros in a row. -/
def zeros (n : Nat) : String :=
  String.ofList (List.replicate n '0')

/-- A decimal without an exponent, as its digits before and after the point. -/
def Decimal.parts (d : Decimal) : String × String :=
  let s := toString d.digits
  if 0 ≤ d.exponent then (s ++ zeros d.exponent.toNat, "")
  else
    let places := (-d.exponent).toNat
    if places < s.length then
      (String.ofList (s.toList.take (s.length - places)),
        String.ofList (s.toList.drop (s.length - places)))
    else ("0", zeros (places - s.length) ++ s)

/-- The sign of a written number. -/
def signText (x : Binary64) : String :=
  if x.isNegative then "-" else ""

/-- The shortest digits without an exponent and without a needless point; NaN
has no sign. -/
def positional (x : Binary64) : String :=
  if x.isNaN then "NaN"
  else if x.isInfinite then x.signText ++ "inf"
  else if x.isZero then x.signText ++ "0"
  else
    let (whole, places) := (x.shortest .up).parts
    x.signText ++ if places.isEmpty then whole else whole ++ "." ++ places

/-- The shortest digits as a literal with at least one place, positional from
`0.00001` up to sixteen whole digits and with an exponent outside; only for
finite numbers. -/
def literal (x : Binary64) : String :=
  if x.isZero then x.signText ++ "0.0"
  else
    let d := x.shortest .even
    let s := toString d.digits
    -- The position of the point, counted from the first digit.
    let point : Int := s.length + d.exponent
    if -5 < point ∧ point ≤ 16 then
      let (whole, places) := d.parts
      x.signText ++ whole ++ "." ++ if places.isEmpty then "0" else places
    else
      let head := String.ofList (s.toList.take 1)
      let tail := String.ofList (s.toList.drop 1)
      let places := if tail.isEmpty then "" else "." ++ tail
      x.signText ++ head ++ places ++ "e" ++ toString (point - 1)

/-- A finite number rounded to a whole one, a half to the even one. -/
def wholeText (x : Binary64) : String :=
  x.signText ++ toString (roundHalfEven x.fraction.1 x.fraction.2)

/-- A finite number rounded to `places` decimal places, a half to the even digit. -/
def fixedText (x : Binary64) (places : Nat) : String :=
  let scaled := roundHalfEven (x.fraction.1 * Nat.pow 10 places) x.fraction.2
  let whole := toString (scaled / Nat.pow 10 places)
  let rest := toString (scaled % Nat.pow 10 places)
  x.signText ++ whole ++ "." ++ zeros (places - rest.length) ++ rest

end LabelWalks.Binary64
