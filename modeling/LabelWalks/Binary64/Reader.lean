/-
  LabelWalks.Binary64.Reader
  ──────────────────────────
  **READING A DECIMAL NUMBER.**

  A number is an optional sign and then a name (`inf`, `infinity`, `nan`, in any
  case) or a decimal: digits with at most one point among or around them and an
  optional exponent.  Its value is the nearest binary64 number.
-/
import LabelWalks.Binary64.Basic
import LabelWalks.Text.Numeral

namespace LabelWalks.Binary64

open Text

/-- The leading decimal digits and what follows them. -/
def spanDigits (s : List Char) : List Char × List Char :=
  s.span fun c => (digit? c).isSome

/-- The number nearest to `± digits · 10 ^ exponent`.  A decimal with its first
digit beyond the 310th place is infinite, one below the 330th place is zero, so
no huge power is ever computed for them. -/
def ofDecimal (negative : Bool) (digits : Nat) (exponent : Int) : Binary64 :=
  if digits = 0 then zero negative
  else
    let places : Int := (toString digits).length + exponent
    if 310 < places then infinity negative
    else if places < -330 then zero negative
    else ofFraction negative (digits * Nat.pow 10 exponent.toNat) (Nat.pow 10 (-exponent).toNat)

/-- An exponent with an optional sign. -/
def exponent? : List Char → Option Int
  | '-' :: rest => (digits? rest).map fun n => -(n : Int)
  | '+' :: rest => (digits? rest).map fun n => (n : Int)
  | rest => (digits? rest).map fun n => (n : Int)

/-- A decimal without a sign. -/
def decimal? (negative : Bool) (s : List Char) : Option Binary64 :=
  let (whole, afterWhole) := spanDigits s
  let (places, afterPlaces) :=
    match afterWhole with
    | '.' :: rest => spanDigits rest
    | rest => ([], rest)
  if whole.isEmpty && places.isEmpty then none
  else
    (digits? (whole ++ places)).bind fun digits =>
      let shift : Int := -(places.length : Int)
      match afterPlaces with
      | [] => some (ofDecimal negative digits shift)
      | c :: rest =>
        if c = 'e' ∨ c = 'E' then
          (exponent? rest).map fun e => ofDecimal negative digits (e + shift)
        else none

/-- A named number or a decimal, without a sign. -/
def unsigned? (negative : Bool) (s : List Char) : Option Binary64 :=
  let name := s.map Char.toLower
  if name = ['i', 'n', 'f'] ∨ name = ['i', 'n', 'f', 'i', 'n', 'i', 't', 'y'] then
    some (infinity negative)
  else if name = ['n', 'a', 'n'] then some nan
  else decimal? negative s

/-- The number that a text writes. -/
def ofText? (s : String) : Option Binary64 :=
  match s.toList with
  | '-' :: rest => unsigned? true rest
  | '+' :: rest => unsigned? false rest
  | rest => unsigned? false rest

end LabelWalks.Binary64
