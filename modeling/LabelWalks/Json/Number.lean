/-
  LabelWalks.Json.Number
  ──────────────────────
  **NUMBERS IN JSON.**

  A number has a sign, whole digits without a needless leading zero, and maybe
  places and an exponent.  It is a word only when it is written without sign,
  places and exponent.

  As a binary64 number it is read in two roundings: its digits are gathered as
  long as they fit a 64-bit word, further ones only shift the exponent or are
  dropped, and the word is then scaled by a power of ten.  So the result need
  not be the nearest number.
-/
import LabelWalks.Binary64.Basic
import LabelWalks.Text.Numeral

namespace LabelWalks.Json

open Text

/-! ## §1. Lexemes. -/

/-- The parts of a number; digits are their values. -/
structure Number where
  negative : Bool
  whole : List Nat
  /-- The digits after the point; none without a point. -/
  places : List Nat
  /-- The sign and digits of the exponent; a negative one has `true`. -/
  exponent : Option (Bool × List Nat)
  deriving DecidableEq, Repr

namespace Number

/-- The values of the leading digits, and what follows them. -/
def leadingDigits : List Char → List Nat × List Char
  | [] => ([], [])
  | c :: rest =>
    match digit? c with
    | none => ([], c :: rest)
    | some d =>
      let (ds, after) := leadingDigits rest
      (d :: ds, after)

/-- Whole digits: one zero, or digits that do not start with a zero. -/
def isWhole : List Nat → Bool
  | [] => false
  | [_] => true
  | d :: _ => d != 0

/-- An exponent after its mark: digits after a sign or none. -/
def exponent? (s : List Char) : Option (Bool × List Nat) :=
  let (negative, s) :=
    match s with
    | '-' :: rest => (true, rest)
    | '+' :: rest => (false, rest)
    | rest => (false, rest)
  match leadingDigits s with
  | ([], _) => none
  | (ds, []) => some (negative, ds)
  | (_, _ :: _) => none

/-- The places after the whole digits and the exponent after them, up to the end. -/
def tail? (negative : Bool) (whole : List Nat) (s : List Char) : Option Number :=
  let rest (places : List Nat) : List Char → Option Number
    | [] => some ⟨negative, whole, places, none⟩
    | c :: s =>
      if c = 'e' ∨ c = 'E' then (exponent? s).map fun e => ⟨negative, whole, places, some e⟩
      else none
  match s with
  | '.' :: s =>
    match leadingDigits s with
    | ([], _) => none
    | (places, s) => rest places s
  | s => rest [] s

/-- The number that a lexeme writes. -/
def ofLexeme? (s : List Char) : Option Number :=
  let (negative, s) :=
    match s with
    | '-' :: rest => (true, rest)
    | rest => (false, rest)
  let (whole, s) := leadingDigits s
  if isWhole whole then tail? negative whole s else none

/-! ## §2. Words. -/

/-- Digits gathered into a word after digits worth `acc`: the word, and how many
digits were gathered before one did not fit. -/
def gather (acc : Nat) : List Nat → Nat × Nat
  | [] => (acc, 0)
  | d :: ds =>
    if 10 * acc + d < Nat.pow 2 64 then
      let (word, n) := gather (10 * acc + d) ds
      (word, n + 1)
    else (acc, 0)

/-- The number as a 64-bit word, if it is written as one and fits. -/
def word? (n : Number) : Option Nat :=
  let (word, gathered) := gather 0 n.whole
  if n.negative || n.exponent.isSome || !n.places.isEmpty || gathered < n.whole.length then none
  else some word

/-! ## §3. Binary64 numbers. -/

/-- The power of ten nearest to `10 ^ k`, for `k` up to 308. -/
def pow10 (k : Nat) : Binary64 :=
  .ofNat (Nat.pow 10 k)

/-- A number divided by a power of ten, in steps that have a finite divisor. -/
def scaleDown (x : Binary64) (k : Nat) : Binary64 :=
  if h : k ≤ 308 then x.div (pow10 k)
  else if x.isZero then x
  else scaleDown (x.div (pow10 308)) (k - 308)
termination_by k
decreasing_by omega

/-- A word scaled by a power of ten; none when that is past the largest number. -/
def scale? (word : Nat) (k : Int) : Option Binary64 :=
  let x := Binary64.ofNat word
  if k < 0 then some (scaleDown x (-k).toNat)
  else if k ≤ 308 then
    let y := x.mul (pow10 k.toNat)
    if y.isInfinite then none else some y
  else if x.isZero then some x
  else none

/-- The value of the exponent's digits, when it is below `2 ^ 31`. -/
def exponentValue? (ds : List Nat) : Option Nat :=
  let n := ds.foldl (fun n d => min (10 * n + d) (Nat.pow 2 31)) 0
  if n < Nat.pow 2 31 then some n else none

/-- The magnitude of the number as it is read. -/
def magnitude? (n : Number) : Option Binary64 :=
  let (word, gathered) := gather 0 n.whole
  let (word, gatheredPlaces) := gather word n.places
  let shift : Int := ((n.whole.length - gathered : Nat) : Int) - gatheredPlaces
  match n.exponent with
  | none => scale? word shift
  | some (negative, ds) =>
    match exponentValue? ds with
    | some e => scale? word (if negative then shift - e else shift + e)
    | none => if word ≠ 0 ∧ negative = false then none else some (.zero false)

/-- The number as it is read. -/
def binary64? (n : Number) : Option Binary64 :=
  n.magnitude?.map fun x => if n.negative then x.neg else x

end Number

end LabelWalks.Json
