/-
  LabelWalks.Json.Text
  ────────────────────
  **STRINGS IN JSON.**

  Between its quotes a string has octets of UTF-8 and escapes.  An escape of a
  character outside the basic plane is a pair of surrogates; a surrogate by
  itself is no character.
-/

namespace LabelWalks.Json

/-! ## §1. Reading. -/

/-- The value of a hexadecimal digit. -/
def hexValue? (octet : UInt8) : Option Nat :=
  let n := octet.toNat
  if 0x30 ≤ n ∧ n ≤ 0x39 then some (n - 0x30)
  else if 0x41 ≤ n ∧ n ≤ 0x46 then some (n - 0x41 + 10)
  else if 0x61 ≤ n ∧ n ≤ 0x66 then some (n - 0x61 + 10)
  else none

/-- The value of four hexadecimal digits. -/
def hex4? (a b c d : UInt8) : Option Nat := do
  return ((← hexValue? a) * 16 + (← hexValue? b)) * 256 + ((← hexValue? c) * 16 + (← hexValue? d))

/-- The octet that a one-letter escape stands for. -/
def simpleEscape? (octet : UInt8) : Option UInt8 :=
  match octet.toNat with
  | 0x22 => some 0x22
  | 0x5C => some 0x5C
  | 0x2F => some 0x2F
  | 0x62 => some 8
  | 0x66 => some 12
  | 0x6E => some 10
  | 0x72 => some 13
  | 0x74 => some 9
  | _ => none

/-- The octets of a character in UTF-8. -/
def utf8 (n : Nat) : List UInt8 :=
  (String.singleton (Char.ofNat n)).toUTF8.toList

/-- What a code unit was left waiting for: nothing, or the second of a pair. -/
def joinUnits (first : Option Nat) (unit : Nat) : Option (List UInt8 × Option Nat) :=
  match first with
  | none =>
    if 0xD800 ≤ unit ∧ unit ≤ 0xDBFF then some ([], some unit)
    else if 0xDC00 ≤ unit ∧ unit ≤ 0xDFFF then none
    else some (utf8 unit, none)
  | some high =>
    if 0xDC00 ≤ unit ∧ unit ≤ 0xDFFF then
      some (utf8 (0x10000 + (high - 0xD800) * 0x400 + (unit - 0xDC00)), none)
    else none

/-- The octets of a string with its escapes resolved; `first` is the first half
of a pair of surrogates that still wants its second. -/
def resolve? (first : Option Nat) : List UInt8 → Option (List UInt8)
  | [] => if first.isNone then some [] else none
  | 0x5C :: 0x75 :: a :: b :: c :: d :: rest => do
    let (octets, first) ← joinUnits first (← hex4? a b c d)
    return octets ++ (← resolve? first rest)
  | 0x5C :: escape :: rest =>
    if first.isSome then none
    else do return (← simpleEscape? escape) :: (← resolve? none rest)
  | octet :: rest =>
    if first.isSome then none else do return octet :: (← resolve? none rest)

/-- The text of what stands between the quotes of a string. -/
def text? (raw : List UInt8) : Option String := do
  let octets ← resolve? none raw
  String.fromUTF8? ⟨octets.toArray⟩

/-! ## §2. Writing. -/

/-- A hexadecimal digit in lower case. -/
def hexDigit (n : Nat) : Char :=
  Char.ofNat (if n < 10 then 0x30 + n else 0x57 + n)

/-- A character inside a string: quotes, backslashes and controls are escaped. -/
def escape (c : Char) : List Char :=
  match c.toNat with
  | 0x22 => ['\\', '"']
  | 0x5C => ['\\', '\\']
  | 8 => ['\\', 'b']
  | 9 => ['\\', 't']
  | 10 => ['\\', 'n']
  | 12 => ['\\', 'f']
  | 13 => ['\\', 'r']
  | n => if n < 0x20 then ['\\', 'u', '0', '0', hexDigit (n / 16), hexDigit (n % 16)] else [c]

/-- A text as a string, quotes included. -/
def quoted (s : String) : String :=
  "\"" ++ String.ofList (s.toList.flatMap escape) ++ "\""

end LabelWalks.Json
