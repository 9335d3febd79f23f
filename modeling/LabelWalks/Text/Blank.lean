/-
  LabelWalks.Text.Blank
  ─────────────────────
  **WHITE SPACE AT THE ENDS OF A TEXT.**

  A character is blank when it has the property White_Space.  `trim` drops the
  blanks at both ends; what it leaves neither starts nor ends with one.
-/

namespace LabelWalks.Text

/-! ## §1. The property. -/

/-- The characters with the property White_Space: the controls from tab to
carriage return, the space, the next-line control, and the spaces and
separators outside ASCII.  Zero-width characters do not have it. -/
def isBlank (c : Char) : Bool :=
  let n := c.toNat
  (9 ≤ n && n ≤ 13) || n == 0x20 || n == 0x85 || n == 0xA0 || n == 0x1680
    || (0x2000 ≤ n && n ≤ 0x200A) || n == 0x2028 || n == 0x2029
    || n == 0x202F || n == 0x205F || n == 0x3000

/-! ## §2. Trimming. -/

/-- The text without the blanks at its start. -/
def trimStart (s : List Char) : List Char :=
  s.dropWhile isBlank

/-- The text without the blanks at its end. -/
def trimEnd (s : List Char) : List Char :=
  (trimStart s.reverse).reverse

/-- The text without the blanks at either end. -/
def trim (s : List Char) : List Char :=
  trimEnd (trimStart s)

end LabelWalks.Text
