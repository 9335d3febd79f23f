/-
  LabelWalks.Json.Token
  ─────────────────────
  **THE TOKENS OF A JSON TEXT.**

  The lexer goes over the octets once and keeps what the token it is in needs.
  Inside a string it checks escapes and refuses controls; what the string says
  is resolved only where somebody asks for it.
-/
import LabelWalks.Json.Number
import LabelWalks.Json.Text

namespace LabelWalks.Json

/-- A token. -/
inductive Token where
  | leftBrace
  | rightBrace
  | leftBracket
  | rightBracket
  | colon
  | comma
  | null
  | bool (value : Bool)
  | number (value : Number)
  /-- A string, as it stands between its quotes. -/
  | text (raw : List UInt8)
  deriving DecidableEq, Repr

namespace Token

/-- What an escape in a string still needs. -/
inductive Escape where
  | none
  | letter
  | digits (left : Nat)
  deriving DecidableEq, Repr

/-- Where the lexer is; lexemes are kept backwards. -/
inductive Within where
  | between
  | word (letters : List Char)
  | number (lexeme : List Char)
  | text (raw : List UInt8) (escape : Escape)
  deriving DecidableEq, Repr

/-- Letters of the words of JSON. -/
def isLetter (c : Char) : Bool :=
  'a' ≤ c && c ≤ 'z'

/-- Characters that a number may have. -/
def isNumeral (c : Char) : Bool :=
  ('0' ≤ c && c ≤ '9') || c == '-' || c == '+' || c == '.' || c == 'e' || c == 'E'

/-- The lexer between tokens, at an octet. -/
def start (octet : UInt8) : Option (List Token × Within) :=
  let c := Char.ofNat octet.toNat
  if c = ' ' ∨ c = '\t' ∨ c = '\n' ∨ c = '\r' then some ([], .between)
  else if c = '{' then some ([.leftBrace], .between)
  else if c = '}' then some ([.rightBrace], .between)
  else if c = '[' then some ([.leftBracket], .between)
  else if c = ']' then some ([.rightBracket], .between)
  else if c = ':' then some ([.colon], .between)
  else if c = ',' then some ([.comma], .between)
  else if c = '"' then some ([], .text [] .none)
  else if isLetter c then some ([], .word [c])
  else if isNumeral c then some ([], .number [c])
  else none

/-- The token that a word is. -/
def ofWord? (letters : List Char) : Option Token :=
  if letters = ['n', 'u', 'l', 'l'] then some .null
  else if letters = ['t', 'r', 'u', 'e'] then some (.bool true)
  else if letters = ['f', 'a', 'l', 's', 'e'] then some (.bool false)
  else none

/-- The token that ends before an octet that it cannot have, or at the end. -/
def finish? : Within → Option (List Token)
  | .between => some []
  | .word letters => (ofWord? letters.reverse).map fun t => [t]
  | .number lexeme => (Number.ofLexeme? lexeme.reverse).map fun n => [.number n]
  | .text _ _ => none

/-- A token is over and the lexer starts anew at an octet. -/
def restart (within : Within) (octet : UInt8) : Option (List Token × Within) := do
  let ended ← finish? within
  let (begun, within) ← start octet
  return (ended ++ begun, within)

/-- The lexer in a string, at an octet. -/
def inText (raw : List UInt8) (escape : Escape) (octet : UInt8) : Option (List Token × Within) :=
  match escape with
  | .none =>
    if octet = 0x22 then some ([.text raw.reverse], .between)
    else if octet = 0x5C then some ([], .text (octet :: raw) .letter)
    else if octet < 0x20 then none
    else some ([], .text (octet :: raw) .none)
  | .letter =>
    if octet = 0x75 then some ([], .text (octet :: raw) (.digits 4))
    else if (simpleEscape? octet).isSome then some ([], .text (octet :: raw) .none)
    else none
  | .digits left =>
    if (hexValue? octet).isSome then
      some ([], .text (octet :: raw) (if left ≤ 1 then .none else .digits (left - 1)))
    else none

/-- The lexer at an octet: the tokens that end there, and where the lexer is then. -/
def step (within : Within) (octet : UInt8) : Option (List Token × Within) :=
  let c := Char.ofNat octet.toNat
  match within with
  | .between => start octet
  | .word letters => if isLetter c then some ([], .word (c :: letters)) else restart within octet
  | .number lexeme => if isNumeral c then some ([], .number (c :: lexeme)) else restart within octet
  | .text raw escape => inText raw escape octet

/-- The tokens of octets, from where the lexer is. -/
def tokensFrom? (within : Within) : List UInt8 → Option (List Token)
  | [] => finish? within
  | octet :: octets => do
    let (tokens, within) ← step within octet
    return tokens ++ (← tokensFrom? within octets)

/-- The tokens of a JSON text. -/
def tokens? (octets : List UInt8) : Option (List Token) :=
  tokensFrom? .between octets

end Token

end LabelWalks.Json
