/-
  LabelWalks.Json.Value
  ─────────────────────
  **JSON VALUES.**

  A value is built from its tokens in one pass, with the containers that are
  still open on a stack, so values may nest to any depth.  Strings and keys are
  kept as they are written, and members in the order of the text.
-/
import LabelWalks.Json.Token

namespace LabelWalks.Json

/-- A value. -/
inductive Value where
  | null
  | bool (value : Bool)
  | number (value : Number)
  | text (raw : List UInt8)
  | array (items : List Value)
  | object (members : List (List UInt8 × Value))

namespace Value

/-- A container that is still open; what it has is kept backwards. -/
inductive Frame where
  | array (items : List Value)
  /-- An object and the key of the member that is read. -/
  | object (members : List (List UInt8 × Value)) (key : List UInt8)

/-- What may come next. -/
inductive Expect where
  | value
  /-- The first item of an array, or its end. -/
  | item
  /-- The first key of an object, or its end. -/
  | member
  | key
  | colon
  | separator
  /-- Nothing: the value is whole. -/
  | nothing (value : Value)

/-- How far a value is built. -/
structure Progress where
  frames : List Frame
  expect : Expect

/-- A value is whole and goes into the container around it. -/
def close (v : Value) : List Frame → Progress
  | [] => ⟨[], .nothing v⟩
  | .array items :: frames => ⟨.array (v :: items) :: frames, .separator⟩
  | .object members key :: frames => ⟨.object ((key, v) :: members) [] :: frames, .separator⟩

/-- A value begins. -/
def begin? (frames : List Frame) : Token → Option Progress
  | .null => some (close .null frames)
  | .bool b => some (close (.bool b) frames)
  | .number n => some (close (.number n) frames)
  | .text raw => some (close (.text raw) frames)
  | .leftBracket => some ⟨.array [] :: frames, .item⟩
  | .leftBrace => some ⟨.object [] [] :: frames, .member⟩
  | _ => none

/-- A key is read. -/
def key? (raw : List UInt8) : List Frame → Option Progress
  | .object members _ :: frames => some ⟨.object members raw :: frames, .colon⟩
  | _ => none

/-- The container on top ends. -/
def end? (token : Token) : List Frame → Option Progress
  | .array items :: frames =>
    if token = .rightBracket then some (close (.array items.reverse) frames) else none
  | .object members _ :: frames =>
    if token = .rightBrace then some (close (.object members.reverse) frames) else none
  | [] => none

/-- One token more. -/
def step (p : Progress) (token : Token) : Option Progress :=
  match p.expect, token with
  | .value, _ => begin? p.frames token
  | .item, .rightBracket => end? token p.frames
  | .item, _ => begin? p.frames token
  | .member, .rightBrace => end? token p.frames
  | .member, .text raw => key? raw p.frames
  | .key, .text raw => key? raw p.frames
  | .colon, .colon => some { p with expect := .value }
  | .separator, .comma =>
    match p.frames with
    | .array _ :: _ => some { p with expect := .value }
    | .object _ _ :: _ => some { p with expect := .key }
    | [] => none
  | .separator, _ => end? token p.frames
  | _, _ => none

/-- The value of a whole JSON text. -/
def ofOctets? (octets : List UInt8) : Option Value := do
  let tokens ← Token.tokens? octets
  let p ← tokens.foldlM step ⟨[], .value⟩
  match p.expect with
  | .nothing v => some v
  | _ => none

/-- The text of a string. -/
def asText? : Value → Option String
  | .text raw => text? raw
  | _ => none

/-- The number of a value that is one. -/
def asNumber? : Value → Option Number
  | .number n => some n
  | _ => none

end Value

end LabelWalks.Json
