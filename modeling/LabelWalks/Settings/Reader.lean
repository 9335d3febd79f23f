/-
  LabelWalks.Settings.Reader
  ──────────────────────────
  **READING SETTINGS FROM A FILE.**

  The file holds a JSON object whose known keys come once at most and whose
  other keys do not matter, or a JSON array of the leading settings in order.
  What is not named keeps its default.
-/
import LabelWalks.Json.Value
import LabelWalks.Settings.Basic

namespace LabelWalks

open Json

/-! ## §1. Single settings. -/

/-- A direction: its name, or an object with the name as the one key and null. -/
def Direction.ofJson? : Value → Option Direction
  | .text raw => (text? raw).bind ofName?
  | .object [(key, .null)] => (text? key).bind ofName?
  | _ => none
where
  /-- The direction of a name. -/
  ofName? (name : String) : Option Direction :=
    if name = "outgoing" then some .outgoing
    else if name = "incoming" then some .incoming
    else if name = "both" then some .both
    else none

namespace Settings

/-- The settings by name. -/
inductive Field where
  | pathLength
  | ratio
  | direction
  | workerLimit
  | censusFile
  | indexFile
  | foundFile
  deriving DecidableEq, Repr

namespace Field

/-- All settings in order. -/
def all : List Field :=
  [.pathLength, .ratio, .direction, .workerLimit, .censusFile, .indexFile, .foundFile]

/-- The key of a setting. -/
def key : Field → String
  | .pathLength => "path_length"
  | .ratio => "high_degree_ratio"
  | .direction => "direction"
  | .workerLimit => "worker_limit"
  | .censusFile => "full_output"
  | .indexFile => "high_degree_output"
  | .foundFile => "instances_output"

/-- The setting of a key. -/
def ofKey? (key : String) : Option Field :=
  all.find? fun field => field.key == key

end Field

/-- A natural number of at most 64 bits. -/
def word? (v : Value) : Option Nat :=
  v.asNumber?.bind Number.word?

/-- The settings with one of them from a value. -/
def set? (s : Settings) (field : Field) (v : Value) : Option Settings :=
  match field with
  | .pathLength => (word? v).map fun n => { s with pathLength := n }
  | .ratio => (v.asNumber?.bind Number.binary64?).map fun x => { s with ratio := x }
  | .direction => (Direction.ofJson? v).map fun d => { s with direction := d }
  | .workerLimit =>
    match v with
    | .null => some { s with workerLimit := none }
    | v => (word? v).map fun n => { s with workerLimit := some n }
  | .censusFile => v.asText?.map fun name => { s with censusFile := name }
  | .indexFile => v.asText?.map fun name => { s with indexFile := name }
  | .foundFile => v.asText?.map fun name => { s with foundFile := name }

/-! ## §2. All settings. -/

/-- The known members of an object, each with its setting. -/
def knownMembers? (members : List (List UInt8 × Value)) : Option (List (Field × Value)) := do
  let named ← members.mapM fun (key, v) => do return (Field.ofKey? (← text? key), v)
  return named.filterMap fun (field, v) => field.map fun field => (field, v)

/-- The settings that are named by a value. -/
def namedSettings? : Value → Option (List (Field × Value))
  | .array items => if items.length ≤ Field.all.length then some (Field.all.zip items) else none
  | .object members => do
    let known ← knownMembers? members
    if (known.map Prod.fst).Nodup then some known else none
  | _ => none

/-- The settings in octets of JSON, not yet checked. -/
def ofOctets? (octets : List UInt8) : Option Settings := do
  let named ← namedSettings? (← Value.ofOctets? octets)
  named.foldlM (fun s (field, v) => s.set? field v) {}

/-- The checked settings in a file, whose content was read or could not be. -/
def ofFile (name : String) (content : Except StorageProblem ByteArray) : Except Fault Settings :=
  match content with
  | .error .isDirectory =>
    .error (.configuration (.unreadable name StorageProblem.isDirectory.text))
  | .error problem => .error (.storage problem)
  | .ok octets =>
    match ofOctets? octets.toList with
    | none => .error (.configuration (.unreadable name "not a JSON text of settings"))
    | some s => s.validate.map fun _ => s

end Settings

end LabelWalks
