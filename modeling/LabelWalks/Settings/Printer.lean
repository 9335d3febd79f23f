/-
  LabelWalks.Settings.Printer
  ───────────────────────────
  **WRITING SETTINGS.**

  Settings are written as a JSON object without blanks that names all of them
  in order, so that reading it gives them back.
-/
import LabelWalks.Binary64.Printer
import LabelWalks.Settings.Reader

namespace LabelWalks

open Json

/-- The name of a direction in settings. -/
def Direction.name : Direction → String
  | .outgoing => "outgoing"
  | .incoming => "incoming"
  | .both => "both"

namespace Settings

/-- One setting as a JSON value. -/
def valueText (s : Settings) : Field → String
  | .pathLength => toString s.pathLength
  | .ratio => s.ratio.literal
  | .direction => quoted s.direction.name
  | .workerLimit => s.workerLimit.elim "null" toString
  | .censusFile => quoted s.censusFile
  | .indexFile => quoted s.indexFile
  | .foundFile => quoted s.foundFile

/-- All settings as a JSON object. -/
def text (s : Settings) : String :=
  let members := Field.all.map fun field => quoted field.key ++ ":" ++ s.valueText field
  "\x7b" ++ ",".intercalate members ++ "\x7d"

end Settings

end LabelWalks
