/-
  LabelWalks.HubIndex.Reader
  ──────────────────────────
  **READING AN INDEX.**

  Each line is blank or a record, with white space around it.  A record is cut
  at its first colon into a node and parts; the parts stand between dashes, and
  an empty part is skipped.  A part is cut at its first equals sign into labels
  between bars, none or pairs of them, and end nodes between commas, at least
  one.  Records of one node are united.  The first line that is no record, or
  that names a label without an index, makes the whole text fail.

    • `parseLine` reads a record,
    • `ofText` reads a text, `ofOctets` one that need not be UTF-8.
-/
import LabelWalks.HubIndex.Basic
import LabelWalks.Text.Blank
import LabelWalks.Text.Numeral
import LabelWalks.Text.Split

namespace LabelWalks.HubIndex

open Text

/-! ## §1. One record. -/

/-- Characters as a text, for a fault. -/
def quote (s : List Char) : String :=
  String.ofList s

/-- The labels of a suffix: none for the empty text, else all between bars. -/
def labels? (path : List Char) : Except LineProblem (List Label) :=
  if path.isEmpty then .ok []
  else (split '|' path).mapM fun s => (word32? s).elim (.error (.badLabel (quote s))) .ok

/-- The end nodes of a suffix. -/
def ends? (s : List Char) : Except LineProblem (List NodeId) :=
  (split ',' s).mapM fun s => (word64? s).elim (.error (.badEnd (quote s))) .ok

/-- The tokens of labels that alternate between edges and nodes. -/
def tokensOf (m : Mapping) : List Label → Except Fault (List LabelIndex)
  | edge :: node :: rest => do
    let e ← m.edgeIndex edge
    let n ← m.nodeIndex node
    let tokens ← tokensOf m rest
    return e :: n :: tokens
  | _ => .ok []

/-- A part of the record in line `number`. -/
def parsePart (m : Mapping) (number : Nat) (part : List Char) : Except Fault SuffixEnds := do
  let (path, endText) ←
    (cut? '=' part).elim (.error (.indexLine number (.missingEquals (quote part)))) .ok
  let labels ← (labels? path).mapError (.indexLine number)
  if labels.length % 2 ≠ 0 then throw (.indexLine number (.unpaired (quote path)))
  let tokens ← tokensOf m labels
  let ends ← (ends? endText).mapError (.indexLine number)
  return (tokens, .ofList ends)

/-- The record in line `number`. -/
def parseLine (m : Mapping) (number : Nat) (line : List Char) :
    Except Fault (NodeId × List SuffixEnds) := do
  let (nodeText, rest) ← (cut? ':' line).elim (.error (.indexLine number .missingColon)) .ok
  let v ← (word64? (trim nodeText)).elim
    (.error (.indexLine number (.badNode (quote nodeText)))) .ok
  let rows ← ((split '-' rest).filter fun part => !part.isEmpty).mapM (parsePart m number)
  return (v, rows)

/-! ## §2. All lines. -/

/-- The maps of all records from line `number` on, united with those before; a
line that is not text fails. -/
def parseLines (m : Mapping) (number : Nat) (maps : Std.ExtTreeMap NodeId SuffixMap) :
    List (Option (List Char)) → Except Fault (Std.ExtTreeMap NodeId SuffixMap)
  | [] => .ok maps
  | none :: _ => .error (.storage .notUtf8)
  | some line :: lines =>
    let line := trim line
    if line.isEmpty then parseLines m (number + 1) maps lines
    else
      match parseLine m number line with
      | .error fault => .error fault
      | .ok (v, rows) =>
        let maps := maps.alter v fun map => some ((map.getD ∅).mergeAll rows)
        parseLines m (number + 1) maps lines

/-- The index of all lines. -/
def ofLines (m : Mapping) (lines : List (Option (List Char))) : Except Fault HubIndex :=
  (parseLines m 1 ∅ lines).map fun maps => ⟨maps.map withSelf⟩

/-- The index that a text writes. -/
def ofText (m : Mapping) (text : String) : Except Fault HubIndex :=
  ofLines m ((split '\n' text.toList).map some)

/-- The characters of octets in UTF-8. -/
def decode (octets : List UInt8) : Option (List Char) :=
  (String.fromUTF8? ⟨octets.toArray⟩).map String.toList

/-- The index that octets write; each line is decoded by itself. -/
def ofOctets (m : Mapping) (octets : ByteArray) : Except Fault HubIndex :=
  ofLines m ((split 10 octets.toList).map decode)

/-- The index in a file that was opened or could not be; without a file there is
no entry. -/
def load (m : Mapping) (content : Except StorageProblem ByteArray) : Except Fault HubIndex :=
  match content with
  | .ok octets => ofOctets m octets
  | .error .notFound => .ok empty
  | .error problem => .error (.storage problem)

end LabelWalks.HubIndex
