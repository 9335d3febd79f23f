/-
  LabelWalks.HubIndex.Record
  ──────────────────────────
  **THE RECORD OF ONE NODE.**

  A record is one line: the node, a colon, and for each suffix in ascending
  order its raw labels, an equals sign, its end nodes in ascending order and a
  dash.  The empty suffix comes first and has no labels.
-/
import LabelWalks.HubIndex.Basic
import LabelWalks.MetaPath

namespace LabelWalks.HubIndex

/-- The part of a record for one suffix. -/
def part (m : Mapping) (row : SuffixEnds) : Except Fault String := do
  let labels ← renderTokens m .edge row.1
  let ends := ",".intercalate (row.2.toList.map fun v => toString v.toNat)
  return labels ++ "=" ++ ends ++ "-"

/-- The record of a node. -/
def record (m : Mapping) (v : NodeId) (map : SuffixMap) : Except Fault String := do
  let parts ← map.toList.mapM (part m)
  return toString v.toNat ++ ":" ++ String.join parts ++ "\n"

end LabelWalks.HubIndex
