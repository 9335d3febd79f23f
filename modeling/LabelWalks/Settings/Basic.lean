/-
  LabelWalks.Settings.Basic
  ─────────────────────────
  **THE SETTINGS OF A COMPUTATION.**

  Every setting has a default.  Settings are checked as a whole: first the path
  length, then the share of high-degree nodes, then the worker limit.
-/
import LabelWalks.Graph.Network
import LabelWalks.PathLength

namespace LabelWalks

/-- The settings of one computation. -/
structure Settings where
  /-- The most node labels that a path may have. -/
  pathLength : Nat := 5
  /-- The share of nodes, by descending degree, that count as nodes of high degree. -/
  ratio : Binary64 := .ofFraction false 1 100
  /-- Which stored entries a walk may follow. -/
  direction : Direction := .both
  /-- How many workers may run at once; as many as the machine runs when there is none. -/
  workerLimit : Option Nat := none
  /-- The file of the census. -/
  censusFile : String := "Precomputed_MetaPaths.txt"
  /-- The file of the index. -/
  indexFile : String := "Precomputed_MetaPaths_HighDegree.txt"
  /-- The file of the found paths. -/
  foundFile : String := "Precomputed_MetaPaths_Instances.txt"
  deriving DecidableEq, Repr

namespace Settings

/-- The path length of settings that are in order, else the first thing that is
not. -/
def validate (s : Settings) : Except Fault PathLength := do
  let length ← PathLength.of s.pathLength
  if !(s.ratio.isPositive && s.ratio.le .one) then throw (.configuration (.ratio s.ratio))
  if s.workerLimit = some 0 then throw (.configuration .workerLimit)
  return length

end Settings

end LabelWalks
