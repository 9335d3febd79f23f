/-
  LabelWalks.Scored
  ─────────────────
  **WEIGHING FOUND PATHS.**

  Found paths are reviewed in ascending order; each has a weight, at first the
  least one.  They are ranked by weight, the heaviest first, and by order among
  equal weights.
-/
import LabelWalks.Search

namespace LabelWalks

/-- A weight within its bounds, or a fault. -/
def validateWeight (weight : UInt32) : Except Fault UInt32 :=
  if minWeight ≤ weight ∧ weight ≤ maxWeight then .ok weight else .error (.weight weight)

/-- Paths in ascending order and, place by place, their weights. -/
structure Scored where
  paths : List MetaPath
  weights : List UInt32
  aligned : weights.length = paths.length

namespace Scored

/-- The found paths, each with the least weight. -/
def ofPaths (paths : PathSet) : Scored where
  paths := paths.toList
  weights := List.replicate paths.toList.length minWeight
  aligned := List.length_replicate

/-- How many paths there are. -/
def size (s : Scored) : Nat :=
  s.paths.length

/-- The path at a position. -/
def path? (s : Scored) (i : Nat) : Option MetaPath :=
  s.paths[i]?

/-- The weight at a position. -/
def weight? (s : Scored) (i : Nat) : Option UInt32 :=
  s.weights[i]?

/-- Gives the path at a position a weight; the weight is checked before the
position. -/
def setWeight (s : Scored) (i : Nat) (weight : UInt32) : Except Fault Scored := do
  let weight ← validateWeight weight
  if i < s.weights.length then
    return { s with
      weights := s.weights.set i weight
      aligned := List.length_set.trans s.aligned }
  else throw (.unregistered .pathIndex i)

/-- The paths with their weights. -/
def rows (s : Scored) : List (MetaPath × UInt32) :=
  s.paths.zip s.weights

/-- The order of the ranking: weight descending, then path ascending. -/
def ranksBefore (a b : MetaPath × UInt32) : Bool :=
  b.2 < a.2 || (a.2 == b.2 && (compare a.1 b.1).isLE)

/-- The paths with their weights in the order of the ranking. -/
def ranked (s : Scored) : List (MetaPath × UInt32) :=
  s.rows.mergeSort ranksBefore

end Scored

end LabelWalks
