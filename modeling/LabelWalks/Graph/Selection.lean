/-
  LabelWalks.Graph.Selection
  ──────────────────────────
  **THE NODES OF HIGH DEGREE.**

  Nodes are ranked by degree, the highest first, and nodes of one degree by id.
  A share of them is taken from the front of the ranking.
-/
import LabelWalks.Graph.View

namespace LabelWalks

namespace GraphView

/-- The order of the ranking: degree descending, then id ascending. -/
def ranksBefore (g : GraphView) (v w : NodeId) : Bool :=
  g.degree w < g.degree v || (g.degree v == g.degree w && v ≤ w)

/-- All nodes in the order of the ranking. -/
def ranking (g : GraphView) : List NodeId :=
  g.nodeIds.mergeSort g.ranksBefore

/-- How many of `n` nodes a ratio asks for: none for zero or less, else the
product rounded up, where a ratio above one and NaN count as one. -/
def wanted (n : Nat) (ratio : Binary64) : Nat :=
  if ratio.isNonpositive then 0
  else ((Binary64.ofNat n).mul (ratio.min .one)).ceil

/-- The nodes of the highest degrees, as many as a ratio asks for. -/
def highDegree (g : GraphView) (ratio : Binary64) : List NodeId :=
  g.ranking.take (wanted g.nodeIds.length ratio)

end GraphView

end LabelWalks
