/-
  LabelWalks.Graph.View
  ─────────────────────
  **WHAT A COMPUTATION SEES OF A GRAPH.**

  A view answers questions about nodes, labels and neighbours; it stands for the
  same graph as long as a computation runs.  Any label may be missing, and the
  adjacency of a node may break off with words of its own.

  The edges next to a node have a default answer from the neighbours and the
  label of one edge to each of them, which gives parallel edges one label.
-/
import LabelWalks.Label.Mapping
import Std.Data.ExtTreeSet

namespace LabelWalks

/-- How an answer broke off: the words that were left, if any. -/
structure Breakdown where
  words : Option String
  deriving DecidableEq, Repr

/-- The words for a breakdown. -/
def Breakdown.text (b : Breakdown) : String :=
  b.words.getD "worker panicked"

/-- A labelled graph as far as a computation asks about it. -/
structure GraphView where
  /-- Every node of the graph. -/
  nodeIds : List NodeId
  /-- The label of a node, if it is known. -/
  labelOf : NodeId → Option Label
  /-- All labels of nodes. -/
  nodeLabels : Std.ExtTreeSet Label
  /-- All labels of edges. -/
  edgeLabels : Std.ExtTreeSet Label
  /-- The neighbours of a node; one that is reached over several edges comes once for each. -/
  adjacentNodes : NodeId → Except Breakdown (List NodeId)
  /-- The label of an edge from one node to another. -/
  edgeLabel : NodeId → NodeId → Option Label
  /-- How many edges are next to a node. -/
  degree : NodeId → Nat
  /-- The neighbours of a node, each with the label of the edge that reaches it. -/
  adjacentEdges : NodeId → Except Breakdown (List (NodeId × Option Label)) :=
    fun v => (adjacentNodes v).map fun ws => ws.map fun w => (w, edgeLabel v w)

namespace Mapping

/-- The mapping of a graph's labels in ascending order; a graph needs a node label. -/
def ofView (g : GraphView) : Except Fault Mapping := do
  let nodes ← Dictionary.ofLabels g.nodeLabels.toList
  if nodes.size = 0 then throw (.configuration .noNodeLabels)
  let edges ← Dictionary.ofLabels g.edgeLabels.toList
  return ⟨nodes, edges⟩

/-- The dense label of a node. -/
def indexOfNode (m : Mapping) (g : GraphView) (v : NodeId) : Except Fault LabelIndex :=
  match g.labelOf v with
  | some label => m.nodeIndex label
  | none => .error (.unregistered .node v.toNat)

end Mapping

end LabelWalks
