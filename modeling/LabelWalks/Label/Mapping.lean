/-
  LabelWalks.Label.Mapping
  ────────────────────────
  **THE TWO DICTIONARIES OF A COMPUTATION.**

  Node labels and edge labels have a dictionary each.  A lookup that finds
  nothing is a fault that names what was looked up.
-/
import LabelWalks.Label.Dictionary

namespace LabelWalks

/-- A dictionary of node labels and one of edge labels. -/
structure Mapping where
  nodes : Dictionary
  edges : Dictionary

namespace Mapping

/-- The mapping without a label. -/
def empty : Mapping :=
  ⟨.empty, .empty⟩

/-- The dense index of a node label. -/
def nodeIndex (m : Mapping) (label : Label) : Except Fault LabelIndex :=
  (m.nodes.indexOf? label).elim (.error (.unregistered .nodeLabel label.toNat)) .ok

/-- The dense index of an edge label. -/
def edgeIndex (m : Mapping) (label : Label) : Except Fault LabelIndex :=
  (m.edges.indexOf? label).elim (.error (.unregistered .edgeLabel label.toNat)) .ok

/-- The node label at a dense index. -/
def nodeLabel (m : Mapping) (index : LabelIndex) : Except Fault Label :=
  (m.nodes.resolve? index).elim (.error (.unregistered .nodeLabelIndex index.toNat)) .ok

/-- The edge label at a dense index. -/
def edgeLabel (m : Mapping) (index : LabelIndex) : Except Fault Label :=
  (m.edges.resolve? index).elim (.error (.unregistered .edgeLabelIndex index.toNat)) .ok

/-- The mapping that assigns the given node labels and then the given edge
labels, each in order. -/
def ofLabels (nodeLabels edgeLabels : List Label) : Except Fault Mapping := do
  let nodes ← Dictionary.ofLabels nodeLabels
  let edges ← Dictionary.ofLabels edgeLabels
  return ⟨nodes, edges⟩

end Mapping

end LabelWalks
