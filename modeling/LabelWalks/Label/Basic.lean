/-
  LabelWalks.Label.Basic
  ──────────────────────
  **NODES, RAW LABELS AND DENSE INDICES.**

  A graph hands out nodes and the labels of its nodes and edges as machine
  words.  Inside a computation a label is known by the dense index that a
  dictionary gave it, so that a path is a short list of small words.
-/

namespace LabelWalks

/-- A node, as the graph names it. -/
abbrev NodeId := UInt64

/-- A raw node or edge label, as the graph names it. -/
abbrev Label := UInt32

/-- A dense index that a dictionary assigned to a raw label. -/
abbrev LabelIndex := UInt16

end LabelWalks
