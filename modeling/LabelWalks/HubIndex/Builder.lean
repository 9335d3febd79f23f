/-
  LabelWalks.HubIndex.Builder
  ───────────────────────────
  **WRITING THE INDEX OF CHOSEN NODES.**

  Each chosen node has a worker of its own that finds the node's suffix map and
  offers its record to the sink in one piece.  A worker that halts, or whose
  record is refused, leaves its node out and does not disturb the others.
-/
import LabelWalks.HubIndex.Record
import LabelWalks.Sink

namespace LabelWalks.HubIndex

/-- What became of the chosen nodes. -/
structure Report where
  /-- How many records were written. -/
  written : Nat
  /-- The nodes without a record. -/
  failed : List NodeId
  deriving DecidableEq, Repr

/-- The record of a node, if its worker comes to its end. -/
def recordOf? (g : GraphView) (m : Mapping) (length : PathLength) (v : NodeId) : Option String :=
  match suffixesFrom g m v length with
  | .error _ => none
  | .ok map => (record m v map).toOption

/-- The sink after a node's worker, and whether the record was written. -/
def writeNode (g : GraphView) (m : Mapping) (length : PathLength) (sink : Sink) (v : NodeId) :
    Sink × Bool :=
  match recordOf? g m length v with
  | none => (sink, false)
  | some text =>
    match sink.write text with
    | (sink, refusal) => (sink, refusal.isNone)

/-- The sink after the workers of a list of nodes, and what became of the nodes. -/
def writeNodes (g : GraphView) (m : Mapping) (length : PathLength) (sink : Sink) :
    List NodeId → Sink × Report
  | [] => (sink, ⟨0, []⟩)
  | v :: vs =>
    match writeNode g m length sink v with
    | (sink, true) =>
      let (sink, report) := writeNodes g m length sink vs
      (sink, { report with written := report.written + 1 })
    | (sink, false) =>
      let (sink, report) := writeNodes g m length sink vs
      (sink, { report with failed := v :: report.failed })

/-- Runs a worker for each node of a list, which come to the sink in the order of the
list; only a refusal to flush makes the whole fail. -/
def buildInOrder (g : GraphView) (m : Mapping) (length : PathLength) (order : List NodeId)
    (sink : Sink) : Sink × Except Fault Report :=
  let (sink, report) := writeNodes g m length sink order
  match sink.flush with
  | (sink, some problem) => (sink, .error (.storage problem))
  | (sink, none) => (sink, .ok report)

/-- Writes a record for each node that is listed, once however often it is.  Workers run
side by side; this is the run in which they come to the sink as their nodes are listed. -/
def build (g : GraphView) (m : Mapping) (length : PathLength) (nodes : List NodeId)
    (sink : Sink) : Sink × Except Fault Report :=
  buildInOrder g m length nodes.eraseDups sink

end LabelWalks.HubIndex
