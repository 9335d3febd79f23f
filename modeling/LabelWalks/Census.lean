/-
  LabelWalks.Census
  ─────────────────
  **COUNTING ALL WALKS BY THEIR META-PATH.**

  A census counts, for each meta-path within a length, the walks of a graph that
  look like it.  There is a worker for each node label.  It holds the nodes that
  walks of one path end at, with the number of walks to each, and goes on level
  by level: first all paths of no hop, then of one, and so on, in ascending
  order within a level.

    • `Frontier.grow` is one step from the end of a path,
    • `sweep` goes through the levels,
    • `census` puts the workers' tables together,
    • `writeCensus` writes a line for each path.
-/
import LabelWalks.Arrival
import LabelWalks.MetaPath
import LabelWalks.PathLength
import LabelWalks.Sink

namespace LabelWalks

/-! ## §1. One worker. -/

/-- A path and the nodes at its end, each with the number of walks to it. -/
structure Frontier where
  path : MetaPath
  nodes : NodeCounts

namespace Frontier

/-- How many walks look like the path. -/
def total (f : Frontier) : Nat :=
  f.nodes.foldl (fun n _ k => addCount n k) 0

/-- The arrivals from the end of the path, each with the walks that come along. -/
def arrivals (g : GraphView) (m : Mapping) (f : Frontier) : Trail (Arrival × Nat) :=
  .each (fun (v, n) => (LabelWalks.arrivals g m v).map fun a => (a, n)) f.nodes.toList

/-- The frontiers one hop on, ascending by hop. -/
def grow (g : GraphView) (m : Mapping) (f : Frontier) : Except Halt (List Frontier) :=
  (f.arrivals g m).settled.map fun as =>
    (groupCounts as).toList.map fun (hop, nodes) => ⟨f.path.extend hop.edge hop.node, nodes⟩

end Frontier

/-- A path with the number of its walks. -/
abbrev PathCount := MetaPath × Nat

/-- A frontier and those one hop on; a frontier that cannot be grown comes with
none and halts. -/
def visit (g : GraphView) (m : Mapping) (f : Frontier) : Trail (Frontier × List Frontier) :=
  match f.grow g m with
  | .ok children => .give [(f, children)]
  | .error halt => ⟨[(f, [])], some halt⟩

/-- Counts the paths of a level and of as many levels after it as hops remain. -/
def sweep (g : GraphView) (m : Mapping) : Nat → List Frontier → Trail PathCount
  | 0, level => .give (level.map fun f => (f.path, f.total))
  | hops + 1, level =>
    let visits := Trail.each (visit g m) level
    (visits.map fun (f, _) => (f.path, f.total)).andThen fun _ =>
      sweep g m hops (visits.items.flatMap Prod.snd)

/-! ## §2. All workers. -/

/-- All nodes by their dense label, each counted once. -/
def nodesByLabel (g : GraphView) (m : Mapping) :
    Except Fault (Std.ExtTreeMap LabelIndex NodeCounts) :=
  g.nodeIds.foldlM (fun groups v => do
    let label ← m.indexOfNode g v
    return groups.alter label fun c => some ((c.getD ∅).insert v 1)) ∅

/-- The trail of the worker for one node label. -/
def censusWorker (g : GraphView) (m : Mapping) (length : PathLength) (label : LabelIndex)
    (nodes : NodeCounts) : Trail PathCount :=
  sweep g m length.hops [⟨.single label, nodes⟩]

/-- The number of walks for each path that has any. -/
abbrev Census := Std.ExtTreeMap MetaPath Nat

/-- The first halt among workers, as the fault it is reported as. -/
def firstFault {α : Type} (unit : LabelIndex → WorkUnit) (workers : List (LabelIndex × Trail α)) :
    Option Fault :=
  workers.findSome? fun (label, trail) => trail.halt.map (Halt.report (unit label))

/-- The trails of all workers, one for each node label, ascending. -/
def censusWorkers (g : GraphView) (m : Mapping) (length : PathLength)
    (groups : Std.ExtTreeMap LabelIndex NodeCounts) : List (LabelIndex × Trail PathCount) :=
  groups.toList.map fun (label, nodes) => (label, censusWorker g m length label nodes)

/-- The table of the rows of all workers. -/
def tableOf (workers : List (LabelIndex × Trail PathCount)) : Census :=
  workers.foldl (fun table (_, trail) =>
    trail.items.foldl (fun table (path, n) => table.insert path n) table) ∅

/-- The census of a graph: the paths of all workers, or the fault of the worker
with the least label among those that halt. -/
def census (g : GraphView) (m : Mapping) (length : PathLength) : Except Fault Census := do
  let groups ← nodesByLabel g m
  let workers := censusWorkers g m length groups
  match firstFault .nodeLabel workers with
  | some fault => throw fault
  | none => return tableOf workers

/-! ## §3. Writing. -/

/-- The paths with their counts in dense form, a tab between. -/
def Census.display (c : Census) : List String :=
  c.toList.map fun (path, n) => path.display ++ "\t" ++ toString n

/-- The line of a path: raw labels, a colon, the count. -/
def PathCount.line (m : Mapping) (row : PathCount) : Except Fault String :=
  (row.1.render m).map fun text => text ++ ":" ++ toString row.2 ++ "\n"

/-- The lines of a census in ascending order. -/
def Census.lines (m : Mapping) (c : Census) : Except Fault (List String) :=
  c.toList.mapM (PathCount.line m)

/-- Takes a census and writes its lines, none of them unless it was completed. -/
def writeCensus (g : GraphView) (m : Mapping) (length : PathLength) (sink : Sink) :
    Sink × Except Fault Census :=
  match (do let table ← census g m length; return (table, ← Census.lines m table)) with
  | .error fault => (sink, .error fault)
  | .ok (table, lines) =>
    match sink.writeAll lines with
    | (sink, some problem) => (sink, .error (.storage problem))
    | (sink, none) =>
      match sink.flush with
      | (sink, some problem) => (sink, .error (.storage problem))
      | (sink, none) => (sink, .ok table)

end LabelWalks
