/-
  LabelWalks.Search
  ─────────────────
  **PATHS BETWEEN TWO SETS OF NODES.**

  A search finds the meta-paths of all walks within a length that lead from a
  start node to an end node.  There is a worker for each label of start nodes,
  and it goes depth first.  At an indexed node it does not walk on but appends
  the node's suffixes, as far as they fit and end at an end node.

  Workers share the set of found paths: a path is written when it is found first.

    • `pursue` is the trail of found paths of one worker,
    • `Findings.note` enters one found path,
    • `search` runs all workers of one search.
-/
import LabelWalks.Census
import LabelWalks.HubIndex.Basic

namespace LabelWalks

/-! ## §1. One worker. -/

/-- One of the nodes is wanted. -/
def NodeSet.meets (nodes wanted : NodeSet) : Bool :=
  nodes.toList.any fun v => wanted.contains v

/-- The paths of a walk that came to an indexed node and has `hops` left: each
suffix that fits and ends at a wanted node is appended. -/
def shortcuts (index : HubIndex) (wanted : NodeSet) (path : MetaPath) (hops : Nat)
    (a : Arrival) : Trail MetaPath :=
  match index.get? a.node with
  | none => .done
  | some map =>
    let fitting := map.toList.filter fun (suffix, ends) =>
      suffix.length / 2 ≤ hops && NodeSet.meets ends wanted
    .each (fun (suffix, _) => .ofExcept ((path.extend a.hop.edge a.hop.node).splice suffix)) fitting

/-- The paths one hop longer than `path` with the nodes they end at, ascending,
leaving out arrivals at indexed nodes. -/
def longerPaths (index : HubIndex) (path : MetaPath) (reached : List Arrival) :
    List (MetaPath × NodeSet) :=
  let walked := reached.filter fun a => !index.contains a.node
  (groupNodes walked).toList.map fun (hop, nodes) => (path.extend hop.edge hop.node, nodes)

/-- The paths found from a path that ends at `nodes` with as many hops as remain.
Shortcuts come first, then the paths one hop longer, then what is found from
these, the last of them first. -/
def pursue (g : GraphView) (m : Mapping) (index : HubIndex) (wanted : NodeSet) :
    Nat → MetaPath → NodeSet → Trail MetaPath
  | 0, _, _ => .done
  | hops + 1, path, nodes =>
    let reached := Trail.each (arrivals g m) nodes.toList
    let indexed := reached.items.filter fun a => index.contains a.node
    let spliced := Trail.each (shortcuts index wanted path hops) indexed.eraseDups
    (spliced.andThen fun _ => ⟨[], reached.halt⟩).andThen fun _ =>
      let longer := longerPaths index path reached.items
      let found := (longer.filter fun (_, ends) => ends.meets wanted).map Prod.fst
      (Trail.give found).andThen fun _ =>
        .each (fun (path, ends) => pursue g m index wanted hops path ends) longer.reverse

/-- The trail of the worker for the start nodes of one label. -/
def searchWorker (g : GraphView) (m : Mapping) (index : HubIndex) (length : PathLength)
    (wanted : NodeSet) (label : LabelIndex) (starts : NodeSet) : Trail MetaPath :=
  let root := MetaPath.single label
  (Trail.give (if starts.meets wanted then [root] else [])).andThen fun _ =>
    pursue g m index wanted length.hops root starts

/-! ## §2. What the workers share. -/

/-- A set of paths. -/
abbrev PathSet := Std.ExtTreeSet MetaPath

/-- The paths found so far, and where they are written. -/
structure Findings where
  seen : PathSet
  sink : Sink

namespace Findings

/-- Enters a path; if it is new it is written first. -/
def note (f : Findings) (m : Mapping) (path : MetaPath) : Findings × Option Fault :=
  if f.seen.contains path then (f, none)
  else
    match path.render m with
    | .error fault => (f, some fault)
    | .ok text =>
      match f.sink.write (text ++ "\n") with
      | (sink, some problem) => ({ f with sink }, some (.storage problem))
      | (sink, none) => ({ f with seen := f.seen.insert path, sink }, none)

/-- Enters paths in order up to the first that cannot be entered. -/
def noteAll (f : Findings) (m : Mapping) : List MetaPath → Findings × Option Fault
  | [] => (f, none)
  | path :: paths =>
    match f.note m path with
    | (f, none) => f.noteAll m paths
    | failed => failed

/-- Enters what a worker found; the worker's fault is that of an entry or, if all
were made, its own halt. -/
def noteTrail (f : Findings) (m : Mapping) (unit : WorkUnit) (trail : Trail MetaPath) :
    Findings × Option Fault :=
  match f.noteAll m trail.items with
  | (f, none) => (f, trail.halt.map (Halt.report unit))
  | failed => failed

/-- Enters what all workers found.  A worker's fault does not keep the others
from their work; of several, that of the first worker counts. -/
def noteTrails (f : Findings) (m : Mapping) :
    List (LabelIndex × Trail MetaPath) → Findings × Option Fault
  | [] => (f, none)
  | (label, trail) :: rest =>
    let (f, fault) := f.noteTrail m (.startLabel label) trail
    let (f, later) := f.noteTrails m rest
    (f, fault <|> later)

end Findings

/-! ## §3. All workers. -/

/-- The start nodes by their dense label. -/
def startsByLabel (g : GraphView) (m : Mapping) (starts : List NodeId) :
    Except Fault (Std.ExtTreeMap LabelIndex NodeSet) :=
  starts.foldlM (fun groups v => do
    let label ← m.indexOfNode g v
    return groups.alter label fun s => some ((s.getD ∅).insert v)) ∅

/-- The end nodes, each of which needs a label. -/
def wantedNodes (g : GraphView) (m : Mapping) (ends : List NodeId) : Except Fault NodeSet :=
  ends.foldlM (fun wanted v => do
    let _ ← m.indexOfNode g v
    return wanted.insert v) ∅

/-- The trails of all workers, one for each label of start nodes, ascending. -/
def searchWorkers (g : GraphView) (m : Mapping) (index : HubIndex) (length : PathLength)
    (wanted : NodeSet) (groups : Std.ExtTreeMap LabelIndex NodeSet) :
    List (LabelIndex × Trail MetaPath) :=
  groups.toList.map fun (label, nodes) => (label, searchWorker g m index length wanted label nodes)

/-- Runs a search, writing each path when it is found first.  The paths of an
earlier search count as not found yet. -/
def search (g : GraphView) (m : Mapping) (index : HubIndex) (length : PathLength)
    (starts ends : List NodeId) (sink : Sink) : Sink × Except Fault PathSet :=
  match (do return (← startsByLabel g m starts, ← wantedNodes g m ends)) with
  | .error fault => (sink, .error fault)
  | .ok (groups, wanted) =>
    match Findings.noteTrails ⟨∅, sink⟩ m (searchWorkers g m index length wanted groups) with
    | (f, some fault) => (f.sink, .error fault)
    | (f, none) =>
      match f.sink.flush with
      | (sink, some problem) => (sink, .error (.storage problem))
      | (sink, none) => (sink, .ok f.seen)

end LabelWalks
