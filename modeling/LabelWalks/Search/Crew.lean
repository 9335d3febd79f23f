/-
  LabelWalks.Search.Crew
  ──────────────────────
  **THE SEARCH WORKERS SIDE BY SIDE.**

  There is a worker for each label of start nodes.  It enters the paths of its
  trail one by one; looking whether a path is new, writing it and adding it to
  the set is one turn, in which no other worker comes between.  A path that
  cannot be entered ends the worker.  All workers may run at the same time, and
  the foreman joins them by ascending label, so the first fault that he meets is
  the one he reports.

    • `searchCrew` is the work, `searchOpening` the pool at its start,
    • `searchClosing` is the answer of a run that is over,
    • `Searches` relates a search to all that it can come to.
-/
import LabelWalks.Pool
import LabelWalks.Search

namespace LabelWalks

/-- The work on a search: the task of a worker is the rest of its trail. -/
def searchCrew (m : Mapping) : Craft LabelIndex (Trail MetaPath) Findings (Option Halt) where
  turn _ trail f :=
    match trail.items with
    | [] => some (f, .inr trail.halt)
    | path :: paths =>
      match f.note m path with
      | (f, none) => some (f, .inl ⟨paths, trail.halt⟩)
      | (f, some fault) => some (f, .inr (some (.fault fault)))
  reaps := false

/-- The pool at the start, with a permit for each worker, so that nobody waits for one. -/
def searchOpening (g : GraphView) (m : Mapping) (index : HubIndex) (length : PathLength)
    (wanted : NodeSet) (groups : Std.ExtTreeMap LabelIndex NodeSet) (sink : Sink) :
    Pool LabelIndex (Trail MetaPath) Findings (Option Halt) :=
  .start (searchWorkers g m index length wanted groups) groups.size ⟨∅, sink⟩

/-- The answer of a pool that is over, with what became of the sink: the first fault
that was booked or, if all is kept, the set of found paths. -/
def searchClosing (p : Pool LabelIndex (Trail MetaPath) Findings (Option Halt)) :
    Sink × Except Fault PathSet :=
  match p.booked.findSome? fun (label, halt) => halt.map (Halt.report (.startLabel label)) with
  | some fault => (p.shared.sink, .error fault)
  | none =>
    match p.shared.sink.flush with
    | (sink, some problem) => (sink, .error (.storage problem))
    | (sink, none) => (sink, .ok p.shared.seen)

/-- The answers that some schedule leads to; no worker starts when a start node or an end
node has no label. -/
def Searches (g : GraphView) (m : Mapping) (index : HubIndex) (length : PathLength)
    (starts ends : List NodeId) (sink : Sink) (answer : Sink × Except Fault PathSet) : Prop :=
  match (do return (← startsByLabel g m starts, ← wantedNodes g m ends)) with
  | .error fault => answer = (sink, .error fault)
  | .ok (groups, wanted) => ∃ turns,
      ((searchCrew m).run (searchOpening g m index length wanted groups sink) turns).Over
        ∧ answer = searchClosing
          ((searchCrew m).run (searchOpening g m index length wanted groups sink) turns)

end LabelWalks
