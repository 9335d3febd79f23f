/-
  LabelWalks.HubIndex.Crew
  ────────────────────────
  **THE INDEX WORKERS SIDE BY SIDE.**

  The worker of a node finds the suffix map, waits until no other worker has the
  sink, offers its record and lets the sink go.  The sink is the only thing that
  the workers share.  Workers that have ended are booked whenever the next one
  is started.

    • `crew` is the work, `opening` the pool at its start,
    • `closing` is what a run that is over comes to,
    • `Builds` relates a call to all results that it can have,
    • `Session` does so for calls one after another.
-/
import LabelWalks.HubIndex.Builder
import LabelWalks.Pool

namespace LabelWalks.HubIndex

/-- What a worker is about to do. -/
inductive Errand where
  /-- It finds the suffix map of its node. -/
  | search
  /-- It has the map and needs the sink. -/
  | queue (map : SuffixMap)
  /-- It has the sink. -/
  | write (map : SuffixMap)

/-- The sink, and the worker that has it. -/
structure Desk where
  sink : Sink
  holder : Option NodeId

/-- The sink after the record of a node was offered to it, and whether it took the record. -/
def offer (m : Mapping) (sink : Sink) (v : NodeId) (map : SuffixMap) : Sink × Except Halt Unit :=
  match record m v map with
  | .error fault => (sink, .error (.fault fault))
  | .ok text =>
    match sink.write text with
    | (sink, none) => (sink, .ok ())
    | (sink, some problem) => (sink, .error (.fault (.storage problem)))

/-- The work on an index: one worker for each node. -/
def crew (g : GraphView) (m : Mapping) (length : PathLength) :
    Craft NodeId Errand Desk (Except Halt Unit) where
  turn v errand desk :=
    match errand with
    | .search =>
      match suffixesFrom g m v length with
      | .ok map => some (desk, .inl (.queue map))
      | .error halt => some (desk, .inr (.error halt))
    | .queue map =>
      match desk.holder with
      | none => some ({ desk with holder := some v }, .inl (.write map))
      | some _ => none
    | .write map =>
      let (sink, outcome) := offer m desk.sink v map
      some (⟨sink, none⟩, .inr outcome)
  reaps := true

/-- The pool at the start: a job for each node that is listed, once however often it is. -/
def opening (nodes : List NodeId) (workers : Nat) (sink : Sink) :
    Pool NodeId Errand Desk (Except Halt Unit) :=
  .start (nodes.eraseDups.map fun v => (v, .search)) workers ⟨sink, none⟩

/-- The report with one outcome more. -/
def Report.book (report : Report) : NodeId × Except Halt Unit → Report
  | (_, .ok ()) => { report with written := report.written + 1 }
  | (v, .error _) => { report with failed := report.failed ++ [v] }

/-- The report of all outcomes in the order in which they were booked. -/
def Report.ofBooked (booked : List (NodeId × Except Halt Unit)) : Report :=
  booked.foldl book ⟨0, []⟩

/-- What a call gives once its pool is over; only a refusal to flush makes it fail. -/
def closing (p : Pool NodeId Errand Desk (Except Halt Unit)) : Sink × Except Fault Report :=
  match p.shared.sink.flush with
  | (sink, some problem) => (sink, .error (.storage problem))
  | (sink, none) => (sink, .ok (.ofBooked p.booked))

/-- The sink and the answer that some schedule leads to. -/
def Builds (g : GraphView) (m : Mapping) (length : PathLength) (nodes : List NodeId)
    (workers : Nat) (sink : Sink) (result : Sink × Except Fault Report) : Prop :=
  ∃ turns, ((crew g m length).run (opening nodes workers sink) turns).Over
    ∧ result = closing ((crew g m length).run (opening nodes workers sink) turns)

/-- Calls one after another, each with its nodes and its answer, which may have different
numbers of workers; the sink is handed on. -/
inductive Session (g : GraphView) (m : Mapping) (length : PathLength) :
    Sink → List (List NodeId × Except Fault Report) → Sink → Prop
  | done {sink : Sink} : Session g m length sink [] sink
  | call {sink sink' last : Sink} {nodes : List NodeId} {workers : Nat}
      {answer : Except Fault Report} {calls : List (List NodeId × Except Fault Report)}
      (hbuilds : Builds g m length nodes workers sink (sink', answer))
      (hrest : Session g m length sink' calls last) :
      Session g m length sink ((nodes, answer) :: calls) last

end LabelWalks.HubIndex
