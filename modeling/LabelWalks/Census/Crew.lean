/-
  LabelWalks.Census.Crew
  ──────────────────────
  **THE CENSUS WORKERS SIDE BY SIDE.**

  There is a worker for each node label.  It puts its rows into one table that
  all workers share, row by row, and overwrites what stands there.  The foreman
  starts the workers in ascending order of their labels and joins them in that
  order when all are started, so the first halt that he meets is the one he reports.

    • `censusCrew` is the work, `censusOpening` the pool at its start,
    • `censusClosing` is the table of a run that is over, or its first fault,
    • `Counts` relates a graph to all answers that a census of it can have.
-/
import LabelWalks.Census
import LabelWalks.Pool

namespace LabelWalks

/-- The work on a census: the task of a worker is the rest of its trail. -/
def censusCrew : Craft LabelIndex (Trail PathCount) Census (Option Halt) where
  turn _ trail table :=
    match trail.items with
    | [] => some (table, .inr trail.halt)
    | row :: rows => some (table.insert row.1 row.2, .inl ⟨rows, trail.halt⟩)
  reaps := false

/-- The pool at the start, with a job for each group of nodes of one label. -/
def censusOpening (g : GraphView) (m : Mapping) (length : PathLength) (workers : Nat)
    (groups : Std.ExtTreeMap LabelIndex NodeCounts) :
    Pool LabelIndex (Trail PathCount) Census (Option Halt) :=
  .start (censusWorkers g m length groups) workers ∅

/-- The table of a pool that is over, or the first fault that was booked. -/
def censusClosing (p : Pool LabelIndex (Trail PathCount) Census (Option Halt)) :
    Except Fault Census :=
  match p.booked.findSome? fun (label, halt) => halt.map (Halt.report (.nodeLabel label)) with
  | some fault => .error fault
  | none => .ok p.shared

/-- The answers that some schedule leads to; no worker starts when a node has no label. -/
def Counts (g : GraphView) (m : Mapping) (length : PathLength) (workers : Nat)
    (answer : Except Fault Census) : Prop :=
  match nodesByLabel g m with
  | .error fault => answer = .error fault
  | .ok groups => ∃ turns, (censusCrew.run (censusOpening g m length workers groups) turns).Over
      ∧ answer = censusClosing (censusCrew.run (censusOpening g m length workers groups) turns)

end LabelWalks
