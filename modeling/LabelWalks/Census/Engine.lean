/-
  LabelWalks.Census.Engine
  ────────────────────────
  **CENSUSES ON ONE ENGINE.**

  An engine takes one census after another and keeps nothing but its sink.  When
  all workers are done it makes the lines of the table in order and writes each of
  them before it makes the next one.

    • `writeRows` writes rows up to the first that cannot be made or is refused,
    • `deliver` is what the engine does with the answer of the workers,
    • `Takes` relates the sink of an engine to all that its next census can come to.
-/
import LabelWalks.Census.Crew

namespace LabelWalks

/-- Writes the lines of rows in order, each one when it is made. -/
def writeRows (m : Mapping) (sink : Sink) : List PathCount → Sink × Option Fault
  | [] => (sink, none)
  | row :: rows =>
    match row.line m with
    | .error fault => (sink, some fault)
    | .ok line =>
      match sink.write line with
      | (sink, some problem) => (sink, some (.storage problem))
      | (sink, none) => writeRows m sink rows

/-- Hands out the answer of the workers; a table is written first. -/
def deliver (m : Mapping) (sink : Sink) : Except Fault Census → Sink × Except Fault Census
  | .error fault => (sink, .error fault)
  | .ok table =>
    match writeRows m sink table.toList with
    | (sink, some fault) => (sink, .error fault)
    | (sink, none) =>
      match sink.flush with
      | (sink, some problem) => (sink, .error (.storage problem))
      | (sink, none) => (sink, .ok table)

/-- A census that an engine took: the sink before and after it, and the answer. -/
structure CensusCall where
  before : Sink
  answer : Except Fault Census
  after : Sink

/-- The censuses that an engine can take next under some schedule. -/
def Takes (g : GraphView) (m : Mapping) (length : PathLength) (workers : Nat) (sink : Sink)
    (call : CensusCall) (left : Sink) : Prop :=
  call.before = sink ∧ call.after = left ∧ ∃ answer, Counts g m length workers answer
    ∧ (left, call.answer) = deliver m sink answer

end LabelWalks
