/-
  LabelWalks.Search.Engine
  ────────────────────────
  **SEARCHES ON ONE ENGINE.**

  An engine is used for one search after another, and its workers share its
  findings.  These stay with it when a search is over: the sink in any case, and
  the paths that were found when the search failed.  A search begins with
  forgetting them, even if it comes to nothing else; the paths of a search that
  succeeds are handed out.

    • `Findings.forget` is what a search begins with,
    • `engineOpening`, `engineClosing` are a search at its start and at its end,
    • `Performs` relates an engine to all that its next search can come to.
-/
import LabelWalks.Search.Crew

namespace LabelWalks

/-- The findings without their paths; the sink stays. -/
def Findings.forget (f : Findings) : Findings :=
  { f with seen := ∅ }

/-- The pool at the start of a search on an engine with the given findings. -/
def engineOpening (g : GraphView) (m : Mapping) (index : HubIndex) (length : PathLength)
    (wanted : NodeSet) (groups : Std.ExtTreeMap LabelIndex NodeSet) (f : Findings) :
    Pool LabelIndex (Trail MetaPath) Findings (Option Halt) :=
  .start (searchWorkers g m index length wanted groups) groups.size f.forget

/-- What a pool that is over leaves in the engine, and the answer of the search. -/
def engineClosing (p : Pool LabelIndex (Trail MetaPath) Findings (Option Halt)) :
    Findings × Except Fault PathSet :=
  match p.booked.findSome? fun (label, halt) => halt.map (Halt.report (.startLabel label)) with
  | some fault => (p.shared, .error fault)
  | none =>
    match p.shared.sink.flush with
    | (sink, some problem) => ({ p.shared with sink }, .error (.storage problem))
    | (sink, none) => (⟨∅, sink⟩, .ok p.shared.seen)

/-- A search on an engine, and what came of it. -/
structure SearchCall where
  starts : List NodeId
  ends : List NodeId
  answer : Except Fault PathSet
  /-- What the sink took during the search. -/
  text : String

/-- The searches that an engine can perform next under some schedule, with what they leave in it. -/
def Performs (g : GraphView) (m : Mapping) (index : HubIndex) (length : PathLength)
    (f : Findings) (call : SearchCall) (left : Findings) : Prop :=
  left.sink.written = f.sink.written ++ call.text ∧
    match (do return (← startsByLabel g m call.starts, ← wantedNodes g m call.ends)) with
    | .error fault => (left, call.answer) = (f.forget, .error fault)
    | .ok (groups, wanted) => ∃ turns,
        ((searchCrew m).run (engineOpening g m index length wanted groups f) turns).Over
          ∧ (left, call.answer) = engineClosing
            ((searchCrew m).run (engineOpening g m index length wanted groups f) turns)

end LabelWalks
