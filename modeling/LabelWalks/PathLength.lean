/-
  LabelWalks.PathLength
  ─────────────────────
  **HOW LONG A PATH MAY GET.**

  A path length counts node labels; it is at least one and has an upper bound.
-/
import LabelWalks.Fault

namespace LabelWalks

/-- The most node labels that paths of one computation may have. -/
structure PathLength where
  nodes : Nat
  pos : 1 ≤ nodes
  bounded : nodes ≤ maxPathLength
  deriving DecidableEq, Repr

namespace PathLength

/-- A number as a path length, if it is within the bounds. -/
def of (n : Nat) : Except Fault PathLength :=
  if h : 1 ≤ n ∧ n ≤ maxPathLength then .ok ⟨n, h.1, h.2⟩
  else .error (.configuration (.pathLength n))

/-- The most edges that a path may cross. -/
def hops (length : PathLength) : Nat :=
  length.nodes - 1

end PathLength

end LabelWalks
