/-
  LabelWalks.Limits
  ─────────────────
  **THE BOUNDS THAT ANSWERS SHOW.**

  Each bound appears in the text of the fault that its excess raises or in the
  value at which a counter stays.
-/

namespace LabelWalks

/-- The most node labels that a path may have. -/
def maxPathLength : Nat := 64

/-- The most labels that one dictionary holds: one for each dense index. -/
def maxLabels : Nat := 65536

/-- The least weight of a path under review. -/
def minWeight : UInt32 := 1

/-- The greatest weight of a path under review. -/
def maxWeight : UInt32 := 10

/-- The count at which a counter stays. -/
def maxCount : Nat := Nat.pow 2 64 - 1

/-- The sum of two counts, which stays at `maxCount` once it gets there. -/
def addCount (a b : Nat) : Nat :=
  min (a + b) maxCount

end LabelWalks
