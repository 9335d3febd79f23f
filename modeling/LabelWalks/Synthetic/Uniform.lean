/-
  LabelWalks.Synthetic.Uniform
  ────────────────────────────
  **EDGES DRAWN EVENLY.**

  For each node three times two ends are drawn from all nodes; they are joined
  unless they are the same.
-/
import LabelWalks.Synthetic.Lcg

namespace LabelWalks.Synthetic.Uniform

/-- An edge between two drawn nodes of `size`, unless they are the same. -/
def joinDrawn (size : Nat) (g : Network) : Draw Network := do
  let v ← Draw.below (.ofNat size)
  let w ← Draw.below (.ofNat size)
  if v = w then return g
  addEdge g v w

/-- The graph of a size. -/
def generate (size : Nat) : Draw Network := do
  let g ← addNodes .empty 0 size
  (List.range (3 * size)).foldlM (fun g _ => joinDrawn size g) g

end LabelWalks.Synthetic.Uniform
