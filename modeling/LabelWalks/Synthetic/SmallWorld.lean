/-
  LabelWalks.Synthetic.SmallWorld
  ───────────────────────────────
  **A RING WITH SHORTCUTS.**

  Every node of a ring is joined to the three that follow it.  One edge in
  twenty is led to a drawn node instead, unless that is the node it starts at.
-/
import LabelWalks.Synthetic.Lcg

namespace LabelWalks.Synthetic.SmallWorld

/-- How likely an edge is led elsewhere. -/
def rewiring : Binary64 :=
  .ofFraction false 5 100

/-- The edge from a node to the one `j` places on, or to a drawn one. -/
def joinOne (size i : Nat) (g : Network) (j : Nat) : Draw Network := do
  let neighbour := nodeId (← Draw.remainder (i + j) size)
  let label ← Draw.edgeLabel
  if (← Draw.unit).lt rewiring then
    let drawn ← Draw.below (.ofNat size)
    return g.connect (nodeId i) (if drawn = nodeId i then neighbour else drawn) label
  else return g.connect (nodeId i) neighbour label

/-- The edges of a node to the three that follow it. -/
def joinNode (size : Nat) (g : Network) (i : Nat) : Draw Network :=
  [1, 2, 3].foldlM (joinOne size i) g

/-- The ring of a size. -/
def generate (size : Nat) : Draw Network := do
  let g ← addNodes .empty 0 size
  (List.range size).foldlM (joinNode size) g

end LabelWalks.Synthetic.SmallWorld
