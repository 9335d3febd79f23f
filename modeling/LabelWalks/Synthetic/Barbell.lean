/-
  LabelWalks.Synthetic.Barbell
  ────────────────────────────
  **TWO DENSE HALVES AND A BRIDGE.**

  Two halves of equal size, in which every node is joined to up to six drawn
  ones, are connected by a chain of ten nodes.  The nodes and edges of the chain
  have a label of their own, so a path that crosses it shows it.
-/
import LabelWalks.Synthetic.Lcg

namespace LabelWalks.Synthetic.Barbell

/-- The label of the nodes and of the edges of the bridge. -/
def bridgeLabel : Label := 10

/-- An edge from the `i`th node of the half that starts at `first` to a drawn
one, unless that is the node itself. -/
def joinDrawn (first half i : Nat) (g : Network) : Draw Network := do
  let target ← Draw.below (.ofNat half)
  if target = nodeId i then return g
  addEdge g (nodeId (first + i)) (nodeId (first + target.toNat))

/-- The edges of the half that starts at `first`. -/
def joinHalf (first half fanOut : Nat) (g : Network) : Draw Network :=
  (List.range half).foldlM (fun g i =>
    (List.range fanOut).foldlM (fun g _ => joinDrawn first half i g) g) g

/-- The edge with the label of the bridge that leads to a node from the one before it. -/
def joinLast (g : Network) (v : Nat) : Draw Network := do
  return g.connect (nodeId (← Draw.difference v 1)) (nodeId v) bridgeLabel

/-- The `i`th node of the bridge, joined to the node before it, if there is one. -/
def addBridgeNode (half : Nat) (g : Network) (i : Nat) : Draw Network := do
  let v := half + i
  let g := g.add (nodeId v) bridgeLabel
  if 0 < i ∨ 0 < half then joinLast g v else return g

/-- The edge from the bridge to the half behind it, if there are both. -/
def joinSecond (half bridge : Nat) (g : Network) : Draw Network :=
  if 0 < half ∧ 0 < bridge then joinLast g (half + bridge) else return g

/-- The graph of a size. -/
def generate (size : Nat) : Draw Network := do
  let bridge := min 10 size
  let half := (← Draw.difference size bridge) / 2
  let fanOut := min 6 (half - 1)
  let g ← addNodes .empty 0 half
  let g ← joinHalf 0 half fanOut g
  let g ← (List.range bridge).foldlM (addBridgeNode half) g
  let second := half + bridge
  let g ← addNodes g second half
  let g ← joinSecond half bridge g
  joinHalf second half fanOut g

end LabelWalks.Synthetic.Barbell
