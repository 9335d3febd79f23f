/-
  LabelWalks.Synthetic.Aggregation
  ────────────────────────────────
  **GROWTH AT A SURFACE.**

  Each new node sticks to a drawn node of the surface, which holds the latest
  ten thousand nodes.  One new node in ten is joined to a second drawn node.
-/
import LabelWalks.Synthetic.Lcg

namespace LabelWalks.Synthetic.Aggregation

/-- The nodes that new ones stick to, the oldest first. -/
structure Surface where
  /-- All nodes that ever were on the surface. -/
  nodes : Array NodeId
  /-- How many of them have left it. -/
  left : Nat

/-- How many nodes the surface holds. -/
def surfaceLimit : Nat := 10000

namespace Surface

/-- How many nodes are on the surface. -/
def size (s : Surface) : Nat :=
  s.nodes.size - s.left

/-- The surface with a new node; the oldest leaves when there are too many. -/
def push (s : Surface) (v : NodeId) : Surface :=
  let nodes := s.nodes.push v
  ⟨nodes, if surfaceLimit < nodes.size - s.left then s.left + 1 else s.left⟩

/-- A drawn node of the surface. -/
def pick (s : Surface) : Draw NodeId := do
  let i ← Draw.below (.ofNat s.size)
  match s.nodes[s.left + i.toNat]? with
  | some v => return v
  | none => failure

end Surface

/-- A graph that is growing, with its surface. -/
structure Growth where
  graph : Network
  surface : Surface

/-- A second edge for node `i`, one time in ten, unless it leads where the first
one does; the node after the first has no other node to lead to. -/
def addSecond (i : Nat) (first : NodeId) (g : Network) : Draw Network := do
  if (← Draw.below 10) = 0 ∧ 1 < i then
    let other ← Draw.below (.ofNat i)
    if other = first then return g
    addEdge g (nodeId i) other
  else return g

/-- One node more with its edges. -/
def addStuck (t : Growth) (i : Nat) : Draw Growth := do
  let graph ← addNode t.graph (nodeId i)
  let first ← t.surface.pick
  let graph ← addEdge graph (nodeId i) first
  let graph ← addSecond i first graph
  return ⟨graph, t.surface.push (nodeId i)⟩

/-- The graph of a size. -/
def generate (size : Nat) : Draw Network := do
  if size = 0 then return .empty
  let graph ← addNode .empty (nodeId 0)
  let t ← (List.range' 1 (size - 1)).foldlM addStuck ⟨graph, ⟨#[nodeId 0], 0⟩⟩
  return t.graph

end LabelWalks.Synthetic.Aggregation
