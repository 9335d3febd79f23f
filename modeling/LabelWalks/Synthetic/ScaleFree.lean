/-
  LabelWalks.Synthetic.ScaleFree
  ──────────────────────────────
  **A GRAPH WITH HUBS.**

  Five nodes are joined in pairs.  Every further node joins up to three ends of
  edges that are there, drawn evenly, so that a node draws edges in proportion to
  those it has.
-/
import LabelWalks.Synthetic.Lcg

namespace LabelWalks.Synthetic.ScaleFree

/-- A graph that is growing, with both ends of every edge. -/
structure Growth where
  graph : Network
  ends : Array NodeId

/-- One edge more, with its ends. -/
def join (t : Growth) (v w : NodeId) : Draw Growth := do
  return ⟨← addEdge t.graph v w, (t.ends.push v).push w⟩

/-- An edge from a node to a drawn end, unless there is no edge or the end is
the node itself. -/
def attach (v : NodeId) (t : Growth) : Draw Growth := do
  if t.ends.isEmpty then return t
  let target ← Draw.pick t.ends
  if target = v then return t
  join t v target

/-- One node more with its edges. -/
def addAttached (t : Growth) (i : Nat) : Draw Growth := do
  let graph ← addNode t.graph (nodeId i)
  (List.range (min 3 i)).foldlM (fun t _ => attach (nodeId i) t) ⟨graph, t.ends⟩

/-- Edges from a node to all nodes between it and `seed`. -/
def joinLater (seed : Nat) (t : Growth) (i : Nat) : Draw Growth :=
  (List.range' (i + 1) (seed - (i + 1))).foldlM (fun t j => join t (nodeId i) (nodeId j)) t

/-- The graph of a size. -/
def generate (size : Nat) : Draw Network := do
  let seed := min 5 size
  let graph ← addNodes .empty 0 seed
  let t ← (List.range seed).foldlM (joinLater seed) ⟨graph, #[]⟩
  let t ← (List.range' seed (size - seed)).foldlM addAttached t
  return t.graph

end LabelWalks.Synthetic.ScaleFree
