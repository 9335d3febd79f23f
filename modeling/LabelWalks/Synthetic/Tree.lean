/-
  LabelWalks.Synthetic.Tree
  ─────────────────────────
  **A TREE THAT REWRITES ITS LEAVES.**

  From one node on, every leaf of a level is given three children, until there
  are as many nodes as wanted.  Levels are thus full but for the last one.
-/
import LabelWalks.Synthetic.Lcg

namespace LabelWalks.Synthetic.Tree

/-- A tree that is growing. -/
structure Growth where
  graph : Network
  /-- The number of the next node. -/
  next : Nat
  /-- The nodes of the level that is begun, in order. -/
  level : Array NodeId

/-- How many children a node is given. -/
def branching : Nat := 3

/-- One child more for a node, unless there are `size` nodes. -/
def addChild (size : Nat) (parent : NodeId) (t : Growth) : Draw Growth := do
  if t.next < size then
    let child := nodeId t.next
    let graph ← addNode t.graph child
    let graph ← addEdge graph parent child
    return ⟨graph, t.next + 1, t.level.push child⟩
  else return t

/-- All children of a node. -/
def addChildren (size : Nat) (t : Growth) (parent : NodeId) : Draw Growth :=
  (List.range branching).foldlM (fun t _ => addChild size parent t) t

/-- The tree after as many levels as it takes to have `size` nodes; a level adds
one node at least, so no more than `levels` are begun. -/
def grow (size : Nat) : (levels : Nat) → Growth → Draw Growth
  | 0, t => return t
  | levels + 1, t => do
    if t.next < size ∧ 0 < t.level.size then
      let grown ← t.level.toList.foldlM (addChildren size) ⟨t.graph, t.next, #[]⟩
      grow size levels grown
    else return t

/-- The tree of a size; one node at least. -/
def generate (size : Nat) : Draw Network := do
  let graph ← addNode .empty (nodeId 0)
  let t ← grow size size ⟨graph, 1, #[nodeId 0]⟩
  return t.graph

end LabelWalks.Synthetic.Tree
