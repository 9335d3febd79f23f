/-
  LabelWalks.Arrival
  ──────────────────
  **ONE STEP OF A WALK.**

  From a node a walk crosses an edge and arrives at a neighbour.  An arrival
  keeps the dense labels of that hop and the node.  Each entry of the adjacency
  list is an arrival of its own, so parallel edges arrive separately.

  Arrivals with one hop go to one group: `groupNodes` keeps the nodes that are
  reached, `groupCounts` also in how many ways.
-/
import LabelWalks.Trail
import Std.Data.ExtTreeMap

namespace LabelWalks

/-! ## §1. Hops and arrivals. -/

/-- The dense labels of a crossed edge and of the node behind it. -/
structure Hop where
  edge : LabelIndex
  node : LabelIndex
  deriving DecidableEq, Repr

namespace Hop

instance : Ord Hop :=
  ⟨compareLex (compareOn edge) (compareOn node)⟩

instance : Std.TransOrd Hop :=
  inferInstanceAs (Std.TransCmp (compareLex (compareOn edge) (compareOn node)))

instance : Std.LawfulEqOrd Hop where
  eq_of_compare {a b} h := by
    have h : compareLex (compareOn edge) (compareOn node) a b = .eq := h
    obtain ⟨he, hn⟩ := compareLex_eq_eq.1 h
    have he : a.edge = b.edge := Std.LawfulEqOrd.eq_of_compare he
    have hn : a.node = b.node := Std.LawfulEqOrd.eq_of_compare hn
    cases a; cases b; simp_all

/-- The tokens of a hop. -/
def tokens (h : Hop) : List LabelIndex :=
  [h.edge, h.node]

@[simp]
theorem length_tokens (h : Hop) : h.tokens.length = 2 := rfl

end Hop

/-- A hop and the node it arrived at. -/
structure Arrival where
  hop : Hop
  node : NodeId
  deriving DecidableEq, Repr

/-- The arrival over one entry of a node's adjacency list; the label of the edge
is looked up before that of the neighbour. -/
def Arrival.over (g : GraphView) (m : Mapping) (v : NodeId) (entry : NodeId × Option Label) :
    Except Fault Arrival := do
  let label ← entry.2.elim (.error (.unregistered .edgeLabelFromNode v.toNat)) .ok
  let edge ← m.edgeIndex label
  let node ← m.indexOfNode g entry.1
  return ⟨⟨edge, node⟩, entry.1⟩

/-- All arrivals from a node, in the order of its adjacency list. -/
def arrivals (g : GraphView) (m : Mapping) (v : NodeId) : Trail Arrival :=
  match g.adjacentEdges v with
  | .ok entries => .each (fun entry => .ofExcept (Arrival.over g m v entry)) entries
  | .error breakdown => .stop (.breakdown breakdown)

/-! ## §2. Groups. -/

/-- A set of nodes. -/
abbrev NodeSet := Std.ExtTreeSet NodeId

/-- Nodes, each with the number of ways to it. -/
abbrev NodeCounts := Std.ExtTreeMap NodeId Nat

/-- The nodes behind each hop. -/
def groupNodes (as : List Arrival) : Std.ExtTreeMap Hop NodeSet :=
  as.foldl (fun groups a => groups.alter a.hop fun s => some ((s.getD ∅).insert a.node)) ∅

/-- The nodes with more ways to one of them. -/
def NodeCounts.plus (counts : NodeCounts) (v : NodeId) (n : Nat) : NodeCounts :=
  counts.alter v fun k => some (addCount (k.getD 0) n)

/-- The nodes behind each hop with the ways to them. -/
def groupCounts (as : List (Arrival × Nat)) : Std.ExtTreeMap Hop NodeCounts :=
  as.foldl (fun groups (a, n) =>
    groups.alter a.hop fun c => some (NodeCounts.plus (c.getD ∅) a.node n)) ∅

end LabelWalks
