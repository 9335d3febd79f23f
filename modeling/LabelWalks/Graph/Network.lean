/-
  LabelWalks.Graph.Network
  ────────────────────────
  **A GRAPH IN MEMORY.**

  A network keeps the label of every registered node and, for every edge, an
  entry at its source and one at its target.  A direction says which of these
  entries a walk may follow; following both, an edge can be crossed either way
  and an edge from a node to itself is next to that node twice.

    • `add`, `connect`, `load` build a network,
    • `edges` lists what a walk may follow from a node, outgoing entries first,
    • `view` is the network as a computation sees it.
-/
import LabelWalks.Graph.View
import Std.Data.ExtTreeMap

namespace LabelWalks

/-! ## §1. Entries. -/

/-- Which stored entries a walk may follow. -/
inductive Direction where
  | outgoing
  | incoming
  | both
  deriving DecidableEq, Repr, Inhabited

/-- An edge as it is kept at one of its ends: the other end and the label. -/
structure Entry where
  target : NodeId
  label : Label
  deriving DecidableEq, Repr

/-- An edge together with the labels of its ends. -/
structure EdgeRecord where
  source : NodeId
  target : NodeId
  label : Label
  sourceLabel : Label
  targetLabel : Label
  deriving DecidableEq, Repr

/-- Labelled nodes and edges. -/
structure Network where
  /-- The entries at the sources of edges, in the order of the edges. -/
  outgoing : Std.ExtTreeMap NodeId (Array Entry)
  /-- The entries at the targets of edges, in the order of the edges. -/
  incoming : Std.ExtTreeMap NodeId (Array Entry)
  /-- The labels of the registered nodes. -/
  labels : Std.ExtTreeMap NodeId Label
  /-- The labels of the edges. -/
  edgeLabels : Std.ExtTreeSet Label
  /-- Which entries a walk may follow. -/
  direction : Direction

namespace Network

/-! ## §2. Building. -/

/-- The network without nodes or edges, open in both directions. -/
def empty : Network :=
  ⟨∅, ∅, ∅, ∅, .both⟩

/-- The network with another direction. -/
def withDirection (g : Network) (direction : Direction) : Network :=
  { g with direction }

/-- The network with a node registered; a known node gets the new label. -/
def add (g : Network) (v : NodeId) (label : Label) : Network :=
  { g with labels := g.labels.insert v label }

/-- The entries with one more at a node. -/
def pushEntry (entries : Std.ExtTreeMap NodeId (Array Entry)) (v : NodeId) (e : Entry) :
    Std.ExtTreeMap NodeId (Array Entry) :=
  entries.alter v fun es => some ((es.getD #[]).push e)

/-- The network with one more edge; its ends need not be registered. -/
def connect (g : Network) (source target : NodeId) (label : Label) : Network :=
  { g with
    outgoing := pushEntry g.outgoing source ⟨target, label⟩
    incoming := pushEntry g.incoming target ⟨source, label⟩
    edgeLabels := g.edgeLabels.insert label }

/-- The network with an edge whose ends are registered if they were not known. -/
def loadOne (g : Network) (r : EdgeRecord) : Network :=
  let labels := (g.labels.insertIfNew r.source r.sourceLabel).insertIfNew r.target r.targetLabel
  { g with labels }.connect r.source r.target r.label

/-- The network with a list of edges loaded in order. -/
def load (g : Network) (records : List EdgeRecord) : Network :=
  records.foldl loadOne g

/-! ## §3. Questions. -/

/-- The edges that start at a node, as entries to their targets. -/
def edgesOut (g : Network) (v : NodeId) : List Entry :=
  (g.outgoing.getD v #[]).toList

/-- The edges that end at a node, as entries to their sources. -/
def edgesIn (g : Network) (v : NodeId) : List Entry :=
  (g.incoming.getD v #[]).toList

/-- The entries that a walk may follow from a node. -/
def edges (g : Network) (v : NodeId) : List Entry :=
  match g.direction with
  | .outgoing => g.edgesOut v
  | .incoming => g.edgesIn v
  | .both => g.edgesOut v ++ g.edgesIn v

/-- The registered nodes, ascending. -/
def nodeIds (g : Network) : List NodeId :=
  g.labels.keys

/-- The label of a registered node. -/
def labelOf (g : Network) (v : NodeId) : Option Label :=
  g.labels[v]?

/-- The labels of the registered nodes. -/
def nodeLabels (g : Network) : Std.ExtTreeSet Label :=
  .ofList (g.labels.toList.map Prod.snd)

/-- The neighbours of a node. -/
def adjacentNodes (g : Network) (v : NodeId) : List NodeId :=
  (g.edges v).map Entry.target

/-- The neighbours of a node, each with the label of the edge that reaches it. -/
def adjacentEdges (g : Network) (v : NodeId) : List (NodeId × Option Label) :=
  (g.edges v).map fun e => (e.target, some e.label)

/-- The label of the first edge that a walk may follow from one node to another. -/
def edgeLabel (g : Network) (v w : NodeId) : Option Label :=
  ((g.edges v).find? fun e => e.target == w).map Entry.label

/-- How many entries a walk may follow from a node. -/
def degree (g : Network) (v : NodeId) : Nat :=
  (g.edges v).length

/-- How many nodes are registered. -/
def nodeCount (g : Network) : Nat :=
  g.labels.size

/-- How many entries there are at all nodes together. -/
def entryCount (entries : Std.ExtTreeMap NodeId (Array Entry)) : Nat :=
  entries.foldl (fun n _ es => n + es.size) 0

/-- How many edges there are. -/
def edgeCount (g : Network) : Nat :=
  entryCount g.outgoing

/-- An estimate of the memory in octets: 28 for a node and 16 for an entry. -/
def memory (g : Network) : Nat :=
  28 * g.nodeCount + 16 * (entryCount g.outgoing + entryCount g.incoming)

/-! ## §4. Views. -/

/-- The network as a computation sees it. -/
def view (g : Network) : GraphView where
  nodeIds := g.nodeIds
  labelOf := g.labelOf
  nodeLabels := g.nodeLabels
  edgeLabels := g.edgeLabels
  adjacentNodes v := .ok (g.adjacentNodes v)
  edgeLabel := g.edgeLabel
  degree := g.degree
  adjacentEdges v := .ok (g.adjacentEdges v)

/-- What a view may lack or break off at. -/
structure Defects where
  /-- Ordered pairs of nodes whose edge has no label. -/
  unlabelledEdges : List (NodeId × NodeId)
  /-- Nodes without a label. -/
  unlabelledNodes : List NodeId
  /-- Nodes whose adjacency breaks off. -/
  breakdowns : List (NodeId × Breakdown)

/-- The network as seen through neighbours and one edge label for each pair of
nodes, with some answers missing. -/
def plainView (g : Network) (defects : Defects) : GraphView where
  nodeIds := g.nodeIds
  labelOf v := if v ∈ defects.unlabelledNodes then none else g.labelOf v
  nodeLabels := g.nodeLabels
  edgeLabels := g.edgeLabels
  adjacentNodes v :=
    match defects.breakdowns.lookup v with
    | some breakdown => .error breakdown
    | none => .ok (g.adjacentNodes v)
  edgeLabel v w := if (v, w) ∈ defects.unlabelledEdges then none else g.edgeLabel v w
  degree := g.degree

end Network

end LabelWalks
