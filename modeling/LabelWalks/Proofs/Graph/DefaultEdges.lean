/-
  LabelWalks.Proofs.Graph.DefaultEdges
  ────────────────────────────────────
  **THE DEFAULT ANSWER ABOUT EDGES, AND A NETWORK'S OWN.**

  Asked for the edges next to a node, a view that only knows neighbours and one label
  for each pair of nodes gives every entry to a neighbour the label of the first of
  them.  A network has its own answer, which keeps the labels apart.  The two differ
  just where edges with different labels can be followed from one node to the same
  neighbour: parallel ones, and with both directions open also edges that lead there
  and back.

    • `required` — a network behind the questions that every view has to answer,
    • `FirstTo`, `OneLabelEach` — the entries of a node,
    • `adjacentEdges_required_eq_iff` — when the answers are the same,
    • `default_edges` — all of this, and what computations make of it.
-/
import LabelWalks.Graph.Network
import LabelWalks.Proofs.Agreement
import LabelWalks.Proofs.Graph.SameEdges

namespace LabelWalks

namespace Network

variable {g : Network} {u w : NodeId}

/-! ## §1. The entries of a node. -/

/-- The first of the entries that leads to a neighbour. -/
def FirstTo (entries : List Entry) (w : NodeId) (e : Entry) : Prop :=
  e.target = w ∧ ∃ before after, entries = before ++ e :: after ∧ ∀ e' ∈ before, e'.target ≠ w

/-- No two entries lead to the same neighbour with different labels. -/
def OneLabelEach (entries : List Entry) : Prop :=
  ∀ e ∈ entries, ∀ e' ∈ entries, e.target = e'.target → e.label = e'.label

instance (entries : List Entry) : Decidable (OneLabelEach entries) :=
  inferInstanceAs (Decidable (∀ e ∈ entries, _))

theorem find?_eq_some_iff {entries : List Entry} {e : Entry} :
    entries.find? (fun e => e.target == w) = some e ↔ FirstTo entries w e := by
  unfold FirstTo
  simp only [List.find?_eq_some_iff_append, beq_iff_eq, Bool.not_eq_true', beq_eq_false_iff_ne]

theorem edgeLabel_eq_some_iff {label : Label} :
    g.edgeLabel u w = some label ↔ ∃ e, FirstTo (g.edges u) w e ∧ e.label = label := by
  unfold edgeLabel
  simp only [Option.map_eq_some_iff, find?_eq_some_iff]

/-- A neighbour has a first entry. -/
theorem exists_firstTo {entries : List Entry} {e : Entry} (he : e ∈ entries) :
    ∃ first, FirstTo entries e.target first := by
  simp only [← find?_eq_some_iff, ← Option.isSome_iff_exists, List.find?_isSome]
  exact ⟨e, he, beq_self_eq_true _⟩

theorem FirstTo.mem {entries : List Entry} {e : Entry} (h : FirstTo entries w e) : e ∈ entries := by
  obtain ⟨-, before, after, rfl, -⟩ := h
  exact List.mem_append_right before List.mem_cons_self

/-- A label for each neighbour: the first entry to it has the label of all of them. -/
theorem oneLabelEach_iff : OneLabelEach (g.edges u) ↔
    ∀ e ∈ g.edges u, g.edgeLabel u e.target = some e.label := by
  constructor
  · intro h e he
    obtain ⟨first, hfirst⟩ := exists_firstTo he
    exact edgeLabel_eq_some_iff.2 ⟨first, hfirst, h first hfirst.mem e he hfirst.1⟩
  · intro h e he e' he' htarget
    have hlabel := h e he
    rw [htarget, h e' he'] at hlabel
    exact (Option.some.inj hlabel).symm

/-! ## §2. The two answers. -/

/-- The network as a view that answers no more than it has to: nothing is missing, and for the
edges next to a node there is the default. -/
def required (g : Network) : GraphView :=
  g.plainView ⟨[], [], []⟩

theorem adjacentEdges_required (g : Network) (u : NodeId) :
    g.required.adjacentEdges u =
      .ok ((g.edges u).map fun e => (e.target, g.edgeLabel u e.target)) := by
  have hlabel : ∀ w, g.required.edgeLabel u w = g.edgeLabel u w := by
    intro w
    show (if (u, w) ∈ ([] : List (NodeId × NodeId)) then none else g.edgeLabel u w) = _
    exact if_neg List.not_mem_nil
  show Except.ok ((g.adjacentNodes u).map fun w => (w, g.required.edgeLabel u w)) = _
  unfold adjacentNodes
  simp only [hlabel, List.map_map]
  rfl

/-- **The two answers are the same** just when there is one label for each neighbour. -/
theorem adjacentEdges_required_eq_iff :
    g.required.adjacentEdges u = g.view.adjacentEdges u ↔ OneLabelEach (g.edges u) := by
  rw [adjacentEdges_required, oneLabelEach_iff]
  show Except.ok _ = Except.ok ((g.edges u).map fun e => (e.target, some e.label)) ↔ _
  simp only [Except.ok.injEq, List.map_inj_left, Prod.mk.injEq, true_and]

/-- **Two views of one network** that agree at all its nodes. -/
theorem sameEdges_required (h : ∀ u ∈ g.nodeIds, OneLabelEach (g.edges u)) :
    SameEdges g.view g.required where
  nodeIds := rfl
  labelOf := by
    funext v
    show (if v ∈ ([] : List NodeId) then none else g.labelOf v) = g.labelOf v
    exact if_neg List.not_mem_nil
  nodeLabels := rfl
  edgeLabels := rfl
  degree := rfl
  adjacentEdges v hv := by
    obtain ⟨label, hlabel⟩ := hv
    exact adjacentEdges_required_eq_iff.2 (h v (g.listed_view v label hlabel))

/-- **The default answer and the network's own**, under every direction.  They have the same
neighbours in the same order, and the default gives each of them the label of the first entry
that leads there.  So the two are the same at a node just when no two of its entries lead to the
same neighbour with different labels; and when that holds of all nodes of the network, no
computation tells a view with the default from one with the network's own answer. -/
theorem default_edges (g : Network) :
    (∀ u, g.required.adjacentEdges u = g.view.adjacentEdges u ↔ OneLabelEach (g.edges u))
      ∧ (∀ u, ∃ given own, g.required.adjacentEdges u = .ok given
        ∧ g.view.adjacentEdges u = .ok own ∧ given.map Prod.fst = own.map Prod.fst
        ∧ ∀ entry ∈ given, ∃ e, FirstTo (g.edges u) entry.1 e ∧ entry.2 = some e.label)
      ∧ ((∀ u ∈ g.nodeIds, OneLabelEach (g.edges u)) → SameResults g.view g.required) := by
  refine ⟨fun u => adjacentEdges_required_eq_iff, fun u => ?_,
    fun h => (sameEdges_required h).sameResults⟩
  refine ⟨_, _, adjacentEdges_required g u, rfl, ?_, ?_⟩
  · unfold adjacentEdges
    rw [List.map_map, List.map_map]
    rfl
  · intro entry hentry
    obtain ⟨e, he, rfl⟩ := List.mem_map.1 hentry
    obtain ⟨first, hfirst⟩ := exists_firstTo he
    exact ⟨first, hfirst, edgeLabel_eq_some_iff.2 ⟨first, hfirst, rfl⟩⟩

/-- An edge from node 1 to node 2 and another one back, with different labels. -/
def thereAndBack (direction : Direction) : Network :=
  (Network.empty.load [⟨1, 2, 7, 1, 2⟩, ⟨2, 1, 8, 2, 1⟩]).withDirection direction

/-- The answers differ when both edges can be crossed either way, and with one direction open no
computation tells them apart. -/
theorem default_edges_thereAndBack :
    (thereAndBack .both).required.adjacentEdges 1 ≠ (thereAndBack .both).view.adjacentEdges 1
      ∧ SameResults (thereAndBack .outgoing).view (thereAndBack .outgoing).required := by
  have hnodes : (thereAndBack .outgoing).nodeIds = [1, 2] := by decide +kernel
  have hone : OneLabelEach ((thereAndBack .outgoing).edges 1)
      ∧ OneLabelEach ((thereAndBack .outgoing).edges 2) := by decide +kernel
  have htwo : ¬ OneLabelEach ((thereAndBack .both).edges 1) := by decide +kernel
  obtain ⟨hiff, -, -⟩ := default_edges (thereAndBack .both)
  obtain ⟨-, -, hsame⟩ := default_edges (thereAndBack .outgoing)
  refine ⟨mt (hiff 1).1 htwo, hsame fun u hu => ?_⟩
  rw [hnodes] at hu
  rcases List.mem_cons.1 hu with rfl | hu
  · exact hone.1
  · obtain rfl := List.mem_singleton.1 hu
    exact hone.2

end Network

end LabelWalks
