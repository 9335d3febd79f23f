/-
  LabelWalks.Proofs.Graph.Shape
  ─────────────────────────────
  **NETWORKS AS GRAPHS.**

  The shape of a network is what is left of it without labels and directions: two of its
  nodes are joined when there is an edge from one to the other, however many there are.

  Where each node but one is joined with a node of lesser rank, all nodes are connected
  with that one.  Where these are all edges, the shape is a tree, and the distance from
  the root counts the parents on the way.

    • `Network.shape`, `shape_adj_iff` — which nodes are joined,
    • `reachable_of_descends` — when all nodes are connected with one,
    • `Rooted.isTree`, `Rooted.dist_eq` — parents, and the tree that they make.
-/
import LabelWalks.Graph.Network
import Mathlib

namespace LabelWalks

/-! ## §1. Which nodes are joined. -/

namespace Network

/-- A registered node. -/
abbrev Node (n : Network) : Type :=
  { v : NodeId // v ∈ n.nodeIds }

/-- The registered nodes, joined where there is an edge from one to another. -/
def shape (n : Network) : SimpleGraph n.Node :=
  .fromRel fun v w => w.1 ∈ (n.edgesOut v.1).map Entry.target

theorem shape_adj_iff {n : Network} {v w : n.Node} :
    n.shape.Adj v w ↔ v ≠ w ∧ (w.1 ∈ (n.edgesOut v.1).map Entry.target
      ∨ v.1 ∈ (n.edgesOut w.1).map Entry.target) :=
  SimpleGraph.fromRel_adj _ v w

end Network

/-! ## §2. Ways down to a root. -/

section
variable {V : Type} {G : SimpleGraph V} {root : V}

/-- **All vertices are connected with a root** when each is joined with one of lesser rank. -/
theorem reachable_of_descends (rank : V → Nat)
    (hless : ∀ v, v ≠ root → ∃ w, rank w < rank v ∧ G.Adj v w) (v : V) : G.Reachable v root := by
  -- on the rank
  induction hrank : rank v using Nat.strong_induction_on generalizing v with
  | h n ih =>
      by_cases hroot : v = root
      · rw [hroot]
      · obtain ⟨w, hw, hadj⟩ := hless v hroot
        exact hadj.reachable.trans (ih (rank w) (hrank ▸ hw) w rfl)

/-- The edges of a graph are those between each vertex and its parent, which is of lesser rank. -/
structure Rooted (G : SimpleGraph V) (root : V) (parent : V → V) (rank : V → Nat) : Prop where
  less : ∀ v, v ≠ root → rank (parent v) < rank v
  adj : ∀ v w, G.Adj v w ↔ (v ≠ root ∧ parent v = w) ∨ (w ≠ root ∧ parent w = v)

namespace Rooted

variable {parent : V → V} {rank : V → Nat} (h : Rooted G root parent rank)
include h

theorem adj_parent {v : V} (hv : v ≠ root) : G.Adj v (parent v) :=
  (h.adj v (parent v)).2 (.inl ⟨hv, rfl⟩)

theorem connected : G.Connected := by
  have hreach : ∀ v, G.Reachable v root :=
    reachable_of_descends rank fun v hv => ⟨parent v, h.less v hv, h.adj_parent hv⟩
  have : Nonempty V := ⟨root⟩
  exact .mk fun v w => (hreach v).trans (hreach w).symm

/-- The edge of a vertex is that to its parent. -/
def edge (v : { v // v ≠ root }) : G.edgeSet :=
  ⟨s(v.1, parent v.1), h.adj_parent v.2⟩

/-- Each edge is that of one vertex alone. -/
theorem edge_bijective : Function.Bijective h.edge := by
  constructor
  · rintro ⟨v, hv⟩ ⟨w, hw⟩ hsame
    have hsame : s(v, parent v) = s(w, parent w) := congrArg Subtype.val hsame
    rcases Sym2.eq_iff.1 hsame with ⟨hvw, -⟩ | ⟨hvw, hwv⟩
    · exact Subtype.ext hvw
    · -- neither can be the parent of the other
      have hless := h.less v hv
      have hless' := h.less w hw
      rw [hwv] at hless
      rw [← hvw] at hless'
      exact absurd hless (Nat.lt_asymm hless')
  · rintro ⟨edge, hedge⟩
    induction edge using Sym2.inductionOn with
    | _ v w =>
        rcases (h.adj v w).1 hedge with ⟨hv, rfl⟩ | ⟨hw, rfl⟩
        · exact ⟨⟨v, hv⟩, rfl⟩
        · exact ⟨⟨w, hw⟩, Subtype.ext Sym2.eq_swap⟩

/-- **Parents make a tree**, which has an edge for each vertex but the root. -/
theorem isTree [Finite V] : G.IsTree := by
  classical
  have := Fintype.ofFinite V
  refine SimpleGraph.isTree_iff_connected_and_card.2 ⟨h.connected, ?_⟩
  have hedges : Nat.card G.edgeSet = Nat.card { v // v ≠ root } :=
    (Nat.card_congr (Equiv.ofBijective h.edge h.edge_bijective)).symm
  have hothers : Fintype.card { v // v ≠ root } = Fintype.card V - 1 := by
    rw [Fintype.card_subtype_compl, Fintype.card_subtype_eq]
  have hpos : 0 < Fintype.card V := Fintype.card_pos_iff.2 ⟨root⟩
  rw [hedges, Nat.card_eq_fintype_card, Nat.card_eq_fintype_card, hothers]
  omega

/-- **The distance from the root** counts the parents on the way. -/
theorem dist_eq (depth : V → Nat) (hroot : depth root = 0)
    (hstep : ∀ v, v ≠ root → depth v = depth (parent v) + 1) (v : V) :
    G.dist root v = depth v := by
  refine Nat.le_antisymm ?_ ?_
  · -- on the rank: there is a way as long as the depth
    induction hrank : rank v using Nat.strong_induction_on generalizing v with
    | h n ih =>
        by_cases hv : v = root
        · rw [hv, SimpleGraph.dist_self]
          exact Nat.zero_le _
        · have hparent := ih (rank (parent v)) (hrank ▸ h.less v hv) (parent v) rfl
          have hlast := (h.connected.dist_triangle (u := root) (v := parent v) (w := v))
          rw [SimpleGraph.dist_eq_one_iff_adj.2 (h.adj_parent hv).symm] at hlast
          rw [hstep v hv]
          omega
  · -- no edge of a way leads deeper by more than one
    have hway : ∀ {u w : V} (p : G.Walk u w), depth w ≤ depth u + p.length := by
      intro u w p
      induction p with
      | nil => exact Nat.le_refl _
      | @cons u u' w hadj p ih =>
          have hone : depth u' ≤ depth u + 1 := by
            rcases (h.adj u u').1 hadj with ⟨hu, rfl⟩ | ⟨hu', rfl⟩
            · have hdeeper := hstep u hu
              omega
            · exact (hstep u' hu').le
          rw [SimpleGraph.Walk.length_cons]
          omega
    obtain ⟨p, hp⟩ := (h.connected root v).exists_walk_length_eq_dist
    have hdeep := hway p
    rwa [hroot, Nat.zero_add, hp] at hdeep

end Rooted

end

end LabelWalks
