/-
  LabelWalks.Proofs.Synthetic.Size
  ────────────────────────────────
  **HOW MANY NODES A SYNTHETIC GRAPH HAS.**

  A graph of a size is to have so many nodes, numbered from zero on without a gap.  The
  families grow in ways of their own, and all but one come out at the size that was
  wanted.  The barbell divides what its bridge leaves into halves: where an odd number is
  left, one node is lost.

    • `Numbered.nodeIds_eq`, `Numbered.nodeCount_eq` — the nodes of a graph that is numbered,
    • `nodeCount_eq_ite` — at which sizes a node is lost,
    • `nodes_of_generated` — the nodes of every family at every size,
    • `loses_node_barbell` — the least barbell that is too small.
-/
import LabelWalks.Proofs.Synthetic.Families

namespace LabelWalks

/-! ## §1. Nodes without a gap. -/

namespace Network

open Synthetic

/-- The nodes of a network come in ascending order. -/
theorem pairwise_nodeIds (n : Network) : n.nodeIds.Pairwise fun v w => v < w :=
  (Std.ExtTreeMap.ordered_keys (t := n.labels)).imp fun hlt => Std.compare_eq_lt.1 hlt

theorem length_nodeIds_eq (n : Network) : n.nodeIds.length = n.nodeCount :=
  Std.ExtTreeMap.length_keys

namespace Numbered

variable {k : Nat} {n : Network}

/-- **The nodes of a network that is numbered** are the numbers below its bound, in order. -/
theorem nodeIds_eq (h : Numbered k n) (hk : k ≤ UInt64.size) :
    n.nodeIds = (List.range k).map nodeId := by
  have hascending : ((List.range k).map nodeId).Pairwise fun v w => v < w := by
    rw [List.pairwise_map]
    refine List.pairwise_lt_range.imp_of_mem fun {i j} hi hj hlt => ?_
    have hi := List.mem_range.1 hi
    have hj := List.mem_range.1 hj
    rw [UInt64.lt_iff_toNat_lt, toNat_nodeId (by omega), toNat_nodeId (by omega)]
    exact hlt
  have hmem : ∀ v, v ∈ n.nodeIds ↔ v ∈ (List.range k).map nodeId := by
    intro v
    rw [h.nodes v, List.mem_map]
    constructor
    · intro hv
      exact ⟨v.toNat, List.mem_range.2 hv, UInt64.ofNat_toNat⟩
    · rintro ⟨i, hi, rfl⟩
      exact toNat_nodeId_lt (List.mem_range.1 hi) hk
  -- two ascending lists with the same members are the same
  have hne : ∀ {v w : NodeId}, v < w → v ≠ w := fun hlt heq => UInt64.ne_of_lt hlt heq
  have hperm : n.nodeIds.Perm ((List.range k).map nodeId) :=
    (List.perm_ext_iff_of_nodup (n.pairwise_nodeIds.imp hne) (hascending.imp hne)).2 hmem
  exact hperm.eq_of_pairwise (fun v w _ _ hvw hwv => absurd hwv (UInt64.lt_asymm hvw))
    n.pairwise_nodeIds hascending

theorem nodeCount_eq (h : Numbered k n) (hk : k ≤ UInt64.size) : n.nodeCount = k := by
  rw [← length_nodeIds_eq, h.nodeIds_eq hk, List.length_map, List.length_range]

end Numbered

end Network

/-! ## §2. The size that is wanted. -/

namespace Synthetic.Family

open Draw Network

/-- A graph that there is has its nodes, whatever its size. -/
theorem yields_draw (family : Family) {size : Nat} (hsize : size < UInt64.size) :
    (family.draw size).Yields (Numbered (family.nodeCount size)) := by
  by_cases hfamily : family = .scaleFree
  · rw [hfamily]
    exact ScaleFree.yields_generate hsize
  · exact (gives_draw family hsize fun h => absurd h hfamily).yields

/-- A family loses a node at a size: the halves of the barbell are equal, and what its bridge
leaves is odd. -/
def LosesNode (family : Family) (size : Nat) : Prop :=
  family = .barbell ∧ 11 ≤ size ∧ size % 2 = 1

instance (family : Family) (size : Nat) : Decidable (LosesNode family size) :=
  inferInstanceAs (Decidable (_ ∧ _))

/-- **The nodes of a size** are as many as wanted, or one less. -/
theorem nodeCount_eq_ite (family : Family) {size : Nat} (hpos : 1 ≤ size) :
    family.nodeCount size = if family.LosesNode size then size - 1 else size := by
  unfold LosesNode
  cases family <;> simp only [nodeCount, reduceCtorEq, false_and, true_and, if_false]
  case tree => omega
  case barbell => split <;> omega

/-- **The nodes of a synthetic graph**: every family draws a graph for every size as long as the
ends of the edges that it draws from can be counted, and any graph that it draws has the nodes
0, 1, …, as many as wanted; but the barbell lacks the last one where what its bridge leaves cannot
be halved. -/
theorem nodes_of_generated (family : Family) (size : Nat) (hpos : 1 ≤ size)
    (hsize : size < UInt64.size) :
    ((family = .scaleFree → 50 + 6 * size < UInt64.size) → ∃ g, family.generate? size = some g)
    ∧ ∀ g, family.generate? size = some g →
        g.nodeCount = (if family.LosesNode size then size - 1 else size)
        ∧ g.nodeIds = (List.range (if family.LosesNode size then size - 1 else size)).map nodeId
        ∧ ((g.nodeCount = size ∧ g.nodeIds = (List.range size).map nodeId)
            ↔ ¬ family.LosesNode size) := by
  refine ⟨fun hends => ?_, fun g hg => ?_⟩
  · obtain ⟨g, hg, -⟩ := exists_of_gives (gives_draw family hsize hends)
    exact ⟨g, hg⟩
  · -- whatever was drawn, the graph that came out is numbered
    obtain ⟨⟨g', r⟩, hrun, rfl⟩ := Option.map_eq_some_iff.1 hg
    have hnumbered := yields_draw family hsize _ _ _ hrun
    rw [nodeCount_eq_ite family hpos] at hnumbered
    have hword : (if family.LosesNode size then size - 1 else size) ≤ UInt64.size := by
      split <;> omega
    refine ⟨hnumbered.nodeCount_eq hword, hnumbered.nodeIds_eq hword, fun h hloses => ?_,
      fun hkeeps => ?_⟩
    · have hcount := h.1.symm.trans (hnumbered.nodeCount_eq hword)
      rw [if_pos hloses] at hcount
      omega
    · rw [if_neg hkeeps] at hnumbered
      exact ⟨hnumbered.nodeCount_eq hsize.le, hnumbered.nodeIds_eq hsize.le⟩

/-- With a seed and a bridge of the same number of nodes, a graph with hubs has its eleven nodes
and a barbell has ten. -/
theorem nodes_of_generated_eleven :
    (∃ g, Family.scaleFree.generate? 11 = some g ∧ g.nodeCount = 11)
      ∧ ∃ g, Family.barbell.generate? 11 = some g ∧ g.nodeCount = 10 := by
  obtain ⟨hhubs, hcount⟩ := nodes_of_generated .scaleFree 11 (by decide) (by decide)
  obtain ⟨hhalves, hcount'⟩ := nodes_of_generated .barbell 11 (by decide) (by decide)
  obtain ⟨g, hg⟩ := hhubs fun _ => by decide
  obtain ⟨g', hg'⟩ := hhalves fun h => nomatch h
  exact ⟨⟨g, hg, (hcount g hg).1⟩, g', hg', (hcount' g' hg').1⟩

/-- **One node is lost** by the least barbell with an odd rest, and it is the last one. -/
theorem loses_node_barbell :
    (Family.barbell.generate? 11).map (fun g => (g.nodeCount, g.nodeIds))
      = some (10, (List.range 10).map nodeId) := by
  decide +kernel

end Synthetic.Family

end LabelWalks
