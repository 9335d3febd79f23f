/-
  LabelWalks.Proofs.Expansion
  ───────────────────────────
  **ONE STEP FROM A SET OF NODES.**

  The three computations go on from a set of nodes in the same way: all arrivals
  from its nodes are listed, and the arrivals are grouped by hop.  Here the list
  and the groups are told in terms of walks, once for all three.

    • `arrivals_halt_eq_none`, `arrivals_items` — one node,
    • `reached_halt_eq_none`, `mem_reached` — a set of nodes,
    • `mem_toList_groupNodes` — the groups.
-/
import LabelWalks.Proofs.Gathering
import LabelWalks.Proofs.Trail
import LabelWalks.Proofs.Walk

namespace LabelWalks

/-! ## §1. Arrivals from one node. -/

/-- A node is expanded without a halt just when it is passable. -/
theorem arrivals_halt_eq_none {g : GraphView} {m : Mapping} {v : NodeId} :
    (arrivals g m v).halt = none ↔ Passable g m v := by
  unfold arrivals Passable
  cases hadj : g.adjacentEdges v with
  | error breakdown => simp [Trail.stop]
  | ok entries =>
      have hover : ∀ entry, (∃ a, Arrival.over g m v entry = .ok a) ↔
          ∃ label edge node, entry.2 = some label ∧ m.edgeIndex label = .ok edge
            ∧ m.indexOfNode g entry.1 = .ok node := by
        intro entry
        simp only [over_eq_ok_iff]
        constructor
        · intro h
          obtain ⟨a, label, rfl, hedge, hnode⟩ := h
          exact ⟨label, _, _, rfl, hedge, hnode⟩
        · intro h
          obtain ⟨label, edge, node, hlabel, hedge, hnode⟩ := h
          exact ⟨⟨⟨edge, node⟩, entry.1⟩, label, by rw [← hlabel], hedge, hnode⟩
      simp only [Trail.each_halt_eq_none, Trail.ofExcept_halt_eq_none, hover]
      constructor
      · intro h
        exact ⟨entries, rfl, h⟩
      · intro hsome
        obtain ⟨entries', h, hall⟩ := hsome
        injection h with h
        subst h
        exact hall

theorem arrivals_items {g : GraphView} {m : Mapping} {v : NodeId} (h : Passable g m v) :
    (arrivals g m v).items = stepsFrom g m v := by
  have hhalt := arrivals_halt_eq_none.2 h
  obtain ⟨entries, hadj, -⟩ := h
  unfold arrivals at hhalt ⊢
  unfold stepsFrom
  rw [hadj] at hhalt ⊢
  exact Trail.each_ofExcept_items _ _ hhalt

/-! ## §2. Arrivals from a set of nodes. -/

/-- The trail of all arrivals from the nodes of a set. -/
def reached (g : GraphView) (m : Mapping) (nodes : NodeSet) : Trail Arrival :=
  .each (arrivals g m) nodes.toList

theorem reached_halt_eq_none {g : GraphView} {m : Mapping} {nodes : NodeSet} :
    (reached g m nodes).halt = none ↔ ∀ v ∈ nodes, Passable g m v := by
  simp only [reached, Trail.each_halt_eq_none, arrivals_halt_eq_none, Std.ExtTreeSet.mem_toList]

theorem mem_reached {g : GraphView} {m : Mapping} {nodes : NodeSet}
    (h : ∀ v ∈ nodes, Passable g m v) {a : Arrival} :
    a ∈ (reached g m nodes).items ↔ ∃ v ∈ nodes, Arrives g m v a := by
  rw [reached, Trail.mem_each_items _ _ (reached_halt_eq_none.2 h)]
  simp only [Std.ExtTreeSet.mem_toList]
  constructor
  · intro hsome
    obtain ⟨v, hv, ha⟩ := hsome
    rw [arrivals_items (h v hv), mem_stepsFrom] at ha
    exact ⟨v, hv, ha⟩
  · intro hsome
    obtain ⟨v, hv, ha⟩ := hsome
    refine ⟨v, hv, ?_⟩
    rw [arrivals_items (h v hv), mem_stepsFrom]
    exact ha

/-! ## §3. Groups of arrivals. -/

theorem groupNodes_eq_gather (as : List Arrival) :
    groupNodes as = gather Arrival.hop ∅ (fun (s : NodeSet) a => s.insert a.node) ∅ as := rfl

/-- **A group** has a hop that some arrival has, and the nodes of the arrivals with it. -/
theorem mem_toList_groupNodes {as : List Arrival} {hop : Hop} {nodes : NodeSet} :
    (hop, nodes) ∈ (groupNodes as).toList ↔
      (∃ a ∈ as, a.hop = hop) ∧ ∀ w, w ∈ nodes ↔ ⟨hop, w⟩ ∈ as := by
  rw [Std.ExtTreeMap.mem_toList_iff_getElem?_eq_some, groupNodes_eq_gather,
    getElem?_gather_sets_iff Arrival.hop fun _ a _ => NodeSet.mem_insert_iff (v := a.node)]
  refine and_congr_right fun _ => forall_congr' fun w => iff_congr Iff.rfl ?_
  constructor
  · intro h
    obtain ⟨a, ha, rfl, rfl⟩ := h
    exact ha
  · intro ha
    exact ⟨_, ha, rfl, rfl⟩

/-- Each hop of an arrival has a group. -/
theorem exists_mem_toList_groupNodes {as : List Arrival} {a : Arrival} (h : a ∈ as) :
    ∃ nodes, (a.hop, nodes) ∈ (groupNodes as).toList := by
  simp only [Std.ExtTreeMap.mem_toList_iff_getElem?_eq_some, groupNodes_eq_gather]
  exact exists_getElem?_gather Arrival.hop _ _ h

end LabelWalks
