/-
  LabelWalks.Proofs.Synthetic.Numbered
  ────────────────────────────────────
  **NETWORKS THAT ARE DRAWN NODE BY NODE.**

  All families number their nodes from zero on, and register a node before any edge
  touches it.  While a network grows, its nodes are the numbers below some bound, and
  every edge runs between two of them.  Labels are small numbers.

    • `Numbered` — the nodes are the numbers below a bound, and no edge leaves them,
    • `Numbered.add`, `Numbered.connect` — one node more, one edge more,
    • `gives_add`, `gives_connect` — what is added with a drawn label,
    • `gives_addNode`, `gives_addEdge`, `gives_addNodes` — numbered networks with drawn labels.
-/
import LabelWalks.Proofs.Graph.History
import LabelWalks.Proofs.Synthetic.Draw

namespace LabelWalks

namespace Network

/-- A node is registered when it has a label. -/
theorem mem_nodeIds_iff {n : Network} {v : NodeId} :
    v ∈ n.nodeIds ↔ ∃ label, n.labelOf v = some label := by
  unfold nodeIds labelOf
  rw [Std.ExtTreeMap.mem_keys, Std.ExtTreeMap.mem_iff_isSome_getElem?, Option.isSome_iff_exists]

theorem labelOf_add (n : Network) (u v : NodeId) (label : Label) :
    (n.add u label).labelOf v = if u = v then some label else n.labelOf v := by
  show (n.labels.insert u label)[v]? = _
  rw [Std.ExtTreeMap.getElem?_insert]
  by_cases huv : u = v
  · rw [if_pos huv, if_pos (Std.LawfulEqCmp.compare_eq_iff_eq.2 huv)]
  · rw [if_neg huv, if_neg fun h => huv (Std.LawfulEqCmp.compare_eq_iff_eq.1 h)]
    rfl

theorem labelOf_empty (v : NodeId) : empty.labelOf v = none :=
  Std.ExtTreeMap.getElem?_empty

theorem entriesOf_empty (side : Side) (v : NodeId) : empty.entriesOf side v = [] := by
  cases side <;> rfl

/-- An entry that is kept after one more edge is one of that edge, or was kept before. -/
theorem mem_or_of_mem_connect {n : Network} {v w u : NodeId} {label : Label} {side : Side}
    {e : Entry} (he : e ∈ (n.connect v w label).entriesOf side u) :
    e ∈ n.entriesOf side u ∨ (u = v ∧ e = ⟨w, label⟩) ∨ (u = w ∧ e = ⟨v, label⟩) := by
  rw [entriesOf_connect, List.mem_append, entriesAt_singleton] at he
  refine he.imp_right fun he => ?_
  obtain ⟨hend, he⟩ := List.mem_ite_nil_right.1 he
  cases side with
  | source => exact .inl ⟨Eq.symm hend, List.mem_singleton.1 he⟩
  | target => exact .inr ⟨Eq.symm hend, List.mem_singleton.1 he⟩

/-- The nodes of a network are the numbers below `k`, every edge runs between two of them, and
labels are ten at most. -/
structure Numbered (k : Nat) (n : Network) : Prop where
  built : n.Built
  nodes : ∀ v, v ∈ n.nodeIds ↔ v.toNat < k
  ends : ∀ side v, ∀ e ∈ n.entriesOf side v, v.toNat < k ∧ e.target.toNat < k
  nodeLabels : ∀ v label, n.labelOf v = some label → label.toNat ≤ 10
  edgeLabels : ∀ label ∈ n.edgeLabels, label.toNat ≤ 10

namespace Numbered

variable {k : Nat} {n : Network}

theorem empty : Numbered 0 .empty where
  built := .empty
  nodes v := by
    rw [mem_nodeIds_iff]
    constructor
    · intro h
      obtain ⟨label, hlabel⟩ := h
      rw [labelOf_empty] at hlabel
      cases hlabel
    · intro h
      exact absurd h (Nat.not_lt_zero _)
  ends side v e he := by
    rw [entriesOf_empty] at he
    cases he
  nodeLabels v label hlabel := by
    rw [labelOf_empty] at hlabel
    cases hlabel
  edgeLabels label hlabel := by
    exact absurd hlabel Std.ExtTreeSet.not_mem_empty

/-- **One node more**, with the next number. -/
theorem add (h : Numbered k n) (hk : k < UInt64.size) {label : Label} (hlabel : label.toNat ≤ 10) :
    Numbered (k + 1) (n.add (.ofNat k) label) where
  built := h.built.add _ _
  nodes v := by
    have hnew : UInt64.ofNat k = v ↔ v.toNat = k := by
      rw [← UInt64.toNat_inj, UInt64.toNat_ofNat_of_lt' hk]
      exact eq_comm
    have hold := h.nodes v
    rw [mem_nodeIds_iff] at hold ⊢
    rw [labelOf_add]
    by_cases hv : UInt64.ofNat k = v
    · rw [if_pos hv]
      have hnat := hnew.1 hv
      exact iff_of_true ⟨label, rfl⟩ (by omega)
    · rw [if_neg hv, hold]
      have hne : v.toNat ≠ k := fun hnat => hv (hnew.2 hnat)
      omega
  ends side v e he := by
    have hold := h.ends side v e (by cases side <;> exact he)
    omega
  nodeLabels v label' hlabel' := by
    rw [labelOf_add] at hlabel'
    by_cases hv : UInt64.ofNat k = v
    · rw [if_pos hv] at hlabel'
      injection hlabel' with hsame
      rw [← hsame]
      exact hlabel
    · rw [if_neg hv] at hlabel'
      exact h.nodeLabels v label' hlabel'
  edgeLabels := h.edgeLabels

/-- **One edge more**, between two nodes. -/
theorem connect (h : Numbered k n) {v w : NodeId} (hv : v.toNat < k) (hw : w.toNat < k)
    {label : Label} (hlabel : label.toNat ≤ 10) : Numbered k (n.connect v w label) where
  built := h.built.connect _ _ _
  nodes := h.nodes
  ends side u e he := by
    rcases mem_or_of_mem_connect he with he | ⟨rfl, rfl⟩ | ⟨rfl, rfl⟩
    · exact h.ends side u e he
    · exact ⟨hv, hw⟩
    · exact ⟨hw, hv⟩
  nodeLabels := h.nodeLabels
  edgeLabels label' hlabel' := by
    rcases mem_insert_set_iff.1 hlabel' with hold | hsame
    · exact h.edgeLabels label' hold
    · rw [← hsame]
      exact hlabel

end Numbered

end Network

namespace Synthetic

open Draw Network

variable {k : Nat} {g : Network}

theorem toNat_nodeId {i : Nat} (h : i < UInt64.size) : (nodeId i).toNat = i :=
  UInt64.toNat_ofNat_of_lt' h

theorem toNat_nodeId_lt {i : Nat} (hi : i < k) (hk : k ≤ UInt64.size) : (nodeId i).toNat < k := by
  rw [toNat_nodeId (by omega)]
  exact hi

/-- A node is added with a small label. -/
theorem gives_add (g : Network) (v : NodeId) :
    (addNode g v).Gives fun g' => ∃ label : Label, label.toNat ≤ 10 ∧ g' = g.add v label :=
  gives_nodeLabel.bind fun label hlabel => gives_pure ⟨label, by omega, rfl⟩

/-- An edge is added with a small label. -/
theorem gives_connect (g : Network) (v w : NodeId) :
    (addEdge g v w).Gives fun g' => ∃ label : Label, label.toNat ≤ 10 ∧ g' = g.connect v w label :=
  gives_edgeLabel.bind fun label hlabel => gives_pure ⟨label, by omega, rfl⟩

theorem gives_addNode (h : g.Numbered k) (hk : k < UInt64.size) :
    (addNode g (nodeId k)).Gives (Numbered (k + 1)) := by
  refine (gives_add g (nodeId k)).imp fun g' hg' => ?_
  obtain ⟨label, hlabel, rfl⟩ := hg'
  exact h.add hk hlabel

theorem gives_addEdge (h : g.Numbered k) {v w : NodeId} (hv : v.toNat < k) (hw : w.toNat < k) :
    (addEdge g v w).Gives (Numbered k) := by
  refine (gives_connect g v w).imp fun g' hg' => ?_
  obtain ⟨label, hlabel, rfl⟩ := hg'
  exact h.connect hv hw hlabel

/-- **Nodes one after another**, each with the next number. -/
theorem gives_addNodes (h : g.Numbered k) (count : Nat) (hk : k + count ≤ UInt64.size) :
    (addNodes g k count).Gives (Numbered (k + count)) :=
  gives_foldlM_range' (I := Numbered) count h fun _ _ _ hi hb => gives_addNode hb (by omega)

end Synthetic

end LabelWalks
