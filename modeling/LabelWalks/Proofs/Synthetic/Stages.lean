/-
  LabelWalks.Proofs.Synthetic.Stages
  ──────────────────────────────────
  **GRAPHS THAT NO STAGE STUMBLES OVER.**

  A stage fails when it comes to a node or an edge whose label is missing or has no
  index.  In a network whose edges run between registered nodes there is nothing of the
  kind, whichever way edges are followed, as soon as the mapping is made of the network
  itself.  All families draw such networks.

    • `Closed`, `Numbered.closed` — no edge leaves the registered nodes,
    • `Numbered.exists_ofView` — there are few labels, and so there is a mapping,
    • `exists_sampleEndpoints` — end points are drawn from the registered nodes,
    • `Served`, `served_of_passable` — the three computations, under all schedules,
    • `Family.generated_graphs_are_safe` — from the size of a graph to the last stage.
-/
import LabelWalks.Graph.Selection
import LabelWalks.Proofs.Agreement
import LabelWalks.Proofs.Census.Crew
import LabelWalks.Proofs.Label.History
import LabelWalks.Proofs.Recoding.Walk
import LabelWalks.Proofs.Reversal.Results
import LabelWalks.Proofs.Search.Crew
import LabelWalks.Proofs.Synthetic.Families
import LabelWalks.Proofs.Text.Octets
import LabelWalks.Synthetic.Sample

namespace LabelWalks

/-! ## §1. Few labels and no loose ends. -/

/-- Things that are all different and have numbers below a bound are no more than the bound. -/
theorem length_le_of_lt {α : Type} {f : α → Nat} (hf : f.Injective) {xs : List α}
    (hnodup : xs.Nodup) {k : Nat} (h : ∀ x ∈ xs, f x < k) : xs.length ≤ k := by
  have hsub : xs.map f ⊆ List.range k := by
    intro i hi
    obtain ⟨x, hx, rfl⟩ := List.mem_map.1 hi
    exact List.mem_range.2 (h x hx)
  have hle := ((hnodup.map hf).subperm hsub).length_le
  rwa [List.length_map, List.length_range] at hle

/-- Labels that are small numbers are few. -/
theorem length_toList_le {labels : Std.ExtTreeSet Label} {most : Nat}
    (h : ∀ label : Label, label ∈ labels → label.toNat ≤ most) : labels.toList.length ≤ most + 1 := by
  have hnodup : labels.toList.Nodup := (Mapping.pairwise_toList labels).imp UInt32.ne_of_lt
  refine length_le_of_lt (f := UInt32.toNat) (fun _ _ => UInt32.toNat_inj.1) hnodup ?_
  exact fun label hlabel => Nat.lt_succ_of_le (h label (Std.ExtTreeSet.mem_toList.1 hlabel))

namespace Network

/-- Both ends of every edge are registered nodes. -/
def Closed (n : Network) : Prop :=
  ∀ v e, e ∈ n.edgesOut v ∨ e ∈ n.edgesIn v → v ∈ n.nodeIds ∧ e.target ∈ n.nodeIds

/-- Whichever way edges are followed, they lead to registered nodes. -/
theorem Closed.target_mem {n : Network} (h : n.Closed) {v : NodeId} {e : Entry}
    (he : e ∈ n.edges v) : e.target ∈ n.nodeIds := by
  unfold edges at he
  cases hdirection : n.direction with
  | outgoing =>
      rw [hdirection] at he
      exact (h v e (.inl he)).2
  | incoming =>
      rw [hdirection] at he
      exact (h v e (.inr he)).2
  | both =>
      rw [hdirection] at he
      exact (h v e (List.mem_append.1 he)).2

/-- In a closed network that the mapping knows there is no node at which anything halts. -/
theorem Closed.passable {n : Network} (h : n.Closed) {m : Mapping} (hknows : m.Knows n.view)
    (v : NodeId) : Passable n.view m v := by
  refine ⟨n.adjacentEdges v, rfl, fun entry hentry => ?_⟩
  obtain ⟨e, he, rfl⟩ := List.mem_map.1 hentry
  obtain ⟨edge, hedge⟩ := hknows.edges v _ e.target e.label rfl hentry
  obtain ⟨label, hlabel⟩ := mem_nodeIds_iff.1 (h.target_mem he)
  obtain ⟨node, hnode⟩ := hknows.nodes e.target label hlabel
  refine ⟨e.label, edge, node, rfl, hedge, ?_⟩
  unfold Mapping.indexOfNode
  rw [show n.view.labelOf e.target = some label from hlabel]
  exact hnode

/-- Registered nodes have labels that the mapping knows. -/
theorem labelled_nodeIds {n : Network} {m : Mapping} (hknows : m.Knows n.view) :
    Labelled n.view m n.nodeIds := by
  intro v hv
  obtain ⟨label, hlabel⟩ := mem_nodeIds_iff.1 hv
  obtain ⟨index, hindex⟩ := hknows.nodes v label hlabel
  refine ⟨index, ?_⟩
  unfold Mapping.indexOfNode
  rw [show n.view.labelOf v = some label from hlabel]
  exact hindex

namespace Numbered

variable {k : Nat} {n : Network}

theorem withDirection (h : Numbered k n) (direction : Direction) :
    Numbered k (n.withDirection direction) where
  built := h.built.withDirection direction
  nodes := h.nodes
  ends side v e he := h.ends side v e (by cases side <;> exact he)
  nodeLabels := h.nodeLabels
  edgeLabels := h.edgeLabels

theorem closed (h : Numbered k n) : n.Closed := by
  intro v e he
  rw [h.nodes, h.nodes]
  rcases he with he | he
  · exact h.ends .source v e he
  · exact h.ends .target v e he

theorem length_nodeIds (h : Numbered k n) : n.nodeIds.length ≤ k :=
  length_le_of_lt (f := UInt64.toNat) (fun _ _ => UInt64.toNat_inj.1) Std.ExtTreeMap.nodup_keys
    fun v hv => (h.nodes v).1 hv

/-- **A mapping** is made of the network when it has a node, and knows all its labels. -/
theorem exists_ofView (h : Numbered k n) (hnodes : n.nodeIds ≠ []) :
    ∃ m, Mapping.ofView n.view = .ok m ∧ m.Knows n.view := by
  have hsome : n.nodeLabels.toList ≠ [] := by
    obtain ⟨v, hv⟩ := List.exists_mem_of_ne_nil _ hnodes
    obtain ⟨label, hlabel⟩ := mem_nodeIds_iff.1 hv
    exact List.ne_nil_of_mem (Std.ExtTreeSet.mem_toList.2 (mem_nodeLabels_iff.2 ⟨v, hlabel⟩))
  have hfew : n.nodeLabels.toList.length ≤ 10 + 1 := by
    refine length_toList_le fun label hlabel => ?_
    obtain ⟨v, hv⟩ := mem_nodeLabels_iff.1 hlabel
    exact h.nodeLabels v label hv
  have hfew' : n.edgeLabels.toList.length ≤ 10 + 1 := length_toList_le h.edgeLabels
  have hok := Mapping.ofView_eq_ok_iff (g := n.view).2 ⟨hsome, Nat.le_trans hfew (by decide),
    Nat.le_trans hfew' (by decide), rfl⟩
  obtain ⟨hnodeIndex, hedgeIndex⟩ := Mapping.exists_index_of_ofView hok
  refine ⟨_, hok, h.built.knows ?_ ?_⟩
  · rw [List.all_eq_true]
    exact fun label hlabel => Option.isSome_iff_exists.2 (hnodeIndex label hlabel)
  · rw [List.all_eq_true]
    exact fun label hlabel => Option.isSome_iff_exists.2 (hedgeIndex label hlabel)

end Numbered

end Network

/-! ## §2. End points. -/

namespace Synthetic

open Draw

/-- What is drawn for a set are members of the list. -/
theorem gives_drawSet {ids : Array NodeId} (hpos : 0 < ids.size) (hlt : ids.size < UInt64.size)
    (count : Nat) : (drawSet ids count).Gives fun s => ∀ v ∈ s, v ∈ ids := by
  refine gives_foldlM (Q := fun s : NodeSet => ∀ v ∈ s, v ∈ ids) _ (fun _ _ s hs => ?_)
    fun v hv => absurd hv Std.ExtTreeSet.not_mem_empty
  refine (gives_pick hpos hlt).bind fun u hu => gives_pure fun v hv => ?_
  rcases NodeSet.mem_insert_iff.1 hv with hv | hv
  · exact hs v hv
  · rwa [← hv]

/-- **End points are drawn from the registered nodes**, however many are wanted. -/
theorem exists_sampleEndpoints {n : Network} (hlt : n.nodeIds.length < UInt64.size)
    (count : Nat) : ∃ starts ends, sampleEndpoints? n count = some (starts, ends)
      ∧ (∀ v ∈ starts, v ∈ n.nodeIds) ∧ ∀ v ∈ ends, v ∈ n.nodeIds := by
  unfold sampleEndpoints?
  by_cases hnone : n.nodeIds.toArray.isEmpty ∨ count = 0
  · refine ⟨[], [], if_pos hnone, ?_, ?_⟩
    · exact fun v hv => absurd hv List.not_mem_nil
    · exact fun v hv => absurd hv List.not_mem_nil
  · have hpos : 0 < n.nodeIds.toArray.size := by
      rw [not_or, Array.isEmpty_iff_size_eq_zero] at hnone
      omega
    have hall : (drawEndpoints n.nodeIds.toArray count).Gives fun both =>
        (∀ v ∈ both.1, v ∈ n.nodeIds) ∧ ∀ v ∈ both.2, v ∈ n.nodeIds := by
      refine (gives_drawSet hpos (by simpa using hlt) count).bind fun starts hstarts => ?_
      refine (gives_drawSet hpos (by simpa using hlt) count).bind fun ends hends => gives_pure ?_
      constructor
      · intro v hv
        simpa using hstarts v (Std.ExtTreeSet.mem_toList.1 hv)
      · intro v hv
        simpa using hends v (Std.ExtTreeSet.mem_toList.1 hv)
    obtain ⟨⟨starts, ends⟩, r, hrun, hstarts, hends⟩ := hall ⟨sampleSeed⟩
    refine ⟨starts, ends, ?_, hstarts, hends⟩
    rw [if_neg hnone, hrun]
    rfl

end Synthetic

/-! ## §3. The three computations. -/

theorem GraphView.mem_nodeIds_of_mem_highDegree {g : GraphView} {ratio : Binary64} {v : NodeId}
    (h : v ∈ g.highDegree ratio) : v ∈ g.nodeIds :=
  List.mem_mergeSort.1 (List.mem_of_mem_take h)

/-- No computation fails, whatever the number of workers, the schedule and the sink that takes
everything: the paths are counted and written, an index of the nodes is built without a failed
node and can be read again, and with it the walks between start and end nodes are found. -/
structure Served (g : GraphView) (m : Mapping) (length : PathLength) (nodes starts ends : List NodeId) :
    Prop where
  counted : ∃ table, ∀ workers answer, Counts g m length workers answer ↔ answer = .ok table
  written : ∀ sink : Sink, sink.Accepting → ∃ table, (writeCensus g m length sink).2 = .ok table
  built : ∀ workers sink, ∃ result, HubIndex.Builds g m length nodes workers sink result
  indexed : ∀ (workers : Nat) (sink : Sink) (result : Sink × Except Fault HubIndex.Report),
    sink.Accepting → sink.written = "" →
      HubIndex.Builds g m length nodes workers sink result →
      (∃ report, result.2 = .ok report ∧ report.failed = [])
        ∧ ∃ index, HubIndex.load m (.ok result.1.written.toUTF8) = .ok index
          ∧ ∀ sink' : Sink, sink'.Accepting →
            (∃ answer, Searches g m index length starts ends sink' answer)
              ∧ ∃ paths, (search g m index length starts ends sink').2 = .ok paths
                ∧ ∀ answer, Searches g m index length starts ends sink' answer →
                  answer.2 = .ok paths

/-- **Where every node is passable** and all nodes that are asked for have labels, no
computation fails. -/
theorem served_of_passable {g : GraphView} {m : Mapping} (hpass : ∀ v, Passable g m v)
    (hlabelled : Labelled g m g.nodeIds) (length : PathLength) {nodes starts ends : List NodeId}
    (hnodes : ∀ v ∈ nodes, v ∈ g.nodeIds) (hstarts : ∀ v ∈ starts, v ∈ g.nodeIds)
    (hends : ∀ v ∈ ends, v ∈ g.nodeIds) : Served g m length nodes starts ends where
  counted := by
    obtain ⟨table, htable⟩ := exists_census_iff.2
      ⟨hlabelled, fun v _ as _ _ _ => hpass (endOf v as)⟩
    refine ⟨table, fun workers answer => ?_⟩
    rw [counts_iff, htable]
  written := by
    intro sink hsink
    exact (exists_writeCensus_iff hsink).2 ⟨hlabelled, fun v _ as _ _ _ => hpass (endOf v as)⟩
  built := HubIndex.exists_builds g m length nodes
  indexed := by
    intro workers sink result hsink hempty hbuilds
    obtain ⟨report, hdelivers⟩ := hbuilds.exists_delivers hsink
    obtain ⟨index, hread, hexact⟩ := hbuilds.exists_exact hsink hempty
    refine ⟨⟨report, hdelivers.answer, ?_⟩, index, ?_, fun sink' hsink' => ?_⟩
    · rw [hdelivers.failed_eq_nil_iff]
      intro v hv
      exact exists_suffixesFrom_iff.2
        ⟨hlabelled v (hnodes v hv), fun as _ _ _ => hpass (endOf v as)⟩
    · rw [HubIndex.load, HubIndex.ofOctets_toUTF8]
      exact hread
    · have hstarts : Labelled g m starts := fun v hv => hlabelled v (hstarts v hv)
      have hends : Labelled g m ends := fun v hv => hlabelled v (hends v hv)
      obtain ⟨paths, hpaths⟩ : ∃ paths, (search g m index length starts ends sink').2 = .ok paths :=
        (exists_search_iff hsink' hexact.even hexact.renderable).2
          ⟨hstarts, hends, fun v _ as _ _ _ => hpass (endOf v as)⟩
      refine ⟨exists_searches g index length hsink' starts ends, paths, hpaths,
        fun answer hanswer => ?_⟩
      rw [(hanswer.answer_and_adds hsink').1, hpaths]

/-! ## §4. All stages. -/

namespace Synthetic.Family

/-- **Generated graphs are safe**: every family draws a graph for every size, no edge leaves its
nodes, and when it has a node, then no stage fails on it, whatever direction, length, ratio and
number of samples it is run with. -/
theorem generated_graphs_are_safe (family : Family) (size : Nat) (hsize : size < 4294967296) :
    ∃ n, family.generate? size = some n ∧ n.Closed
      ∧ (n.nodeIds ≠ [] → ∀ (direction : Direction) (length : PathLength) (ratio : Binary64)
          (count : Nat),
        ∃ m starts ends, Mapping.ofView (n.withDirection direction).view = .ok m
          ∧ sampleEndpoints? (n.withDirection direction) count = some (starts, ends)
          ∧ (∀ v ∈ starts, v ∈ n.nodeIds) ∧ (∀ v ∈ ends, v ∈ n.nodeIds)
          ∧ Served (n.withDirection direction).view m length
            ((n.withDirection direction).view.highDegree ratio) starts ends) := by
  obtain ⟨n, hgenerate, hnumbered⟩ := family.exists_generate hsize
  refine ⟨n, hgenerate, hnumbered.closed, fun hnodes direction length ratio count => ?_⟩
  have hturned := hnumbered.withDirection direction
  obtain ⟨m, hm, hknows⟩ := hturned.exists_ofView hnodes
  have hlt : n.nodeIds.length < UInt64.size := by
    have hle := hnumbered.length_nodeIds
    have hcount : family.nodeCount size ≤ max 1 size := by
      cases family <;> simp only [nodeCount] <;> omega
    have hword : UInt64.size = 18446744073709551616 := rfl
    omega
  obtain ⟨starts, ends, hsample, hstarts, hends⟩ :=
    exists_sampleEndpoints (n := n.withDirection direction) hlt count
  refine ⟨m, starts, ends, hm, hsample, hstarts, hends, ?_⟩
  exact served_of_passable (hturned.closed.passable hknows) (Network.labelled_nodeIds hknows)
    length (fun v hv => GraphView.mem_nodeIds_of_mem_highDegree hv) hstarts hends

/-- The smallest size at which two halves are connected by a bridge. -/
theorem generated_graphs_are_safe_barbell :
    12 < 4294967296 ∧ ∃ n m starts ends, barbell.generate? 12 = some n ∧ n.Closed
      ∧ Mapping.ofView (n.withDirection .both).view = .ok m
      ∧ Served (n.withDirection .both).view m ⟨3, by decide, by decide⟩
        ((n.withDirection .both).view.highDegree .one) starts ends := by
  obtain ⟨n, hgenerate, hclosed, hsafe⟩ := generated_graphs_are_safe .barbell 12 (by decide)
  -- the first node is among those that are numbered
  obtain ⟨n', hgenerate', hnumbered⟩ :=
    barbell.exists_generate (show 12 < 4294967296 by decide)
  obtain rfl : n = n' := Option.some.inj (hgenerate.symm.trans hgenerate')
  have hnodes : n.nodeIds ≠ [] :=
    List.ne_nil_of_mem ((hnumbered.nodes (nodeId 0)).2 (by decide))
  obtain ⟨m, starts, ends, hm, -, -, -, hserved⟩ :=
    hsafe hnodes .both ⟨3, by decide, by decide⟩ .one 5
  exact ⟨by decide, n, m, starts, ends, hgenerate, hclosed, hm, hserved⟩

end Synthetic.Family

end LabelWalks
