/-
  LabelWalks.Proofs.Synthetic.Crossing
  ────────────────────────────────────
  **NO WAY FROM HALF TO HALF BUT OVER THE BRIDGE.**

  The first half of a barbell, each node of its bridge and the second half are stages of
  the way from one half to the other.  An edge leads from a stage to the same one or to
  the next, and to the next only with the label of the bridge.  So a walk that comes to a
  stage has come to all that lie before it, however often it went back, and its path has
  the label of the bridge once for each of them.  Walks that are too short for that
  are all that a search with a small length can follow.

    • `stage`, `Joined.stage_le` — the stages, and what one edge does,
    • `stage_endOf_le`, `exists_mem_stage`, `exists_rawLabels` — what a walk does,
    • `findsNothing_of_far` — end nodes that are farther away than a search goes,
    • `bridge_separates_halves` — the barbells of all sizes.
-/
import LabelWalks.Proofs.Graph.Adjacency
import LabelWalks.Proofs.Search.Meaning
import LabelWalks.Proofs.Synthetic.Bridge
import LabelWalks.Proofs.Synthetic.Stages

namespace LabelWalks

open Synthetic.Barbell (bridgeLabel)

/-! ## §1. Stages. -/

/-- How far a number is on the way from half to half: the first half, the ten nodes of the bridge,
the second half. -/
def stage (half v : Nat) : Nat :=
  min (v + 1 - half) 11

namespace Network

variable {half v w : Nat} {label : Label}

/-- **An edge** leads to the next stage at most, and only with the label of the bridge. -/
theorem Joined.stage_le (h : Joined half v w label) :
    stage half w ≤ stage half v + if label = bridgeLabel then 1 else 0 := by
  unfold stage
  rcases h with ⟨hlabel, hhalf⟩ | ⟨hlabel, hstep⟩
  · -- all nodes of a half are one stage
    rw [if_neg hlabel]
    omega
  · rw [if_pos hlabel]
    unfold Adjoins at hstep
    omega

/-- Up to the end of the bridge, the next stage is a node of the bridge. -/
theorem Joined.min_stage_le (h : Joined half v w label) :
    min (stage half w) 10 ≤
      min (stage half v) 10 + if half ≤ w ∧ w < half + 10 then 1 else 0 := by
  unfold stage
  rcases h with ⟨-, hhalf⟩ | ⟨-, hstep⟩
  · omega
  · -- the last step leads to the second half, which is no node of the bridge any more
    unfold Adjoins at hstep
    split <;> omega

/-- The entries that a walk may follow are kept at one of the sides. -/
theorem exists_mem_entriesOf {n : Network} {v : NodeId} {e : Entry} (he : e ∈ n.edges v) :
    ∃ side, e ∈ n.entriesOf side v := by
  rw [edges_eq_append, List.mem_append] at he
  rcases he with he | he
  · exact ⟨.source, (List.mem_ite_nil_right.1 he).2⟩
  · exact ⟨.target, (List.mem_ite_nil_right.1 he).2⟩

end Network

/-! ## §2. Walks. -/

/-- How often a label stands at places of one kind in a sequence that begins at `place`. -/
def countAt (kind : Place) (label : Label) : Place → List Label → Nat
  | _, [] => 0
  | place, first :: labels =>
    (if place = kind ∧ first = label then 1 else 0) + countAt kind label place.next labels

section
variable {half : Nat} {n : Network} {m : Mapping} {v : NodeId} {as : List Arrival}

/-- The labels that a hop stands for, and where its edge may lead. -/
theorem exists_labels_of_arrives (h : n.Bridged half) {a : Arrival} (ha : Arrives n.view m v a) :
    ∃ edge node, m.edgeLabel a.hop.edge = .ok edge ∧ m.nodeLabel a.hop.node = .ok node
      ∧ Network.Joined half v.toNat a.node.toNat edge
      ∧ (node = bridgeLabel ↔ half ≤ a.node.toNat ∧ a.node.toNat < half + 10) := by
  obtain ⟨entries, hentries, edge, hmem, hedge, hindex⟩ := ha
  obtain ⟨node, hlabel, hnode⟩ := Mapping.exists_label_of_indexOfNode hindex
  obtain rfl : n.adjacentEdges v = entries := Except.ok.inj hentries
  obtain ⟨e, he, hentry⟩ := List.mem_map.1 hmem
  obtain ⟨htarget, hedgeLabel⟩ := Prod.mk.inj hentry
  obtain ⟨side, hkept⟩ := Network.exists_mem_entriesOf he
  have hjoined := h.edges side v e hkept
  rw [htarget, Option.some.inj hedgeLabel] at hjoined
  exact ⟨edge, node, Mapping.edgeLabel_eq_ok_iff.2 hedge, hnode, hjoined, h.nodes _ _ hlabel⟩

/-- **A walk comes to a new stage with each hop at most.** -/
theorem stage_endOf_le (h : n.Bridged half) (hwalk : IsWalk n.view m v as) :
    stage half (endOf v as).toNat ≤ stage half v.toNat + as.length := by
  induction hwalk with
  | stay v => exact Nat.le_refl _
  | step first rest ih =>
      obtain ⟨edge, node, -, -, hjoined, -⟩ := exists_labels_of_arrives h first
      have hstep := hjoined.stage_le
      rw [endOf, List.length_cons]
      split at hstep <;> omega

/-- **A walk leaves out no stage** on its way. -/
theorem exists_mem_stage (h : n.Bridged half) (hwalk : IsWalk n.view m v as) {k : Nat}
    (hfrom : stage half v.toNat < k) (hto : k ≤ stage half (endOf v as).toNat) :
    ∃ a ∈ as, stage half a.node.toNat = k := by
  induction hwalk with
  | stay v => exact absurd hto (Nat.not_le.2 hfrom)
  | @step v a as first rest ih =>
      obtain ⟨edge, node, -, -, hjoined, -⟩ := exists_labels_of_arrives h first
      have hstep := hjoined.stage_le
      -- the first hop comes to the stage, or does not get that far
      by_cases hreached : k ≤ stage half a.node.toNat
      · refine ⟨a, List.mem_cons_self, ?_⟩
        split at hstep <;> omega
      · obtain ⟨b, hb, hstage⟩ := ih (Nat.not_le.1 hreached) hto
        exact ⟨b, List.mem_cons_of_mem _ hb, hstage⟩

/-- **The tokens of a walk** have the label of the bridge for each stage that it comes to, at an
edge and, as far as the bridge goes, at a node. -/
theorem exists_rawLabels (h : n.Bridged half) (hwalk : IsWalk n.view m v as) :
    ∃ labels, rawLabels m .edge (hopTokens as) = .ok labels
      ∧ stage half (endOf v as).toNat ≤
        stage half v.toNat + countAt .edge bridgeLabel .edge labels
      ∧ min (stage half (endOf v as).toNat) 10 ≤
        min (stage half v.toNat) 10 + countAt .node bridgeLabel .edge labels := by
  induction hwalk with
  | stay v => exact ⟨[], rfl, Nat.le_refl _, Nat.le_refl _⟩
  | step first rest ih =>
      obtain ⟨edge, node, hedge, hnode, hjoined, hbridge⟩ := exists_labels_of_arrives h first
      obtain ⟨labels, hlabels, hedges, hnodes⟩ := ih
      refine ⟨edge :: node :: labels, ?_, ?_, ?_⟩
      · exact rawLabels_cons_eq_ok_iff.2
          ⟨edge, hedge, _, rawLabels_cons_eq_ok_iff.2 ⟨node, hnode, _, hlabels, rfl⟩, rfl⟩
      · have hstep := hjoined.stage_le
        simp only [endOf, countAt, Place.next, true_and, reduceCtorEq, false_and, if_false]
        omega
      · have hstep := hjoined.min_stage_le
        simp only [endOf, countAt, Place.next, true_and, reduceCtorEq, false_and, if_false,
          hbridge]
        omega

/-- What a walk shows that has crossed the bridge: it was at all ten nodes of it, and its path
has as many hops and labels of the bridge as that takes. -/
structure Crosses (g : GraphView) (m : Mapping) (half : Nat) (v : NodeId) (as : List Arrival) :
    Prop where
  visits : ∀ i < 10, ∃ a ∈ as, a.node.toNat = half + i
  hops : 11 ≤ as.length
  path : ∃ p : MetaPath, traceOf g m v as = some p.tokens ∧ 11 ≤ p.hops
    ∧ ∃ labels, rawLabels m .node p.tokens = .ok labels
      ∧ 10 ≤ countAt .node bridgeLabel .node labels
      ∧ 11 ≤ countAt .edge bridgeLabel .node labels

/-- **A walk from half to half** crosses the bridge. -/
theorem crosses_of_isWalk (h : n.Bridged half) (hwalk : IsWalk n.view m v as) {index : LabelIndex}
    (hindex : m.indexOfNode n.view v = .ok index) (hfrom : v.toNat < half)
    (hto : half + 10 ≤ (endOf v as).toNat) : Crosses n.view m half v as := by
  -- the walk begins before all stages and ends at the last one
  have hfirst : stage half v.toNat = 0 := by unfold stage; omega
  have hlast : stage half (endOf v as).toNat = 11 := by unfold stage; omega
  have hhops := stage_endOf_le h hwalk
  obtain ⟨labels, hlabels, hedges, hnodes⟩ := exists_rawLabels h hwalk
  rw [hfirst, hlast] at hhops hedges hnodes
  refine ⟨fun i hi => ?_, by omega, ?_⟩
  · -- a stage that is neither the first nor the last is a single node
    obtain ⟨a, ha, hstage⟩ := exists_mem_stage h hwalk (k := i + 1) (by omega) (by omega)
    unfold stage at hstage
    exact ⟨a, ha, by omega⟩
  · obtain ⟨label, -, hlabel⟩ := Mapping.exists_label_of_indexOfNode hindex
    have hlength : (index :: hopTokens as).length = 2 * as.length + 1 := by
      rw [List.length_cons, length_hopTokens]
    refine ⟨⟨index :: hopTokens as, by omega⟩, traceOf_eq_some_iff.2 ⟨index, hindex, rfl⟩, ?_,
      label :: labels, rawLabels_cons_eq_ok_iff.2 ⟨label, hlabel, _, hlabels, rfl⟩, ?_, ?_⟩
    · show 11 ≤ (index :: hopTokens as).length / 2
      omega
    · simp only [countAt, Place.next]
      omega
    · simp only [countAt, Place.next, reduceCtorEq, false_and, if_false]
      omega

end

/-! ## §3. Searches that go not far enough. -/

section
variable {g : GraphView} {m : Mapping} {index : HubIndex} {length reach : PathLength}
  {starts ends : List NodeId} {sink : Sink}

/-- A search has come to its end, under any schedule, and has found nothing. -/
def FindsNothing (g : GraphView) (m : Mapping) (index : HubIndex) (length : PathLength)
    (starts ends : List NodeId) (sink : Sink) : Prop :=
  (search g m index length starts ends sink).2 = .ok ∅
    ∧ ∀ answer, Searches g m index length starts ends sink answer → answer.2 = .ok ∅

/-- **Where no walk is short enough** a search finds nothing, with or without an index of exact
suffix maps. -/
theorem findsNothing_of_far (hexact : index.Exact g m reach) (hpass : ∀ v, Passable g m v)
    (hstarts : Labelled g m starts) (hends : Labelled g m ends) (hsink : sink.Accepting)
    (hfar : ∀ v ∈ starts, ∀ as, IsWalk g m v as → endOf v as ∈ ends → length.hops < as.length) :
    FindsNothing g m index length starts ends sink := by
  have hempty : HubIndex.empty.Exact g m reach := HubIndex.exact_empty
  obtain ⟨paths, hpaths⟩ : ∃ paths, (search g m index length starts ends sink).2 = .ok paths :=
    (exists_search_iff hsink hexact.even hexact.renderable).2
      ⟨hstarts, hends, fun v _ as _ _ _ => hpass (endOf v as)⟩
  obtain ⟨plain, hplain⟩ : ∃ plain, (search g m .empty length starts ends sink).2 = .ok plain :=
    (exists_search_iff hsink hempty.even hempty.renderable).2
      ⟨hstarts, hends, fun v _ as _ _ _ => hpass (endOf v as)⟩
  have hnone : paths = ∅ := by
    -- what is found with the index is found without, and for that there is a walk
    refine Std.ExtTreeSet.eq_empty_iff_forall_not_mem.2 fun p hp => ?_
    have hp := mem_search_of_exact hexact hpaths hplain hp
    obtain ⟨-, -, hwalks⟩ := mem_search_iff hplain
    obtain ⟨v, hv, as, hwalk, hlength, hend, -⟩ := (hwalks rfl p).1 hp
    exact absurd (hfar v hv as hwalk hend) (Nat.not_lt.2 hlength)
  refine ⟨hnone ▸ hpaths, fun answer hanswer => ?_⟩
  rw [(hanswer.answer_and_adds hsink).1, hpaths, hnone]

end

/-! ## §4. All barbells. -/

namespace Synthetic.Barbell

open Network

/-- **The bridge separates the halves** of every barbell with a node in each of them, whichever
direction is followed: its ten nodes alone have its label and its eleven steps alone have edges
with that label; a walk from the first half to the second one crosses it; and so a search from the
first half to the second one with a length of eleven nodes at most finds nothing, with or without
an index that was precomputed. -/
theorem bridge_separates_halves (size half : Nat) (hleast : 12 ≤ size)
    (hsize : size < UInt64.size) (hhalf : half = (size - 10) / 2) :
    ∃ n, Family.barbell.generate? size = some n
      ∧ (∀ v, v ∈ n.nodeIds ↔ v.toNat < 2 * half + 10)
      ∧ n.Bridged half
      ∧ ∀ direction : Direction, ∃ m,
        Mapping.ofView (n.withDirection direction).view = .ok m
        ∧ (∀ v as, IsWalk (n.withDirection direction).view m v as → v.toNat < half →
            half + 10 ≤ (endOf v as).toNat →
            Crosses (n.withDirection direction).view m half v as)
        ∧ ∀ (length : PathLength) (starts ends : List NodeId) (index : HubIndex) (sink : Sink),
          length.nodes ≤ 11 → (∀ v ∈ starts, v.toNat < half) →
          (∀ v ∈ ends, v ∈ n.nodeIds ∧ half + 10 ≤ v.toNat) →
          (index = .empty ∨ ∃ reach nodes,
            HubIndex.Precomputed (n.withDirection direction).view m reach nodes index) →
          sink.Accepting →
          FindsNothing (n.withDirection direction).view m index length starts ends sink := by
  obtain ⟨n, hgenerate, hnumbered, hbridged⟩ := exists_bridged (by omega) hsize hhalf
  refine ⟨n, hgenerate, hnumbered.nodes, hbridged, fun direction => ?_⟩
  have hturned := hbridged.withDirection direction
  have hnodes : n.nodeIds ≠ [] :=
    List.ne_nil_of_mem ((hnumbered.nodes (nodeId 0)).2 (toNat_nodeId_lt (by omega) (by omega)))
  obtain ⟨m, hm, hknows⟩ := (hnumbered.withDirection direction).exists_ofView hnodes
  have hlabelled : Labelled (n.withDirection direction).view m n.nodeIds :=
    Network.labelled_nodeIds hknows
  have hfirst : ∀ v : NodeId, v.toNat < half → v ∈ n.nodeIds := fun v hv =>
    (hnumbered.nodes v).2 (by omega)
  have hcrosses : ∀ v as, IsWalk (n.withDirection direction).view m v as → v.toNat < half →
      half + 10 ≤ (endOf v as).toNat → Crosses (n.withDirection direction).view m half v as := by
    intro v as hwalk hfrom hto
    obtain ⟨label, hlabel⟩ := hlabelled v (hfirst v hfrom)
    exact crosses_of_isWalk hturned hwalk hlabel hfrom hto
  refine ⟨m, hm, hcrosses, fun length starts ends index sink hlength hstarts hends hindex hsink => ?_⟩
  -- the empty index is exact as well
  obtain ⟨reach, hexact⟩ : ∃ reach, index.Exact (n.withDirection direction).view m reach := by
    rcases hindex with rfl | ⟨reach, nodes, hindex⟩
    · exact ⟨length, HubIndex.exact_empty⟩
    · exact ⟨reach, hindex.exact⟩
  refine findsNothing_of_far hexact ((hnumbered.withDirection direction).closed.passable hknows)
    (fun v hv => hlabelled v (hfirst v (hstarts v hv))) (fun v hv => hlabelled v (hends v hv).1)
    hsink fun v hv as hwalk hend => ?_
  have hhops := (hcrosses v as hwalk (hstarts v hv) (hends _ hend).2).hops
  show length.nodes - 1 < as.length
  omega

/-- The least barbell with a node in each half: there is a walk of eleven hops from one to the
other, and no search with a length of eleven nodes finds it. -/
theorem bridge_separates_halves_twelve :
    ∃ n m as, Family.barbell.generate? 12 = some n
      ∧ Mapping.ofView (n.withDirection .outgoing).view = .ok m
      ∧ IsWalk (n.withDirection .outgoing).view m 0 as ∧ endOf 0 as = 11
      ∧ Crosses (n.withDirection .outgoing).view m 1 0 as
      ∧ FindsNothing (n.withDirection .outgoing).view m .empty ⟨11, by decide, by decide⟩ [0] [11]
        .unlimited := by
  obtain ⟨n, hgenerate, hnodes, -, hall⟩ :=
    bridge_separates_halves 12 1 (Nat.le_refl _) (by decide) (by decide)
  obtain ⟨m, hm, hcrosses, hnothing⟩ := hall .outgoing
  have hwalks : ((Family.barbell.generate? 12).bind fun n =>
      (Mapping.ofView (n.withDirection .outgoing).view).toOption.map fun m =>
        (walksFrom (n.withDirection .outgoing).view m 11 0).any fun as => endOf 0 as = 11)
      = some true := by
    decide +kernel
  rw [hgenerate, Option.bind_some, hm] at hwalks
  obtain ⟨as, has, hend⟩ := List.any_eq_true.1 (Option.some.inj hwalks)
  obtain ⟨hwalk, -⟩ := (mem_walksFrom 11).1 has
  have hend : endOf 0 as = 11 := of_decide_eq_true hend
  refine ⟨n, m, as, hgenerate, hm, hwalk, hend, ?_, ?_⟩
  · exact hcrosses 0 as hwalk (by decide) (by rw [hend]; decide)
  · refine hnothing _ _ _ _ _ (Nat.le_refl _) (fun v hv => ?_) (fun v hv => ?_) (.inl rfl)
      Sink.unlimited_accepting
    · obtain rfl := List.mem_singleton.1 hv
      decide
    · obtain rfl := List.mem_singleton.1 hv
      exact ⟨(hnodes 11).2 (by decide), by decide⟩

end Synthetic.Barbell

end LabelWalks
