/-
  LabelWalks.Proofs.Graph.SameEdges
  ─────────────────────────────────
  **ONLY NODES WITH A LABEL ARE ASKED FOR THEIR EDGES.**

  A computation looks up the label of a node before it goes there, and it goes on
  from nowhere else.  So two views that agree about labels, and about the edges of
  the nodes that have one, lead to the same trails, halts included, and from these
  on nothing looks at the views any more.

    • `SameEdges` — two views that agree so far,
    • `SameEdges.arrivals_eq`, `SameEdges.reached_eq` — one hop,
    • `SameEdges.sweep_eq`, `SameEdges.pursue_eq`, `SameEdges.growSuffix_eq` — one worker,
    • `SameResults`, `SameEdges.sameResults` — whole computations.
-/
import LabelWalks.Census.Engine
import LabelWalks.Graph.Selection
import LabelWalks.HubIndex.Crew
import LabelWalks.Proofs.Census.Distinct
import LabelWalks.Proofs.Search.Findings
import LabelWalks.Proofs.Suffix
import LabelWalks.Search.Engine

namespace LabelWalks

/-! ## §1. Two views. -/

/-- The node has a label. -/
def GraphView.HasLabel (g : GraphView) (v : NodeId) : Prop :=
  ∃ label, g.labelOf v = some label

/-- The views agree about everything but the edges next to nodes without a label. -/
structure SameEdges (g g' : GraphView) : Prop where
  nodeIds : g'.nodeIds = g.nodeIds
  labelOf : g'.labelOf = g.labelOf
  nodeLabels : g'.nodeLabels = g.nodeLabels
  edgeLabels : g'.edgeLabels = g.edgeLabels
  degree : g'.degree = g.degree
  adjacentEdges : ∀ v, g.HasLabel v → g'.adjacentEdges v = g.adjacentEdges v

section
variable {g : GraphView} {m : Mapping}

/-- Whoever is arrived at has a label. -/
theorem hasLabel_of_mem_arrivals {v : NodeId} {a : Arrival} (ha : a ∈ (arrivals g m v).items) :
    g.HasLabel a.node := by
  unfold arrivals at ha
  cases hentries : g.adjacentEdges v with
  | error breakdown =>
      rw [hentries] at ha
      cases ha
  | ok entries =>
      rw [hentries] at ha
      obtain ⟨entry, -, hentry⟩ := Trail.exists_of_mem_each_items ha
      cases hover : Arrival.over g m v entry with
      | error fault =>
          rw [hover] at hentry
          cases hentry
      | ok a' =>
          rw [hover] at hentry
          obtain rfl := List.mem_singleton.1 hentry
          obtain ⟨label, -, -, hnode⟩ := over_eq_ok_iff.1 hover
          exact Mapping.exists_labelOf_of_indexOfNode hnode

theorem hasLabel_of_mem_reached {nodes : NodeSet} {a : Arrival}
    (ha : a ∈ (reached g m nodes).items) : g.HasLabel a.node := by
  obtain ⟨v, -, ha⟩ := Trail.exists_of_mem_each_items ha
  exact hasLabel_of_mem_arrivals ha

/-- So do the nodes of the groups one hop on. -/
theorem hasLabel_of_mem_group {as : List Arrival} (has : ∀ a ∈ as, g.HasLabel a.node) {hop : Hop}
    {nodes : NodeSet} (hgroup : (hop, nodes) ∈ (groupNodes as).toList) :
    ∀ v ∈ nodes, g.HasLabel v :=
  fun v hv => has ⟨hop, v⟩ (((mem_toList_groupNodes.1 hgroup).2 v).1 hv)

theorem hasLabel_of_mem_longerPaths {index : HubIndex} {path q : MetaPath} {nodes ends : NodeSet}
    (hq : (q, ends) ∈ longerPaths index path (reached g m nodes).items) :
    ∀ v ∈ ends, g.HasLabel v := by
  obtain ⟨hop, -, -, hends⟩ := mem_longerPaths.1 hq
  exact fun v hv => hasLabel_of_mem_reached ((hends v).1 hv).1

/-- All nodes of the frontier have labels. -/
def Frontier.HasLabels (g : GraphView) (f : Frontier) : Prop :=
  ∀ row ∈ f.nodes.toList, g.HasLabel row.1

/-- A frontier is grown to frontiers of nodes with labels. -/
theorem Frontier.hasLabels_of_grow {f : Frontier} {children : List Frontier}
    (hgrow : f.grow g m = .ok children) : ∀ child ∈ children, child.HasLabels g := by
  intro child hchild row hrow
  rw [grow_eq_ok hgrow] at hchild
  obtain ⟨⟨hop, nodes⟩, hgroup, rfl⟩ := List.mem_map.1 hchild
  have hget := Std.ExtTreeMap.mem_toList_iff_getElem?_eq_some.1 hrow
  rw [(mem_toList_groupCounts.1 hgroup).2 row.1] at hget
  -- a node that is counted is one that some counted step arrives at
  by_cases hnil : under Prod.fst ⟨hop, row.1⟩ (countedSteps g m f.nodes) = []
  · rw [if_pos hnil] at hget
    cases hget
  · obtain ⟨step, hstep⟩ := List.exists_mem_of_ne_nil _ hnil
    obtain ⟨hstep, harrival⟩ := mem_under.1 hstep
    obtain ⟨row', -, hstep⟩ := List.mem_flatMap.1 hstep
    obtain ⟨a, ha, rfl⟩ := List.mem_map.1 hstep
    obtain rfl : a = ⟨hop, row.1⟩ := harrival
    obtain ⟨entries, -, label, -, -, hnode⟩ := mem_stepsFrom.1 ha
    exact Mapping.exists_labelOf_of_indexOfNode hnode

/-- The next level is made of frontiers of nodes with labels. -/
theorem hasLabels_of_mem_nextLevel {level : List Frontier} {child : Frontier}
    (hchild : child ∈ (Trail.each (visit g m) level).items.flatMap Prod.snd) :
    child.HasLabels g := by
  obtain ⟨⟨f, children⟩, hvisited, hchild⟩ := List.mem_flatMap.1 hchild
  obtain ⟨f', -, hvisit⟩ := Trail.exists_of_mem_each_items hvisited
  unfold visit at hvisit
  cases hgrow : f'.grow g m with
  | error halt =>
      rw [hgrow] at hvisit
      obtain ⟨-, rfl⟩ := Prod.mk.inj (List.mem_singleton.1 hvisit)
      cases hchild
  | ok grown =>
      rw [hgrow] at hvisit
      obtain ⟨-, rfl⟩ := Prod.mk.inj (List.mem_singleton.1 hvisit)
      exact Frontier.hasLabels_of_grow hgrow child hchild

end

namespace SameEdges

variable {g g' : GraphView} {m : Mapping} {length : PathLength} (h : SameEdges g g')
include h

/-! ## §2. One hop. -/

theorem indexOfNode_eq : m.indexOfNode g' = m.indexOfNode g := by
  funext v
  unfold Mapping.indexOfNode
  rw [h.labelOf]

theorem over_eq : Arrival.over g' m = Arrival.over g m := by
  funext v entry
  unfold Arrival.over
  rw [h.indexOfNode_eq]

theorem arrivals_eq {v : NodeId} (hv : g.HasLabel v) : arrivals g' m v = arrivals g m v := by
  unfold arrivals
  rw [h.adjacentEdges v hv, h.over_eq]

theorem reached_eq {nodes : NodeSet} (hnodes : ∀ v ∈ nodes, g.HasLabel v) :
    reached g' m nodes = reached g m nodes :=
  Trail.each_congr fun v hv => h.arrivals_eq (hnodes v (Std.ExtTreeSet.mem_toList.1 hv))

/-! ## §3. Suffixes. -/

/-- **Following a suffix** from nodes with labels. -/
theorem growSuffix_eq (hops : Nat) : ∀ {suffix : Suffix} {nodes : NodeSet},
    (∀ v ∈ nodes, g.HasLabel v) →
      growSuffix g' m hops suffix nodes = growSuffix g m hops suffix nodes := by
  -- on the hops that are left; what is kept is that the nodes have labels
  induction hops with
  | zero =>
      intro suffix nodes _
      rfl
  | succ hops ih =>
      intro suffix nodes hnodes
      rw [growSuffix_succ, growSuffix_succ, h.reached_eq hnodes]
      refine Trail.whenSettled_congr ?_
      have hrest : ∀ row ∈ ((groupNodes (reached g m nodes).items).toList.map fun row =>
          (suffix ++ row.1.tokens, row.2)).reverse,
          growSuffix g' m hops row.1 row.2 = growSuffix g m hops row.1 row.2 := by
        intro row hrow
        obtain ⟨⟨hop, ends⟩, hgroup, rfl⟩ := List.mem_map.1 (List.mem_reverse.1 hrow)
        exact ih (hasLabel_of_mem_group (fun a => hasLabel_of_mem_reached) hgroup)
      show (Trail.give _).andThen (fun _ => Trail.each _ _) = _
      rw [Trail.each_congr hrest]

theorem suffixesFrom_eq (v : NodeId) : suffixesFrom g' m v length = suffixesFrom g m v length := by
  unfold suffixesFrom suffixesWithin
  rw [h.indexOfNode_eq]
  cases hlabel : m.indexOfNode g v with
  | error fault => rfl
  | ok label =>
      have hself : ∀ w ∈ (∅ : NodeSet).insert v, g.HasLabel w := by
        intro w hw
        obtain rfl := NodeSet.mem_insert_empty.1 hw
        exact Mapping.exists_labelOf_of_indexOfNode hlabel
      simp only [h.growSuffix_eq _ hself]

/-! ## §4. Searches. -/

/-- **A search from nodes with labels.** -/
theorem pursue_eq {index : HubIndex} {wanted : NodeSet} (hops : Nat) :
    ∀ {path : MetaPath} {nodes : NodeSet}, (∀ v ∈ nodes, g.HasLabel v) →
      pursue g' m index wanted hops path nodes = pursue g m index wanted hops path nodes := by
  induction hops with
  | zero =>
      intro path nodes _
      rfl
  | succ hops ih =>
      intro path nodes hnodes
      rw [pursue_succ, pursue_succ, h.reached_eq hnodes]
      have hrest : ∀ row ∈ (longerPaths index path (reached g m nodes).items).reverse,
          pursue g' m index wanted hops row.1 row.2 = pursue g m index wanted hops row.1 row.2 :=
        fun row hrow => ih (hasLabel_of_mem_longerPaths (List.mem_reverse.1 hrow))
      simp only [Trail.each_congr hrest]

theorem startsByLabel_eq (starts : List NodeId) :
    startsByLabel g' m starts = startsByLabel g m starts := by
  unfold startsByLabel
  rw [h.indexOfNode_eq]

theorem wantedNodes_eq (ends : List NodeId) : wantedNodes g' m ends = wantedNodes g m ends := by
  unfold wantedNodes
  rw [h.indexOfNode_eq]

/-- **The trails of a search**, when all start nodes have labels. -/
theorem searchWorkers_eq {index : HubIndex} {wanted : NodeSet} {starts : List NodeId}
    {groups : Std.ExtTreeMap LabelIndex NodeSet} (hgroups : startsByLabel g m starts = .ok groups) :
    searchWorkers g' m index length wanted groups = searchWorkers g m index length wanted groups := by
  refine List.map_congr_left fun row hrow => ?_
  have hnodes : ∀ v ∈ row.2, g.HasLabel v := fun v hv =>
    Mapping.exists_labelOf_of_indexOfNode (((mem_startsByLabel hgroups).1 hrow).2 v |>.1 hv).2
  show (row.1, searchWorker g' m index length wanted row.1 row.2) =
    (row.1, searchWorker g m index length wanted row.1 row.2)
  simp only [searchWorker, h.pursue_eq _ hnodes]

/-! ## §5. Censuses. -/

/-- A visit to a frontier whose nodes have labels. -/
theorem visit_eq {f : Frontier} (hf : f.HasLabels g) : visit g' m f = visit g m f := by
  have harrivals : f.arrivals g' m = f.arrivals g m := by
    refine Trail.each_congr fun row hrow => ?_
    show (LabelWalks.arrivals g' m row.1).map _ = _
    rw [h.arrivals_eq (hf row hrow)]
  unfold visit Frontier.grow
  rw [harrivals]

/-- **All levels** from frontiers whose nodes have labels. -/
theorem sweep_eq (k : Nat) : ∀ {level : List Frontier}, (∀ f ∈ level, f.HasLabels g) →
    sweep g' m k level = sweep g m k level := by
  induction k with
  | zero =>
      intro level _
      rfl
  | succ k ih =>
      intro level hlevel
      rw [sweep_succ, sweep_succ, Trail.each_congr fun f hf => h.visit_eq (hlevel f hf),
        ih fun child => hasLabels_of_mem_nextLevel]

theorem nodesByLabel_eq : nodesByLabel g' m = nodesByLabel g m := by
  unfold nodesByLabel
  rw [h.nodeIds, h.indexOfNode_eq]

/-- **The trails of a census**, when all nodes have labels. -/
theorem censusWorkers_eq {groups : Std.ExtTreeMap LabelIndex NodeCounts}
    (hgroups : nodesByLabel g m = .ok groups) :
    censusWorkers g' m length groups = censusWorkers g m length groups := by
  refine List.map_congr_left fun row hrow => ?_
  obtain ⟨-, htallies⟩ := (mem_nodesByLabel hgroups).1 hrow
  have hlabels : ∀ f ∈ [(⟨.single row.1, row.2⟩ : Frontier)], f.HasLabels g := by
    intro f hf entry hentry
    obtain rfl := List.mem_singleton.1 hf
    have hlabelled := mem_labelledNodes.1 (htallies.mem_toList hentry).1
    exact Mapping.exists_labelOf_of_indexOfNode hlabelled.2
  show (row.1, censusWorker g' m length row.1 row.2) =
    (row.1, censusWorker g m length row.1 row.2)
  unfold censusWorker
  rw [h.sweep_eq _ hlabels]

/-! ## §6. Whole computations. -/

theorem counts_iff {workers : Nat} {answer : Except Fault Census} :
    Counts g' m length workers answer ↔ Counts g m length workers answer := by
  unfold Counts
  rw [h.nodesByLabel_eq]
  cases hgroups : nodesByLabel g m with
  | error fault => exact Iff.rfl
  | ok groups => simp only [censusOpening, h.censusWorkers_eq hgroups]

theorem takes_iff {workers : Nat} {sink left : Sink} {call : CensusCall} :
    Takes g' m length workers sink call left ↔ Takes g m length workers sink call left := by
  unfold Takes
  simp only [h.counts_iff]

theorem performs_iff {index : HubIndex} {f left : Findings} {call : SearchCall} :
    Performs g' m index length f call left ↔ Performs g m index length f call left := by
  unfold Performs
  rw [h.startsByLabel_eq, h.wantedNodes_eq]
  refine and_congr_right fun _ => ?_
  cases hgroups : startsByLabel g m call.starts with
  | error fault => exact Iff.rfl
  | ok groups =>
      cases wantedNodes g m call.ends with
      | error fault => exact Iff.rfl
      | ok wanted =>
          simp only [engineOpening, bind, Except.bind, pure, Except.pure,
            h.searchWorkers_eq hgroups]

theorem builds_iff {nodes : List NodeId} {workers : Nat} {sink : Sink}
    {result : Sink × Except Fault HubIndex.Report} :
    HubIndex.Builds g' m length nodes workers sink result ↔
      HubIndex.Builds g m length nodes workers sink result := by
  unfold HubIndex.Builds HubIndex.crew
  simp only [h.suffixesFrom_eq]

end SameEdges

/-- Two views give the same: the same mapping, the same nodes of high degree and, under any mapping,
the same censuses, searches and indexes, whether they succeed or fail, with the same texts. -/
structure SameResults (g g' : GraphView) : Prop where
  mapping : Mapping.ofView g' = Mapping.ofView g
  highDegree : ∀ ratio, g'.highDegree ratio = g.highDegree ratio
  takes : ∀ m length workers sink call left,
    Takes g' m length workers sink call left ↔ Takes g m length workers sink call left
  performs : ∀ m index length f call left,
    Performs g' m index length f call left ↔ Performs g m index length f call left
  builds : ∀ m length nodes workers sink result,
    HubIndex.Builds g' m length nodes workers sink result ↔
      HubIndex.Builds g m length nodes workers sink result

/-- **Computations do not tell the views apart.** -/
theorem SameEdges.sameResults {g g' : GraphView} (h : SameEdges g g') : SameResults g g' where
  mapping := by
    unfold Mapping.ofView
    rw [h.nodeLabels, h.edgeLabels]
  highDegree ratio := by
    unfold GraphView.highDegree GraphView.ranking GraphView.ranksBefore
    rw [h.nodeIds, h.degree]
  takes _ _ _ _ _ _ := h.takes_iff
  performs _ _ _ _ _ _ := h.performs_iff
  builds _ _ _ _ _ _ := h.builds_iff

end LabelWalks
