/-
  LabelWalks.Proofs.Census.Completion
  ───────────────────────────────────
  **WHEN A CENSUS COMES TO ITS END.**

  A worker grows whole frontiers and halts when one of them cannot be grown, so
  it comes to its end just when the way is clear from each of the nodes it began
  with.  The worker does not know ways: it meets a node once for all walks of
  one path that end there.

    • `sweep_halt_eq_none` — all levels, by the frontiers of the first,
    • `grown_iff` — one frontier, by its nodes,
    • `exists_census_iff`, `exists_writeCensus_iff` — all workers.
-/
import LabelWalks.Proofs.Census.Meaning
import LabelWalks.Proofs.Search.Findings
import LabelWalks.Proofs.Suffix

namespace LabelWalks

variable {g : GraphView} {m : Mapping} {length : PathLength}

/-! ## §1. One worker. -/

/-- **A worker comes to its end** just when all frontiers below its first ones can be grown. -/
theorem sweep_halt_eq_none (k : Nat) : ∀ {level : List Frontier},
    (sweep g m k level).halt = none ↔ ∀ f ∈ level, Grown g m k f := by
  induction k with
  | zero =>
      intro level
      show (none : Option Halt) = none ↔ _
      simp [Grown]
  | succ k ih =>
      intro level
      rw [sweep_succ, Trail.andThen_halt_eq_none, Trail.map_halt]
      constructor
      · intro h f hf
        obtain ⟨hvisits, hrest⟩ := h
        obtain ⟨children, hgrow⟩ :=
          visit_halt_eq_none.1 ((Trail.each_halt_eq_none _ _).1 hvisits f hf)
        refine ⟨children, hgrow, fun child hchild => ?_⟩
        exact ih.1 hrest child ((mem_nextLevel hvisits).2 ⟨f, hf, children, hgrow, hchild⟩)
      · intro h
        have hvisits : (Trail.each (visit g m) level).halt = none := by
          rw [Trail.each_halt_eq_none]
          intro f hf
          obtain ⟨children, hgrow, -⟩ := h f hf
          exact visit_halt_eq_none.2 ⟨children, hgrow⟩
        refine ⟨hvisits, ih.2 fun child hchild => ?_⟩
        obtain ⟨f, hf, children, hgrow, hmem⟩ := (mem_nextLevel hvisits).1 hchild
        obtain ⟨children', hgrow', hbelow⟩ := h f hf
        have hsame : children = children' := by
          rw [hgrow] at hgrow'
          exact Except.ok.inj hgrow'
        rw [hsame] at hmem
        exact hbelow child hmem

/-- A frontier can be grown when all its nodes are passable. -/
theorem exists_grow_iff {f : Frontier} {ends : List NodeId} (hends : Tallies f.nodes ends) :
    (∃ children, f.grow g m = .ok children) ↔ ∀ v ∈ ends, Passable g m v := by
  have hgrow : (∃ children, f.grow g m = .ok children) ↔ (f.arrivals g m).halt = none := by
    unfold Frontier.grow Trail.settled
    cases (f.arrivals g m).halt with
    | none => simp [Except.map]
    | some halt => simp [Except.map]
  rw [hgrow]
  unfold Frontier.arrivals
  rw [Trail.each_halt_eq_none]
  constructor
  · intro h v hv
    have hkey := (hends.mem_keys v).2 hv
    rw [← Std.ExtTreeMap.map_fst_toList_eq_keys, List.mem_map] at hkey
    obtain ⟨row, hrow, rfl⟩ := hkey
    have hhalt := h row hrow
    rw [Trail.map_halt] at hhalt
    exact arrivals_halt_eq_none.1 hhalt
  · intro h row hrow
    rw [Trail.map_halt]
    exact arrivals_halt_eq_none.2 (h row.1 (hends.mem_toList hrow).1)

/-- **All frontiers below one can be grown** just when the way is clear from its nodes. -/
theorem grown_iff (k : Nat) : ∀ {f : Frontier} {ends : List NodeId}, Tallies f.nodes ends →
    (Grown g m k f ↔ ∀ v ∈ ends, Clear g m nowhere k v) := by
  -- on the hops that are left; what is kept is that the frontier tallies the ends
  induction k with
  | zero =>
      intro f ends _
      exact ⟨fun _ v _ => clear_zero g m nowhere v, fun _ => trivial⟩
  | succ k ih =>
      intro f ends hends
      constructor
      · intro h v hv
        obtain ⟨children, hgrow, hbelow⟩ := h
        rw [clear_succ]
        refine ⟨(exists_grow_iff hends).1 ⟨children, hgrow⟩ v hv, fun a ha _ => ?_⟩
        -- the arrival is among the ends of the child over its hop
        have hmem : a.node ∈ endsOver g m a.hop ends := mem_endsOver.2 ⟨v, hv, ha⟩
        obtain ⟨nodes, hnodes⟩ := exists_tallies (endsOver g m a.hop ends)
        have hchild : ⟨f.path.extend a.hop.edge a.hop.node, nodes⟩ ∈ children :=
          (mem_children_iff hgrow hends).2 ⟨a.hop, List.ne_nil_of_mem hmem, rfl, hnodes⟩
        exact (ih hnodes).1 (hbelow _ hchild) a.node hmem
      · intro h
        obtain ⟨children, hgrow⟩ :=
          (exists_grow_iff (g := g) (m := m) hends).2 fun v hv => (clear_succ.1 (h v hv)).1
        refine ⟨children, hgrow, fun child hchild => ?_⟩
        obtain ⟨hop, -, -, hnodes⟩ := (mem_children_iff hgrow hends).1 hchild
        refine (ih hnodes).2 fun w hw => ?_
        obtain ⟨v, hv, ha⟩ := mem_endsOver.1 hw
        exact (clear_succ.1 (h v hv)).2 ⟨hop, w⟩ ha rfl

/-- The worker for a label comes to its end when the way is clear from all nodes that have it. -/
theorem censusWorker_halt_eq_none {label : LabelIndex} {nodes : NodeCounts}
    (hnodes : Tallies nodes (labelledNodes g m label)) :
    (censusWorker g m length label nodes).halt = none ↔
      ∀ v ∈ labelledNodes g m label, Clear g m nowhere length.hops v := by
  unfold censusWorker
  rw [sweep_halt_eq_none]
  simp only [List.mem_singleton, forall_eq]
  exact grown_iff length.hops hnodes

/-! ## §2. All workers. -/

theorem exists_nodesByLabel_iff :
    (∃ groups, nodesByLabel g m = .ok groups) ↔ Labelled g m g.nodeIds :=
  exists_foldlM_iff g.nodeIds

/-- **A census comes to its end** just when all nodes have labels and the way is clear from
each of them. -/
theorem exists_census_iff :
    (∃ table, census g m length = .ok table) ↔
      Labelled g m g.nodeIds ∧ ∀ v ∈ g.nodeIds, Clear g m nowhere length.hops v := by
  constructor
  · intro h
    obtain ⟨table, htable⟩ := h
    obtain ⟨groups, hgroups, hhalts, -⟩ := census_eq_ok htable
    have hlabelled := exists_nodesByLabel_iff.1 ⟨groups, hgroups⟩
    refine ⟨hlabelled, fun v hv => ?_⟩
    -- the worker for the label of the node went all the way
    obtain ⟨label, hlabel⟩ := hlabelled v hv
    have hmem : v ∈ labelledNodes g m label := mem_labelledNodes.2 ⟨hv, hlabel⟩
    obtain ⟨nodes, hnodes⟩ := exists_tallies (labelledNodes g m label)
    have hgroup := (mem_nodesByLabel hgroups).2 ⟨List.ne_nil_of_mem hmem, hnodes⟩
    have hhalt := hhalts (label, censusWorker g m length label nodes)
      (List.mem_map.2 ⟨_, hgroup, rfl⟩)
    exact (censusWorker_halt_eq_none hnodes).1 hhalt v hmem
  · intro h
    obtain ⟨hlabelled, hclear⟩ := h
    obtain ⟨groups, hgroups⟩ := exists_nodesByLabel_iff.2 hlabelled
    have hfault : firstFault .nodeLabel (censusWorkers g m length groups) = none := by
      rw [firstFault_eq_none_iff]
      intro w hw
      obtain ⟨⟨label, nodes⟩, hgroup, rfl⟩ := List.mem_map.1 hw
      obtain ⟨-, hnodes⟩ := (mem_nodesByLabel hgroups).1 hgroup
      refine (censusWorker_halt_eq_none hnodes).2 fun v hv => ?_
      exact hclear v (mem_labelledNodes.1 hv).1
    exact ⟨_, by rw [census_of_groups hgroups, hfault]⟩

/-! ## §3. Writing. -/

/-- Each path that is counted has a text. -/
theorem Counted.registered {p : MetaPath} (h : Counted g m length p) :
    Registered m .node p.tokens := by
  obtain ⟨-, v, -, as, hwalk, htrace⟩ := h
  obtain ⟨label, hlabel, htokens⟩ := traceOf_eq_some_iff.1 htrace
  rw [htokens]
  exact ⟨Mapping.exists_nodeLabel_of_indexOfNode hlabel, hwalk.registered⟩

/-- All lines of a census can be made. -/
theorem exists_lines_of_census {table : Census} (h : census g m length = .ok table) :
    ∃ lines, Census.lines m table = .ok lines := by
  unfold Census.lines
  simp only [mapM_eq_ok_iff]
  have hrows : ∀ row ∈ table.toList, ∃ line, PathCount.line m row = .ok line := by
    intro row hrow
    have hget := Std.ExtTreeMap.mem_toList_iff_getElem?_eq_some.1 hrow
    obtain ⟨text, htext⟩ := exists_renderTokens_iff.2 ((getElem?_census h).1 hget).1.registered
    unfold PathCount.line
    rw [show row.1.render m = .ok text from htext]
    exact ⟨_, rfl⟩
  obtain ⟨rows, hlooked⟩ := (exists_lookedUp_iff _).2 hrows
  exact ⟨_, rows, hlooked, rfl⟩

/-- **With a sink that takes everything** only the census itself can fail. -/
theorem exists_writeCensus_iff {sink : Sink} (hsink : sink.Accepting) :
    (∃ table, (writeCensus g m length sink).2 = .ok table) ↔
      Labelled g m g.nodeIds ∧ ∀ v ∈ g.nodeIds, Clear g m nowhere length.hops v := by
  rw [← exists_census_iff]
  constructor
  · intro h
    obtain ⟨table, htable⟩ := h
    exact ⟨table, writeCensus_eq_ok htable⟩
  · intro h
    obtain ⟨table, htable⟩ := h
    obtain ⟨lines, hlines⟩ := exists_lines_of_census htable
    obtain ⟨sink', hwrite, hsink'⟩ := hsink.writeAll lines
    refine ⟨table, ?_⟩
    unfold writeCensus
    simp only [bind, Except.bind, htable, hlines, pure, Except.pure, hwrite, hsink'.flush_eq]

end LabelWalks
