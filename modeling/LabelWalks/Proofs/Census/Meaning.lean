/-
  LabelWalks.Proofs.Census.Meaning
  ────────────────────────────────
  **A CENSUS COUNTS WALKS.**

  The workers of a census start from the nodes of one label each, so a path comes
  from the worker of its first label alone, and what a worker counts for it is
  the number of its walks.  A table that is written over and over is the same
  table, since the count of a path is a function of the path.

    • `mem_nodesByLabel` — who starts where,
    • `mem_censusWorker` — the rows of one worker,
    • `mem_writeCensus_iff` — the table.
-/
import LabelWalks.Proofs.Census.Sweep

namespace LabelWalks

variable {g : GraphView} {m : Mapping}

/-! ## §1. The nodes of one label. -/

/-- The nodes with a label, each once. -/
def labelledNodes (g : GraphView) (m : Mapping) (label : LabelIndex) : List NodeId :=
  g.nodeIds.eraseDups.filter fun v => (m.indexOfNode g v).toOption = some label

theorem mem_labelledNodes {label : LabelIndex} {v : NodeId} :
    v ∈ labelledNodes g m label ↔ v ∈ g.nodeIds ∧ m.indexOfNode g v = .ok label := by
  unfold labelledNodes
  rw [List.mem_filter, List.mem_eraseDups, decide_eq_true_eq, toOption_eq_some_iff]

theorem nodup_labelledNodes (label : LabelIndex) : (labelledNodes g m label).Nodup :=
  (nodup_eraseDups g.nodeIds).filter _

/-- **The first frontiers** tally the nodes of one label. -/
theorem mem_nodesByLabel {groups : Std.ExtTreeMap LabelIndex NodeCounts}
    (h : nodesByLabel g m = .ok groups) {label : LabelIndex} {nodes : NodeCounts} :
    (label, nodes) ∈ groups.toList ↔
      labelledNodes g m label ≠ [] ∧ Tallies nodes (labelledNodes g m label) := by
  have hfold : nodesByLabel g m = .ok groups ↔ ∃ rows, LookedUp (m.indexOfNode g) g.nodeIds rows
      ∧ groups = gather Prod.snd ∅ (fun (c : NodeCounts) row => c.insert row.1 1) ∅ rows :=
    foldlM_eq_ok_iff g.nodeIds
  obtain ⟨rows, hrows, rfl⟩ := hfold.1 h
  have hmem : ∀ v, v ∈ labelledNodes g m label ↔ ∃ row ∈ under Prod.snd label rows, row.1 = v := by
    intro v
    rw [mem_labelledNodes, ← hrows.mem_iff]
    constructor
    · intro hrow
      exact ⟨_, mem_under.2 ⟨hrow, rfl⟩, rfl⟩
    · intro hsome
      obtain ⟨row, hunder, rfl⟩ := hsome
      obtain ⟨hrow, rfl⟩ := mem_under.1 hunder
      exact hrow
  have hcounts : Tallies ((under Prod.snd label rows).foldl
      (fun (c : NodeCounts) row => c.insert row.1 1) ∅) (labelledNodes g m label) :=
    tallies_foldl_one Prod.fst (nodup_labelledNodes label) hmem
  rw [Std.ExtTreeMap.mem_toList_iff_getElem?_eq_some, getElem?_gather_empty_eq_some_iff]
  refine and_congr ?_ ?_
  · constructor
    · intro hsome
      obtain ⟨row, hrow, hlabel⟩ := hsome
      exact List.ne_nil_of_mem ((hmem row.1).2 ⟨row, mem_under.2 ⟨hrow, hlabel⟩, rfl⟩)
    · intro hne
      obtain ⟨v, hv⟩ := List.exists_mem_of_ne_nil _ hne
      obtain ⟨row, hrow, -⟩ := (hmem v).1 hv
      exact ⟨row, mem_under.1 hrow⟩
  · constructor
    · intro hnodes
      rw [hnodes]
      exact hcounts
    · intro hnodes
      refine Std.ExtTreeMap.ext_getElem? fun v => ?_
      rw [hnodes v, hcounts v]

/-! ## §2. Walks with a label sequence. -/

theorem hopTokens_eq_flatMap (as : List Arrival) :
    hopTokens as = (as.map Arrival.hop).flatMap Hop.tokens := by
  unfold hopTokens
  rw [List.flatMap_map]

/-- Sequences of hops are told apart by their tokens. -/
theorem flatMap_tokens_inj : ∀ {hops hops' : List Hop},
    hops.flatMap Hop.tokens = hops'.flatMap Hop.tokens → hops = hops'
  | [], [], _ => rfl
  | [], _ :: _, h => by cases h
  | _ :: _, [], h => by cases h
  | hop :: hops, hop' :: hops', h => by
      obtain ⟨edge, node⟩ := hop
      obtain ⟨edge', node'⟩ := hop'
      simp only [List.flatMap_cons, Hop.tokens, List.cons_append, List.nil_append,
        List.cons.injEq] at h
      obtain ⟨hedge, hnode, hrest⟩ := h
      rw [hedge, hnode, flatMap_tokens_inj hrest]

theorem length_flatMap_tokens (hops : List Hop) :
    (hops.flatMap Hop.tokens).length = 2 * hops.length := by
  induction hops with
  | nil => rfl
  | cons hop hops ih =>
      rw [List.flatMap_cons, List.length_append, ih, List.length_cons, Hop.length_tokens]
      omega

/-- A walk has the label sequence when it starts at the label and crosses the hops. -/
theorem traceOf_eq_cons_iff {v : NodeId} {as : List Arrival} {label : LabelIndex}
    {hops : List Hop} :
    traceOf g m v as = some (label :: hops.flatMap Hop.tokens) ↔
      m.indexOfNode g v = .ok label ∧ as.map Arrival.hop = hops := by
  rw [traceOf_eq_some_iff]
  constructor
  · intro h
    obtain ⟨label', hlabel, htokens⟩ := h
    injection htokens with hhead htail
    rw [hopTokens_eq_flatMap] at htail
    exact ⟨hhead ▸ hlabel, (flatMap_tokens_inj htail).symm⟩
  · intro h
    obtain ⟨hlabel, hhops⟩ := h
    exact ⟨label, hlabel, by rw [hopTokens_eq_flatMap, hhops]⟩

/-- **The number of walks of a path** is the number of ends of its sequence of hops. -/
theorem walkCount_eq_length {p : MetaPath} {label : LabelIndex} {hops : List Hop}
    (h : p.tokens = label :: hops.flatMap Hop.tokens) :
    walkCount g m p = (endsAlong g m hops (labelledNodes g m label)).length := by
  have hlen : p.hops = hops.length := by
    unfold MetaPath.hops
    rw [h, List.length_cons, length_flatMap_tokens]
    omega
  unfold walkCount labelledNodes
  rw [length_endsAlong, hlen, h]
  -- a node adds the same to both sums when it has the label, and nothing to either otherwise
  induction g.nodeIds.eraseDups with
  | nil => rfl
  | cons v nodes ih =>
      rw [List.map_cons, List.sum_cons, ih]
      by_cases hv : m.indexOfNode g v = .ok label
      · have hkeep : (v :: nodes).filter (fun v => (m.indexOfNode g v).toOption = some label) =
            v :: nodes.filter fun v => (m.indexOfNode g v).toOption = some label :=
          List.filter_cons_of_pos (by rw [decide_eq_true_eq, toOption_eq_some_iff]; exact hv)
        rw [hkeep, List.map_cons, List.sum_cons]
        refine congrArg (· + _) (List.countP_congr fun as _ => ?_)
        rw [decide_eq_true_eq, decide_eq_true_eq, traceOf_eq_cons_iff]
        exact and_iff_right hv
      · have hdrop : (v :: nodes).filter (fun v => (m.indexOfNode g v).toOption = some label) =
            nodes.filter fun v => (m.indexOfNode g v).toOption = some label :=
          List.filter_cons_of_neg (by rw [decide_eq_true_eq, toOption_eq_some_iff]; exact hv)
        have hnone : (walksFrom g m hops.length v).countP (fun as =>
            decide (traceOf g m v as = some (label :: hops.flatMap Hop.tokens))) = 0 := by
          rw [List.countP_eq_zero]
          intro as _ htrace
          rw [decide_eq_true_eq, traceOf_eq_cons_iff] at htrace
          exact hv htrace.1
        rw [hdrop, hnone, Nat.zero_add]

/-! ## §3. The workers. -/

/-- The path is the label sequence of a walk within the length. -/
def Counted (g : GraphView) (m : Mapping) (length : PathLength) (p : MetaPath) : Prop :=
  p.tokens.length ≤ 2 * length.nodes - 1
    ∧ ∃ v ∈ g.nodeIds, ∃ as, IsWalk g m v as ∧ traceOf g m v as = some p.tokens

/-- **The rows of one worker**: the paths of its label, each with the number of its walks. -/
theorem mem_censusWorker {length : PathLength} {label : LabelIndex} {nodes : NodeCounts}
    (hne : labelledNodes g m label ≠ []) (hnodes : Tallies nodes (labelledNodes g m label))
    (h : (censusWorker g m length label nodes).halt = none) {row : PathCount} :
    row ∈ (censusWorker g m length label nodes).items ↔
      Counted g m length row.1 ∧ row.1.tokens.head? = some label
        ∧ row.2 = min (walkCount g m row.1) maxCount := by
  have hpos := length.pos
  have hlength : length.hops = length.nodes - 1 := rfl
  obtain ⟨hgrown, hrows⟩ := mem_sweep length.hops h
  have hroot : row ∈ (censusWorker g m length label nodes).items ↔
      Reports g m length.hops ⟨.single label, nodes⟩ row := by
    refine (hrows row).trans ?_
    simp only [List.mem_singleton, exists_eq_left]
  rw [hroot, reports_iff length.hops (hgrown _ (List.mem_singleton.2 rfl)) hnodes hne]
  show (∃ hops : List Hop, hops.length ≤ length.hops
    ∧ endsAlong g m hops (labelledNodes g m label) ≠ []
    ∧ row.1.tokens = label :: hops.flatMap Hop.tokens ∧ _) ↔ _
  constructor
  · -- a sequence of hops that has ends is crossed by a walk
    intro hrow
    obtain ⟨hops, hlen, hends, htokens, hcount⟩ := hrow
    rw [← walkCount_eq_length htokens] at hcount
    obtain ⟨w, hw⟩ := List.exists_mem_of_ne_nil _ hends
    obtain ⟨v, hv, as, hwalk, hhops, -⟩ := (mem_endsAlong hops).1 hw
    obtain ⟨hnode, hlabel⟩ := mem_labelledNodes.1 hv
    refine ⟨⟨?_, v, hnode, as, hwalk, ?_⟩, ?_, hcount⟩
    · rw [htokens, List.length_cons, length_flatMap_tokens]
      omega
    · rw [htokens]
      exact traceOf_eq_cons_iff.2 ⟨hlabel, hhops⟩
    · rw [htokens]
      rfl
  · -- the hops of a walk are a sequence that has ends
    intro hrow
    obtain ⟨⟨hlen, v, hnode, as, hwalk, htrace⟩, hhead, hcount⟩ := hrow
    obtain ⟨label', hlabel, htokens⟩ := traceOf_eq_some_iff.1 htrace
    rw [hopTokens_eq_flatMap] at htokens
    have hsame : label' = label := by
      rw [htokens] at hhead
      injection hhead
    subst hsame
    refine ⟨as.map Arrival.hop, ?_, ?_, htokens, ?_⟩
    · rw [htokens, List.length_cons, length_flatMap_tokens] at hlen
      omega
    · have hend := (mem_endsAlong (as.map Arrival.hop)).2
        ⟨v, mem_labelledNodes.2 ⟨hnode, hlabel⟩, as, hwalk, rfl, rfl⟩
      exact List.ne_nil_of_mem hend
    · rw [← walkCount_eq_length htokens]
      exact hcount

/-! ## §4. The table. -/

/-- The rows of all workers of a census. -/
def censusRows (g : GraphView) (m : Mapping) (length : PathLength)
    (groups : Std.ExtTreeMap LabelIndex NodeCounts) : List PathCount :=
  (censusWorkers g m length groups).flatMap fun w => w.2.items

theorem firstFault_eq_none_iff {α : Type} {unit : LabelIndex → WorkUnit}
    {workers : List (LabelIndex × Trail α)} :
    firstFault unit workers = none ↔ ∀ w ∈ workers, w.2.halt = none := by
  unfold firstFault
  rw [List.findSome?_eq_none_iff]
  simp only [Option.map_eq_none_iff]

theorem tableOf_censusWorkers (length : PathLength)
    (groups : Std.ExtTreeMap LabelIndex NodeCounts) :
    tableOf (censusWorkers g m length groups) = (censusRows g m length groups).foldl
      (fun table row => table.insert row.1 row.2) ∅ := by
  unfold tableOf censusRows
  rw [List.foldl_flatMap]

/-- A census whose nodes all have labels: the first fault of a worker, or all rows. -/
theorem census_of_groups {length : PathLength} {groups : Std.ExtTreeMap LabelIndex NodeCounts}
    (hgroups : nodesByLabel g m = .ok groups) :
    census g m length = match firstFault .nodeLabel (censusWorkers g m length groups) with
      | some fault => .error fault
      | none => .ok (tableOf (censusWorkers g m length groups)) := by
  unfold census
  rw [hgroups]
  rfl

/-- A census that comes to its end has the rows of all its workers. -/
theorem census_eq_ok {length : PathLength} {table : Census} (h : census g m length = .ok table) :
    ∃ groups, nodesByLabel g m = .ok groups
      ∧ (∀ w ∈ censusWorkers g m length groups, w.2.halt = none)
      ∧ table = (censusRows g m length groups).foldl
          (fun table row => table.insert row.1 row.2) ∅ := by
  obtain ⟨groups, hgroups, -⟩ := bind_eq_ok_iff.1 h
  rw [census_of_groups hgroups] at h
  refine ⟨groups, hgroups, ?_⟩
  cases hfault : firstFault .nodeLabel (censusWorkers g m length groups) with
  | some fault =>
      rw [hfault] at h
      cases h
  | none =>
      rw [hfault] at h
      injection h with h
      rw [← h, tableOf_censusWorkers]
      exact ⟨firstFault_eq_none_iff.1 hfault, rfl⟩

/-- **All rows of a census** have the number of their walks. -/
theorem mem_censusRows {length : PathLength} {groups : Std.ExtTreeMap LabelIndex NodeCounts}
    (hgroups : nodesByLabel g m = .ok groups)
    (hhalts : ∀ w ∈ censusWorkers g m length groups, w.2.halt = none) {row : PathCount} :
    row ∈ censusRows g m length groups ↔
      Counted g m length row.1 ∧ row.2 = min (walkCount g m row.1) maxCount := by
  unfold censusRows
  unfold censusWorkers at hhalts ⊢
  simp only [List.mem_flatMap, List.mem_map, Prod.exists]
  constructor
  · intro hrow
    obtain ⟨label, trail, ⟨label', nodes, hgroup, hworker⟩, hrow⟩ := hrow
    obtain ⟨hne, hnodes⟩ := (mem_nodesByLabel hgroups).1 hgroup
    have hhalt := hhalts _ (List.mem_map.2 ⟨_, hgroup, rfl⟩)
    injection hworker with hlabel htrail
    rw [← htrail] at hrow
    obtain ⟨hcounted, -, hcount⟩ := (mem_censusWorker hne hnodes hhalt).1 hrow
    exact ⟨hcounted, hcount⟩
  · intro hrow
    obtain ⟨hcounted, hcount⟩ := hrow
    -- the path is counted by the worker of its first label
    obtain ⟨-, v, hnode, as, -, htrace⟩ := id hcounted
    obtain ⟨label, hlabel, htokens⟩ := traceOf_eq_some_iff.1 htrace
    have hne : labelledNodes g m label ≠ [] :=
      List.ne_nil_of_mem (mem_labelledNodes.2 ⟨hnode, hlabel⟩)
    obtain ⟨nodes, hnodes⟩ := exists_tallies (labelledNodes g m label)
    have hgroup := (mem_nodesByLabel hgroups).2 ⟨hne, hnodes⟩
    have hhalt := hhalts _ (List.mem_map.2 ⟨_, hgroup, rfl⟩)
    refine ⟨label, _, ⟨label, nodes, hgroup, rfl⟩, ?_⟩
    refine (mem_censusWorker hne hnodes hhalt).2 ⟨hcounted, ?_, hcount⟩
    rw [htokens]
    rfl

/-- **The table of a census**: each path that is counted has the number of its walks. -/
theorem getElem?_census {length : PathLength} {table : Census} (h : census g m length = .ok table)
    {p : MetaPath} {n : Nat} :
    table[p]? = some n ↔ Counted g m length p ∧ n = min (walkCount g m p) maxCount := by
  obtain ⟨groups, hgroups, hhalts, htable⟩ := census_eq_ok h
  have hvalue : ∀ row ∈ censusRows g m length groups,
      row.2 = min (walkCount g m row.1) maxCount := fun row hrow =>
    ((mem_censusRows hgroups hhalts).1 hrow).2
  -- a path that comes again comes with the same count
  rw [htable, getElem?_foldl_insert_empty _ _ (fun p => min (walkCount g m p) maxCount) hvalue]
  refine and_congr_left fun _ => ?_
  constructor
  · intro hsome
    obtain ⟨row, hrow, hkey⟩ := hsome
    rw [← hkey]
    exact ((mem_censusRows hgroups hhalts).1 hrow).1
  · intro hcounted
    exact ⟨(p, min (walkCount g m p) maxCount),
      (mem_censusRows hgroups hhalts).2 ⟨hcounted, rfl⟩, rfl⟩

theorem writeCensus_eq_ok {length : PathLength} {sink : Sink} {table : Census}
    (h : (writeCensus g m length sink).2 = .ok table) : census g m length = .ok table := by
  unfold writeCensus at h
  cases hcensus : census g m length with
  | error fault =>
      rw [hcensus] at h
      cases h
  | ok table' =>
      rw [hcensus] at h
      cases hlines : Census.lines m table' with
      | error fault =>
          simp only [bind, Except.bind, hlines] at h
          cases h
      | ok lines =>
          simp only [bind, Except.bind, hlines, pure, Except.pure] at h
          rcases hwrite : sink.writeAll lines with ⟨sink', refusal⟩
          rw [hwrite] at h
          cases refusal with
          | some problem => cases h
          | none =>
              rcases hflush : sink'.flush with ⟨sink'', refusal⟩
              simp only [hflush] at h
              cases refusal with
              | some problem => cases h
              | none => exact h

/-- **A census counts walks.**  Its table has just the paths of walks within the length
that start at a node of the graph, and the count of a path is the number of its walks,
parallel edges counted separately, or the greatest count when there are more. -/
theorem mem_writeCensus_iff {g : GraphView} {m : Mapping} {length : PathLength} {sink : Sink}
    {table : Census} (h : (writeCensus g m length sink).2 = .ok table) (p : MetaPath) :
    (p ∈ table ↔ p.tokens.length ≤ 2 * length.nodes - 1
        ∧ ∃ v ∈ g.nodeIds, ∃ as, IsWalk g m v as ∧ traceOf g m v as = some p.tokens)
      ∧ ∀ n, table[p]? = some n → n = min (walkCount g m p) 18446744073709551615 := by
  have hget : ∀ n, table[p]? = some n ↔
      Counted g m length p ∧ n = min (walkCount g m p) maxCount := fun n =>
    getElem?_census (writeCensus_eq_ok h)
  refine ⟨?_, fun n hn => ((hget n).1 hn).2⟩
  rw [Std.ExtTreeMap.mem_iff_isSome_getElem?, Option.isSome_iff_exists]
  simp only [hget, exists_and_left, exists_eq, and_true]
  exact Iff.rfl

/-- From node 1 to node 2 there is a walk over each of two edges. -/
theorem mem_writeCensus_iff_twins :
    ∃ table, (writeCensus twins.view twinLabels ⟨2, by decide, by decide⟩ .unlimited).2 = .ok table
      ∧ ∀ n, table[(⟨[0, 0, 1], rfl⟩ : MetaPath)]? = some n → n = 2 := by
  have hok : (writeCensus twins.view twinLabels ⟨2, by decide, by decide⟩
      .unlimited).2.toOption.isSome = true := by decide +kernel
  obtain ⟨table, htable⟩ := Option.isSome_iff_exists.1 hok
  have htable := toOption_eq_some_iff.1 htable
  have hcount : min (walkCount twins.view twinLabels ⟨[0, 0, 1], rfl⟩)
      18446744073709551615 = 2 := by decide +kernel
  refine ⟨table, htable, fun n hn => ?_⟩
  rw [(mem_writeCensus_iff htable ⟨[0, 0, 1], rfl⟩).2 n hn, hcount]

end LabelWalks
